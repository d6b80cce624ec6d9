import HtmlTemplate.Proofs.Heads

/-! Calls as they are written: what is called, the parameters and the pairs `name=value`, one
after the other, with other calls in parentheses among them. The calls of a template stand for
such tokens. -/

namespace HtmlTemplate

open Mustache (Sorted)

def Mustache.Expression.isLiteral : Mustache.Expression → Bool
  | literal .. => true
  | _ => false

namespace Tree

def Expression.isLiteral : Expression → Bool
  | literal .. => true
  | _ => false

mutual

/-- An expression and the tokens that it stands for. What is called in parentheses is never a
literal. -/
inductive Expression.Written (src : Source) : List Mustache.Token → Expression → Prop
  | path {run : List Mustache.Token} {w : Mustache.Writing} {q : Path} :
      Mustache.WrittenWith run w → q.written = w.text → q.span = src.spanFor w.loc →
      Expression.Written src run (.path q)
  | literal {t : Mustache.Token} {l : Literal} :
      t.symbol = .literal l → Expression.Written src [t] (.literal l (src.spanFor t.loc))
  | call {opener closer : Mustache.Token} {run : List Mustache.Token} {c : Call Expression} :
      opener.symbol = .openCall → closer.symbol = .closeCall → Call.Written src run c →
      c.callee.isLiteral = false →
      Expression.Written src (opener :: run ++ [closer])
        (.call c (src.spanFor ⟨opener.loc.start, closer.loc.stop⟩))

/-- A call and the tokens that it stands for. Without pairs the hash is empty and stands where the
last parameter ends, or what is called; with pairs it goes from the first to the last of them. -/
inductive Call.Written (src : Source) : List Mustache.Token → Call Expression → Prop
  | bare {run more : List Mustache.Token} {callee : Expression} {params : List Expression} :
      Expression.Written src run callee → expressionsWritten src more params →
      Call.Written src (run ++ more)
        ⟨callee, params, .empty (params.getLast?.getD callee).span.stop⟩
  | paired {run more rest : List Mustache.Token} {callee : Expression} {params : List Expression}
      {pairs : List (Pair Expression)} {first last : Pair Expression} :
      Expression.Written src run callee → expressionsWritten src more params →
      pairsWritten src rest pairs → pairs.head? = some first → pairs.getLast? = some last →
      Call.Written src (run ++ (more ++ rest))
        ⟨callee, params, ⟨pairs, ⟨first.span.start, last.span.stop⟩⟩⟩

inductive expressionsWritten (src : Source) : List Mustache.Token → List Expression → Prop
  | nil : expressionsWritten src [] []
  | cons {run more : List Mustache.Token} {e : Expression} {es : List Expression} :
      Expression.Written src run e → expressionsWritten src more es →
      expressionsWritten src (run ++ more) (e :: es)

/-- Pairs in the order in which they are written, equal keys included. -/
inductive pairsWritten (src : Source) : List Mustache.Token → List (Pair Expression) → Prop
  | nil : pairsWritten src [] []
  | cons {key eq : Mustache.Token} {run more : List Mustache.Token} {name : List Char}
      {bracketed : Bool} {value : Expression} {pairs : List (Pair Expression)} :
      key.symbol = .name name bracketed → eq.symbol = .equals → Expression.Written src run value →
      pairsWritten src more pairs →
      pairsWritten src (key :: eq :: run ++ more)
        (⟨name, value, ⟨src.offsetFor key.loc.start, value.span.stop⟩⟩ :: pairs)

end

variable {src : Source}

theorem expression_span {e : Mustache.Expression} {e' : Expression}
    (h : expression src e = .ok e') : e'.span = src.spanFor e.loc := by
  cases e with
  | path p =>
    simp only [expression, map_eq_ok] at h
    obtain ⟨q, hq, rfl⟩ := h
    unfold Path.resolve at hq
    dsimp only at hq
    split at hq
    · cases hq
      rfl
    · simp [fault] at hq
  | literal l loc =>
    cases h
    rfl
  | call c loc =>
    simp only [expression, map_eq_ok] at h
    obtain ⟨c', -, rfl⟩ := h
    rfl

theorem call_ok {c : Mustache.Call Mustache.Expression} {c' : Call Expression}
    (h : call src c = .ok c') :
    partialName src c = .ok c' ∧ c'.callee.isLiteral = false := by
  have hcallable {e : Expression} {u : Unit} (hu : callable src e = .ok u) :
      e.isLiteral = false := by
    cases e with
    | literal l span => simp [callable, fault] at hu
    | path _ => rfl
    | call _ _ => rfl
  obtain ⟨callee, params, _ | ⟨pairs, loc⟩⟩ := c
  · simp only [call, bind_eq_ok, pure_eq_ok] at h
    obtain ⟨callee', hcallee, u, hu, params', hparams, rfl⟩ := h
    refine ⟨?_, hcallable hu⟩
    simp only [partialName, hcallee, hparams, bind, Except.bind]
    rfl
  · simp only [call, bind_eq_ok, pure_eq_ok] at h
    obtain ⟨callee', hcallee, u, hu, params', hparams, pairs', hpairs, rfl⟩ := h
    refine ⟨?_, hcallable hu⟩
    simp only [partialName, hcallee, hparams, hpairs, bind, Except.bind]
    rfl

private theorem hashPairs_reads {lo hi : Position} (hlo : 1 ≤ lo.line)
    {ps : List (Mustache.Pair Mustache.Expression)} {ps' : List (Pair Expression)}
    (hwithin : Mustache.pairsWithin lo hi ps) (h : hashPairs src ps = .ok ps') :
    List.Forall₂ (Draft.PairReads src) ps ps' := by
  induction ps generalizing lo ps' with
  | nil =>
    cases h
    exact .nil
  | cons p ps ih =>
    obtain ⟨key, value, loc⟩ := p
    obtain ⟨hloc, -, hps⟩ := hwithin
    simp only [hashPairs, bind_eq_ok, pure_eq_ok] at h
    obtain ⟨value', hvalue, ps', hps', rfl⟩ := h
    have hspan := (spanFor_within src hlo hloc).2
    exact .cons ⟨rfl, hvalue, rfl, by rw [hspan], by rw [hspan]⟩
      (ih (Position.one_le_line_of_le (le_trans hloc.1 hloc.2.1) hlo) hps hps')

theorem hash_written {lo hi : Position} (hlo : 1 ≤ lo.line)
    {pairs : List (Mustache.Pair Mustache.Expression)}
    {first last : Mustache.Pair Mustache.Expression}
    {pairs' : List (Pair Expression)} (hwithin : Mustache.pairsWithin lo hi pairs)
    (hfirst : pairs.head? = some first) (hlast : pairs.getLast? = some last)
    (h : hashPairs src pairs = .ok pairs') :
    ∃ first' last', pairs'.head? = some first' ∧ pairs'.getLast? = some last'
      ∧ src.spanFor ⟨first.loc.start, last.loc.stop⟩ = ⟨first'.span.start, last'.span.stop⟩ := by
  obtain ⟨hstart, hle, -, -⟩ := hwithin.tight hfirst hlast
  have hreads := hashPairs_reads hlo hwithin h
  cases pairs with
  | nil => cases hfirst
  | cons pair pairs =>
    cases hfirst
    obtain ⟨first', pairs', hfirst', -, rfl⟩ := List.forall₂_cons_left_iff.mp hreads
    obtain ⟨last₁, last', hlast₁, hlast', hreads'⟩ := Draft.last_reads hreads
    obtain rfl : last₁ = last := Option.some.inj (hlast₁.symm.trans hlast)
    refine ⟨first', last', rfl, hlast', ?_⟩
    rw [← hfirst'.start, ← hreads'.stop]
    exact src.spanFor_eq (Position.one_le_line_of_le hstart hlo) hle

mutual

theorem expression_written {lo : Position} {ts rest : List Mustache.Token}
    {m : Mustache.Expression} {e : Expression} :
    Mustache.Expression.Read ts m rest → Sorted lo ts → 1 ≤ lo.line → expression src m = .ok e →
      ∃ run, ts = run ++ rest ∧ Expression.Written src run e
  | .call hopening hcall hclosing, hts, hlo, he => by
    have hline := Position.one_le_line_of_le (le_trans hts.1 hts.2.1.1) hlo
    simp only [expression, map_eq_ok] at he
    obtain ⟨c', hc', rfl⟩ := he
    obtain ⟨hc', hcallee⟩ := call_ok hc'
    obtain ⟨run, rfl, hwritten⟩ := call_written hcall hts.2.2 hline hc'
    exact ⟨_ :: run ++ [_], by simp, .call hopening hclosing hwritten hcallee⟩
  | .name hsymbol hpath, _, _, he => by
    obtain ⟨p, run, w, rfl, hrun, hwritten, hread⟩ := Mustache.namePath_writes hsymbol hpath
    rw [expression, map_eq_ok] at he
    obtain ⟨q, hq, rfl⟩ := he
    obtain ⟨-, -, hspan, htext⟩ := Path.resolve_takes hread hq
    exact ⟨run, hrun, .path hwritten htext hspan⟩
  | .data hsymbol hpath, _, _, he => by
    obtain ⟨p, rfl, hfrom⟩ := Mustache.pathFrom_writes hsymbol hpath
    rw [expression, map_eq_ok] at he
    obtain ⟨q, hq, rfl⟩ := he
    rcases hfrom with ⟨run, w, hrun, hwritten, hread⟩ | ⟨hwritten, hparts⟩
    · obtain ⟨-, -, hspan, htext⟩ := Path.resolve_takes hread hq
      exact ⟨run, hrun, .path hwritten htext hspan⟩
    · exact absurd hq (Path.resolve_sigil hwritten hparts)
  | .literal hsymbol, _, _, he => by
    cases he
    exact ⟨[_], rfl, .literal hsymbol⟩

theorem call_written {lo : Position} {ts rest : List Mustache.Token}
    {m : Mustache.Call Mustache.Expression} {c : Call Expression} :
    Mustache.Call.Read ts m rest → Sorted lo ts → 1 ≤ lo.line → partialName src m = .ok c →
      ∃ run, ts = run ++ rest ∧ Call.Written src run c
  | @Mustache.Call.Read.intro _ _ _ _ _ _ pairs hcallee hparams hpairs, hts, hlo, hc => by
    obtain ⟨mid₁, hleaves₁, -⟩ := hcallee.within hts
    obtain ⟨mid₂, hleaves₂, -⟩ := hparams.within hleaves₁.sorted
    obtain ⟨hi, -, hwithin⟩ := hpairs.within hleaves₂.sorted
    have hline₁ := Position.one_le_line_of_le hleaves₁.le hlo
    have hline₂ := Position.one_le_line_of_le hleaves₂.le hline₁
    simp only [partialName, bind_eq_ok] at hc
    obtain ⟨callee', hcallee', params', hparams', hc⟩ := hc
    obtain ⟨run₁, rfl, hwritten₁⟩ := expression_written hcallee hts hlo hcallee'
    obtain ⟨run₂, rfl, hwritten₂⟩ := params_written hparams hleaves₁.sorted hline₁ hparams'
    have hrest {ps : List (Pair Expression)} (h : hashPairs src pairs = .ok ps) :=
      pairs_written hpairs hleaves₂.sorted hline₂ h
    cases hhash : Mustache.Hash.ofPairs? pairs with
    | none =>
      rw [hhash, pure_eq_ok] at hc
      subst hc
      obtain rfl := Mustache.Hash.ofPairs?_eq_none hhash
      obtain ⟨run₃, rfl, hwritten₃⟩ := hrest rfl
      obtain rfl : run₃ = [] := by cases hwritten₃; rfl
      exact ⟨run₁ ++ run₂, by simp, .bare hwritten₁ hwritten₂⟩
    | some hash =>
      rw [hhash] at hc
      simp only [bind_eq_ok, pure_eq_ok] at hc
      obtain ⟨pairs', hpairs', rfl⟩ := hc
      obtain ⟨first, last, hfirst, hlast, rfl⟩ := Mustache.Hash.ofPairs?_eq_some hhash
      obtain ⟨first', last', hfirst', hlast', hspan⟩ :=
        hash_written hline₂ hwithin hfirst hlast hpairs'
      obtain ⟨run₃, rfl, hwritten₃⟩ := hrest hpairs'
      refine ⟨run₁ ++ (run₂ ++ run₃), by simp, ?_⟩
      rw [hspan]
      exact .paired hwritten₁ hwritten₂ hwritten₃ hfirst' hlast'

theorem params_written {lo : Position} {ts rest : List Mustache.Token}
    {ms : List Mustache.Expression} {es : List Expression} :
    Mustache.paramsRead ts ms rest → Sorted lo ts → 1 ≤ lo.line → expressions src ms = .ok es →
      ∃ run, ts = run ++ rest ∧ expressionsWritten src run es
  | .nil _, _, _, hes => by
    cases hes
    exact ⟨[], rfl, .nil⟩
  | .cons _ he hmore, hts, hlo, hes => by
    obtain ⟨mid, hleaves, -⟩ := he.within hts
    simp only [expressions, bind_eq_ok, pure_eq_ok] at hes
    obtain ⟨e', he', es', hes', rfl⟩ := hes
    obtain ⟨run, rfl, hwritten⟩ := expression_written he hts hlo he'
    obtain ⟨run', rfl, hwritten'⟩ := params_written hmore hleaves.sorted
      (Position.one_le_line_of_le hleaves.le hlo) hes'
    exact ⟨run ++ run', (List.append_assoc ..).symm, .cons hwritten hwritten'⟩

theorem pairs_written {lo : Position} {ts rest : List Mustache.Token}
    {ms : List (Mustache.Pair Mustache.Expression)} {ps : List (Pair Expression)} :
    Mustache.pairsRead ts ms rest → Sorted lo ts → 1 ≤ lo.line → hashPairs src ms = .ok ps →
      ∃ run, ts = run ++ rest ∧ pairsWritten src run ps
  | .nil _, _, _, hps => by
    cases hps
    exact ⟨[], rfl, .nil⟩
  | @Mustache.pairsRead.cons key eq _ _ _ _ _ value _ hkey heq hvalue hpairs, hts, hlo, hps => by
    obtain ⟨hfirst, hmeasured, hequals⟩ := hts
    have hstart : key.loc.start ≤ eq.loc.stop :=
      le_trans hmeasured.1 (le_trans hequals.1 hequals.2.1.1)
    have hkeyLine := Position.one_le_line_of_le hfirst hlo
    have hline := Position.one_le_line_of_le hstart hkeyLine
    obtain ⟨mid, hleaves, hwithin⟩ := hvalue.within hequals.2.2
    simp only [hashPairs, bind_eq_ok, pure_eq_ok] at hps
    obtain ⟨value', hvalue', more', hmore', rfl⟩ := hps
    obtain ⟨run, rfl, hwritten⟩ := expression_written hvalue hequals.2.2 hline hvalue'
    obtain ⟨run', rfl, hwritten'⟩ := pairs_written hpairs hleaves.sorted
      (Position.one_le_line_of_le hleaves.le hline) hmore'
    have hspan : src.spanFor ⟨key.loc.start, value.loc.stop⟩
        = ⟨src.offsetFor key.loc.start, value'.span.stop⟩ := by
      have hloc := hwithin.loc
      rw [expression_span hvalue', (spanFor_within src hline hloc).2]
      exact src.spanFor_eq hkeyLine (le_trans hstart (le_trans hloc.1 hloc.2.1))
    refine ⟨key :: eq :: run ++ run', by simp, ?_⟩
    rw [hspan]
    exact .cons hkey heq hwritten hwritten'

end

end Tree

end HtmlTemplate
