import HtmlTemplate.Proofs.Errors
import HtmlTemplate.Proofs.Evaluation
import HtmlTemplate.Proofs.Linked
import HtmlTemplate.Proofs.Spelling

/-! Where errors of the mustaches are. The tokens stop where a character can be read, and the
readers stop where one of the tokens starts, so the position of an error is one of the text and is
found again from its offset. -/

namespace HtmlTemplate

theorem Source.Stands.valid {src : Source} {p : Position} {start : Nat} {rest : List Char}
    (h : src.Stands p start rest) : src.Valid p := by
  obtain ⟨before, htext, rfl, -⟩ := h
  exact Source.valid_iff.mpr ⟨before, ⟨rest, htext.symm⟩, rfl⟩

namespace Mustache

theorem scanAfter_valid {src : Source} {mode : Mode} {p : Position} {skip start : Nat}
    {cs : List Char} (hstands : src.Stands p start (cs.drop skip)) :
    FailsWith (fun e => src.Valid e.position) (scanAfter mode p skip cs)
      ∧ ∀ ts, scanAfter mode p skip cs = .ok ts → ∀ t ∈ ts, src.Valid t.loc.start := by
  induction cs generalizing mode p skip start with
  | nil =>
    cases mode with
    | text =>
      refine ⟨.ok _, ?_⟩
      rintro _ ⟨⟩ t ht
      rw [List.mem_singleton.mp ht]
      exact hstands.valid
    | tag raw =>
      refine ⟨?_, by rintro _ ⟨⟩⟩
      rintro _ ⟨⟩
      exact hstands.valid
  | cons c cs ih =>
    cases skip with
    | succ skip => exact ih hstands
    | zero =>
      rw [List.drop_zero] at hstands
      have hlead := hstands.drop (leadLength mode (c :: cs))
      simp only [scanAfter]
      split
      · refine ⟨?_, by rintro _ ⟨⟩⟩
        rintro _ ⟨⟩
        exact hlead.valid
      · rename_i l hl
        have hafter := hlead.drop l.length
        obtain ⟨n, hn⟩ := Nat.exists_eq_succ_of_ne_zero (Nat.ne_of_gt (lexeme_pos hl))
        rw [List.drop_drop, hn, List.drop_succ_cons] at hafter
        rw [hn, Nat.succ_sub_one]
        obtain ⟨hfails, htokens⟩ := @ih l.after _ _ _ hafter
        refine ⟨hfails.map _, fun ts hts => ?_⟩
        obtain ⟨ts', hrest, rfl⟩ := map_eq_ok.mp hts
        exact List.forall_mem_cons.mpr ⟨hlead.valid, htokens ts' hrest⟩

def Starts (ts : List Token) (p : Position) : Prop :=
  p = .first ∨ ∃ t ∈ ts, t.loc.start = p

variable {α : Type} {t : Token} {ts rest : List Token} {p : Position}

def StopsIn (ts : List Token) (x : Except ParseError α) : Prop :=
  FailsWith (fun e => Starts ts e.position) x

theorem Starts.here (t : Token) (ts : List Token) : Starts (t :: ts) t.loc.start :=
  .inr ⟨t, List.mem_cons_self, rfl⟩

theorem Starts.mono (h : Starts rest p) (hrest : rest <:+ ts) : Starts ts p := by
  rcases h with rfl | ⟨t, ht, rfl⟩
  · exact .inl rfl
  · exact .inr ⟨t, hrest.subset ht, rfl⟩

theorem Inside.suffix (h : Inside ts rest) : rest <:+ ts := by
  obtain ⟨inner, rfl, -⟩ := h
  exact List.suffix_append inner rest

namespace StopsIn

variable {β : Type} {x : Except ParseError α} {f : α → Except ParseError β}

theorem ok (a : α) : StopsIn ts (.ok a : Except ParseError α) := FailsWith.ok a

theorem pure (a : α) : StopsIn ts (Pure.pure a : Except ParseError α) := FailsWith.pure a

theorem bind (hx : StopsIn ts x) (hf : ∀ a, x = .ok a → StopsIn ts (f a)) :
    StopsIn ts (x >>= f) :=
  FailsWith.bind hx hf

theorem mono (h : StopsIn rest x) (hrest : rest <:+ ts) : StopsIn ts x :=
  FailsWith.mono h fun _ he => he.mono hrest

theorem inside (h : StopsIn rest x) (hrest : Inside ts rest) : StopsIn ts x :=
  h.mono hrest.suffix

theorem cons (h : StopsIn ts x) : StopsIn (t :: ts) x :=
  h.mono (List.suffix_cons t ts)

end StopsIn

theorem stopsIn_faultAt {f : Fault} (h : Starts ts p) :
    StopsIn ts (faultAt p f : Except ParseError α) := by
  rintro _ ⟨⟩
  exact h

theorem stopsIn_unexpected (what : String) (ts : List Token) :
    StopsIn ts (unexpected what ts : Except ParseError α) := by
  refine stopsIn_faultAt ?_
  cases ts with
  | nil => exact .inl rfl
  | cons t ts => exact .here t ts

theorem stopsIn_expect (s : Symbol) (ts : List Token) : StopsIn ts (expect s ts) := by
  cases ts with
  | nil => exact stopsIn_unexpected _ []
  | cons t ts =>
    simp only [expect]
    split
    · exact .ok _
    · exact stopsIn_unexpected _ _

theorem extend_start {path path' : Path} {text : List Char} {bracketed : Bool} {stop : Position}
    (h : path.extend text bracketed stop = .ok path') : path'.loc.start = path.loc.start := by
  unfold Path.extend at h
  dsimp only at h
  split at h
  · split at h
    · cases h
      rfl
    · cases h
  · cases h
    rfl

theorem stopsIn_extend {path : Path} (h : Starts ts path.loc.start) (text : List Char)
    (bracketed : Bool) (stop : Position) : StopsIn ts (path.extend text bracketed stop) := by
  unfold Path.extend
  dsimp only
  split
  · split
    · exact .ok _
    · exact stopsIn_faultAt h
  · exact .ok _

theorem segments_start {path : Path} {r : ParsedAny rest Path} (h : segments path rest = .ok r) :
    r.value.loc.start = path.loc.start := by
  fun_induction segments path rest with
  | case1 path sep name rest slash text bracketed hname hsep joined =>
    rename_i ih
    simp only [bind_eq_ok, pure_eq_ok] at h
    obtain ⟨extended, hextend, ⟨last, rest', hrest⟩, hsegments, rfl⟩ := h
    have hstart := extend_start hextend
    exact (ih extended hsegments).trans hstart
  | case2 =>
    cases h
    rfl
  | case3 =>
    cases h
    rfl

theorem stopsIn_segments {path : Path} (h : Starts ts path.loc.start) (rest : List Token) :
    StopsIn ts (segments path rest) := by
  fun_induction segments path rest with
  | case1 path sep name rest slash text bracketed hname hsep joined =>
    rename_i ih
    have hjoined : Starts ts joined.loc.start := h
    refine (stopsIn_extend hjoined _ _ _).bind fun extended hextend => ?_
    rw [← extend_start hextend] at hjoined
    exact (ih extended hjoined).bind fun _ _ => .pure _
  | case2 => exact .ok _
  | case3 => exact .ok _

theorem stopsIn_namePath (t : Token) (text : List Char) (bracketed : Bool) (rest : List Token) :
    StopsIn (t :: ts) (namePath t text bracketed rest) := by
  unfold namePath
  have hstart : Starts (t :: ts) (Path.mk false 0 [] [] t.loc).loc.start := .here t ts
  refine (stopsIn_extend hstart _ _ _).bind fun path hpath => ?_
  exact (stopsIn_segments (extend_start hpath ▸ hstart) _).bind fun _ _ => .pure _

private theorem namePath_start {text : List Char} {bracketed : Bool} {r : ParsedAny rest Expression}
    (h : namePath t text bracketed rest = .ok r) : r.value.loc.start = t.loc.start := by
  simp only [namePath, bind_eq_ok, pure_eq_ok] at h
  obtain ⟨path, hpath, ⟨last, rest', hrest⟩, hsegments, rfl⟩ := h
  exact (segments_start hsegments).trans (extend_start hpath)

private theorem stopsIn_pathFrom {path : Path} (h : Starts ts path.loc.start) (rest : List Token) :
    StopsIn ts (pathFrom path rest) := by
  unfold pathFrom
  split
  · exact .ok _
  · split
    · refine (stopsIn_extend h _ _ _).bind fun extended hextend => ?_
      exact (stopsIn_segments (extend_start hextend ▸ h) _).bind fun _ _ => .pure _
    · exact .ok _

private theorem pathFrom_start {path : Path} {r : ParsedAny rest Expression}
    (h : pathFrom path rest = .ok r) : r.value.loc.start = path.loc.start := by
  unfold pathFrom at h
  split at h
  · cases h
    rfl
  · split at h
    · simp only [bind_eq_ok, pure_eq_ok] at h
      obtain ⟨extended, hextend, ⟨last, rest', hrest⟩, hsegments, rfl⟩ := h
      exact (segments_start hsegments).trans (extend_start hextend)
    · cases h
      rfl

theorem Expression.Read.start {e : Expression} (h : Expression.Read ts e rest) :
    Starts ts e.loc.start := by
  cases h with
  | call => exact .here _ _
  | name _ hpath => exact namePath_start hpath ▸ .here _ _
  | data _ hpath => exact pathFrom_start hpath ▸ .here _ _
  | literal => exact .here _ _

theorem Call.Read.start {c : Call Expression} (h : Call.Read ts c rest) :
    Starts ts c.callee.loc.start := by
  obtain ⟨hcallee, -, -⟩ := h
  exact hcallee.start

mutual

theorem stopsIn_expression : (ts : List Token) → StopsIn ts (expression ts)
  | [] => by
    rw [expression]
    exact stopsIn_unexpected _ _
  | t :: ts => by
    rw [expression]
    split
    · refine (stopsIn_call ts).cons.bind fun c hc => ?_
      exact ((stopsIn_expect _ _).inside (call_read ts hc).inside).cons.bind fun _ _ => .pure _
    · exact (stopsIn_namePath t _ _ ts).bind fun _ _ => .pure _
    · exact (stopsIn_pathFrom (.here t ts) _).bind fun _ _ => .pure _
    · exact .ok _
    · exact stopsIn_unexpected _ _
termination_by ts => (ts.length, 0)

theorem stopsIn_call : (ts : List Token) → StopsIn ts (call ts)
  | ts => by
    rw [call]
    refine (stopsIn_expression ts).bind fun callee hcallee => ?_
    have hinside := (expression_read ts hcallee).inside
    have hshorter := callee.shorter
    refine ((stopsIn_params callee.rest).inside hinside).bind fun ps hps => ?_
    have hinside' := hinside.trans (params_read callee.rest hps).inside
    have hshorter' := Nat.lt_of_le_of_lt ps.noLonger hshorter
    exact ((stopsIn_pairs ps.rest).inside hinside').bind fun _ _ => .pure _
termination_by ts => (ts.length, 1)

theorem stopsIn_params : (ts : List Token) → StopsIn ts (params ts)
  | ts => by
    rw [params]
    split
    · exact .pure _
    · refine (stopsIn_expression ts).bind fun e he => ?_
      have hshorter := e.shorter
      exact ((stopsIn_params e.rest).inside (expression_read ts he).inside).bind fun _ _ => .pure _
termination_by ts => (ts.length, 1)

theorem stopsIn_pairs : (ts : List Token) → StopsIn ts (pairs ts)
  | [] => by
    rw [pairs.eq_def]
    exact .ok _
  | [t] => by
    rw [pairs.eq_def]
    exact .ok _
  | key :: eq :: ts => by
    rw [pairs.eq_def]
    dsimp only
    split
    · refine (stopsIn_expression ts).cons.cons.bind fun value hvalue => ?_
      have hshorter : value.rest.length < (key :: eq :: ts).length :=
        Nat.lt_of_lt_of_le value.shorter (by simp only [List.length_cons]; omega)
      have hrest := (stopsIn_pairs value.rest).inside (expression_read ts hvalue).inside
      exact hrest.cons.cons.bind fun _ _ => .pure _
    · exact .ok _
termination_by ts => (ts.length, 0)

end

private theorem stopsIn_blockParams (ts : List Token) : StopsIn ts (blockParams ts) := by
  cases ts with
  | nil => exact .ok _
  | cons t ts =>
    simp only [blockParams]
    have hnames := names_inside ts
    split
    · split
      · exact ((stopsIn_unexpected _ _).inside hnames).cons.bind fun _ h =>
          absurd h (by simp [unexpected, faultAt])
      · exact ((stopsIn_expect _ _).inside hnames).cons.bind fun _ _ => .pure _
    · exact .ok _

theorem stopsIn_head (t : Token) (ts : List Token) : StopsIn ts (head t ts) := by
  unfold head
  refine (stopsIn_call ts).bind fun c hc => ?_
  have hinside := (call_read ts hc).inside
  refine ((stopsIn_blockParams c.rest).inside hinside).bind fun ps hps => ?_
  have hinside' := hinside.trans (blockParams_inside hps)
  exact ((stopsIn_expect _ _).inside hinside').bind fun _ _ => .pure _

theorem Head.Read.start {opened : Head} (h : Head.Read t ts opened rest) :
    Starts ts opened.call.callee.loc.start ∧ rest <:+ ts ∧ opened.start = t.loc.start := by
  obtain ⟨hcall, hparams, -⟩ := h
  have hinside := hcall.inside.trans (blockParams_inside hparams)
  exact ⟨hcall.start, (List.suffix_cons _ _).trans hinside.suffix, rfl⟩

theorem stopsIn_closer {opened : Head} (h : Starts ts opened.call.callee.loc.start)
    (hrest : rest <:+ ts) : StopsIn ts (closer opened rest) := by
  cases rest with
  | nil => exact stopsIn_faultAt (.inl rfl)
  | cons t rest =>
    simp only [closer]
    split
    · exact (stopsIn_faultAt ((Starts.here t rest).mono hrest)).bind fun _ h =>
        absurd h (by simp [faultAt])
    · refine ((stopsIn_expression rest).cons.mono hrest).bind fun callee hcallee => ?_
      have hinside := (expression_read rest hcallee).inside
      refine (((stopsIn_expect _ _).inside hinside).cons.mono hrest).bind fun close hclose => ?_
      split
      · exact (stopsIn_faultAt h).bind fun _ h => absurd h (by simp [faultAt])
      · exact .pure _

theorem stopsIn_interpolation (t : Token) (ts : List Token) :
    StopsIn ts (interpolation t ts) := by
  unfold interpolation
  refine (stopsIn_call ts).bind fun c hc => ?_
  exact ((stopsIn_expect _ _).inside (call_read ts hc).inside).bind fun _ _ => .pure _

private theorem stopsIn_partialCall (t : Token) (ts : List Token) :
    StopsIn ts (partialCall t ts) := by
  unfold partialCall
  refine (stopsIn_call ts).bind fun c hc => ?_
  exact ((stopsIn_expect _ _).inside (call_read ts hc).inside).bind fun _ _ => .pure _

theorem bodyRead.suffix {ss : List Statement} (h : bodyRead ts ss rest) : rest <:+ ts := by
  obtain ⟨toks, hts, -⟩ := h.spelled
  exact ⟨toks, hts.symm⟩

theorem Sections.Read.suffix {inverted : Bool} {more : Sections}
    (h : Sections.Read inverted ts more rest) : rest <:+ ts := by
  obtain ⟨⟨toks, hts, -⟩, -⟩ := h.spelled
  exact ⟨toks, hts.symm⟩

theorem Statement.Read.suffix {s : Statement} (h : Statement.Read ts s rest) : rest <:+ ts := by
  obtain ⟨toks, hts, -⟩ := h.spelled
  exact ⟨toks, hts.symm⟩

mutual

theorem stopsIn_statements : (ts : List Token) → StopsIn ts (statements ts)
  | ts => by
    rw [statements]
    split
    · exact .pure _
    · refine (stopsIn_statement ts).bind fun s hs => ?_
      have hshorter := s.shorter
      exact ((stopsIn_statements s.rest).mono (statement_read ts hs).suffix).bind fun _ _ => .pure _
termination_by ts => (ts.length, 1)

theorem stopsIn_statement : (ts : List Token) → StopsIn ts (statement ts)
  | [] => by
    rw [statement]
    exact stopsIn_unexpected _ _
  | t :: ts => by
    rw [statement]
    split
    · exact .ok _
    · exact .ok _
    iterate 4
      exact (stopsIn_interpolation t ts).cons.bind fun _ _ => .pure _
    · exact (stopsIn_partialCall t ts).cons.bind fun _ _ => .pure _
    iterate 2
      refine (stopsIn_head t ts).cons.bind fun opened hopened => ?_
      obtain ⟨hcallee, hrest, -⟩ := (head_read hopened).start
      have hshorter : opened.rest.length < (t :: ts).length :=
        Nat.lt_trans opened.shorter (Nat.lt_succ_self _)
      refine ((stopsIn_statements opened.rest).mono hrest).cons.bind fun first hfirst => ?_
      have hrest₁ := (statements_read _ hfirst).suffix.trans hrest
      have hshorter₁ := Nat.lt_of_le_of_lt first.noLonger hshorter
      refine ((stopsIn_sections _ first.rest).mono hrest₁).cons.bind fun more hmore => ?_
      have hrest₂ := (sections_read _ _ hmore).suffix.trans hrest₁
      exact (stopsIn_closer hcallee hrest₂).cons.bind fun _ _ => .pure _
    · refine (stopsIn_head t ts).cons.bind fun opened hopened => ?_
      obtain ⟨hcallee, hrest, hstart⟩ := (head_read hopened).start
      have hshorter : opened.rest.length < (t :: ts).length :=
        Nat.lt_trans opened.shorter (Nat.lt_succ_self _)
      refine ((stopsIn_statements opened.rest).mono hrest).cons.bind fun first hfirst => ?_
      have hrest₁ := (statements_read _ hfirst).suffix.trans hrest
      have hshorter₁ := Nat.lt_of_le_of_lt first.noLonger hshorter
      refine ((stopsIn_sections _ first.rest).mono hrest₁).cons.bind fun more hmore => ?_
      have hrest₂ := (sections_read _ _ hmore).suffix.trans hrest₁
      refine (stopsIn_closer hcallee hrest₂).cons.bind fun closer hcloser => ?_
      dsimp only
      split
      · exact (stopsIn_faultAt (.inr ⟨t, List.mem_cons_self, hstart.symm⟩)).bind fun _ h =>
          absurd h (by simp [faultAt])
      · exact .pure _
    · refine (stopsIn_head t ts).cons.bind fun opened hopened => ?_
      obtain ⟨hcallee, hrest, -⟩ := (head_read hopened).start
      have hshorter : opened.rest.length < (t :: ts).length :=
        Nat.lt_trans opened.shorter (Nat.lt_succ_self _)
      refine ((stopsIn_statements opened.rest).mono hrest).cons.bind fun first hfirst => ?_
      have hrest₁ := (statements_read _ hfirst).suffix.trans hrest
      exact (stopsIn_closer hcallee hrest₁).cons.bind fun _ _ => .pure _
    · exact stopsIn_unexpected _ _
termination_by ts => (ts.length, 0)

theorem stopsIn_sections (inverted : Bool) : (ts : List Token) → StopsIn ts (sections inverted ts)
  | [] => by
    rw [sections]
    exact .ok _
  | t :: ts => by
    rw [sections]
    split
    · split
      · exact (stopsIn_faultAt (.here t ts)).bind fun _ h => absurd h (by simp [faultAt])
      refine (stopsIn_head t ts).cons.bind fun opened hopened => ?_
      obtain ⟨-, hrest, -⟩ := (head_read hopened).start
      have hshorter : opened.rest.length < (t :: ts).length :=
        Nat.lt_trans opened.shorter (Nat.lt_succ_self _)
      refine ((stopsIn_statements opened.rest).mono hrest).cons.bind fun first hfirst => ?_
      have hrest₁ := (statements_read _ hfirst).suffix.trans hrest
      have hshorter₁ := Nat.lt_of_le_of_lt first.noLonger hshorter
      exact ((stopsIn_sections _ first.rest).mono hrest₁).cons.bind fun _ _ => .pure _
    · exact (stopsIn_statements ts).cons.bind fun _ _ => .pure _
    · exact .ok _
termination_by ts => (ts.length, 0)

end

private theorem stopsIn_ofTokens (ts : List Token) : StopsIn ts (Program.ofTokens ts) := by
  unfold Program.ofTokens
  refine (stopsIn_statements ts).bind fun body hbody => ?_
  have hpeek : Starts body.rest (peek body.rest).loc.start := by
    cases body.rest with
    | nil => exact .inl rfl
    | cons t rest => exact .here t rest
  have hrest := (statements_read ts hbody).suffix
  dsimp only
  split
  · exact .pure _
  · exact stopsIn_faultAt (hpeek.mono hrest)
  · exact stopsIn_faultAt (hpeek.mono hrest)
  · exact stopsIn_faultAt (hpeek.mono hrest)
  · exact (stopsIn_unexpected _ _).mono hrest

theorem failsWith_parse (src : Source) (keepLines : Bool) :
    FailsWith (fun e => src.Valid e.position) (parse src.text keepLines) := by
  obtain ⟨hscan, htokens⟩ := @scanAfter_valid src .text .first 0 _ src.text src.stands_first
  refine FailsWith.bind (FailsWith.bind hscan fun ts hts => ?_) fun _ _ => .pure _
  refine FailsWith.mono (stopsIn_ofTokens ts) ?_
  rintro e (he | ⟨t, ht, he⟩)
  · exact he ▸ src.stands_first.valid
  · exact he ▸ htokens ts hts t ht

end Mustache

/-- Errors are where they say: at a span of the text, whose ends are in order and between
characters, and at the position where it starts. An error of the mustaches is the error of the
template, at the same position, which its span of no bytes leads back to. -/
theorem preprocess_errors (text : List Char) (options : Options) :
    (∀ e, preprocess text options = .error e → e.Located ⟨text, options.moduleName⟩)
      ∧ ∀ fault, Mustache.parse text options.keepLines = .error fault →
          ∃ e, preprocess text options = .error e ∧ e.message = fault.message
            ∧ e.position = fault.position ∧ e.span.start = e.span.stop
            ∧ Source.positionFor ⟨text, options.moduleName⟩ e.span.start = fault.position := by
  refine ⟨preprocess_located text options, fun fault hparse => ?_⟩
  have hvalid := Mustache.failsWith_parse ⟨text, options.moduleName⟩ options.keepLines _ hparse
  have hback := Source.positionFor_offsetFor hvalid
  refine ⟨Source.mustacheError ⟨text, options.moduleName⟩ fault, ?_, rfl, hback, rfl, hback⟩
  simp only [preprocess, hparse]

/-- A start tag and a mustache that the text ends in, after a character of two bytes. -/
theorem preprocess_errors_unclosed :
    (∃ e, preprocess "é<p".toList {} = .error e ∧ e.span = ⟨2, 4⟩
        ∧ e.Located ⟨"é<p".toList, none⟩)
      ∧ ∃ e, preprocess ['é', '\n', '{', '{'] {} = .error e
          ∧ e.message = "Expected `\x7d\x7d` but the template ended" ∧ e.position = ⟨2, 2⟩
          ∧ e.span.start = e.span.stop
          ∧ Source.positionFor ⟨['é', '\n', '{', '{'], none⟩ e.span.start = ⟨2, 2⟩ := by
  constructor
  · have hscan : Mustache.scan "é<p".toList = .ok
        [.onLine (.content "é<p".toList) 0 3, .onLine .endOfInput 3 3] := by decide +kernel
    have hparse := Mustache.parse_of_tokens false hscan (by cbv)
    have herror : preprocess "é<p".toList {} = .error (Source.error ⟨"é<p".toList, none⟩
        "Unclosed element `p`" ⟨2, 4⟩) := (preprocess_of_parse {} hparse).trans (by rfl)
    exact ⟨_, herror, rfl, (preprocess_errors "é<p".toList {}).1 _ herror⟩
  · have hparse : Mustache.parse ['é', '\n', '{', '{'] false
        = .error ⟨.unclosedMustache, ⟨2, 2⟩⟩ := by rfl
    exact (preprocess_errors ['é', '\n', '{', '{'] {}).2 _ hparse

end HtmlTemplate
