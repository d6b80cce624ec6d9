import HtmlTemplate.Proofs.Checks
import HtmlTemplate.Proofs.Evaluation
import HtmlTemplate.Proofs.Keywords
import HtmlTemplate.Proofs.Mentions
import Mathlib.Data.List.Infix

/-! The paths of a template: which of the segments that are written they have, and where their heads
are said to be. -/

namespace HtmlTemplate.Mustache.Writing

variable {w : Writing}

def headText (w : Writing) : List Char :=
  if w.more.any (·.1) then w.text else w.sigil ++ w.first.text

theorem exists_headCovers {src : Source} {run : List Token} {lo : Position} (h : WrittenWith run w)
    (hrun : ∀ t ∈ run, t.Spelled src) (hsorted : Sorted lo run) :
    ∃ cs, src.Covers w.start cs w.headLoc.stop ∧ w.headText.Sublist cs := by
  obtain ⟨hfirst, hall⟩ := h.covers hrun hsorted
  unfold headLoc headText
  split
  · exact hall
  · exact hfirst

end HtmlTemplate.Mustache.Writing

namespace HtmlTemplate.Tree

variable {w : Mustache.Writing}

theorem Takes.sublist {head : PathHead} {tail : List (List Char)} (h : Takes w head tail) :
    head.text.Sublist w.text := by
  cases h with
  | self hsigil hdots hthis =>
    have hfirst := (List.prefix_append w.first.text (Mustache.joinedText w.more)).sublist
    exact (hthis.sublist.trans hfirst).trans (List.sublist_append_right _ _)
  | joined hself hslashes htext =>
    rw [htext, w.text_eq fun s hs => if_pos (hslashes s hs)]
    exact (List.Sublist.refl _).append (w.intercalate_sublist '/')
  | named hself hdots hnames htext =>
    have hsub := w.intercalate_sublist '.'
    rw [hnames, Draft.intercalate_cons] at hsub
    rw [htext, w.text_eq (c := '.') fun s hs => if_neg (by simp [hdots s hs])]
    exact (List.Sublist.refl _).append ((List.sublist_append_left _ _).trans hsub)

theorem Takes.head_sublist {head : PathHead} {tail : List (List Char)} (h : Takes w head tail)
    (hw : w.KeywordsFirst) (hfirst : w.first.isKeyword = true → head.isSelf = true) :
    head.text.Sublist w.headText := by
  have hall (hdots : ∀ s ∈ w.more, s.1 = false) : w.headText = w.sigil ++ w.first.text :=
    if_neg (by simpa using hdots)
  cases h with
  | self hsigil hdots hthis =>
    rw [hall hdots]
    exact hthis.sublist.trans (List.sublist_append_right _ _)
  | joined hself hslashes htext =>
    have hkeywords : w.keywords = [] := by
      by_contra hne
      have hself' := hfirst (w.isKeyword_first hw hne)
      rw [hself] at hself'
      cases hself'
    have htext' : head.text = w.text := by
      rw [htext, w.text_eq fun s hs => if_pos (hslashes s hs),
        (w.intercalate_eq_iff '/').mpr hkeywords]
    rw [htext', Mustache.Writing.headText]
    split
    · exact List.Sublist.refl _
    · rename_i hnone
      have hmore : w.more = [] := by
        cases hmore : w.more with
        | nil => rfl
        | cons s more =>
          rw [hmore, List.any_cons, hslashes s (hmore ▸ List.mem_cons_self)] at hnone
          exact absurd rfl hnone
      rw [Mustache.Writing.text, hmore]
      simp [Mustache.joinedText]
  | named hself hdots hnames htext =>
    have hnot : w.first.isKeyword = false := by
      by_contra hkeyword
      have hself' := hfirst (by simpa using hkeyword)
      rw [hself] at hself'
      cases hself'
    have hnames' : w.names = w.first :: (w.more.map (·.2)).filter (!·.isKeyword) :=
      List.filter_cons_of_pos (by simpa using hnot)
    rw [hnames', List.map_cons] at hnames
    rw [htext, hall hdots, (List.cons.inj hnames).1]

mutual

def Expression.paths : Expression → List Path
  | .path p => [p]
  | .call c _ => Call.paths c
  | .literal _ _ => []

def Call.paths : Call Expression → List Path
  | ⟨callee, params, ⟨pairs, _⟩⟩ => callee.paths ++ (pathsAll params ++ pairsPaths pairs)

def pathsAll : List Expression → List Path
  | [] => []
  | e :: es => e.paths ++ pathsAll es

def pairsPaths : List (Pair Expression) → List Path
  | [] => []
  | ⟨_, value, _⟩ :: pairs => value.paths ++ pairsPaths pairs

end

def ResolvedFrom (src : Source) (ps : List Mustache.Path) (qs : List Path) : Prop :=
  ∀ q ∈ qs, ∃ p ∈ ps, Path.resolve src p = .ok q

namespace ResolvedFrom

variable {src : Source} {ps ps' : List Mustache.Path} {qs qs' : List Path}

theorem append (h : ResolvedFrom src ps qs) (h' : ResolvedFrom src ps' qs') :
    ResolvedFrom src (ps ++ ps') (qs ++ qs') := by
  refine List.forall_mem_append.mpr ⟨fun q hq => ?_, fun q hq => ?_⟩
  · obtain ⟨p, hp, hresolve⟩ := h q hq
    exact ⟨p, List.mem_append_left _ hp, hresolve⟩
  · obtain ⟨p, hp, hresolve⟩ := h' q hq
    exact ⟨p, List.mem_append_right _ hp, hresolve⟩

theorem nil : ResolvedFrom src ps [] :=
  List.forall_mem_nil _

theorem concat_nil (h : ResolvedFrom src ps qs) : ResolvedFrom src ps (qs ++ []) := by
  rwa [List.append_nil]

end ResolvedFrom

variable {src : Source}

mutual

theorem expression_resolved : (e : Mustache.Expression) → {e' : Expression} →
    expression src e = .ok e' → ResolvedFrom src e.paths e'.paths
  | .path p, e', h => by
    simp only [expression, map_eq_ok] at h
    obtain ⟨q, hq, rfl⟩ := h
    exact List.forall_mem_singleton.mpr ⟨p, List.mem_singleton_self p, hq⟩
  | .literal l loc, e', h => by
    simp only [expression, Except.ok.injEq] at h
    subst h
    exact .nil
  | .call c loc, e', h => by
    simp only [expression, map_eq_ok] at h
    obtain ⟨c', hc, rfl⟩ := h
    exact call_resolved c hc

theorem call_resolved : (c : Mustache.Call Mustache.Expression) → {c' : Call Expression} →
    call src c = .ok c' → ResolvedFrom src c.paths c'.paths
  | ⟨callee, params, none⟩, c', h => by
    simp only [call, bind_eq_ok, pure_eq_ok] at h
    obtain ⟨callee', hcallee, _, _, params', hparams, rfl⟩ := h
    exact (expression_resolved callee hcallee).append
      ((expressions_resolved params hparams).concat_nil)
  | ⟨callee, params, some ⟨pairs, loc⟩⟩, c', h => by
    simp only [call, bind_eq_ok, pure_eq_ok] at h
    obtain ⟨callee', hcallee, _, _, params', hparams, pairs', hpairs, rfl⟩ := h
    exact (expression_resolved callee hcallee).append
      ((expressions_resolved params hparams).append (hashPairs_resolved pairs hpairs))

theorem expressions_resolved : (es : List Mustache.Expression) → {es' : List Expression} →
    expressions src es = .ok es' → ResolvedFrom src (Mustache.pathsAll es) (pathsAll es')
  | [], es', h => by
    simp only [expressions, Except.ok.injEq] at h
    subst h
    exact .nil
  | e :: es, es', h => by
    simp only [expressions, bind_eq_ok, pure_eq_ok] at h
    obtain ⟨e', he, es', hes, rfl⟩ := h
    exact (expression_resolved e he).append (expressions_resolved es hes)

theorem hashPairs_resolved : (ps : List (Mustache.Pair Mustache.Expression)) →
    {ps' : List (Pair Expression)} → hashPairs src ps = .ok ps' →
      ResolvedFrom src (Mustache.pairsPaths ps) (pairsPaths ps')
  | [], ps', h => by
    simp only [hashPairs, Except.ok.injEq] at h
    subst h
    exact .nil
  | ⟨key, value, loc⟩ :: ps, ps', h => by
    simp only [hashPairs, bind_eq_ok, pure_eq_ok] at h
    obtain ⟨value', hvalue, ps', hps, rfl⟩ := h
    exact (expression_resolved value hvalue).append (hashPairs_resolved ps hps)

end

theorem partialName_resolved {c : Mustache.Call Mustache.Expression} {c' : Call Expression}
    (h : partialName src c = .ok c') : ResolvedFrom src c.paths c'.paths := by
  obtain ⟨callee, params, _ | ⟨pairs, loc⟩⟩ := c
  · simp only [partialName, bind_eq_ok, pure_eq_ok] at h
    obtain ⟨callee', hcallee, params', hparams, rfl⟩ := h
    exact (expression_resolved callee hcallee).append
      ((expressions_resolved params hparams).concat_nil)
  · simp only [partialName, bind_eq_ok, pure_eq_ok] at h
    obtain ⟨callee', hcallee, params', hparams, pairs', hpairs, rfl⟩ := h
    exact (expression_resolved callee hcallee).append
      ((expressions_resolved params hparams).append (hashPairs_resolved pairs hpairs))

def eachPath (Q : Path → Prop) : Checks where
  call _ c := ∀ q ∈ c.paths, Q q
  name _ c := ∀ q ∈ c.paths, Q q

namespace Assembly

private theorem call?_mem {s : Mustache.Statement} {loc : Location}
    {c : Mustache.Call Mustache.Expression} (h : s.call? = some (loc, c)) :
    (loc.start, c) ∈ s.calls := by
  cases s with
  | content _ => cases h
  | comment _ => cases h
  | mustache _ =>
    cases h
    exact List.mem_singleton_self _
  | decorator _ =>
    cases h
    exact List.mem_singleton_self _
  | partialCall _ =>
    cases h
    exact List.mem_singleton_self _
  | block b =>
    obtain ⟨call, program, inverse, openStrip, inverseStrip, closeStrip, loc⟩ := b
    cases h
    exact List.mem_cons_self
  | decoratorBlock b =>
    obtain ⟨call, program, inverse, openStrip, inverseStrip, closeStrip, loc⟩ := b
    cases h
    exact List.mem_cons_self
  | partialBlock b =>
    cases h
    exact List.mem_cons_self

theorem Enters.calls {a b : Assembly} {s : Mustache.Statement} {fallback : Nat}
    {p : Mustache.Program Mustache.Statement} (h : Enters src a s fallback p b) :
    Mustache.callsAll p.body ⊆ s.calls := by
  cases h with
  | @program _ m _ _ hs _ _ hp =>
    obtain ⟨call, program, inverse, openStrip, inverseStrip, closeStrip, loc⟩ := m
    obtain ⟨body, params, chained⟩ := p
    obtain rfl : program = some ⟨body, params, chained⟩ := hp
    rcases hs with rfl | rfl
    all_goals exact List.subset_cons_of_subset _ (List.subset_append_left _ _)
  | @inverse _ m _ _ _ _ hs _ _ _ hp =>
    obtain ⟨call, program, inverse, openStrip, inverseStrip, closeStrip, loc⟩ := m
    obtain ⟨body, params, chained⟩ := p
    obtain rfl : inverse = some ⟨body, params, chained⟩ := hp
    rcases hs with rfl | rfl
    all_goals exact List.subset_cons_of_subset _ (List.subset_append_right _ _)
  | @partialBlock m _ _ _ =>
    obtain ⟨call, ⟨body, params, chained⟩, openStrip, closeStrip, loc⟩ := m
    exact List.subset_cons_of_subset _ (List.Subset.refl _)

theorem callGuides (src : Source) {K : Checks}
    {C : Position × Mustache.Call Mustache.Expression → Prop} (hcomment : ∀ c, K.comment c)
    (hcall : ∀ {loc : Location} {m c}, C (loc.start, m) → call src m = .ok c →
      K.call (src.spanFor loc) c)
    (hname : ∀ {loc : Location} {m c}, C (loc.start, m) → partialName src m = .ok c →
      K.name (src.spanFor loc) c) :
    Guides src K fun _ ss => ∀ c ∈ Mustache.callsAll ss, C c where
  call h hm hc := hcall (h _ (List.mem_append_left _ (call?_mem hm))) hc
  name h hm hc := hname (h _ (List.mem_append_left _ (call?_mem hm))) hc
  content _ hb ha := satisfies_content hcomment ha hb
  inside h henters c hc := h c (List.mem_append_left _ (henters.calls hc))
  later h _ _ c hc := h c (List.mem_append_right _ hc)

end Assembly

theorem Path.resolve_sigil {p : Mustache.Path} {q : Path} (hwritten : p.written = ['@'])
    (hparts : p.parts = []) : resolve src p ≠ .ok q := by
  intro h
  unfold resolve at h
  dsimp only at h
  split at h
  · rename_i head tail hsplit
    obtain ⟨-, hself, parts, hsegments, htail⟩ := split?_ok hsplit
    have hself : head.isSelf = false := by
      rw [hself, hwritten]
      rfl
    rw [hself] at htail
    obtain ⟨name, rfl, -⟩ := htail
    obtain ⟨hslash, -⟩ | ⟨-, heq⟩ := segments?_ok hsegments
    · rw [hwritten] at hslash
      exact absurd hslash (by decide)
    · rw [hparts] at heq
      cases heq
  · simp [fault] at h

/-- A path of a template stands where its tokens are. -/
structure Path.WrittenAs (src : Source) (q : Path) (w : Mustache.Writing) : Prop where
  tokens : ∃ ts run, Mustache.scan src.text = .ok ts ∧ run <:+: ts ∧ Mustache.WrittenWith run w
  span : q.span = src.spanFor w.loc
  text : q.written = w.text

theorem Path.headSpan_of_covers {q : Path} {w : Mustache.Writing} {cs : List Char}
    (htakes : Takes w q.head q.tail)
    (hspan : q.head.span = headSpan (src.spanFor w.loc) (byteLength q.head.text))
    (hcovers : src.Covers w.start cs w.loc.stop) (hcs : w.text.Sublist cs) :
    q.head.span = ⟨src.offsetFor w.start, src.offsetFor w.start + byteLength q.head.text⟩ := by
  have hle := byteLength_le_of_sublist (htakes.sublist.trans hcs)
  have hspanFor : src.spanFor w.loc
      = ⟨src.offsetFor w.start, src.offsetFor w.start + byteLength cs⟩ := hcovers.spanFor
  rw [hspan, hspanFor, headSpan, Nat.min_eq_left (Nat.add_le_add_left hle _)]

/-- Where the head of a path is said to be, next to where it is written. -/
structure Path.HeadPlaced (src : Source) (q : Path) (w : Mustache.Writing) : Prop where
  start : src.IsBoundary q.head.span.start
  size : q.head.span = src.spanFor w.headLoc ↔
    byteLength q.head.text = byteLength (src.slice (src.spanFor w.headLoc))
  /-- Of a head that stands for the segment in front and not for one after it. -/
  plain : (w.first.isKeyword = true → q.head.isSelf = true) →
    (q.head.span = src.spanFor w.headLoc ↔ src.slice (src.spanFor w.headLoc) = q.head.text)

theorem Path.headPlaced {q : Path} {w : Mustache.Writing} {cs : List Char}
    (hw : w.KeywordsFirst) (htakes : Takes w q.head q.tail)
    (hspan : q.head.span = ⟨src.offsetFor w.start, src.offsetFor w.start + byteLength q.head.text⟩)
    (hcovers : src.Covers w.start cs w.headLoc.stop) (hcs : w.headText.Sublist cs) :
    q.HeadPlaced src w := by
  have hloc : w.headLoc = ⟨w.start, w.headLoc.stop⟩ := by
    unfold Mustache.Writing.headLoc
    split <;> rfl
  have hspanFor : src.spanFor w.headLoc
      = ⟨src.offsetFor w.start, src.offsetFor w.start + byteLength cs⟩ := hloc ▸ hcovers.spanFor
  have hslice : src.slice (src.spanFor w.headLoc) = cs := hloc ▸ hcovers.slice_spanFor
  have hsize : q.head.span = src.spanFor w.headLoc ↔ byteLength q.head.text = byteLength cs := by
    rw [hspan, hspanFor, Span.mk.injEq, Nat.add_left_cancel_iff, eq_self_iff_true, true_and]
  refine ⟨?_, hslice.symm ▸ hsize, fun hfirst => ?_⟩
  · rw [hspan]
    exact src.isBoundary_offsetFor w.start
  · rw [hsize, hslice]
    have hsub := (htakes.head_sublist hw hfirst).trans hcs
    exact ⟨fun heq => (eq_of_sublist hsub heq).symm, fun heq => by rw [heq]⟩

end HtmlTemplate.Tree

namespace HtmlTemplate

variable {text : List Char} {options : Options} {t : Tree.Template}

theorem preprocess_eachCall {K : Tree.Checks} (hcomment : ∀ c, K.comment c)
    (hcall : ∀ {ts m c} {loc : Location}, Mustache.scan text = .ok ts →
      Mustache.Call.ReadIn ts loc.start m → Tree.call ⟨text, options.moduleName⟩ m = .ok c →
      K.call (Source.spanFor ⟨text, options.moduleName⟩ loc) c)
    (hname : ∀ {ts m c} {loc : Location}, Mustache.scan text = .ok ts →
      Mustache.Call.ReadIn ts loc.start m → Tree.partialName ⟨text, options.moduleName⟩ m = .ok c →
      K.name (Source.spanFor ⟨text, options.moduleName⟩ loc) c)
    (h : preprocess text options = .ok t) : t.Satisfies K := by
  obtain ⟨program, _, _, hparse, -⟩ := preprocess_ok h
  obtain ⟨ts, hscan, hcalls⟩ := Mustache.parse_calls hparse
  have hguides := Tree.Assembly.callGuides ⟨text, options.moduleName⟩
    (C := fun call => call.2.ReadIn ts call.1) hcomment (fun hm hc => hcall hscan hm hc)
    fun hm hc => hname hscan hm hc
  refine hguides.template ?_ h
  intro program' hparse'
  obtain rfl : program' = program := Except.ok.inj (hparse'.symm.trans hparse)
  exact hcalls

theorem preprocess_eachPath {Q : Tree.Path → Prop}
    (hQ : ∀ {ts run p w q}, Mustache.scan text = .ok ts → run <:+: ts → Mustache.WrittenWith run w →
      Mustache.Path.ReadAs p w → Tree.Path.resolve ⟨text, options.moduleName⟩ p = .ok q → Q q)
    (h : preprocess text options = .ok t) : t.Satisfies (Tree.eachPath Q) := by
  have hresolved {ts m ps} {start : Position} (hscan : Mustache.scan text = .ok ts)
      (hm : Mustache.Call.ReadIn ts start m)
      (hps : Tree.ResolvedFrom ⟨text, options.moduleName⟩ m.paths ps) : ∀ q ∈ ps, Q q := by
    intro q hq
    obtain ⟨p, hp, hresolve⟩ := hps q hq
    rcases hm.mentions p hp with ⟨run, w, hrun, htokens, hread⟩ | ⟨hwritten, hparts⟩
    · exact hQ hscan hrun htokens hread hresolve
    · exact absurd hresolve (Tree.Path.resolve_sigil hwritten hparts)
  exact preprocess_eachCall (K := Tree.eachPath Q) (fun _ => trivial)
    (fun hscan hm hc => hresolved hscan hm (Tree.call_resolved _ hc))
    (fun hscan hm hc => hresolved hscan hm (Tree.partialName_resolved hc)) h

/-- The segments of a path are the ones that are written, and `this` is a head only as a word, if
and only if the path has no keywords but the `this` that its head stands for. Other keywords are
dropped, and names that spell `this` are taken for it. -/
theorem preprocess_paths (h : preprocess text options = .ok t) :
    t.Satisfies (Tree.eachPath fun q => ∃ w, q.WrittenAs ⟨text, options.moduleName⟩ w
      ∧ (q.Faithful w ↔
        w.keywords.map (·.text) = if q.head.isSelf then ["this".toList] else [])) := by
  refine preprocess_eachPath ?_ h
  intro ts run p w q hscan hrun htokens hread hresolve
  obtain ⟨htakes, -, hspan, htext⟩ := Tree.Path.resolve_takes hread hresolve
  exact ⟨w, ⟨⟨ts, run, hscan, hrun, htokens⟩, hspan, htext⟩,
    Tree.Path.faithful_iff hread.keywords htakes htext⟩

/-- A name in brackets is taken for `this`, and is a segment after it as well. -/
theorem preprocess_paths_bracketed :
    ∃ t, preprocess "{{[this]}}".toList {} = .ok t
      ∧ t.body = [.dynamic (.call ⟨⟨.path ⟨"this".toList, .self ⟨2, 6⟩, ["this".toList], ⟨2, 8⟩⟩,
          [], .empty 8⟩, false, {}, ⟨0, 10⟩⟩)]
      ∧ t.Satisfies (Tree.eachPath fun q => ∃ w, q.WrittenAs ⟨"{{[this]}}".toList, none⟩ w
        ∧ (q.Faithful w ↔
          w.keywords.map (·.text) = if q.head.isSelf then ["this".toList] else [])) := by
  have hscan : Mustache.scan "{{[this]}}".toList = .ok
      [.onLine (.opener .escaped) 0 2, .onLine (.name "this".toList true) 2 8, .onLine .close 8 10,
        .onLine .endOfInput 10 10] := by decide +kernel
  have hparse := Mustache.parse_of_tokens false hscan (by cbv)
  have hread : preprocess "{{[this]}}".toList {}
      = .ok ⟨[.dynamic (.call ⟨⟨.path ⟨"this".toList, .self ⟨2, 6⟩, ["this".toList], ⟨2, 8⟩⟩, [],
          .empty 8⟩, false, {}, ⟨0, 10⟩⟩)], [], ⟨0, 10⟩⟩ :=
    (preprocess_of_parse {} hparse).trans (by rfl)
  exact ⟨_, hread, rfl, preprocess_paths hread⟩

/-- The span of a head is as long as the text that the head stands for. It is where the head is
written if and only if the head is written just like that, without brackets and blanks. -/
theorem preprocess_heads (h : preprocess text options = .ok t) :
    t.Satisfies (Tree.eachPath fun q => ∃ w, q.WrittenAs ⟨text, options.moduleName⟩ w
      ∧ q.HeadPlaced ⟨text, options.moduleName⟩ w) := by
  refine preprocess_eachPath ?_ h
  intro ts run p w q hscan hrun htokens hread hresolve
  obtain ⟨htakes, hhead, hspan, htext⟩ := Tree.Path.resolve_takes hread hresolve
  obtain ⟨lo, hsorted⟩ := (Mustache.scan_sorted hscan).isInfix hrun
  have hspelled : ∀ t ∈ run, t.Spelled ⟨text, options.moduleName⟩ := fun t ht =>
    Mustache.scan_spelled ⟨text, options.moduleName⟩ hscan t (hrun.subset ht)
  obtain ⟨-, cs, hcovers, hcs⟩ := htokens.covers hspelled hsorted
  obtain ⟨cs', hcovers', hcs'⟩ := Mustache.Writing.exists_headCovers htokens hspelled hsorted
  rw [hspan] at hhead
  exact ⟨w, ⟨⟨ts, run, hscan, hrun, htokens⟩, hspan, htext⟩, Tree.Path.headPlaced hread.keywords
    htakes (Tree.Path.headSpan_of_covers htakes hhead hcovers hcs) hcovers' hcs'⟩

/-- The span of a bracketed head ends too early, here in the middle of a character. -/
theorem preprocess_heads_bracketed :
    ∃ t, preprocess "{{[é]}}".toList {} = .ok t
      ∧ t.body = [.dynamic (.call ⟨⟨.path ⟨['é'], .plain ['é'] ⟨2, 4⟩, [], ⟨2, 6⟩⟩, [], .empty 6⟩,
          false, {}, ⟨0, 8⟩⟩)]
      ∧ ¬ Source.IsBoundary ⟨"{{[é]}}".toList, none⟩ 4
      ∧ t.Satisfies (Tree.eachPath fun q => ∃ w, q.WrittenAs ⟨"{{[é]}}".toList, none⟩ w
        ∧ q.HeadPlaced ⟨"{{[é]}}".toList, none⟩ w) := by
  have hscan : Mustache.scan "{{[é]}}".toList = .ok
      [.onLine (.opener .escaped) 0 2, .onLine (.name ['é'] true) 2 5, .onLine .close 5 7,
        .onLine .endOfInput 7 7] := by decide +kernel
  have hparse := Mustache.parse_of_tokens false hscan (by cbv)
  have hread : preprocess "{{[é]}}".toList {}
      = .ok ⟨[.dynamic (.call ⟨⟨.path ⟨['é'], .plain ['é'] ⟨2, 4⟩, [], ⟨2, 6⟩⟩, [], .empty 6⟩,
          false, {}, ⟨0, 8⟩⟩)], [], ⟨0, 8⟩⟩ :=
    (preprocess_of_parse {} hparse).trans (by rfl)
  have hinside : ¬ Source.IsBoundary ⟨"{{[é]}}".toList, none⟩ 4 := by
    rintro ⟨before, hbefore, hsize⟩
    have hbefore : before ∈ "{{[é]}}".toList.inits := (List.mem_inits _ _).mpr hbefore
    have hsizes : ∀ cs ∈ "{{[é]}}".toList.inits, byteLength cs ≠ 4 := by decide +kernel
    exact hsizes before hbefore hsize
  exact ⟨_, hread, rfl, hinside, preprocess_heads hread⟩

end HtmlTemplate
