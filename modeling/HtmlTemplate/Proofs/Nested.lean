import HtmlTemplate.Proofs.Within
import HtmlTemplate.Tree.Translate

/-! Spans of the tree of a template lie within the spans around them. For expressions this
comes straight from where their tokens are. -/

namespace HtmlTemplate

/-- The span `t` has its ends in order and lies in `s`. -/
def Span.Encloses (s t : Span) : Prop := s.start ≤ t.start ∧ t.start ≤ t.stop ∧ t.stop ≤ s.stop

theorem Span.Encloses.widen {s t u : Span} (h : s.Encloses u) (hcontains : t.contains s) :
    t.Encloses u := by
  rw [contains_iff] at hcontains
  exact ⟨Nat.le_trans hcontains.1 h.1, h.2.1, Nat.le_trans h.2.2 hcontains.2⟩

theorem Span.Encloses.contains {s t : Span} (h : s.Encloses t) : s.contains t :=
  (Span.contains_iff s t).mpr ⟨h.1, h.2.2⟩

theorem Span.contains_later (start : Nat) {now now' : Nat} (h : now ≤ now') :
    Span.contains ⟨start, now'⟩ ⟨start, now⟩ :=
  (Span.contains_iff _ _).mpr ⟨Nat.le_refl _, h⟩

theorem Span.contains_earlier {start start' : Nat} (now : Nat) (h : start' ≤ start) :
    Span.contains ⟨start', now⟩ ⟨start, now⟩ :=
  (Span.contains_iff _ _).mpr ⟨h, Nat.le_refl _⟩

theorem Span.encloses_empty {s : Span} {offset : Nat} (hstart : s.start ≤ offset)
    (hstop : offset ≤ s.stop) : s.Encloses (.empty offset) :=
  ⟨hstart, Nat.le_refl _, hstop⟩

namespace Tree

def Path.Nested (outer : Span) (p : Path) : Prop :=
  outer.Encloses p.span ∧ p.span.Encloses p.head.span

mutual

def Expression.Nested (outer : Span) : Expression → Prop
  | .path p => p.Nested outer
  | .call c span => outer.Encloses span ∧ Call.Nested span c
  | .literal _ span => outer.Encloses span

def Call.Nested (outer : Span) : Call Expression → Prop
  | ⟨callee, params, ⟨pairs, span⟩⟩ =>
    callee.Nested outer ∧ expressionsNested outer params ∧ outer.Encloses span
      ∧ pairsNested span pairs

def expressionsNested (outer : Span) : List Expression → Prop
  | [] => True
  | e :: es => e.Nested outer ∧ expressionsNested outer es

def pairsNested (outer : Span) : List (Pair Expression) → Prop
  | [] => True
  | ⟨_, value, span⟩ :: pairs =>
    outer.Encloses span ∧ value.Nested span ∧ pairsNested outer pairs

end

def Dynamic.Nested (outer : Span) : Dynamic → Prop
  | .call m => outer.Encloses m.span ∧ m.call.Nested m.span
  | .literal m =>
    outer.Encloses m.span ∧ m.span.Encloses m.valueSpan ∧ m.span.Encloses m.hash.span

def Part.Nested (outer : Span) : Part → Prop
  | .text t => outer.Encloses t.span
  | .dynamic d => d.Nested outer

def AttributeValue.Nested (outer : Span) : AttributeValue → Prop
  | .text t => outer.Encloses t.span
  | .dynamic d => d.Nested outer
  | .concat parts span => outer.Encloses span ∧ ∀ p ∈ parts, p.Nested span

def Attribute.Nested (outer : Span) (a : Attribute) : Prop :=
  outer.Encloses a.span ∧ a.value.Nested a.span

def Modifier.Nested (outer : Span) (m : Modifier) : Prop :=
  outer.Encloses m.span ∧ m.call.Nested m.span

mutual

/-- A start tag that is open where a partial block begins may end in it, so that the
element is in the body of the partial block and yet starts before it. -/
def Statement.Nested (outer : Span) : Statement → Prop
  | .dynamic d => d.Nested outer
  | .block b => Block.Nested outer b
  | .decorator m => outer.Encloses m.span ∧ m.call.Nested m.span
  | .decoratorBlock b => Block.Nested outer b
  | .partialCall p => outer.Encloses p.span ∧ p.call.Nested p.span
  | .partialBlock ⟨call, ⟨body, _, _, inner⟩, _, _, span⟩ =>
    outer.Encloses span ∧ call.Nested span ∧ span.Encloses inner
      ∧ statementsNested ⟨0, span.stop⟩ body
  | .mustacheComment c => outer.Encloses c.span
  | .comment c => outer.Encloses c.span
  | .element ⟨_, _, attributes, _, modifiers, comments, children, span⟩ =>
    outer.Encloses span ∧ (∀ a ∈ attributes, a.Nested span) ∧ (∀ m ∈ modifiers, m.Nested span)
      ∧ (∀ c ∈ comments, span.Encloses c.span) ∧ statementsNested span children
  | .text t => outer.Encloses t.span

def Block.Nested (outer : Span) : Block Statement → Prop
  | ⟨call, program, inverse, _, _, _, span⟩ =>
    outer.Encloses span ∧ call.Nested span ∧ Section.Nested span program
      ∧ sectionNested span inverse

def Section.Nested (outer : Span) : Section Statement → Prop
  | ⟨body, _, _, span⟩ => outer.Encloses span ∧ statementsNested span body

def sectionNested (outer : Span) : Option (Section Statement) → Prop
  | none => True
  | some s => Section.Nested outer s

def statementsNested (outer : Span) : List Statement → Prop
  | [] => True
  | s :: ss => s.Nested outer ∧ statementsNested outer ss

end

/-- The whole tree lies in the text, each part within the part around it. -/
def Template.Nested (size : Nat) (t : Template) : Prop :=
  Span.Encloses ⟨0, size⟩ t.span ∧ statementsNested t.span t.body

variable {outer outer' : Span}

theorem statementsNested_iff {ss : List Statement} :
    statementsNested outer ss ↔ ∀ s ∈ ss, s.Nested outer := by
  induction ss with
  | nil => simp [statementsNested]
  | cons s ss ih => simp [statementsNested, ih]

theorem Section.nested_iff {s : Section Statement} :
    s.Nested outer ↔ outer.Encloses s.span ∧ statementsNested s.span s.body := by
  obtain ⟨body, params, chained, span⟩ := s
  rfl

section Widen

variable (hcontains : outer'.contains outer)

include hcontains

theorem Dynamic.Nested.widen {d : Dynamic} (h : d.Nested outer) : d.Nested outer' := by
  cases d with
  | call m => exact ⟨h.1.widen hcontains, h.2⟩
  | literal m => exact ⟨h.1.widen hcontains, h.2⟩

theorem Part.Nested.widen {p : Part} (h : p.Nested outer) : p.Nested outer' := by
  cases p with
  | text t => exact Span.Encloses.widen h hcontains
  | dynamic d => exact Dynamic.Nested.widen hcontains h

theorem Attribute.Nested.widen {a : Attribute} (h : a.Nested outer) : a.Nested outer' :=
  ⟨h.1.widen hcontains, h.2⟩

theorem Modifier.Nested.widen {m : Modifier} (h : m.Nested outer) : m.Nested outer' :=
  ⟨h.1.widen hcontains, h.2⟩

theorem Statement.Nested.widen {s : Statement} (h : s.Nested outer) : s.Nested outer' := by
  cases s with
  | dynamic d => exact Dynamic.Nested.widen hcontains h
  | block b =>
    obtain ⟨call, program, inverse, openStrip, inverseStrip, closeStrip, span⟩ := b
    exact ⟨h.1.widen hcontains, h.2⟩
  | decorator m => exact ⟨h.1.widen hcontains, h.2⟩
  | decoratorBlock b =>
    obtain ⟨call, program, inverse, openStrip, inverseStrip, closeStrip, span⟩ := b
    exact ⟨h.1.widen hcontains, h.2⟩
  | partialCall p => exact ⟨h.1.widen hcontains, h.2⟩
  | partialBlock p =>
    obtain ⟨call, ⟨body, params, chained, inner⟩, openStrip, closeStrip, span⟩ := p
    exact ⟨h.1.widen hcontains, h.2⟩
  | mustacheComment c => exact Span.Encloses.widen h hcontains
  | comment c => exact Span.Encloses.widen h hcontains
  | element e =>
    obtain ⟨tag, selfClosing, attributes, params, modifiers, comments, children, span⟩ := e
    exact ⟨h.1.widen hcontains, h.2⟩
  | text t => exact Span.Encloses.widen h hcontains

end Widen

section Translate

variable {src : Source} {lo hi : Position}

theorem spanFor_within (src : Source) {l : Location} (hlo : 1 ≤ lo.line) (h : l.Within lo hi) :
    Span.Encloses ⟨src.offsetFor lo, src.offsetFor hi⟩ (src.spanFor l)
      ∧ src.spanFor l = ⟨src.offsetFor l.start, src.offsetFor l.stop⟩ := by
  have hline := Position.one_le_line_of_le h.1 hlo
  rw [src.spanFor_eq hline h.2.1]
  exact ⟨⟨src.offsetFor_mono hlo h.1, src.offsetFor_mono hline h.2.1,
    src.offsetFor_mono (Position.one_le_line_of_le h.2.1 hline) h.2.2⟩, rfl⟩

private theorem resolve_nested {p : Mustache.Path} {q : Path} (hlo : 1 ≤ lo.line)
    (hp : p.loc.Within lo hi) (h : Path.resolve src p = .ok q) :
    q.Nested ⟨src.offsetFor lo, src.offsetFor hi⟩ := by
  have hspan := (spanFor_within src hlo hp).1
  have hhead (bytes : Nat) :
      (src.spanFor p.loc).Encloses (Path.headSpan (src.spanFor p.loc) bytes) := by
    have := hspan.2.1
    refine ⟨Nat.le_refl _, ?_, ?_⟩ <;> simp only [Path.headSpan] <;> omega
  unfold Path.resolve at h
  dsimp only at h
  split at h
  · rename_i head tail hsplit
    cases h
    refine ⟨hspan, ?_⟩
    simp only [Path.split?, bind_eq_ok] at hsplit
    obtain ⟨parts, -, hsplit⟩ := hsplit
    repeat' split at hsplit
    all_goals cases hsplit; try exact hhead _
  · cases h

theorem emptyHash_nested {callee : Expression} {params : List Expression}
    (hcallee : callee.Nested outer) (hparams : expressionsNested outer params) :
    outer.Encloses (emptyHash callee params).span := by
  have hspan {e : Expression} (he : e.Nested outer) : outer.Encloses e.span := by
    cases e with
    | path p => exact he.1
    | call c span => exact he.1
    | literal l span => exact he
  have hlast : outer.Encloses (params.getLast?.getD callee).span := by
    cases hl : params.getLast? with
    | none => exact hspan hcallee
    | some last =>
      refine hspan ?_
      have hmem := List.mem_of_getLast? hl
      clear hl
      induction params with
      | nil => cases hmem
      | cons e es ih =>
        rcases List.mem_cons.mp hmem with rfl | hmem
        · exact hparams.1
        · exact ih hparams.2 hmem
  exact Span.encloses_empty (Nat.le_trans hlast.1 hlast.2.1) hlast.2.2

mutual

theorem expression_nested {lo hi : Position} (hlo : 1 ≤ lo.line) :
    (e : Mustache.Expression) → {e' : Expression} → e.Within lo hi → expression src e = .ok e' →
      e'.Nested ⟨src.offsetFor lo, src.offsetFor hi⟩
  | .path p, e', hwithin, h => by
    simp only [expression, map_eq_ok] at h
    obtain ⟨q, hq, rfl⟩ := h
    exact resolve_nested hlo hwithin hq
  | .literal l loc, e', hwithin, h => by
    simp only [expression, Except.ok.injEq] at h
    subst h
    exact (spanFor_within src hlo hwithin).1
  | .call c loc, e', hwithin, h => by
    simp only [expression, map_eq_ok] at h
    obtain ⟨c', hc, rfl⟩ := h
    obtain ⟨hspan, heq⟩ := spanFor_within src hlo hwithin.1
    refine ⟨hspan, ?_⟩
    rw [heq]
    exact call_nested (Position.one_le_line_of_le hwithin.1.1 hlo) c hwithin.2 hc

theorem call_nested {lo hi : Position} (hlo : 1 ≤ lo.line) :
    (c : Mustache.Call Mustache.Expression) → {c' : Call Expression} → c.Within lo hi →
      call src c = .ok c' → c'.Nested ⟨src.offsetFor lo, src.offsetFor hi⟩
  | ⟨callee, params, none⟩, c', hwithin, h => by
    simp only [call, bind_eq_ok, pure_eq_ok] at h
    obtain ⟨callee', hcallee, _, _, params', hparams, rfl⟩ := h
    have hcallee' := expression_nested hlo callee hwithin.1 hcallee
    have hparams' := expressions_nested hlo params hwithin.2 hparams
    exact ⟨hcallee', hparams', emptyHash_nested hcallee' hparams', trivial⟩
  | ⟨callee, params, some ⟨pairs, loc⟩⟩, c', hwithin, h => by
    simp only [call, bind_eq_ok, pure_eq_ok] at h
    obtain ⟨callee', hcallee, _, _, params', hparams, pairs', hpairs, rfl⟩ := h
    obtain ⟨hspan, heq⟩ := spanFor_within src hlo hwithin.2.2.1
    refine ⟨expression_nested hlo callee hwithin.1 hcallee,
      expressions_nested hlo params hwithin.2.1 hparams, hspan, ?_⟩
    rw [heq]
    exact hashPairs_nested (Position.one_le_line_of_le hwithin.2.2.1.1 hlo) pairs hwithin.2.2.2
      (Nat.le_refl _) hpairs

theorem expressions_nested {lo hi : Position} (hlo : 1 ≤ lo.line) :
    (es : List Mustache.Expression) → {es' : List Expression} → Mustache.allWithin lo hi es →
      expressions src es = .ok es' →
        expressionsNested ⟨src.offsetFor lo, src.offsetFor hi⟩ es'
  | [], es', _, h => by
    simp only [expressions, Except.ok.injEq] at h
    subst h
    exact trivial
  | e :: es, es', hwithin, h => by
    simp only [expressions, bind_eq_ok, pure_eq_ok] at h
    obtain ⟨e', he, es', hes, rfl⟩ := h
    exact ⟨expression_nested hlo e hwithin.1 he, expressions_nested hlo es hwithin.2 hes⟩

theorem hashPairs_nested {lo hi : Position} (hlo : 1 ≤ lo.line) :
    (ps : List (Mustache.Pair Mustache.Expression)) → {ps' : List (Pair Expression)} →
      Mustache.pairsWithin lo hi ps → {start : Nat} → start ≤ src.offsetFor lo →
        hashPairs src ps = .ok ps' → pairsNested ⟨start, src.offsetFor hi⟩ ps'
  | [], ps', _, _, _, h => by
    simp only [hashPairs, Except.ok.injEq] at h
    subst h
    exact trivial
  | ⟨key, value, loc⟩ :: ps, ps', hwithin, start, hstart, h => by
    simp only [hashPairs, bind_eq_ok, pure_eq_ok] at h
    obtain ⟨value', hvalue, ps', hps, rfl⟩ := h
    obtain ⟨hloc, hvalue', hps'⟩ := hwithin
    obtain ⟨hspan, heq⟩ := spanFor_within src hlo hloc
    have hline := Position.one_le_line_of_le hloc.1 hlo
    refine ⟨hspan.widen (Span.contains_earlier _ hstart), ?_, ?_⟩
    · rw [heq]
      exact expression_nested hline value hvalue' hvalue
    · refine hashPairs_nested (Position.one_le_line_of_le hloc.2.1 hline) ps hps' ?_ hps
      exact Nat.le_trans hstart (src.offsetFor_mono hlo (le_trans hloc.1 hloc.2.1))

end

private theorem partialName_nested {c : Mustache.Call Mustache.Expression} {c' : Call Expression}
    (hlo : 1 ≤ lo.line) (hwithin : c.Within lo hi) (h : partialName src c = .ok c') :
    c'.Nested ⟨src.offsetFor lo, src.offsetFor hi⟩ := by
  obtain ⟨callee, params, _ | ⟨pairs, loc⟩⟩ := c
  · simp only [partialName, bind_eq_ok, pure_eq_ok] at h
    obtain ⟨callee', hcallee, params', hparams, rfl⟩ := h
    have hcallee' := expression_nested hlo callee hwithin.1 hcallee
    have hparams' := expressions_nested hlo params hwithin.2 hparams
    exact ⟨hcallee', hparams', emptyHash_nested hcallee' hparams', trivial⟩
  · simp only [partialName, bind_eq_ok, pure_eq_ok] at h
    obtain ⟨callee', hcallee, params', hparams, pairs', hpairs, rfl⟩ := h
    obtain ⟨hspan, heq⟩ := spanFor_within src hlo hwithin.2.2.1
    refine ⟨expression_nested hlo callee hwithin.1 hcallee,
      expressions_nested hlo params hwithin.2.1 hparams, hspan, ?_⟩
    rw [heq]
    exact hashPairs_nested (Position.one_le_line_of_le hwithin.2.2.1.1 hlo) pairs hwithin.2.2.2
      (Nat.le_refl _) hpairs

theorem dynamic_nested {m : Mustache.Interpolation} {d : Dynamic} (hlo : 1 ≤ lo.line)
    (hloc : m.loc.Within lo hi) (hcall : m.call.Within m.loc.start m.loc.stop)
    (h : dynamic src m = .ok d) :
    d.Nested ⟨src.offsetFor lo, src.offsetFor hi⟩ ∧ d.span = src.spanFor m.loc := by
  obtain ⟨hspan, heq⟩ := spanFor_within src hlo hloc
  have hline := Position.one_le_line_of_le hloc.1 hlo
  simp only [dynamic, bind_eq_ok] at h
  obtain ⟨callee, hcallee, h⟩ := h
  split at h
  · rename_i l valueSpan
    split at h
    · cases h
      have hcallee' : Mustache.Expression.Within m.loc.start m.loc.stop m.call.callee := by
        obtain ⟨⟨_, _, _ | _⟩, _, _, _⟩ := m
        · exact hcall.1
        · exact hcall.1
      have hvalue : Span.Encloses _ valueSpan := expression_nested hline _ hcallee' hcallee
      rw [← heq] at hvalue
      exact ⟨⟨hspan, hvalue, Span.encloses_empty (Nat.le_trans hvalue.1 hvalue.2.1)
        hvalue.2.2⟩, rfl⟩
    · cases h
  · simp only [bind_eq_ok, pure_eq_ok] at h
    obtain ⟨c, hc, rfl⟩ := h
    refine ⟨⟨hspan, ?_⟩, rfl⟩
    show c.Nested (src.spanFor m.loc)
    rw [heq]
    exact call_nested hline m.call hcall hc

theorem call_in_span {c : Mustache.Call Mustache.Expression} {c' : Call Expression} {l : Location}
    (hlo : 1 ≤ lo.line) (hl : l.Within lo hi) (hwithin : c.Within l.start l.stop)
    (h : call src c = .ok c') : c'.Nested (src.spanFor l) := by
  rw [(spanFor_within src hlo hl).2]
  exact call_nested (Position.one_le_line_of_le hl.1 hlo) c hwithin h

theorem partialName_in_span {c : Mustache.Call Mustache.Expression} {c' : Call Expression}
    {l : Location} (hlo : 1 ≤ lo.line) (hl : l.Within lo hi) (hwithin : c.Within l.start l.stop)
    (h : partialName src c = .ok c') : c'.Nested (src.spanFor l) := by
  rw [(spanFor_within src hlo hl).2]
  exact partialName_nested (Position.one_le_line_of_le hl.1 hlo) hwithin h

end Translate

end Tree
end HtmlTemplate
