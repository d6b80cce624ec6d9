import HtmlTemplate.Proofs.Delimits
import HtmlTemplate.Proofs.Evaluation
import HtmlTemplate.Proofs.Siblings
import Mathlib.Data.List.Permutation

/-! The text at the span of a node. What comes from mustaches has the span of the mustaches: from
one pair of delimiters to the other, and of a literal all that it is written as. The machine that
reads the text around them does not change these spans, wherever it puts the nodes. -/

namespace HtmlTemplate.Tree

mutual

def Expression.Exact (src : Source) : Expression → Prop
  | .path _ => True
  | .call c span => src.Delimits ['('] [')'] span ∧ Call.Exact src c
  | .literal l span => l.Written (src.slice span)

def Call.Exact (src : Source) : Call Expression → Prop
  | ⟨callee, params, ⟨pairs, _⟩⟩ =>
    callee.Exact src ∧ expressionsExact src params ∧ pairsExact src pairs

def expressionsExact (src : Source) : List Expression → Prop
  | [] => True
  | e :: es => e.Exact src ∧ expressionsExact src es

def pairsExact (src : Source) : List (Pair Expression) → Prop
  | [] => True
  | ⟨_, value, _⟩ :: pairs => value.Exact src ∧ pairsExact src pairs

end

def Dynamic.Exact (src : Source) : Dynamic → Prop
  | .call m => src.Braced m.span ∧ m.call.Exact src
  | .literal m => src.Braced m.span ∧ m.value.Written (src.slice m.valueSpan)

def Part.Exact (src : Source) : Part → Prop
  | .text _ => True
  | .dynamic d => d.Exact src

def AttributeValue.Exact (src : Source) : AttributeValue → Prop
  | .text _ => True
  | .dynamic d => d.Exact src
  | .concat parts _ => ∀ p ∈ parts, p.Exact src

def Attribute.Exact (src : Source) (a : Attribute) : Prop :=
  a.value.Exact src

def Modifier.Exact (src : Source) (m : Modifier) : Prop :=
  src.Braced m.span ∧ m.call.Exact src

mutual

/-- A block is `linked` if it is that of an `{{else if}}`, which has no closing tag of its own. -/
def Statement.Exact (src : Source) (linked : Bool) : Statement → Prop
  | .dynamic d => d.Exact src
  | .block b => (linked = false → src.Braced b.span) ∧ Block.Exact src b
  | .decorator m => src.Braced m.span ∧ m.call.Exact src
  | .decoratorBlock b => src.Braced b.span ∧ Block.Exact src b
  | .partialCall p => src.Braced p.span ∧ p.call.Exact src
  | .partialBlock ⟨call, program, _, _, span⟩ =>
    src.Braced span ∧ call.Exact src ∧ Section.Exact src program
  | .mustacheComment c => src.Braced c.span
  | .comment _ => True
  | .element ⟨_, _, attributes, _, modifiers, comments, children, _⟩ =>
    (∀ a ∈ attributes, a.Exact src) ∧ (∀ m ∈ modifiers, m.Exact src)
      ∧ (∀ c ∈ comments, src.Braced c.span) ∧ statementsExact src false children
  | .text _ => True

def Block.Exact (src : Source) : Block Statement → Prop
  | ⟨call, program, inverse, _, _, _, _⟩ =>
    call.Exact src ∧ Section.Exact src program ∧ sectionExact src inverse

/-- A chained section holds the linked block and nothing else. -/
def Section.Exact (src : Source) : Section Statement → Prop
  | ⟨body, _, chained, _⟩ =>
    (chained = true → ∃ b, body = [.block b]) ∧ statementsExact src chained body

def sectionExact (src : Source) : Option (Section Statement) → Prop
  | none => True
  | some s => Section.Exact src s

def statementsExact (src : Source) (linked : Bool) : List Statement → Prop
  | [] => True
  | s :: ss => s.Exact src linked ∧ statementsExact src linked ss

end

/-- The spans of all nodes of a template that come from mustaches are exact. -/
def Template.Exact (src : Source) (t : Template) : Prop :=
  statementsExact src false t.body

variable {src : Source} {linked : Bool}

private theorem statementsExact_iff {ss : List Statement} :
    statementsExact src linked ss ↔ ∀ s ∈ ss, s.Exact src linked := by
  induction ss with
  | nil => simp [statementsExact]
  | cons s ss ih => simp [statementsExact, ih]

theorem statementsExact.concat {ss : List Statement} {s : Statement}
    (h : statementsExact src linked ss) (hs : s.Exact src linked) :
    statementsExact src linked (ss ++ [s]) := by
  rw [statementsExact_iff] at h ⊢
  exact List.forall_mem_append.mpr ⟨h, List.forall_mem_singleton.mpr hs⟩

theorem sectionExact_getD {program : Option (Section Statement)} {span : Span}
    (h : sectionExact src program) : (program.getD ⟨[], [], false, span⟩).Exact src := by
  cases program with
  | none => exact ⟨by simp, trivial⟩
  | some _ => exact h

mutual

theorem expression_exact :
    (e : Mustache.Expression) → {e' : Expression} → e.Exact src → expression src e = .ok e' →
      e'.Exact src
  | .path p, e', _, h => by
    simp only [expression, map_eq_ok] at h
    obtain ⟨q, -, rfl⟩ := h
    trivial
  | .literal l loc, e', hexact, h => by
    simp only [expression, Except.ok.injEq] at h
    subst h
    exact hexact
  | .call c loc, e', hexact, h => by
    simp only [expression, map_eq_ok] at h
    obtain ⟨c', hc, rfl⟩ := h
    exact ⟨hexact.1, call_exact c hexact.2 hc⟩

theorem call_exact :
    (c : Mustache.Call Mustache.Expression) → {c' : Call Expression} → c.Exact src →
      call src c = .ok c' → c'.Exact src
  | ⟨callee, params, none⟩, c', hexact, h => by
    simp only [call, bind_eq_ok, pure_eq_ok] at h
    obtain ⟨callee', hcallee, _, _, params', hparams, rfl⟩ := h
    exact ⟨expression_exact callee hexact.1 hcallee, expressions_exact params hexact.2 hparams,
      trivial⟩
  | ⟨callee, params, some ⟨pairs, loc⟩⟩, c', hexact, h => by
    simp only [call, bind_eq_ok, pure_eq_ok] at h
    obtain ⟨callee', hcallee, _, _, params', hparams, pairs', hpairs, rfl⟩ := h
    exact ⟨expression_exact callee hexact.1 hcallee, expressions_exact params hexact.2.1 hparams,
      hashPairs_exact pairs hexact.2.2 hpairs⟩

theorem expressions_exact :
    (es : List Mustache.Expression) → {es' : List Expression} → Mustache.paramsExact src es →
      expressions src es = .ok es' → expressionsExact src es'
  | [], es', _, h => by
    simp only [expressions, Except.ok.injEq] at h
    subst h
    trivial
  | e :: es, es', hexact, h => by
    simp only [expressions, bind_eq_ok, pure_eq_ok] at h
    obtain ⟨e', he, es', hes, rfl⟩ := h
    exact ⟨expression_exact e hexact.1 he, expressions_exact es hexact.2 hes⟩

theorem hashPairs_exact :
    (ps : List (Mustache.Pair Mustache.Expression)) → {ps' : List (Pair Expression)} →
      Mustache.pairsExact src ps → hashPairs src ps = .ok ps' → pairsExact src ps'
  | [], ps', _, h => by
    simp only [hashPairs, Except.ok.injEq] at h
    subst h
    trivial
  | ⟨key, value, loc⟩ :: ps, ps', hexact, h => by
    simp only [hashPairs, bind_eq_ok, pure_eq_ok] at h
    obtain ⟨value', hvalue, ps', hps, rfl⟩ := h
    exact ⟨expression_exact value hexact.1 hvalue, hashPairs_exact ps hexact.2 hps⟩

end

theorem partialName_exact {c : Mustache.Call Mustache.Expression} {c' : Call Expression}
    (hexact : c.Exact src) (h : partialName src c = .ok c') : c'.Exact src := by
  obtain ⟨callee, params, _ | ⟨pairs, loc⟩⟩ := c
  · simp only [partialName, bind_eq_ok, pure_eq_ok] at h
    obtain ⟨callee', hcallee, params', hparams, rfl⟩ := h
    exact ⟨expression_exact callee hexact.1 hcallee, expressions_exact params hexact.2 hparams,
      trivial⟩
  · simp only [partialName, bind_eq_ok, pure_eq_ok] at h
    obtain ⟨callee', hcallee, params', hparams, pairs', hpairs, rfl⟩ := h
    exact ⟨expression_exact callee hexact.1 hcallee, expressions_exact params hexact.2.1 hparams,
      hashPairs_exact pairs hexact.2.2 hpairs⟩

theorem dynamic_exact {m : Mustache.Interpolation} {d : Dynamic}
    (hbraced : src.Braced (src.spanFor m.loc)) (hcall : m.call.Exact src)
    (h : dynamic src m = .ok d) : d.Exact src := by
  simp only [dynamic, bind_eq_ok] at h
  obtain ⟨callee, hcallee, h⟩ := h
  split at h
  · rename_i l valueSpan
    split at h
    · cases h
      have hcallee' : m.call.callee.Exact src := by
        obtain ⟨⟨_, _, _ | _⟩, _, _, _⟩ := m <;> exact hcall.1
      exact ⟨hbraced, expression_exact _ hcallee' hcallee⟩
    · cases h
  · simp only [bind_eq_ok, pure_eq_ok] at h
    obtain ⟨c, hc, rfl⟩ := h
    exact ⟨hbraced, call_exact m.call hcall hc⟩

def StartTag.Exact (src : Source) (t : StartTag) : Prop :=
  (∀ a ∈ t.attributes, a.Exact src) ∧ (∀ m ∈ t.modifiers, m.Exact src)
    ∧ ∀ c ∈ t.comments, src.Braced c.span

def PendingAttribute.Exact (src : Source) (a : PendingAttribute) : Prop :=
  ∀ p ∈ a.parts, p.Exact src

def OpenElement.Exact (src : Source) (e : OpenElement) : Prop :=
  (∀ a ∈ e.attributes, a.Exact src) ∧ (∀ m ∈ e.modifiers, m.Exact src)
    ∧ (∀ c ∈ e.comments, src.Braced c.span) ∧ statementsExact src false e.children

theorem OpenElement.Exact.finish {e : OpenElement} (h : e.Exact src) (stop : Nat) :
    (Statement.element (e.finish stop)).Exact src linked := h

theorem StartTag.Exact.opened {t : StartTag} (h : t.Exact src) (kept : Nat)
    (params : List (List Char)) (stop : Nat) : (Markup.opened t kept params stop).Exact src :=
  ⟨fun a ha => h.1 a (List.mem_of_mem_take ha), h.2.1, h.2.2, trivial⟩

namespace PendingAttribute.Exact

variable {a : PendingAttribute}

theorem finishText (h : a.Exact src) : a.finishText.Exact src := by
  unfold PendingAttribute.finishText
  split
  · exact List.forall_mem_append.mpr ⟨h, List.forall_mem_singleton.mpr trivial⟩
  · exact h

theorem addDynamic (h : a.Exact src) {d : Dynamic} (hd : d.Exact src) :
    (a.addDynamic d).Exact src :=
  List.forall_mem_append.mpr ⟨h.finishText, List.forall_mem_singleton.mpr hd⟩

theorem value (h : a.Exact src) {span : Span} {value : AttributeValue}
    (hvalue : a.value? span = .ok value) : value.Exact src := by
  unfold PendingAttribute.value? at hvalue
  split at hvalue
  · cases hvalue
    trivial
  · split at hvalue
    · cases hvalue
      exact h
    · split at hvalue
      · rename_i part hparts
        cases hvalue
        have hpart : part.Exact src := h part (by rw [hparts]; exact List.mem_cons_self)
        cases part <;> exact hpart
      · cases hvalue

end PendingAttribute.Exact

/-- The innermost body is filled with exact nodes, and so are the elements open in it. The body
of an `{{else if}}` has none. -/
inductive Filled (src : Source) (base : List (Nat × Frame)) : Bool → List (Nat × Frame) → Prop
  | body {linked : Bool} {id : Nat} {children : List Statement}
    (hchildren : statementsExact src linked children) :
    Filled src base linked ((id, .body children) :: base)
  | element {id : Nat} {e : OpenElement} {frames : List (Nat × Frame)} (he : e.Exact src)
    (hframes : Filled src base false frames) :
    Filled src base false ((id, .element e) :: frames)

namespace Filled

variable {base : List (Nat × Frame)} {s t : OpenElements}

theorem append (h : Filled src base linked s.frames) {node : Statement}
    (hnode : node.Exact src linked) : Filled src base linked (s.append node).frames := by
  obtain ⟨frames, nextId⟩ := s
  cases h with
  | body hchildren => exact .body (hchildren.concat hnode)
  | element he hframes => exact .element ⟨he.1, he.2.1, he.2.2.1, he.2.2.2.concat hnode⟩ hframes

theorem popElement {e : OpenElement} (h : Filled src base linked s.frames)
    (hpop : s.popElement? = some (e, t)) : e.Exact src ∧ Filled src base false t.frames := by
  obtain ⟨frames, nextId⟩ := s
  cases h with
  | body _ => cases hpop
  | element he hframes =>
    cases hpop
    exact ⟨he, hframes⟩

theorem popped {id : Nat} {children : List Statement} (h : Filled src base linked s.frames)
    (hpop : s.popExpecting src id = .ok (.body children, t)) :
    statementsExact src linked children ∧ t.frames = base := by
  obtain ⟨frames, nextId⟩ := s
  cases h with
  | body hchildren =>
    simp only [OpenElements.popExpecting] at hpop
    split at hpop
    · cases hpop
      exact ⟨hchildren, rfl⟩
    · simp [fault] at hpop
  | element _ _ =>
    simp only [OpenElements.popExpecting] at hpop
    split at hpop
    · cases hpop
    · simp [fault] at hpop

end Filled

namespace Markup

structure Exact (src : Source) (linked : Bool) (base : List (Nat × Frame)) (m : Markup) :
    Prop where
  current : ∀ t, m.current = some (.startTag t) → t.Exact src
  pending : ∀ a, m.pending = some a → a.Exact src
  filled : Filled src base linked m.stack.frames

namespace Exact

variable {base : List (Nat × Frame)} {m n : Markup}

theorem append (h : m.Exact src linked base) {node : Statement} (hnode : node.Exact src linked) :
    (m.append node).Exact src linked base :=
  ⟨h.current, h.pending, h.filled.append hnode⟩

theorem withCurrent (h : m.Exact src linked base) {current : Option Current}
    (hc : ∀ t, current = some (.startTag t) → t.Exact src) :
    { m with current }.Exact src linked base :=
  ⟨hc, h.pending, h.filled⟩

theorem mapAttribute (h : m.Exact src linked base) {f : PendingAttribute → PendingAttribute}
    (hf : ∀ a : PendingAttribute, a.Exact src → (f a).Exact src) :
    (m.mapAttribute f).Exact src linked base := by
  refine ⟨h.current, fun a ha => ?_, h.filled⟩
  obtain ⟨p, hp, rfl⟩ := Option.map_eq_some_iff.mp ha
  exact hf p (h.pending p hp)

theorem withStartTag {span : Span} {f : StartTag → StartTag} (h : m.Exact src linked base)
    (hf : ∀ t : StartTag, t.Exact src → (f t).Exact src) (hn : m.withStartTag src span f = .ok n) :
    n.Exact src linked base := by
  obtain ⟨t, ht, rfl⟩ := withStartTag_ok hn
  refine h.withCurrent ?_
  rintro _ ⟨⟩
  exact hf t (h.current t ht)

theorem addModifier (h : m.Exact src linked base) {x : Modifier} (hx : x.Exact src)
    (hn : m.addModifier src x = .ok n) : n.Exact src linked base := by
  unfold Markup.addModifier at hn
  refine h.withStartTag (fun t ht => ?_) hn
  exact ⟨ht.1, List.forall_mem_append.mpr ⟨ht.2.1, List.forall_mem_singleton.mpr hx⟩, ht.2.2⟩

theorem addTagComment (h : m.Exact src linked base) {c : Comment} (hc : src.Braced c.span)
    (hn : m.addTagComment src c = .ok n) : n.Exact src linked base := by
  unfold Markup.addTagComment at hn
  refine h.withStartTag (fun t ht => ?_) hn
  exact ⟨ht.1, ht.2.1, List.forall_mem_append.mpr ⟨ht.2.2, List.forall_mem_singleton.mpr hc⟩⟩

theorem beginValue (h : m.Exact src linked base) (quoted : Bool) (offset : Nat) :
    (m.beginValue quoted offset).Exact src linked base :=
  h.mapAttribute fun _ ha => ha

theorem addValuePart (h : m.Exact src linked base) {d : Dynamic} (hd : d.Exact src) :
    (m.addValuePart d).Exact src linked base :=
  h.mapAttribute fun _ ha => ha.addDynamic hd

theorem finishValue {stop : Nat} (h : m.Exact src linked base)
    (hn : m.finishValue src stop = .ok n) : n.Exact src linked base := by
  cases ha : m.pending with
  | none =>
    rw [finishValue_none ha, Except.ok.injEq] at hn
    exact hn ▸ h
  | some a =>
    obtain ⟨t, value, ht, hvalue, rfl⟩ := finishValue_ok ha hn
    obtain ⟨hattributes, hrest⟩ := h.current t ht
    have hvalue := (h.pending a ha).finishText.value hvalue
    refine ⟨?_, by simp, h.filled⟩
    rintro _ ⟨⟩
    exact ⟨List.forall_mem_append.mpr ⟨hattributes, List.forall_mem_singleton.mpr hvalue⟩, hrest⟩

theorem closeElement {name : List Char} {tagSpan : Span} {implicit : Bool}
    (h : m.Exact src false base) (hn : m.closeElement src name tagSpan implicit = .ok n) :
    n.Exact src false base := by
  obtain ⟨e, stack, hpop, -, rfl⟩ := closeElement_ok hn
  obtain ⟨he, hfilled⟩ := h.filled.popElement hpop
  exact ⟨h.current, h.pending, hfilled.append (he.finish _)⟩

theorem openElement {t : StartTag} {stop : Nat} (h : m.Exact src false base) (ht : t.Exact src)
    (hn : m.openElement src t stop = .ok n) : n.Exact src false base := by
  obtain ⟨kept, params, -, rfl | rfl⟩ := openElement_ok hn
  · exact ⟨h.current, h.pending, .element (ht.opened kept params stop) h.filled⟩
  · have hfilled : Filled src base false
        (OpenElements.mk m.stack.frames (m.stack.nextId + 1)).frames := h.filled
    exact ⟨h.current, h.pending, hfilled.append ((ht.opened kept params stop).finish stop)⟩

theorem finishTag {stop : Nat} (h : m.Exact src false base) (hn : m.finishTag src stop = .ok n) :
    n.Exact src false base := by
  have hnone : { m with current := none }.Exact src false base := h.withCurrent (by simp)
  unfold Markup.finishTag at hn
  split at hn
  · rename_i t ht
    exact hnone.openElement (h.current t ht) hn
  · exact hnone.closeElement hn
  · cases hn
    exact h

theorem receive {event : Html.Event} (h : m.Exact src false base)
    (hn : m.receive src event = .ok n) : n.Exact src false base := by
  cases event with
  | reset =>
    cases hn
    exact ⟨by simp, by simp, h.filled⟩
  | beginStartTag p =>
    cases hn
    refine h.withCurrent ?_
    rintro _ ⟨⟩
    exact ⟨List.forall_mem_nil _, List.forall_mem_nil _, List.forall_mem_nil _⟩
  | beginEndTag p | beginData p | beginComment p =>
    cases hn
    exact h.withCurrent (by simp)
  | tagName c =>
    cases hn
    unfold growTagName
    split
    · rename_i t ht
      refine h.withCurrent ?_
      rintro _ ⟨⟩
      exact h.current t ht
    · exact h.withCurrent (by simp)
    · exact h
  | selfClosing =>
    simp only [Markup.receive, markSelfClosing] at hn
    split at hn
    · rename_i t ht
      cases hn
      refine h.withCurrent ?_
      rintro _ ⟨⟩
      exact h.current t ht
    · simp [fault] at hn
    · cases hn
      exact h
  | finishTag p => exact h.finishTag hn
  | beginAttribute p =>
    cases hn
    refine ⟨h.current, ?_, h.filled⟩
    rintro _ ⟨⟩
    exact List.forall_mem_nil _
  | attributeName c | attributeValue text l =>
    cases hn
    exact h.mapAttribute fun _ ha => ha
  | beginAttributeValue quoted p =>
    cases hn
    exact h.beginValue quoted _
  | finishAttributeValue p => exact h.finishValue hn
  | data text | commentData text =>
    simp only [Markup.receive] at hn
    split at hn
    · cases hn
      exact h.withCurrent (by simp)
    · cases hn
      exact h
  | finishData p | finishComment p =>
    simp only [Markup.receive] at hn
    split at hn
    · cases hn
      exact (h.withCurrent (by simp)).append trivial
    · cases hn
      exact h
  | syntaxError f p => simp [Markup.receive, fault] at hn

theorem reports {reports : List Html.Emission} (h : m.Exact src false base)
    (hn : reports.foldlM (fun m e => m.receive src e.event) m = .ok n) :
    n.Exact src false base :=
  reports_keep (fun _ _ _ _ hm hn => hm.receive hn) hn h

end Exact

end Markup

namespace Assembly

variable {base : List (Nat × Frame)} {a b : Assembly}

theorem exact_endAttribute (h : a.markup.Exact src linked base) (hb : a.endAttribute src = .ok b) :
    b.markup.Exact src linked base := by
  simp only [endAttribute, withMarkup, bind_eq_ok, pure_eq_ok] at hb
  obtain ⟨m, hm, rfl⟩ := hb
  exact (h.beginValue _ _).finishValue hm

private theorem exact_addModifier {d : Dynamic} (h : a.markup.Exact src linked base)
    (hd : d.Exact src)
    (hb : a.addModifier src d = .ok b) : b.markup.Exact src linked base := by
  cases d with
  | call m =>
    simp only [addModifier, withMarkup, bind_eq_ok, pure_eq_ok] at hb
    obtain ⟨n, hn, rfl⟩ := hb
    have hm : Modifier.Exact src ⟨m.call, m.span⟩ := hd
    exact h.addModifier hm hn
  | literal m => simp [addModifier, fault] at hb

private theorem exact_addTagComment {c : Comment} (h : a.markup.Exact src linked base)
    (hc : src.Braced c.span) (hb : a.withMarkup (·.addTagComment src c) = .ok b) :
    b.markup.Exact src linked base := by
  simp only [withMarkup, bind_eq_ok, pure_eq_ok] at hb
  obtain ⟨n, hn, rfl⟩ := hb
  exact h.addTagComment hc hn

private theorem exact_place {d : Dynamic} (h : a.markup.Exact src linked base) (hd : d.Exact src)
    (hb : a.place src d = .ok b) : b.markup.Exact src linked base := by
  have hafter (hb : (do
      let b ← a.endAttribute src
      let b ← b.addModifier src d
      return b.become .beforeAttributeName) = Except.ok b) : b.markup.Exact src linked base := by
    simp only [bind_eq_ok, pure_eq_ok] at hb
    obtain ⟨a₁, h₁, a₂, h₂, rfl⟩ := hb
    have hexact := exact_addModifier (exact_endAttribute h h₁) hd h₂
    exact hexact
  unfold Assembly.place at hb
  split at hb
  · simp [fault] at hb
  · simp [fault] at hb
  · exact exact_addModifier h hd hb
  · exact hafter hb
  · exact hafter hb
  · simp only [bind_eq_ok, pure_eq_ok] at hb
    obtain ⟨a₁, h₁, rfl⟩ := hb
    have hexact := exact_addModifier h hd h₁
    exact hexact
  · cases hb
    exact (h.beginValue _ _).addValuePart hd
  iterate 3
    cases hb
    exact h.addValuePart hd
  · cases hb
    exact h.append hd

private theorem exact_placeComment {c : Comment} (h : a.markup.Exact src linked base)
    (hc : src.Braced c.span) (hb : a.placeComment src c = .ok b) :
    b.markup.Exact src linked base := by
  unfold Assembly.placeComment at hb
  split at hb
  · exact exact_addTagComment h hc hb
  · simp only [bind_eq_ok, pure_eq_ok] at hb
    obtain ⟨a₁, h₁, a₂, h₂, rfl⟩ := hb
    have hexact := exact_addTagComment (exact_endAttribute h h₁) hc h₂
    exact hexact
  · cases hb
    exact h.append hc
  · cases hb
    exact h.append hc
  · simp [fault] at hb

theorem exact_flat {s : Mustache.Statement}
    (hs : isSectioned s = false ∨ a.tokenizer.state.isComment = true)
    (hexact : s.Exact src false) (h : a.markup.Exact src false base)
    (hb : statement src a s = .ok b) : b.markup.Exact src false base := by
  cases statement_ok hb with
  | content hb =>
    have hmarkup := (content_ok hb).1
    rw [List.foldlM_map] at hmarkup
    exact h.reports hmarkup
  | commented _ _ hb => exact h.reports (follow_ok hb).1
  | mustache _ hd hb => exact exact_place h (dynamic_exact hexact.1 hexact.2 hd) hb
  | decorator _ hc => exact h.append ⟨hexact.1, call_exact _ hexact.2 hc⟩
  | @comment c _ _ hb =>
    have hbraced : src.Braced (src.spanFor c.loc) := hexact
    exact exact_placeComment h hbraced hb
  | partialCall _ hc => exact h.append ⟨hexact.1, partialName_exact hexact.2 hc⟩
  | block hblock =>
    have hdata := (block_ok hblock).1
    simp [isSectioned, Html.State.isComment_of_isData hdata] at hs
  | decoratorBlock hblock =>
    have hdata := (block_ok hblock).1
    simp [isSectioned, Html.State.isComment_of_isData hdata] at hs
  | partialBlock hcomment => simp [isSectioned, hcomment] at hs

def Links (linked : Bool) (a : Assembly) (ss : List Mustache.Statement) : Prop :=
  linked = true → ss = [] ∨ (∃ m, ss = [.block m]) ∧ a.tokenizer.state.isData = true

theorem links_false (a : Assembly) (ss : List Mustache.Statement) : Links false a ss := by
  rintro ⟨⟩

theorem Links.of_cons {c : Assembly} {s : Mustache.Statement} {ss : List Mustache.Statement}
    (h : Links linked a (s :: ss)) : Links linked c ss := by
  intro hlinked
  rcases h hlinked with hnil | ⟨⟨m, hm⟩, -⟩
  · cases hnil
  · exact .inl (List.cons.inj hm).2

theorem Links.of_flat {s : Mustache.Statement} {ss : List Mustache.Statement}
    (h : Links linked a (s :: ss))
    (hs : isSectioned s = false ∨ a.tokenizer.state.isComment = true) : linked = false := by
  cases linked with
  | false => rfl
  | true =>
    rcases h rfl with hnil | ⟨⟨m, hm⟩, hdata⟩
    · cases hnil
    · obtain ⟨rfl, -⟩ := List.cons.inj hm
      simp [isSectioned, Html.State.isComment_of_isData hdata] at hs

def StaysExact (src : Source) : RunProperty := fun a ss b =>
  ∀ linked base, Links linked a ss → Mustache.allExact src linked ss →
    a.markup.Exact src linked base → b.markup.Exact src linked base

private theorem sectionOf_linked {fallback : Nat} {params : List (List Char)} {chained : Bool}
    {m : Mustache.Block Mustache.Statement} {nodes : Section Statement}
    (hdata : a.tokenizer.state.isData = true)
    (h : sectionOf src a fallback ⟨[.block m], params, chained⟩ = .ok (nodes, b)) :
    ∃ node, nodes.body = [.block node] := by
  obtain ⟨inside, frame, stack, hinside, -, hpop, -, rfl⟩ := sectionOf_ok h
  obtain ⟨inside', hs, hnil⟩ := statements_cons_ok hinside
  rw [statements, Except.ok.injEq] at hnil
  subst hnil
  cases statement_ok hs with
  | commented _ hcomment _ =>
    have hcomment' := Html.State.isComment_of_isData hdata
    exact absurd (hcomment'.symm.trans hcomment) Bool.false_ne_true
  | @block _ node mid hblock =>
    obtain ⟨hframes, -⟩ := block_sameFrames m hblock
    have htop : (mid.append (.block node)).markup.stack.frames
        = (a.markup.stack.nextId, .body [.block node]) :: a.markup.stack.frames := by
      show (mid.markup.stack.append _).frames = _
      simp only [OpenElements.append, OpenElements.mapTop, hframes]
      rfl
    simp only [OpenElements.popExpecting, htop, ↓reduceIte, Except.ok.injEq] at hpop
    cases hpop
    exact ⟨node, rfl⟩

theorem Inside.exact {fallback : Nat} {p : Mustache.Program Mustache.Statement}
    {nodes : Section Statement} (h : Inside src (StaysExact src) a fallback p nodes b)
    (hp : p.Exact src) (hdata : p.chained = true → a.tokenizer.state.isData = true)
    (ha : a.markup.Exact src linked base) :
    nodes.Exact src ∧ b.markup.Exact src linked base := by
  obtain ⟨hsection, hinside⟩ := h
  obtain ⟨inside, frame, stack, hstatements, -, hpop, rfl, rfl⟩ := sectionOf_ok hsection
  obtain ⟨body, params, chained⟩ := p
  obtain ⟨hlink, hbody⟩ := hp
  have hexact := hinside inside hstatements chained a.markup.stack.frames
    (fun hchained => .inr ⟨hlink hchained, hdata hchained⟩) hbody
    ⟨ha.current, ha.pending, .body trivial⟩
  have hfills := (statements_keepsFilling body hstatements).2 _ _
    (OpenElements.fills_pushBody a.markup.stack)
  obtain ⟨-, -, children, rfl⟩ := hfills.popExpecting_ok hpop
  obtain ⟨hchildren, hframes⟩ := hexact.filled.popped hpop
  refine ⟨⟨fun hchained => ?_, hchildren⟩, hexact.current, hexact.pending, ?_⟩
  · obtain ⟨m, rfl⟩ := hlink hchained
    exact sectionOf_linked (hdata hchained) hsection
  · show Filled src base linked stack.frames
    rw [hframes]
    exact ha.filled

theorem Inside?.exact {fallback : Nat} {p : Option (Mustache.Program Mustache.Statement)}
    {nodes : Option (Section Statement)} (h : Inside? src (StaysExact src) a fallback p nodes b)
    (hp : Mustache.sectionExact src p) (hdata : a.tokenizer.state.isData = true)
    (ha : a.markup.Exact src linked base) :
    sectionExact src nodes ∧ b.markup.Exact src linked base := by
  cases p with
  | none =>
    obtain ⟨rfl, rfl⟩ := h
    exact ⟨trivial, ha⟩
  | some p =>
    obtain ⟨s, rfl, h⟩ := h
    exact h.exact hp (fun _ => hdata) ha

theorem staysExact (src : Source) : Follows src (StaysExact src) where
  nil _ _ _ _ _ h := h
  flat {a b c s ss} hflat hb ih linked base hlinks hss h := by
    obtain rfl := hlinks.of_flat hflat
    exact ih false base (links_false _ _) hss.2 (exact_flat hflat hss.1 h hb)
  block {a mid b c s child m node ss program inverse} hs hdata hcall hprogram hinverse hp hi hblock
      hb ih linked base hlinks hss h := by
    obtain ⟨call, main, other, openStrip, inverseStrip, closeStrip, loc⟩ := m
    have hparts : call.Exact src ∧ Mustache.sectionExact src main
        ∧ Mustache.sectionExact src other := by
      rcases hs with ⟨rfl, -⟩ | ⟨rfl, -⟩ <;> exact hss.1.2
    obtain ⟨hprogram', hmid⟩ := hprogram.exact hparts.2.1 hdata h
    obtain ⟨hinverse', hb'⟩ := hinverse.exact hparts.2.2 (hprogram.isData hdata) hmid
    have hspan : node.span = src.spanFor loc := block_span hblock
    obtain ⟨call', program', inverse', openStrip', inverseStrip', closeStrip', span⟩ := node
    obtain rfl : span = src.spanFor loc := hspan
    obtain rfl : inverse' = inverse := hi
    obtain rfl : program' = program.getD ⟨[], [], false, .empty (src.spanFor loc).start⟩ := hp
    have hcall' : call'.Exact src := call_exact call hparts.1 hcall
    have hchild : child.Exact src linked := by
      rcases hs with ⟨rfl, rfl⟩ | ⟨rfl, rfl⟩ <;>
        exact ⟨hss.1.1, hcall', sectionExact_getD hprogram', hinverse'⟩
    exact ih linked base hlinks.of_cons hss.2 (hb'.append hchild)
  partialBlock {a b c m callee nodes ss} hcomment hcallee hsection hb ih linked base hlinks hss
      h := by
    obtain ⟨call, ⟨body, params, chained⟩, openStrip, closeStrip, loc⟩ := m
    obtain ⟨⟨hbraced, hcall, rfl, hbody⟩, hrest⟩ := hss
    obtain ⟨hnodes, hb'⟩ := hsection.exact ⟨by simp, hbody⟩ (by simp) h
    exact ih linked base hlinks.of_cons hrest
      (hb'.append ⟨hbraced, partialName_exact hcall hcallee, hnodes⟩)

end Assembly

end HtmlTemplate.Tree

namespace HtmlTemplate

open HtmlTemplate.Tree (Assembly)

/-- At its span, a node that comes from a mustache has the text from the opening braces to the
closing ones, a sub-expression that between its parentheses, and a literal all that it is written
as. The block of an `{{else if}}` is exempt: it has no closing tag, and its span ends where the
closing tag of the block around it begins. -/
theorem preprocess_exact {text : List Char} {options : Options} {t : Tree.Template}
    (h : preprocess text options = .ok t) : t.Exact ⟨text, options.moduleName⟩ := by
  obtain ⟨program, a, stack, hparse, ha, -, hpop, -⟩ := preprocess_ok h
  have hexact := (Assembly.staysExact ⟨text, options.moduleName⟩).statements program.body ha false
    [] (Assembly.links_false _ _) (Mustache.parse_exact _ hparse)
    ⟨by rintro _ ⟨⟩, by rintro _ ⟨⟩, .body trivial⟩
  exact (hexact.filled.popped hpop).1

/-- What an `{{else}}` with a call is given is a call with a literal. -/
theorem preprocess_exact_linked :
    ∃ t, preprocess "{{#c x}}{{else c (f true)}}{{/c}}".toList {} = .ok t
      ∧ t.Exact ⟨"{{#c x}}{{else c (f true)}}{{/c}}".toList, none⟩ := by
  have hscan : Mustache.scan "{{#c x}}{{else c (f true)}}{{/c}}".toList = .ok
      [.onLine (.opener .block) 0 3, .onLine (.name ['c'] false) 3 4,
        .onLine (.name ['x'] false) 5 6, .onLine .close 6 8, .onLine (.opener .elseChain) 8 14,
        .onLine (.name ['c'] false) 15 16, .onLine .openCall 17 18,
        .onLine (.name ['f'] false) 18 19, .onLine (.literal (.boolean true)) 20 24,
        .onLine .closeCall 24 25, .onLine .close 25 27, .onLine (.opener .endBlock) 27 30,
        .onLine (.name ['c'] false) 30 31, .onLine .close 31 33,
        .onLine .endOfInput 33 33] := by decide +kernel
  have hparse := Mustache.parse_of_tokens false hscan (by cbv)
  have hok : (preprocess "{{#c x}}{{else c (f true)}}{{/c}}".toList {}).isOk = true := by
    rw [preprocess_of_parse {} hparse]
    decide +kernel
  obtain ⟨t, h⟩ := exists_of_isOk hok
  exact ⟨t, h, preprocess_exact h⟩

end HtmlTemplate
