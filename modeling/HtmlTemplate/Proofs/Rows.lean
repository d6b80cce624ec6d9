import HtmlTemplate.Proofs.Machine

/-! Siblings one after the other. What is reported of the HTML text puts each node after those
before it: a node that is under way begins where all its siblings have ended. -/

namespace HtmlTemplate.Tree

mutual

/-- In every list of statements each ends before the next one begins. -/
def Statement.InOrder : Statement → Prop
  | .block b | .decoratorBlock b => Block.InOrder b
  | .partialBlock ⟨_, program, _, _, _⟩ => Section.InOrder program
  | .element ⟨_, _, _, _, _, _, children, _⟩ => siblingsInOrder children
  | .dynamic _ | .decorator _ | .partialCall _ | .mustacheComment _ | .comment _ | .text _ => True

def Block.InOrder : Block Statement → Prop
  | ⟨_, program, inverse, _, _, _, _⟩ => Section.InOrder program ∧ sectionInOrder inverse

def Section.InOrder : Section Statement → Prop
  | ⟨body, _, _, _⟩ => siblingsInOrder body

def sectionInOrder : Option (Section Statement) → Prop
  | none => True
  | some s => Section.InOrder s

def siblingsInOrder : List Statement → Prop
  | [] => True
  | s :: ss =>
    s.InOrder ∧ (∀ next ∈ ss.head?, s.span.stop ≤ next.span.start) ∧ siblingsInOrder ss

end

def Template.InOrder (t : Template) : Prop :=
  siblingsInOrder t.body

structure Row (bound : Nat) (ss : List Statement) : Prop where
  inOrder : siblingsInOrder ss
  ended : ∀ last ∈ ss.getLast?, last.span.stop ≤ bound

theorem row_nil (bound : Nat) : Row bound [] :=
  ⟨trivial, by simp⟩

theorem Row.later {bound bound' : Nat} {ss : List Statement} (h : Row bound ss)
    (hle : bound ≤ bound') : Row bound' ss :=
  ⟨h.inOrder, fun last hlast => Nat.le_trans (h.ended last hlast) hle⟩

private theorem siblingsInOrder_append {ss : List Statement} {s : Statement}
    (h : siblingsInOrder ss)
    (hs : s.InOrder) (hlast : ∀ last ∈ ss.getLast?, last.span.stop ≤ s.span.start) :
    siblingsInOrder (ss ++ [s]) := by
  induction ss with
  | nil => exact ⟨hs, by simp, trivial⟩
  | cons first ss ih =>
    obtain ⟨hfirst, hnext, hrest⟩ := h
    cases ss with
    | nil => exact ⟨hfirst, by simpa using hlast, hs, by simp, trivial⟩
    | cons second ss =>
      exact ⟨hfirst, by simpa using hnext,
        ih hrest (by simpa [List.getLast?_cons_cons] using hlast)⟩

theorem Row.append {bound bound' : Nat} {ss : List Statement} {s : Statement} (h : Row bound ss)
    (hs : s.InOrder) (hstart : bound ≤ s.span.start) (hstop : s.span.stop ≤ bound') :
    Row bound' (ss ++ [s]) where
  inOrder := siblingsInOrder_append h.inOrder hs fun last hlast =>
    Nat.le_trans (h.ended last hlast) hstart
  ended last hlast := by
    rw [List.getLast?_concat, Option.mem_some_iff] at hlast
    exact hlast ▸ hstop

/-- The children of all frames of a body are in order, those on top have ended by an offset,
and those below an element before its start tag. -/
inductive Lined (base : List (Nat × Frame)) : Nat → List (Nat × Frame) → Prop
  | body {id bound : Nat} {children : List Statement} :
      Row bound children → Lined base bound ((id, .body children) :: base)
  | element {id bound : Nat} {e : OpenElement} {frames : List (Nat × Frame)} :
      Lined base e.startTag.start frames → Row bound e.children →
      Lined base bound ((id, .element e) :: frames)

variable {base : List (Nat × Frame)} {bound bound' : Nat} {frames : List (Nat × Frame)}

theorem Lined.later (h : Lined base bound frames) (hle : bound ≤ bound') :
    Lined base bound' frames := by
  cases h with
  | body hrow => exact .body (hrow.later hle)
  | element hframes hrow => exact .element hframes (hrow.later hle)

theorem Lined.append {s : OpenElements} {node : Statement} (h : Lined base bound s.frames)
    (hnode : node.InOrder) (hstart : bound ≤ node.span.start) (hstop : node.span.stop ≤ bound') :
    Lined base bound' (s.append node).frames := by
  obtain ⟨frames, nextId⟩ := s
  cases h with
  | body hrow => exact .body (hrow.append hnode hstart hstop)
  | element hframes hrow => exact .element hframes (hrow.append hnode hstart hstop)

theorem Lined.popElement {s t : OpenElements} {e : OpenElement} (h : Lined base bound s.frames)
    (hpop : s.popElement? = some (e, t)) :
    Lined base e.startTag.start t.frames ∧ siblingsInOrder e.children := by
  unfold OpenElements.popElement? at hpop
  split at hpop
  · rename_i hframes
    rw [hframes] at h
    cases hpop
    cases h with
    | element hframes hrow => exact ⟨hframes, hrow.inOrder⟩
  · cases hpop

theorem Lined.popped {src : Source} {id : Nat} {s t : OpenElements} {children : List Statement}
    (h : Lined base bound s.frames)
    (hpop : s.popExpecting src id = .ok (.body children, t)) : siblingsInOrder children := by
  obtain ⟨frames, nextId⟩ := s
  cases h with
  | body hrow =>
    simp only [OpenElements.popExpecting] at hpop
    split at hpop
    · cases hpop
      exact hrow.inOrder
    · simp [fault] at hpop
  | element _ _ =>
    simp only [OpenElements.popExpecting] at hpop
    split at hpop
    · cases hpop
    · simp [fault] at hpop

def Current.mark? : Current → Option Nat
  | .endTag .. => none
  | .startTag t => some t.start
  | .text _ start | .comment _ start => some start

def Markup.mark (m : Markup) (opened : Option Nat) (now : Nat) : Nat :=
  match m.current with
  | some c => c.mark?.getD now
  | none => opened.getD now

namespace Markup

variable {src : Source} {m n : Markup}

def SameNode (m n : Markup) : Prop :=
  n.stack = m.stack ∧ n.current.map Current.mark? = m.current.map Current.mark?

theorem SameNode.trans {k : Markup} (h : k.SameNode m) (h' : m.SameNode n) : k.SameNode n :=
  ⟨h'.1.trans h.1, h'.2.trans h.2⟩

theorem SameNode.mark (h : m.SameNode n) (opened : Option Nat) (now : Nat) :
    n.mark opened now = m.mark opened now := by
  obtain ⟨-, h⟩ := h
  unfold Markup.mark
  cases hm : m.current <;> cases hn : n.current <;> simp [hm, hn] at h ⊢
  rw [h]

theorem sameNode_withStartTag {span : Span} {f : StartTag → StartTag}
    (hf : ∀ t, (f t).start = t.start) (h : m.withStartTag src span f = .ok n) : m.SameNode n := by
  obtain ⟨t, ht, rfl⟩ := withStartTag_ok h
  exact ⟨rfl, by simp [ht, Current.mark?, hf]⟩

theorem sameNode_finishValue {stop : Nat} (h : m.finishValue src stop = .ok n) :
    m.SameNode n := by
  cases ha : m.pending with
  | none =>
    rw [finishValue_none ha, Except.ok.injEq] at h
    exact h ▸ ⟨rfl, rfl⟩
  | some a =>
    obtain ⟨t, value, ht, _, rfl⟩ := finishValue_ok ha h
    exact ⟨rfl, by simp [ht, Current.mark?]⟩

def isWithin : Html.Event → Bool
  | .tagName _ | .selfClosing | .beginAttribute _ | .attributeName _ | .beginAttributeValue ..
  | .attributeValue .. | .finishAttributeValue _ | .data _ | .commentData _ => true
  | _ => false

theorem sameNode_receive {e : Html.Event} (he : isWithin e = true)
    (h : m.receive src e = .ok n) : m.SameNode n := by
  obtain ⟨stack, current, pending⟩ := m
  cases e with
  | tagName c =>
    cases h
    rcases current with _ | (_ | _ | _ | _) <;> exact ⟨rfl, rfl⟩
  | selfClosing =>
    rcases current with _ | (_ | _ | _ | _)
    all_goals
      simp only [receive, markSelfClosing, fault, Except.ok.injEq, reduceCtorEq] at h
    all_goals exact h ▸ ⟨rfl, rfl⟩
  | data text | commentData text =>
    rcases current with _ | (_ | _ | _ | _) <;> cases h <;> exact ⟨rfl, rfl⟩
  | finishAttributeValue p => exact sameNode_finishValue h
  | beginAttribute | attributeName | beginAttributeValue | attributeValue =>
    cases h
    exact ⟨rfl, rfl⟩
  | _ => cases he

end Markup

def opened? (src : Source) : Html.Construct → Option Nat
  | .opening l => some (src.offsetFor l)
  | _ => none

section
variable {g : Ground} {x y : Html.Construct} {p q : Position} {e : Html.Event} {m n : Markup}

structure InRow (g : Ground) (x : Html.Construct) (p : Position) (m : Markup) : Prop where
  inStep : Html.InStep g x p m
  lined : Lined g.base (m.mark (opened? g.src x) (g.src.offsetFor p)) m.stack.frames

theorem Markup.mark_le (m : Markup) (opened : Option Nat) {now now' : Nat} (hle : now ≤ now') :
    m.mark opened now ≤ m.mark opened now' := by
  have hgetD (o : Option Nat) : o.getD now ≤ o.getD now' := by
    cases o with
    | none => exact hle
    | some start => exact Nat.le_refl _
  unfold Markup.mark
  split
  · exact hgetD _
  · exact hgetD _

theorem Markup.mark_of_rest (h : Phase.rest.Shows m) (opened : Option Nat) (now : Nat) :
    m.mark opened now = opened.getD now := by
  rw [Markup.mark, h.1]

theorem InRow.silent (h : InRow g x p m) (hm : Html.Move x p none y q) : InRow g y q m := by
  refine ⟨h.inStep.silent hm, ?_⟩
  have hlined := h.lined
  cases hm with
  | wait hle =>
    exact hlined.later (m.mark_le _ (g.src.offsetFor_mono h.inStep.line hle))
  | openTag =>
    rw [Markup.mark_of_rest h.inStep.at_.phase] at hlined ⊢
    exact hlined
  | turn =>
    rw [Markup.mark_of_rest h.inStep.at_.phase] at hlined ⊢
    exact hlined.later (h.inStep.bracket _ rfl).2
  | endName => exact hlined

theorem Lined.within (hlined : Lined g.base (m.mark none (g.src.offsetFor p)) m.stack.frames)
    (he : Markup.isWithin e = true) (hpq : p ≤ q) (hline : 1 ≤ p.line)
    (hn : m.receive g.src e = .ok n) :
    Lined g.base (n.mark none (g.src.offsetFor q)) n.stack.frames := by
  have hsame := Markup.sameNode_receive he hn
  rw [hsame.mark, hsame.1]
  exact hlined.later (m.mark_le none (g.src.offsetFor_mono hline hpq))

theorem Lined.finish {start stop : Nat} {node : Statement}
    (hlined : Lined base start m.stack.frames) (hnode : node.InOrder)
    (hspan : node.span = ⟨start, stop⟩) :
    Lined base stop (m.append node).stack.frames :=
  hlined.append hnode (by rw [hspan]) (by rw [hspan])

theorem Lined.closeElement {name : List Char} {tagSpan : Span} {implicit : Bool}
    (hlined : Lined base bound m.stack.frames)
    (hn : m.closeElement g.src name tagSpan implicit = .ok n) :
    Lined base tagSpan.stop n.stack.frames := by
  obtain ⟨e, stack, hpop, -, rfl⟩ := Markup.closeElement_ok hn
  obtain ⟨hframes, hchildren⟩ := hlined.popElement hpop
  have hnode : Statement.InOrder (.element (e.finish tagSpan.stop)) := hchildren
  exact hframes.append hnode (Nat.le_refl _) (Nat.le_refl _)

theorem Lined.openElement {t : StartTag} {stop : Nat} (hlined : Lined base t.start m.stack.frames)
    (hn : m.openElement g.src t stop = .ok n) : Lined base stop n.stack.frames := by
  obtain ⟨kept, params, -, rfl | rfl⟩ := Markup.openElement_ok hn
  · exact .element hlined (row_nil _)
  · have hnode : Statement.InOrder (.element ((Markup.opened t kept params stop).finish stop)) :=
      trivial
    exact Lined.append (s := { m.stack with nextId := m.stack.nextId + 1 }) hlined hnode
      (Nat.le_refl _) (Nat.le_refl _)

theorem InRow.receive (h : InRow g x p m) (hm : Html.Move x p (some e) y q)
    (hn : m.receive g.src e = .ok n) : InRow g y q n := by
  have hinStep := h.inStep.receive hm hn
  refine ⟨hinStep, ?_⟩
  have hlined := h.lined
  have hline := h.inStep.line
  have hphase := h.inStep.at_.phase
  cases hm with
  | fault => simp [Markup.receive, Tree.fault] at hn
  | refuse => simp [Markup.receive, Tree.fault] at hn
  | refuseEnd => simp [Markup.receive, Tree.fault] at hn
  | beginText | beginBracket | beginComment | beginStartTag | beginEndTag =>
    rw [Markup.mark_of_rest hphase] at hlined
    cases hn
    exact hlined
  | data | commentData | growName | selfClosing | beginAttribute | growAttribute | beginValue
  | finishValue => exact hlined.within rfl (le_refl _) hline hn
  | valueText hle => exact hlined.within rfl hle hline hn
  | finishText =>
    obtain ⟨⟨c, hc, hkind⟩, -⟩ := hphase
    cases c with
    | text chars start =>
      simp only [Markup.mark, hc, Current.mark?, Option.getD_some] at hlined
      simp only [Markup.receive, hc, Except.ok.injEq] at hn
      subst hn
      exact Lined.finish (m := { m with current := none }) hlined trivial rfl
    | _ => cases hkind
  | finishComment =>
    obtain ⟨⟨c, hc, hkind⟩, -⟩ := hphase
    cases c with
    | comment value start =>
      simp only [Markup.mark, hc, Current.mark?, Option.getD_some] at hlined
      simp only [Markup.receive, hc, Except.ok.injEq] at hn
      subst hn
      exact Lined.finish (m := { m with current := none }) hlined trivial rfl
    | _ => cases hkind
  | finishTag =>
    obtain ⟨⟨c, hc, hkind⟩, -⟩ := hphase
    cases c with
    | startTag t =>
      simp only [Markup.mark, hc, Current.mark?, Option.getD_some] at hlined
      simp only [Markup.receive, Markup.finishTag, hc] at hn
      have hframes := Lined.openElement (m := { m with current := none }) hlined hn
      rw [Markup.mark, hinStep.at_.phase.1]
      exact hframes
    | endTag name start =>
      simp only [Markup.receive, Markup.finishTag, hc] at hn
      have hframes := Lined.closeElement (m := { m with current := none }) hlined hn
      rw [Markup.mark, hinStep.at_.phase.1]
      exact hframes
    | text => simp [Current.IsStartTag, Current.IsEndTag] at hkind
    | comment => simp [Current.IsStartTag, Current.IsEndTag] at hkind

end

end HtmlTemplate.Tree
