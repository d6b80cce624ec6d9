import HtmlTemplate.Proofs.Items
import HtmlTemplate.Proofs.Spans
import Mathlib.Algebra.Order.Group.Multiset
import Mathlib.Tactic.Abel

/-! What the nodes finished and under way hold of items. A report moves items from the
attribute under way to its tag, from there to an element, and from an element to the frame
below it. The one thing it can lose are the attributes that are read as block parameters. -/

namespace HtmlTemplate.Tree

open Html (Construct InStep Move Moves)

def StartTag.items (t : StartTag) : List Item :=
  t.attributes.flatMap Attribute.items ++ t.modifiers.flatMap Modifier.items
    ++ t.comments.flatMap Comment.items

def Current.items : Current → List Item
  | .startTag t => t.items
  | _ => []

def OpenElement.items (e : OpenElement) : List Item :=
  e.attributes.flatMap Attribute.items ++ e.modifiers.flatMap Modifier.items
    ++ e.comments.flatMap Comment.items ++ bodyItems e.children

def Frame.items : Frame → List Item
  | .body children => bodyItems children
  | .element e => e.items

def OpenElements.items (s : OpenElements) : List Item :=
  s.frames.flatMap (·.2.items)

namespace PendingAttribute

def items (a : PendingAttribute) : List Item :=
  a.parts.flatMap Part.items

def Honest (a : PendingAttribute) : Prop :=
  a.dynamic = false → a.items = []

theorem items_finishText (a : PendingAttribute) : a.finishText.items = a.items := by
  unfold finishText
  split <;> simp [items, Part.items]

theorem Honest.finishText {a : PendingAttribute} (h : a.Honest) : a.finishText.Honest := by
  have hdynamic : a.finishText.dynamic = a.dynamic := by
    unfold PendingAttribute.finishText
    split <;> rfl
  rw [Honest, items_finishText, hdynamic]
  exact h

theorem items_addDynamic (a : PendingAttribute) (d : Dynamic) :
    (a.addDynamic d).items = a.items ++ d.items := by
  rw [← items_finishText a]
  simp [addDynamic, items, Part.items]

private theorem items_toValue (p : Part) : p.toValue.items = p.items := by
  cases p <;> rfl

theorem Honest.items_value {a : PendingAttribute} {span : Span} {value : AttributeValue}
    (h : a.Honest) (hvalue : a.value? span = .ok value) : value.items = a.items := by
  unfold value? at hvalue
  split at hvalue
  · rename_i hdynamic
    cases hvalue
    exact (h (by simpa using hdynamic)).symm
  · split at hvalue
    · cases hvalue
      rfl
    · split at hvalue
      · rename_i part hparts
        cases hvalue
        simp [items, hparts, items_toValue]
      · cases hvalue

end PendingAttribute

theorem Framed.ne_nil {g : Ground} {now : Nat} {frames : List (Nat × Frame)}
    (h : Framed g now frames) : frames ≠ [] := by
  cases h <;> simp

namespace OpenElements

theorem items_append {s : OpenElements} (h : s.frames ≠ []) (node : Statement) :
    (↑(s.append node).items : Multiset Item) = ↑s.items + ↑node.items := by
  obtain ⟨frames, nextId⟩ := s
  cases frames with
  | nil => exact absurd rfl h
  | cons top frames =>
    obtain ⟨id, frame⟩ := top
    have hframe : (↑(frame.mapChildren (· ++ [node])).items : Multiset Item)
        = ↑frame.items + ↑node.items := by
      cases frame <;>
        simp [Frame.mapChildren, Frame.items, OpenElement.items, bodyItems_eq,
          ← Multiset.coe_add, add_assoc]
    simp only [items, append, mapTop, List.flatMap_cons, ← Multiset.coe_add]
    rw [hframe]
    abel

theorem items_popElement {s t : OpenElements} {e : OpenElement}
    (h : s.popElement? = some (e, t)) : s.items = e.items ++ t.items := by
  unfold popElement? at h
  split at h
  · rename_i hframes
    cases h
    simp [items, hframes, Frame.items]
  · cases h

theorem items_popExpecting {src : Source} {s t : OpenElements} {id : Nat} {frame : Frame}
    (h : s.popExpecting src id = .ok (frame, t)) : s.items = frame.items ++ t.items := by
  unfold popExpecting at h
  split at h
  · rename_i hframes
    split at h
    · cases h
      simp [items, hframes]
    · split at h <;> simp [fault] at h
  · simp [fault] at h

end OpenElements

theorem OpenElement.items_finish (e : OpenElement) (stop : Nat) :
    (Statement.element (e.finish stop)).items = e.items := by
  simp [OpenElement.finish, Statement.items, OpenElement.items]

/-- The items in the attributes that a start tag gives up. -/
def StartTag.given (t : StartTag) (kept : Nat) : List Item :=
  (t.attributes.drop kept).flatMap Attribute.items

theorem StartTag.items_opened (t : StartTag) (kept : Nat) (params : List (List Char))
    (stop : Nat) :
    (↑(Markup.opened t kept params stop).items + ↑(t.given kept) : Multiset Item) = ↑t.items := by
  have hattributes : t.attributes.flatMap Attribute.items
      = (t.attributes.take kept).flatMap Attribute.items ++ t.given kept := by
    rw [StartTag.given, ← List.flatMap_append, List.take_append_drop]
  simp only [StartTag.items, hattributes, OpenElement.items, Markup.opened, bodyItems,
    List.append_nil, ← Multiset.coe_add]
  abel

namespace Markup

variable {src : Source} {m n : Markup}

def held (m : Markup) : Multiset Item :=
  ↑m.stack.items + ↑(m.current.elim [] Current.items) + ↑(m.pending.elim [] PendingAttribute.items)

def Honest (m : Markup) : Prop :=
  ∀ a, m.pending = some a → a.Honest

/-- The items in the attributes that are read as block parameters when a start tag ends. -/
def loses (m : Markup) : Html.Event → List Item
  | .finishTag _ =>
    match m.current with
    | some (.startTag t) =>
      match blockParams? (t.attributes.map (·.name)) with
      | .ok (kept, _) => t.given kept
      | .error _ => []
    | _ => []
  | _ => []

def losesIn (src : Source) (m : Markup) : List Html.Event → List Item
  | [] => []
  | e :: es =>
    m.loses e ++
      match m.receive src e with
      | .ok n => n.losesIn src es
      | .error _ => []

theorem losesIn_append {es fs : List Html.Event} (h : es.foldlM (receive src) m = .ok n) :
    m.losesIn src (es ++ fs) = m.losesIn src es ++ n.losesIn src fs := by
  induction es generalizing m with
  | nil =>
    obtain rfl := pure_eq_ok.mp h
    rfl
  | cons e es ih =>
    simp only [List.foldlM_cons, bind_eq_ok] at h
    obtain ⟨k, hk, h⟩ := h
    simp [losesIn, hk, ih h]

theorem losesIn_singleton {e : Html.Event} : m.losesIn src [e] = m.loses e := by
  cases h : m.receive src e <;> simp [losesIn, h]

theorem held_append (h : m.stack.frames ≠ []) (node : Statement) :
    (m.append node).held = m.held + ↑node.items := by
  simp only [held, append]
  rw [OpenElements.items_append h]
  abel

theorem held_withStartTag {span : Span} {f : StartTag → StartTag} {added : List Item}
    (hf : ∀ t, (↑(f t).items : Multiset Item) = ↑t.items + ↑added)
    (h : m.withStartTag src span f = .ok n) : n.held = m.held + ↑added := by
  obtain ⟨t, ht, rfl⟩ := withStartTag_ok h
  simp only [held, ht, Option.elim_some, Current.items, hf]
  abel

theorem held_addModifier {x : Modifier} (h : m.addModifier src x = .ok n) :
    n.held = m.held + ↑x.items := by
  refine held_withStartTag (fun t => ?_) (show m.withStartTag src _ _ = _ from h)
  simp only [StartTag.items, List.flatMap_append, List.flatMap_cons, List.flatMap_nil,
    List.append_nil, ← Multiset.coe_add]
  abel

theorem held_addTagComment {c : Comment} (h : m.addTagComment src c = .ok n) :
    n.held = m.held + ↑c.items := by
  refine held_withStartTag (fun t => ?_) (show m.withStartTag src _ _ = _ from h)
  simp only [StartTag.items, List.flatMap_append, List.flatMap_cons, List.flatMap_nil,
    List.append_nil, ← Multiset.coe_add]
  abel

theorem held_mapAttribute {f : PendingAttribute → PendingAttribute}
    (hf : ∀ a, (f a).items = a.items) : (m.mapAttribute f).held = m.held := by
  cases ha : m.pending <;> simp [held, mapAttribute, ha, hf]

theorem held_addValuePart {a : PendingAttribute} (ha : m.pending = some a) (d : Dynamic) :
    (m.addValuePart d).held = m.held + ↑d.items := by
  simp only [held, addValuePart, mapAttribute, ha, Option.map_some, Option.elim_some,
    PendingAttribute.items_addDynamic, ← Multiset.coe_add]
  abel

theorem held_finishValue {stop : Nat} (hm : m.Honest) (h : m.finishValue src stop = .ok n) :
    n.held = m.held := by
  cases ha : m.pending with
  | none =>
    rw [finishValue_none ha, Except.ok.injEq] at h
    exact h ▸ rfl
  | some a =>
    obtain ⟨t, value, ht, hvalue, rfl⟩ := finishValue_ok ha h
    have hitems : value.items = a.items := by
      rw [(hm a ha).finishText.items_value hvalue, a.items_finishText]
    simp only [held, ha, ht, Option.elim_some, Option.elim_none, Current.items, StartTag.items,
      List.flatMap_append, List.flatMap_cons, List.flatMap_nil, List.append_nil, Attribute.items,
      hitems, ← Multiset.coe_add, Multiset.coe_nil]
    abel

theorem held_closeElement {g : Ground} {now : Nat} {name : List Char} {tagSpan : Span}
    {implicit : Bool} (hframed : Framed g now m.stack.frames)
    (h : m.closeElement src name tagSpan implicit = .ok n) : n.held = m.held := by
  obtain ⟨e, stack, hpop, -, rfl⟩ := closeElement_ok h
  have hne := (hframed.popElement hpop).1.ne_nil
  simp only [held, OpenElements.items_popElement hpop, OpenElements.items_append hne,
    OpenElement.items_finish, ← Multiset.coe_add]
  abel

theorem held_openElement {t : StartTag} {stop : Nat} (hne : m.stack.frames ≠ [])
    (h : m.openElement src t stop = .ok n) :
    ∃ kept params, blockParams? (t.attributes.map (·.name)) = .ok (kept, params)
      ∧ n.held + ↑(t.given kept) = m.held + ↑t.items := by
  obtain ⟨kept, params, hparams, rfl | rfl⟩ := openElement_ok h
  · refine ⟨kept, params, hparams, ?_⟩
    have hpush : (m.stack.push (.element (opened t kept params stop))).2.items
        = (opened t kept params stop).items ++ m.stack.items := rfl
    simp only [held, hpush, ← Multiset.coe_add, ← t.items_opened kept params stop]
    abel
  · refine ⟨kept, params, hparams, ?_⟩
    have happend := OpenElements.items_append (s := { m.stack with nextId := m.stack.nextId + 1 })
      hne (.element ((opened t kept params stop).finish stop))
    have hsame : OpenElements.items { m.stack with nextId := m.stack.nextId + 1 } = m.stack.items :=
      rfl
    rw [OpenElement.items_finish, hsame] at happend
    simp only [held, happend, ← t.items_opened kept params stop]
    abel

theorem held_data {text : List Char} (h : m.receive src (.data text) = .ok n) :
    n.held = m.held ∧ n.pending = m.pending := by
  simp only [receive] at h
  split at h
  · rename_i hc
    cases h
    exact ⟨by simp [held, hc, Current.items], rfl⟩
  · cases h
    exact ⟨rfl, rfl⟩

theorem held_commentData {text : List Char} (h : m.receive src (.commentData text) = .ok n) :
    n.held = m.held ∧ n.pending = m.pending := by
  simp only [receive] at h
  split at h
  · rename_i hc
    cases h
    exact ⟨by simp [held, hc, Current.items], rfl⟩
  · cases h
    exact ⟨rfl, rfl⟩

theorem held_finishData {p : Position} (hne : m.stack.frames ≠ [])
    (h : m.receive src (.finishData p) = .ok n) : n.held = m.held ∧ n.pending = m.pending := by
  simp only [receive] at h
  split at h
  · rename_i hc
    cases h
    rw [held_append (m := { m with current := none }) hne]
    exact ⟨by simp [held, hc, Current.items, Statement.items], rfl⟩
  · cases h
    exact ⟨rfl, rfl⟩

theorem held_finishComment {p : Position} (hne : m.stack.frames ≠ [])
    (h : m.receive src (.finishComment p) = .ok n) : n.held = m.held ∧ n.pending = m.pending := by
  simp only [receive] at h
  split at h
  · rename_i hc
    cases h
    rw [held_append (m := { m with current := none }) hne]
    exact ⟨by simp [held, hc, Current.items, Statement.items], rfl⟩
  · cases h
    exact ⟨rfl, rfl⟩

theorem held_growTagName (m : Markup) (c : Char) :
    (m.growTagName c).held = m.held ∧ (m.growTagName c).pending = m.pending := by
  obtain ⟨stack, current, pending⟩ := m
  rcases current with _ | (_ | _ | _ | _)
  all_goals exact ⟨by simp [growTagName, held, Current.items, StartTag.items], rfl⟩

theorem held_markSelfClosing (h : m.markSelfClosing src = .ok n) :
    n.held = m.held ∧ n.pending = m.pending := by
  obtain ⟨stack, current, pending⟩ := m
  rcases current with _ | (_ | _ | _ | _)
  all_goals
    simp only [markSelfClosing, fault, Except.ok.injEq, reduceCtorEq] at h
  all_goals
    subst h
    exact ⟨by simp [held, Current.items, StartTag.items], rfl⟩

theorem held_finishTag {g : Ground} {now : Nat} {p : Position} {c : Current}
    (hframed : Framed g now m.stack.frames) (hc : m.current = some c)
    (hkind : c.IsStartTag ∨ c.IsEndTag) (hpending : m.pending = none)
    (h : m.finishTag src (src.offsetFor p) = .ok n) :
    n.held + ↑(m.loses (.finishTag p)) = m.held := by
  cases c with
  | startTag t =>
    simp only [finishTag, hc] at h
    obtain ⟨kept, params, hparams, hheld⟩ :=
      held_openElement (m := { m with current := none }) hframed.ne_nil h
    simp only [loses, hc, hparams]
    rw [hheld]
    simp [held, hc, hpending, Current.items]
  | endTag name start =>
    simp only [finishTag, hc] at h
    have hheld := held_closeElement (m := { m with current := none }) hframed h
    simp only [loses, hc]
    rw [hheld]
    simp [held, hc, Current.items]
  | text => simp [Current.IsStartTag, Current.IsEndTag] at hkind
  | comment => simp [Current.IsStartTag, Current.IsEndTag] at hkind

theorem Honest.of_pending (h : m.Honest) (hpending : n.pending = m.pending) : n.Honest :=
  fun a ha => h a (hpending ▸ ha)

theorem Honest.mapAttribute (h : m.Honest) {f : PendingAttribute → PendingAttribute}
    (hf : ∀ a : PendingAttribute, a.Honest → (f a).Honest) : (m.mapAttribute f).Honest := by
  intro a ha
  obtain ⟨b, hb, rfl⟩ := Option.map_eq_some_iff.mp (ha : m.pending.map f = some a)
  exact hf b (h b hb)

theorem honest_of_none (h : m.pending = none) : m.Honest := by
  simp [Honest, h]

theorem Honest.addValuePart (h : m.Honest) (d : Dynamic) : (m.addValuePart d).Honest :=
  h.mapAttribute fun _ _ hdynamic => by cases hdynamic

theorem Honest.withStartTag {span : Span} {f : StartTag → StartTag} (hm : m.Honest)
    (h : m.withStartTag src span f = .ok n) : n.Honest := by
  obtain ⟨t, ht, rfl⟩ := withStartTag_ok h
  exact hm

theorem honest_finishValue {stop : Nat} (h : m.finishValue src stop = .ok n) : n.Honest := by
  cases ha : m.pending with
  | none =>
    rw [finishValue_none ha, Except.ok.injEq] at h
    exact honest_of_none (h ▸ ha)
  | some a =>
    obtain ⟨t, value, -, -, rfl⟩ := finishValue_ok ha h
    exact honest_of_none rfl

end Markup

end HtmlTemplate.Tree

namespace HtmlTemplate.Html

open HtmlTemplate.Tree (Markup Ground)

section
variable {g : Ground} {x y : Construct} {p q : Position} {e : Event} {es : List Event}
  {m n : Markup}

theorem InStep.held (h : InStep g x p m) (hm : m.Honest) (hmove : Move x p (some e) y q)
    (hn : m.receive g.src e = .ok n) : n.held + ↑(m.loses e) = m.held ∧ n.Honest := by
  have hat := h.at_
  have hphase := hat.phase
  -- only the end of a tag loses anything
  have hsame {e : Event} (hloses : m.loses e = [])
      (hheld : n.held = m.held ∧ n.pending = m.pending) :
      n.held + ↑(m.loses e) = m.held ∧ n.Honest := by
    rw [hloses]
    exact ⟨(add_zero _).trans hheld.1, hm.of_pending hheld.2⟩
  cases hmove with
  | fault => simp [Markup.receive, Tree.fault] at hn
  | refuse => simp [Markup.receive, Tree.fault] at hn
  | refuseEnd => simp [Markup.receive, Tree.fault] at hn
  | beginText | beginBracket | beginComment | beginStartTag | beginEndTag =>
    cases hn
    exact hsame rfl ⟨by simp [Markup.held, hphase.1, Tree.Current.items, Tree.StartTag.items], rfl⟩
  | data => exact hsame rfl (Markup.held_data hn)
  | finishText => exact hsame rfl (Markup.held_finishData hat.framed.ne_nil hn)
  | commentData => exact hsame rfl (Markup.held_commentData hn)
  | finishComment => exact hsame rfl (Markup.held_finishComment hat.framed.ne_nil hn)
  | @growName _ _ c =>
    cases hn
    exact hsame rfl (Markup.held_growTagName m c)
  | selfClosing => exact hsame rfl (Markup.held_markSelfClosing hn)
  | finishTag =>
    obtain ⟨⟨c, hc, hkind⟩, hpending⟩ := hphase
    exact ⟨Markup.held_finishTag hat.framed hc hkind hpending hn,
      Markup.honest_of_none (hat.finishTag rfl hn).phase.2⟩
  | beginAttribute =>
    cases hn
    refine ⟨?_, ?_⟩
    · simp [Markup.held, Markup.loses, hphase.2, Tree.PendingAttribute.items]
    · rintro a ⟨⟩ -
      rfl
  | growAttribute | beginValue | valueText =>
    cases hn
    refine ⟨?_, hm.mapAttribute fun _ h => h⟩
    refine (add_zero _).trans ?_
    exact Markup.held_mapAttribute fun _ => rfl
  | finishValue =>
    refine ⟨?_, Markup.honest_finishValue hn⟩
    refine (add_zero _).trans ?_
    exact Markup.held_finishValue hm hn

theorem Moves.held (h : Moves x p es y q) (hx : InStep g x p m) (hm : m.Honest)
    (hn : es.foldlM (Markup.receive g.src) m = .ok n) :
    n.held + ↑(m.losesIn g.src es) = m.held ∧ n.Honest := by
  induction h generalizing n with
  | refl =>
    obtain rfl := pure_eq_ok.mp hn
    exact ⟨by simp [Markup.losesIn], hm⟩
  | @move _ _ _ _ _ es e hes hmove ih =>
    cases e with
    | none =>
      simp only [Option.toList_none, List.append_nil] at hn ⊢
      exact ih hx hn
    | some e =>
      simp only [Option.toList_some, List.foldlM_append, bind_eq_ok, List.foldlM_cons,
        List.foldlM_nil, pure_eq_ok, exists_eq_right] at hn
      obtain ⟨k, hk, hn⟩ := hn
      obtain ⟨hbefore, hhonest⟩ := ih hx hk
      obtain ⟨hlast, hhonest'⟩ :=
        (hes.keeps (I := InStep g) InStep.silent InStep.receive hx hk).held hhonest hmove hn
      refine ⟨?_, hhonest'⟩
      rw [Option.toList_some, Markup.losesIn_append hk, Markup.losesIn_singleton, ← hbefore,
        ← hlast, ← Multiset.coe_add]
      abel

end

end HtmlTemplate.Html
