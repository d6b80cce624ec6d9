import HtmlTemplate.Proofs.Report
import Mathlib.Logic.Relation

/-! Bodies of blocks on the stack of open elements. What is reported of the HTML text only
fills the innermost body: it adds nodes to it and opens and closes elements above it. So
every body is still there when its end comes, with everything below it untouched. -/

namespace HtmlTemplate.Tree

open Relation (ReflTransGen)

namespace OpenElements

inductive Change : OpenElements → OpenElements → Prop
  | append (s : OpenElements) (node : Statement) : Change s (s.append node)
  | opened (s : OpenElements) (e : OpenElement) : Change s (s.push (.element e)).2
  | closed {s t : OpenElements} {e : OpenElement} (stop : Nat) :
      s.popElement? = some (e, t) → Change s (t.append (.element (e.finish stop)))

/-- The body pushed as `id` lies on `base`, with only elements opened later above it. -/
def Fills (id : Nat) (base : List (Nat × Frame)) (s : OpenElements) : Prop :=
  id < s.nextId ∧ ∃ (elements : List (Nat × OpenElement)) (children : List Statement),
    (∀ e ∈ elements, id < e.1) ∧
      s.frames = elements.map (fun e => (e.1, .element e.2)) ++ (id, .body children) :: base

/-- The body pushed as `id` is somewhere on the stack, right above `base`, and what is
above it was pushed later. -/
def Holds (id : Nat) (base : List (Nat × Frame)) (s : OpenElements) : Prop :=
  ∃ (above : List (Nat × Frame)) (children : List Statement),
    (∀ f ∈ above, id < f.1) ∧ s.frames = above ++ (id, .body children) :: base

variable {id : Nat} {base : List (Nat × Frame)} {s t : OpenElements}

theorem Fills.holds (h : Fills id base s) : Holds id base s := by
  obtain ⟨_, elements, children, habove, hframes⟩ := h
  refine ⟨_, children, ?_, hframes⟩
  intro f hf
  obtain ⟨e, he, rfl⟩ := List.mem_map.mp hf
  exact habove e he

theorem Holds.popElement (h : Holds id base s) {e : OpenElement}
    (hpop : s.popElement? = some (e, t)) : Holds id base t := by
  obtain ⟨above, children, habove, hframes⟩ := h
  unfold popElement? at hpop
  rw [hframes] at hpop
  cases above with
  | nil => simp at hpop
  | cons top above =>
    obtain ⟨top, _ | e⟩ := top
    · simp at hpop
    · simp only [List.cons_append, Option.some.injEq, Prod.mk.injEq] at hpop
      exact ⟨above, children, fun f hf => habove f (List.mem_cons_of_mem _ hf), by rw [← hpop.2]⟩

theorem Fills.holds_of_holds (h : Fills id base s) (ht : Holds s.nextId s.frames t) :
    Holds id base t := by
  obtain ⟨hid, elements, children, habove, hframes⟩ := h
  obtain ⟨above, children', habove', hframes'⟩ := ht
  refine ⟨above ++ (s.nextId, .body children') :: elements.map fun e => (e.1, .element e.2),
    children, ?_, by simp [hframes', hframes]⟩
  intro f hf
  simp only [List.mem_append, List.mem_cons, List.mem_map] at hf
  obtain hf | rfl | ⟨e, he, rfl⟩ := hf
  · exact Nat.lt_trans hid (habove' f hf)
  · exact hid
  · exact habove e he

theorem fills_pushBody (s : OpenElements) : Fills s.nextId s.frames (s.push (.body [])).2 :=
  ⟨Nat.lt_succ_self _, [], [], by simp, rfl⟩

private theorem Fills.append (h : Fills id base s) (node : Statement) :
    Fills id base (s.append node) := by
  obtain ⟨hid, elements, children, habove, hframes⟩ := h
  obtain ⟨frames, nextId⟩ := s
  subst hframes
  cases elements with
  | nil => exact ⟨hid, [], children ++ [node], by simp, rfl⟩
  | cons e elements =>
    refine ⟨hid, (e.1, { e.2 with children := e.2.children ++ [node] }) :: elements, children,
      ?_, rfl⟩
    simpa using habove

theorem Fills.change (h : Fills id base s) (hc : Change s t) : Fills id base t := by
  cases hc with
  | append node => exact h.append node
  | opened e =>
    obtain ⟨hid, elements, children, habove, hframes⟩ := h
    refine ⟨Nat.lt_succ_of_lt hid, (s.nextId, e) :: elements, children, ?_, ?_⟩
    · simpa [hid] using habove
    · simp [push, hframes]
  | @closed t e stop hpop =>
    obtain ⟨hid, elements, children, habove, hframes⟩ := h
    refine Fills.append ?_ _
    unfold popElement? at hpop
    rw [hframes] at hpop
    cases elements with
    | nil => simp at hpop
    | cons e' elements =>
      simp only [List.map_cons, List.cons_append, Option.some.injEq, Prod.mk.injEq] at hpop
      rw [← hpop.2]
      exact ⟨hid, elements, children, fun e he => habove e (List.mem_cons_of_mem _ he), rfl⟩

theorem Fills.changes (h : Fills id base s) (hc : ReflTransGen Change s t) : Fills id base t := by
  induction hc with
  | refl => exact h
  | tail _ hstep ih => exact ih.change hstep

theorem Fills.of_frames_eq (h : Fills id base s) (hframes : t.frames = s.frames)
    (hnext : s.nextId ≤ t.nextId) : Fills id base t := by
  obtain ⟨hid, rest⟩ := h
  exact ⟨Nat.lt_of_lt_of_le hid hnext, by rw [hframes]; exact rest⟩

/-- A body is given back when nothing is open above it, and then all of it goes. -/
theorem Fills.popExpecting_ok {src : Source} (h : Fills id base s) {frame : Frame}
    (hpop : s.popExpecting src id = .ok (frame, t)) :
    t.frames = base ∧ t.nextId = s.nextId ∧ ∃ children, frame = .body children := by
  obtain ⟨_, elements, children, habove, hframes⟩ := h
  unfold popExpecting at hpop
  rw [hframes] at hpop
  cases elements with
  | nil =>
    simp only [List.map_nil, List.nil_append, ↓reduceIte, Except.ok.injEq, Prod.mk.injEq] at hpop
    obtain ⟨rfl, rfl⟩ := hpop
    exact ⟨rfl, rfl, children, rfl⟩
  | cons e elements =>
    have hne : e.1 ≠ id := Nat.ne_of_gt (habove e List.mem_cons_self)
    simp [hne, fault] at hpop

theorem Fills.popExpecting_error {src : Source} (h : Fills id base s) {e : SyntaxError}
    (hpop : s.popExpecting src id = .error e) :
    ∃ open' : OpenElement,
      e = src.error (Fault.unclosedElement open'.tag).message open'.startTag := by
  obtain ⟨_, elements, children, habove, hframes⟩ := h
  unfold popExpecting at hpop
  rw [hframes] at hpop
  cases elements with
  | nil => simp at hpop
  | cons e elements =>
    have hne : e.1 ≠ id := Nat.ne_of_gt (habove e List.mem_cons_self)
    simp only [List.map_cons, List.cons_append, hne, ↓reduceIte, fault, Except.error.injEq] at hpop
    exact ⟨e.2, hpop.symm⟩

end OpenElements

open OpenElements (Change Fills Holds)

namespace Markup

variable {src : Source} {m n : Markup}

theorem changes_append (m : Markup) (node : Statement) :
    ReflTransGen Change m.stack (m.append node).stack :=
  .single (.append _ node)

theorem closeElement_changes {name : List Char} {tagSpan : Span} {implicit : Bool}
    (h : m.closeElement src name tagSpan implicit = .ok n) :
    ReflTransGen Change m.stack n.stack := by
  obtain ⟨e, stack, hpop, _, rfl⟩ := closeElement_ok h
  exact .single (.closed _ hpop)

theorem openElement_changes {t : StartTag} {stop : Nat}
    (h : m.openElement src t stop = .ok n) : ReflTransGen Change m.stack n.stack := by
  obtain ⟨kept, params, _, rfl | rfl⟩ := openElement_ok h
  · exact .single (.opened _ _)
  · exact .tail (.single (.opened m.stack (opened t kept params stop))) (.closed _ rfl)

theorem withStartTag_stack {span : Span} {f : StartTag → StartTag}
    (h : m.withStartTag src span f = .ok n) : n.stack = m.stack := by
  obtain ⟨t, _, rfl⟩ := withStartTag_ok h
  rfl

theorem finishValue_stack {stop : Nat} (h : m.finishValue src stop = .ok n) :
    n.stack = m.stack := by
  cases ha : m.pending with
  | none =>
    rw [finishValue_none ha, Except.ok.injEq] at h
    rw [h]
  | some a =>
    obtain ⟨t, value, _, _, rfl⟩ := finishValue_ok ha h
    rfl

theorem growTagName_stack (m : Markup) (c : Char) : (m.growTagName c).stack = m.stack := by
  unfold growTagName
  split <;> rfl

theorem markSelfClosing_stack (h : m.markSelfClosing src = .ok n) : n.stack = m.stack := by
  unfold markSelfClosing at h
  split at h
  · cases h
    rfl
  · simp [fault] at h
  · cases h
    rfl

private theorem finishTag_changes {stop : Nat} (h : m.finishTag src stop = .ok n) :
    ReflTransGen Change m.stack n.stack := by
  unfold finishTag at h
  split at h
  · have := openElement_changes h
    exact this
  · have := closeElement_changes h
    exact this
  · cases h
    exact .refl

theorem receive_changes {e : Html.Event} (h : m.receive src e = .ok n) :
    ReflTransGen Change m.stack n.stack := by
  cases e with
  | tagName c =>
    cases h
    rw [growTagName_stack]
  | selfClosing => rw [markSelfClosing_stack h]
  | finishTag p => exact finishTag_changes h
  | finishAttributeValue p => rw [finishValue_stack h]
  | data text =>
    simp only [receive] at h
    split at h <;> cases h <;> exact .refl
  | finishData p =>
    simp only [receive] at h
    split at h <;> cases h
    · exact changes_append _ _
    · exact .refl
  | commentData text =>
    simp only [receive] at h
    split at h <;> cases h <;> exact .refl
  | finishComment p =>
    simp only [receive] at h
    split at h <;> cases h
    · exact changes_append _ _
    · exact .refl
  | syntaxError f p => simp [receive, fault] at h
  | reset | beginStartTag | beginEndTag | beginAttribute | attributeName | beginAttributeValue
  | attributeValue | beginData | beginComment =>
    cases h
    exact .refl

theorem reports_changes {reports : List Html.Emission}
    (h : reports.foldlM (fun m e => m.receive src e.event) m = .ok n) :
    ReflTransGen Change m.stack n.stack :=
  reports_keep (P := fun n => ReflTransGen Change m.stack n.stack)
    (fun _ _ _ _ hm hn => hm.trans (receive_changes hn)) h .refl

end Markup

namespace Assembly

variable {src : Source} {a b : Assembly}

theorem follow_changes {step : List Html.Emission × Html.Tokenizer}
    (h : a.follow src step = .ok b) : ReflTransGen Change a.markup.stack b.markup.stack :=
  Markup.reports_changes (follow_ok h).1

theorem content_changes {c : Mustache.Content} (h : a.content src c = .ok b) :
    ReflTransGen Change a.markup.stack b.markup.stack := by
  simp only [content, bind_eq_ok] at h
  obtain ⟨a', ha', h⟩ := h
  exact .trans (follow_changes ha') (follow_changes h)

theorem endAttribute_stack (h : a.endAttribute src = .ok b) :
    b.markup.stack = a.markup.stack := by
  simp only [endAttribute, withMarkup, bind_eq_ok, pure_eq_ok] at h
  obtain ⟨m, hm, rfl⟩ := h
  have hstack := Markup.finishValue_stack hm
  exact hstack

theorem addModifier_stack {d : Dynamic} (h : a.addModifier src d = .ok b) :
    b.markup.stack = a.markup.stack := by
  cases d with
  | call m =>
    simp only [addModifier, withMarkup, bind_eq_ok, pure_eq_ok] at h
    obtain ⟨m, hm, rfl⟩ := h
    exact Markup.withStartTag_stack hm
  | literal m => simp [addModifier, fault] at h

theorem place_changes {d : Dynamic} (h : a.place src d = .ok b) :
    ReflTransGen Change a.markup.stack b.markup.stack := by
  unfold place at h
  split at h
  · simp [fault] at h
  · simp [fault] at h
  · rw [addModifier_stack h]
  · simp only [bind_eq_ok, pure_eq_ok] at h
    obtain ⟨a₁, h₁, a₂, h₂, rfl⟩ := h
    simp only [become, addModifier_stack h₂, endAttribute_stack h₁]
    exact .refl
  · simp only [bind_eq_ok, pure_eq_ok] at h
    obtain ⟨a₁, h₁, a₂, h₂, rfl⟩ := h
    simp only [become, addModifier_stack h₂, endAttribute_stack h₁]
    exact .refl
  · simp only [bind_eq_ok, pure_eq_ok] at h
    obtain ⟨a₁, h₁, rfl⟩ := h
    simp only [become, addModifier_stack h₁]
    exact .refl
  · cases h
    exact .refl
  · cases h
    exact .refl
  · cases h
    exact .refl
  · cases h
    exact .refl
  · cases h
    exact Markup.changes_append _ _

theorem placeComment_changes {c : Comment} (h : a.placeComment src c = .ok b) :
    ReflTransGen Change a.markup.stack b.markup.stack := by
  unfold placeComment at h
  split at h
  · simp only [withMarkup, bind_eq_ok, pure_eq_ok] at h
    obtain ⟨m, hm, rfl⟩ := h
    rw [Markup.withStartTag_stack hm]
  · simp only [withMarkup, bind_eq_ok, pure_eq_ok] at h
    obtain ⟨a₁, h₁, _, ⟨m, hm, rfl⟩, rfl⟩ := h
    simp only [become, Markup.withStartTag_stack hm, endAttribute_stack h₁]
    exact .refl
  · cases h
    exact Markup.changes_append _ _
  · cases h
    exact Markup.changes_append _ _
  · simp [fault] at h

theorem commentText_changes {loc : Location} (h : a.commentText src loc = .ok b) :
    ReflTransGen Change a.markup.stack b.markup.stack :=
  follow_changes h

/-- The frames are the same and no number is given out again. -/
def SameFrames (a b : Assembly) : Prop :=
  b.markup.stack.frames = a.markup.stack.frames ∧ a.markup.stack.nextId ≤ b.markup.stack.nextId

theorem SameFrames.refl (a : Assembly) : SameFrames a a := ⟨rfl, Nat.le_refl _⟩

theorem SameFrames.trans {c : Assembly} (h : SameFrames a b) (h' : SameFrames b c) :
    SameFrames a c :=
  ⟨h'.1.trans h.1, Nat.le_trans h.2 h'.2⟩

section
variable {id : Nat} {base : List (Nat × Frame)}

theorem fills_of_sameFrames (h : Fills id base a.markup.stack) (hs : SameFrames a b) :
    Fills id base b.markup.stack :=
  h.of_frames_eq hs.1 hs.2

private theorem nextId_le_of_change {s t : OpenElements} (h : Change s t) :
    s.nextId ≤ t.nextId := by
  have happend (s : OpenElements) (node : Statement) : (s.append node).nextId = s.nextId := by
    rcases s with ⟨_ | ⟨top, frames⟩, nextId⟩ <;> rfl
  cases h with
  | append node => exact Nat.le_of_eq (happend s node).symm
  | opened e => exact Nat.le_succ _
  | @closed t e stop hpop =>
    rw [happend]
    unfold OpenElements.popElement? at hpop
    split at hpop
    · cases hpop
      exact Nat.le_refl _
    · cases hpop

private theorem nextId_le_of_changes {s t : OpenElements} (h : ReflTransGen Change s t) :
    s.nextId ≤ t.nextId := by
  induction h with
  | refl => exact Nat.le_refl _
  | tail _ hstep ih => exact Nat.le_trans ih (nextId_le_of_change hstep)

end

def KeepsFilling (a b : Assembly) : Prop :=
  a.markup.stack.nextId ≤ b.markup.stack.nextId
    ∧ ∀ id base, Fills id base a.markup.stack → Fills id base b.markup.stack

theorem keepsFilling_of_changes (h : ReflTransGen Change a.markup.stack b.markup.stack) :
    KeepsFilling a b :=
  ⟨nextId_le_of_changes h, fun _ _ hf => hf.changes h⟩

theorem keepsFilling_of_sameFrames (h : SameFrames a b) : KeepsFilling a b :=
  ⟨h.2, fun _ _ hf => fills_of_sameFrames hf h⟩

theorem KeepsFilling.trans {c : Assembly} (h : KeepsFilling a b) (h' : KeepsFilling b c) :
    KeepsFilling a c :=
  ⟨Nat.le_trans h.1 h'.1, fun id base hf => h'.2 id base (h.2 id base hf)⟩

theorem KeepsFilling.append (h : KeepsFilling a b) (node : Statement) :
    KeepsFilling a (b.append node) :=
  h.trans (keepsFilling_of_changes (Markup.changes_append _ _))

mutual

theorem statement_keepsFilling {a b : Assembly} :
    (s : Mustache.Statement) → statement src a s = .ok b → KeepsFilling a b
  | .content _, h => by
    cases statement_ok h with
    | content h => exact keepsFilling_of_changes (content_changes h)
    | commented hne _ _ => exact absurd rfl (hne _)
  | .mustache _, h => by
    cases statement_ok h with
    | commented _ _ h => exact keepsFilling_of_changes (commentText_changes h)
    | mustache _ _ h => exact keepsFilling_of_changes (place_changes h)
  | .decorator _, h => by
    cases statement_ok h with
    | commented _ _ h => exact keepsFilling_of_changes (commentText_changes h)
    | decorator _ _ => exact keepsFilling_of_changes (Markup.changes_append _ _)
  | .comment _, h => by
    cases statement_ok h with
    | commented _ _ h => exact keepsFilling_of_changes (commentText_changes h)
    | comment _ h => exact keepsFilling_of_changes (placeComment_changes h)
  | .partialCall _, h => by
    cases statement_ok h with
    | commented _ _ h => exact keepsFilling_of_changes (commentText_changes h)
    | partialCall _ _ => exact keepsFilling_of_changes (Markup.changes_append _ _)
  | .block m, h => by
    cases statement_ok h with
    | commented _ _ h => exact keepsFilling_of_changes (commentText_changes h)
    | block hb => exact (keepsFilling_of_sameFrames (block_sameFrames m hb)).append _
  | .decoratorBlock m, h => by
    cases statement_ok h with
    | commented _ _ h => exact keepsFilling_of_changes (commentText_changes h)
    | decoratorBlock hb => exact (keepsFilling_of_sameFrames (block_sameFrames m hb)).append _
  | .partialBlock ⟨_, program, _, _, _⟩, h => by
    cases statement_ok h with
    | commented _ _ h => exact keepsFilling_of_changes (commentText_changes h)
    | partialBlock _ _ hp =>
      exact (keepsFilling_of_sameFrames (sectionOf_sameFrames program hp)).append _

theorem statements_keepsFilling {a b : Assembly} :
    (ss : List Mustache.Statement) → statements src a ss = .ok b → KeepsFilling a b
  | [], h => by
    rw [statements, Except.ok.injEq] at h
    rw [h]
    exact keepsFilling_of_sameFrames (.refl b)
  | s :: ss, h => by
    obtain ⟨a', hs, hss⟩ := statements_cons_ok h
    exact (statement_keepsFilling s hs).trans (statements_keepsFilling ss hss)

/-- A section that is read leaves the stack as it was. -/
theorem sectionOf_sameFrames {a b : Assembly} {fallback : Nat} {nodes : Section Statement} :
    (p : Mustache.Program Mustache.Statement) → sectionOf src a fallback p = .ok (nodes, b) →
      SameFrames a b
  | ⟨body, _, _⟩, h => by
    obtain ⟨inside, frame, stack, hbody, _, hpop, rfl, _⟩ := sectionOf_ok h
    obtain ⟨hnext, hfills⟩ := statements_keepsFilling body hbody
    have hinside := hfills _ _ (OpenElements.fills_pushBody a.markup.stack)
    obtain ⟨hframes, hid, _⟩ := hinside.popExpecting_ok hpop
    refine ⟨hframes, ?_⟩
    have : a.markup.stack.nextId + 1 ≤ inside.markup.stack.nextId := hnext
    show a.markup.stack.nextId ≤ stack.nextId
    omega

theorem sectionOf?_sameFrames {a b : Assembly} {fallback : Nat}
    {nodes : Option (Section Statement)} :
    (p : Option (Mustache.Program Mustache.Statement)) →
      sectionOf? src a fallback p = .ok (nodes, b) → SameFrames a b
  | none, h => by
    rw [sectionOf?, Except.ok.injEq, Prod.mk.injEq] at h
    rw [h.2]
    exact .refl b
  | some p, h => by
    obtain ⟨nodes', _, h⟩ := sectionOf?_ok h
    exact sectionOf_sameFrames p h

theorem block_sameFrames {a b : Assembly} {node : Block Statement} :
    (m : Mustache.Block Mustache.Statement) → block src a m = .ok (node, b) → SameFrames a b
  | ⟨_, program, inverse, _, _, _, _⟩, h => by
    obtain ⟨_, c, p, i, between, _, hprogram, hinverse, _⟩ := block_ok h
    exact (sectionOf?_sameFrames program hprogram).trans (sectionOf?_sameFrames inverse hinverse)

end

end Assembly
end HtmlTemplate.Tree
