import HtmlTemplate.Proofs.Nested
import HtmlTemplate.Proofs.Report

/-! What is under way between two reports, and that everything under way and everything
finished lies where it has been read. A report takes the markup from one phase to the
next. -/

namespace HtmlTemplate.Tree

/-- What is under way. -/
inductive Phase where
  | rest
  | text
  | comment
  | startTag
  | endTag
  /-- A tag of either kind, between its attributes. -/
  | tag
  /-- An attribute that has no value yet. -/
  | naming
  | valuing
deriving DecidableEq

/-- What is under way in each state of the machine. -/
def Phase.of : Html.State → Phase
  | .beforeData | .tagOpen | .markupDeclarationOpen | .endTagOpen => rest
  | .data => text
  | .commentStart | .commentStartDash | .comment | .commentEndDash | .commentEnd => comment
  | .tagName => startTag
  | .endTagName => endTag
  | .beforeAttributeName | .afterAttributeValueQuoted | .selfClosingStartTag => tag
  | .attributeName | .afterAttributeName | .beforeAttributeValue => naming
  | .attributeValueDoubleQuoted | .attributeValueSingleQuoted | .attributeValueUnquoted => valuing

namespace Current

def IsText : Current → Prop
  | text .. => True
  | _ => False

def IsComment : Current → Prop
  | comment .. => True
  | _ => False

def IsStartTag : Current → Prop
  | startTag _ => True
  | _ => False

def IsEndTag : Current → Prop
  | endTag .. => True
  | _ => False

def start : Current → Nat
  | text _ start | comment _ start | endTag _ start => start
  | startTag t => t.start

end Current

/-- The node and the attribute under way are what the phase says. -/
def Phase.Shows (m : Markup) : Phase → Prop
  | rest => m.current = none ∧ m.pending = none
  | text => (∃ c, m.current = some c ∧ c.IsText) ∧ m.pending = none
  | comment => (∃ c, m.current = some c ∧ c.IsComment) ∧ m.pending = none
  | startTag => (∃ c, m.current = some c ∧ c.IsStartTag) ∧ m.pending = none
  | endTag => (∃ c, m.current = some c ∧ c.IsEndTag) ∧ m.pending = none
  | tag => (∃ c, m.current = some c ∧ (c.IsStartTag ∨ c.IsEndTag)) ∧ m.pending = none
  | naming =>
    (∃ c, m.current = some c ∧ (c.IsStartTag ∨ c.IsEndTag))
      ∧ ∃ a, m.pending = some a ∧ a.parts = []
  | valuing =>
    (∃ c, m.current = some c ∧ (c.IsStartTag ∨ c.IsEndTag)) ∧ ∃ a, m.pending = some a

/-- Where a body is read: the offset from which on its nodes are and the frames below. -/
structure Ground where
  src : Source
  lo : Nat
  base : List (Nat × Frame)

/-- The offset from which on the nodes of the top frame are. -/
def Ground.floor (g : Ground) : List (Nat × Frame) → Nat
  | (_, .element e) :: _ => e.startTag.start
  | _ => g.lo

def StartTag.Nested (now : Nat) (t : StartTag) : Prop :=
  (∀ a ∈ t.attributes, a.Nested ⟨t.start, now⟩) ∧ (∀ m ∈ t.modifiers, m.Nested ⟨t.start, now⟩)
    ∧ ∀ c ∈ t.comments, Span.Encloses ⟨t.start, now⟩ c.span

def Current.Nested (floor now : Nat) (c : Current) : Prop :=
  floor ≤ c.start ∧ c.start ≤ now ∧ ∀ t, c = .startTag t → t.Nested now

structure PendingAttribute.Nested (tagStart now : Nat) (a : PendingAttribute) : Prop where
  start : tagStart ≤ a.start
  start_le : a.start ≤ a.valueStart
  valueStart_le : a.valueStart ≤ now
  parts : ∀ p ∈ a.parts, p.Nested ⟨a.valueStart, now⟩
  text : ∀ t, a.text = some t → Span.Encloses ⟨a.valueStart, now⟩ t.span

structure OpenElement.Nested (now : Nat) (e : OpenElement) : Prop where
  start_le : e.startTag.start ≤ e.startTag.stop
  stop_le : e.startTag.stop ≤ now
  attributes : ∀ a ∈ e.attributes, a.Nested ⟨e.startTag.start, now⟩
  modifiers : ∀ m ∈ e.modifiers, m.Nested ⟨e.startTag.start, now⟩
  comments : ∀ c ∈ e.comments, Span.Encloses ⟨e.startTag.start, now⟩ c.span
  children : ∀ s ∈ e.children, s.Nested ⟨e.startTag.start, now⟩

/-- A body on its ground and the elements open in it, all of it read by now. -/
inductive Framed (g : Ground) (now : Nat) : List (Nat × Frame) → Prop
  | body {id : Nat} {children : List Statement} :
      g.lo ≤ now → (∀ s ∈ children, s.Nested ⟨g.lo, now⟩) →
      Framed g now ((id, .body children) :: g.base)
  | element {id : Nat} {e : OpenElement} {frames : List (Nat × Frame)} :
      Framed g now frames → g.floor frames ≤ e.startTag.start → e.Nested now →
      Framed g now ((id, .element e) :: frames)

/-- The markup is in a phase, with everything in it where it has been read. -/
structure At (g : Ground) (now : Nat) (φ : Phase) (m : Markup) : Prop where
  phase : φ.Shows m
  framed : Framed g now m.stack.frames
  current : ∀ c, m.current = some c → c.Nested (g.floor m.stack.frames) now
  pending : ∀ c a, m.current = some c → m.pending = some a → a.Nested c.start now

variable {g : Ground} {now now' : Nat} {m n : Markup} {φ : Phase}

theorem StartTag.Nested.later {t : StartTag} (h : t.Nested now) (hnow : now ≤ now') :
    t.Nested now' :=
  ⟨fun a ha => (h.1 a ha).widen (Span.contains_later _ hnow),
    fun m hm => (h.2.1 m hm).widen (Span.contains_later _ hnow),
    fun c hc => (h.2.2 c hc).widen (Span.contains_later _ hnow)⟩

theorem Current.Nested.later {floor : Nat} {c : Current} (h : c.Nested floor now)
    (hnow : now ≤ now') : c.Nested floor now' :=
  ⟨h.1, Nat.le_trans h.2.1 hnow, fun t ht => (h.2.2 t ht).later hnow⟩

theorem PendingAttribute.Nested.later {tagStart : Nat} {a : PendingAttribute}
    (h : a.Nested tagStart now) (hnow : now ≤ now') : a.Nested tagStart now' where
  start := h.start
  start_le := h.start_le
  valueStart_le := Nat.le_trans h.valueStart_le hnow
  parts p hp := (h.parts p hp).widen (Span.contains_later _ hnow)
  text t ht := (h.text t ht).widen (Span.contains_later _ hnow)

theorem OpenElement.Nested.later {e : OpenElement} (h : e.Nested now) (hnow : now ≤ now') :
    e.Nested now' where
  start_le := h.start_le
  stop_le := Nat.le_trans h.stop_le hnow
  attributes a ha := (h.attributes a ha).widen (Span.contains_later _ hnow)
  modifiers m hm := (h.modifiers m hm).widen (Span.contains_later _ hnow)
  comments c hc := (h.comments c hc).widen (Span.contains_later _ hnow)
  children s hs := (h.children s hs).widen (Span.contains_later _ hnow)

theorem Framed.later {frames : List (Nat × Frame)} (h : Framed g now frames)
    (hnow : now ≤ now') : Framed g now' frames := by
  induction h with
  | body hlo hchildren =>
    exact .body (Nat.le_trans hlo hnow) fun s hs =>
      (hchildren s hs).widen (Span.contains_later _ hnow)
  | element _ hfloor helement ih => exact .element ih hfloor (helement.later hnow)

theorem Framed.floor_le {frames : List (Nat × Frame)} (h : Framed g now frames) :
    g.floor frames ≤ now := by
  cases h with
  | body hlo => exact hlo
  | element _ _ helement => exact Nat.le_trans helement.start_le helement.stop_le

theorem At.later (h : At g now φ m) (hnow : now ≤ now') : At g now' φ m where
  phase := h.phase
  framed := h.framed.later hnow
  current c hc := (h.current c hc).later hnow
  pending c a hc ha := (h.pending c a hc ha).later hnow

theorem floor_append (s : OpenElements) (node : Statement) :
    g.floor (s.append node).frames = g.floor s.frames := by
  rcases s with ⟨_ | ⟨⟨id, _ | e⟩, frames⟩, nextId⟩ <;> rfl

theorem Framed.append {s : OpenElements} {node : Statement} (h : Framed g now s.frames)
    (hnode : node.Nested ⟨g.floor s.frames, now⟩) : Framed g now (s.append node).frames := by
  obtain ⟨frames, nextId⟩ := s
  cases h with
  | body hlo hchildren =>
    refine .body hlo fun s hs => ?_
    rcases List.mem_append.mp hs with hs | hs
    · exact hchildren s hs
    · rw [List.mem_singleton.mp hs]
      exact hnode
  | element hframes hfloor helement =>
    refine .element hframes hfloor { helement with children := fun s hs => ?_ }
    rcases List.mem_append.mp hs with hs | hs
    · exact helement.children s hs
    · rw [List.mem_singleton.mp hs]
      exact hnode

theorem At.append (h : At g now φ m) {node : Statement}
    (hnode : node.Nested ⟨g.floor m.stack.frames, now⟩) : At g now φ (m.append node) where
  phase := h.phase
  framed := h.framed.append hnode
  current c hc := by
    have hnested := h.current c hc
    rw [← floor_append m.stack node] at hnested
    exact hnested
  pending := h.pending

theorem Framed.popElement {s t : OpenElements} {e : OpenElement} (h : Framed g now s.frames)
    (hpop : s.popElement? = some (e, t)) :
    Framed g now t.frames ∧ g.floor t.frames ≤ e.startTag.start ∧ e.Nested now := by
  unfold OpenElements.popElement? at hpop
  split at hpop
  · rename_i hframes
    rw [hframes] at h
    cases hpop
    cases h with
    | element hframes hfloor helement => exact ⟨hframes, hfloor, helement⟩
  · cases hpop

theorem OpenElement.Nested.finish {floor : Nat} {e : OpenElement} (h : e.Nested now)
    (hfloor : floor ≤ e.startTag.start) :
    Statement.Nested ⟨floor, now⟩ (.element (e.finish now)) :=
  ⟨⟨hfloor, Nat.le_trans h.start_le h.stop_le, Nat.le_refl _⟩, h.attributes, h.modifiers,
    h.comments, statementsNested_iff.mpr h.children⟩

theorem Framed.closeElement {name : List Char} {tagSpan : Span} {implicit : Bool}
    (h : Framed g tagSpan.stop m.stack.frames)
    (hclose : m.closeElement g.src name tagSpan implicit = .ok n) :
    Framed g tagSpan.stop n.stack.frames ∧ n.current = m.current ∧ n.pending = m.pending := by
  obtain ⟨e, stack, hpop, -, rfl⟩ := Markup.closeElement_ok hclose
  obtain ⟨hframes, hfloor, helement⟩ := h.popElement hpop
  exact ⟨hframes.append (helement.finish hfloor), rfl, rfl⟩

theorem Framed.openElement {t : StartTag} (h : Framed g now m.stack.frames)
    (hfloor : g.floor m.stack.frames ≤ t.start) (hstart : t.start ≤ now) (ht : t.Nested now)
    (hopen : m.openElement g.src t now = .ok n) :
    Framed g now n.stack.frames ∧ n.current = m.current ∧ n.pending = m.pending := by
  have hopened (kept : Nat) (params : List (List Char)) :
      (Markup.opened t kept params now).Nested now :=
    { start_le := hstart
      stop_le := Nat.le_refl _
      attributes := fun a ha => ht.1 a (List.mem_of_mem_take ha)
      modifiers := ht.2.1
      comments := ht.2.2
      children := fun s hs => by cases hs }
  obtain ⟨kept, params, -, rfl | rfl⟩ := Markup.openElement_ok hopen
  · exact ⟨.element h hfloor (hopened kept params), rfl, rfl⟩
  · refine ⟨?_, rfl, rfl⟩
    exact Framed.append (s := { m.stack with nextId := m.stack.nextId + 1 }) h
      ((hopened kept params).finish hfloor)

theorem At.rest_of_current_none (hframed : Framed g now m.stack.frames)
    (hcurrent : m.current = none) (hpending : m.pending = none) : At g now .rest m where
  phase := ⟨hcurrent, hpending⟩
  framed := hframed
  current c hc := by simp [hcurrent] at hc
  pending c a hc := by simp [hcurrent] at hc

theorem At.begin (h : At g now .rest m) {c : Current}
    (hfloor : g.floor m.stack.frames ≤ c.start) (hstart : c.start ≤ now)
    (ht : ∀ t, c = .startTag t → t.Nested now) (hshows : φ.Shows { m with current := some c }) :
    At g now φ { m with current := some c } where
  phase := hshows
  framed := h.framed
  current c' hc' := by
    cases hc'
    exact ⟨hfloor, hstart, ht⟩
  pending c' a hc' ha := by
    have hpending : m.pending = some a := ha
    simp [h.phase.2] at hpending

theorem At.beginStartTag (h : At g now .rest m) {p : Position}
    (hfloor : g.floor m.stack.frames ≤ g.src.offsetFor p) (hp : g.src.offsetFor p ≤ now)
    (hn : m.receive g.src (.beginStartTag p) = .ok n) : At g now .startTag n := by
  cases hn
  refine h.begin (c := .startTag { start := g.src.offsetFor p }) hfloor hp ?_ ?_
  · rintro t ⟨⟩
    exact ⟨by simp, by simp, by simp⟩
  · exact ⟨⟨_, rfl, trivial⟩, h.phase.2⟩

theorem At.beginEndTag (h : At g now .rest m) {p : Position}
    (hfloor : g.floor m.stack.frames ≤ g.src.offsetFor p) (hp : g.src.offsetFor p ≤ now)
    (hn : m.receive g.src (.beginEndTag p) = .ok n) : At g now .endTag n := by
  cases hn
  exact h.begin (c := .endTag [] (g.src.offsetFor p)) hfloor hp (fun t ht => by cases ht)
    ⟨⟨_, rfl, trivial⟩, h.phase.2⟩

theorem At.beginData (h : At g now .rest m) {p : Position}
    (hfloor : g.floor m.stack.frames ≤ g.src.offsetFor p) (hp : g.src.offsetFor p ≤ now)
    (hn : m.receive g.src (.beginData p) = .ok n) : At g now .text n := by
  cases hn
  exact h.begin (c := .text [] (g.src.offsetFor p)) hfloor hp (fun t ht => by cases ht)
    ⟨⟨_, rfl, trivial⟩, h.phase.2⟩

theorem At.beginComment (h : At g now .rest m) {p : Position}
    (hfloor : g.floor m.stack.frames ≤ g.src.offsetFor p) (hp : g.src.offsetFor p ≤ now)
    (hn : m.receive g.src (.beginComment p) = .ok n) : At g now .comment n := by
  cases hn
  exact h.begin (c := .comment [] (g.src.offsetFor p)) hfloor hp (fun t ht => by cases ht)
    ⟨⟨_, rfl, trivial⟩, h.phase.2⟩

theorem At.grow (h : At g now φ m) {c c' : Current} (hc : m.current = some c)
    (hstart : c'.start = c.start) (ht : ∀ t, c' = .startTag t → t.Nested now)
    (hshows : φ.Shows { m with current := some c' }) :
    At g now φ { m with current := some c' } where
  phase := hshows
  framed := h.framed
  current c'' hc'' := by
    cases hc''
    have hnested := h.current c hc
    exact ⟨hstart ▸ hnested.1, hstart ▸ hnested.2.1, ht⟩
  pending c'' a hc'' ha := by
    cases hc''
    rw [hstart]
    exact h.pending c a hc ha

theorem At.data (h : At g now .text m) {text : List Char}
    (hn : m.receive g.src (.data text) = .ok n) : At g now .text n := by
  obtain ⟨⟨c, hc, htext⟩, hpending⟩ := h.phase
  cases c with
  | text chars start =>
    simp only [Markup.receive, hc, Except.ok.injEq] at hn
    subst hn
    exact h.grow hc rfl (fun t ht => by cases ht) ⟨⟨_, rfl, trivial⟩, hpending⟩
  | _ => cases htext

theorem At.commentData (h : At g now .comment m) {text : List Char}
    (hn : m.receive g.src (.commentData text) = .ok n) : At g now .comment n := by
  obtain ⟨⟨c, hc, hcomment⟩, hpending⟩ := h.phase
  cases c with
  | comment value start =>
    simp only [Markup.receive, hc, Except.ok.injEq] at hn
    subst hn
    exact h.grow hc rfl (fun t ht => by cases ht) ⟨⟨_, rfl, trivial⟩, hpending⟩
  | _ => cases hcomment

theorem At.commentDatas {es : List Html.Emission}
    (hes : ∀ {e}, e ∈ es → ∃ text, e.event = .commentData text) (h : At g now .comment m)
    (hn : es.foldlM (fun m e => m.receive g.src e.event) m = .ok n) : At g now .comment n := by
  refine Markup.reports_keep (fun e he _ _ hm hn => ?_) hn h
  obtain ⟨text, htext⟩ := hes he
  rw [htext] at hn
  exact hm.commentData hn

theorem At.finish (h : At g now φ m) {c : Current} (hc : m.current = some c)
    (hpending : m.pending = none) {node : Statement}
    (hnode : node.Nested ⟨c.start, now⟩) :
    At g now .rest ({ m with current := none }.append node) := by
  have hrest : At g now .rest { m with current := none } :=
    .rest_of_current_none h.framed rfl hpending
  refine hrest.append ?_
  exact hnode.widen (Span.contains_earlier _ (h.current c hc).1)

theorem At.finishData (h : At g now .text m) {p : Position} (hp : g.src.offsetFor p = now)
    (hn : m.receive g.src (.finishData p) = .ok n) : At g now .rest n := by
  obtain ⟨⟨c, hc, htext⟩, hpending⟩ := h.phase
  cases c with
  | text chars start =>
    simp only [Markup.receive, hc, hp, Except.ok.injEq] at hn
    subst hn
    exact h.finish hc hpending ⟨Nat.le_refl _, (h.current _ hc).2.1, Nat.le_refl _⟩
  | _ => cases htext

theorem At.finishComment (h : At g now .comment m) {p : Position}
    (hp : g.src.offsetFor p = now) (hn : m.receive g.src (.finishComment p) = .ok n) :
    At g now .rest n := by
  obtain ⟨⟨c, hc, hcomment⟩, hpending⟩ := h.phase
  cases c with
  | comment value start =>
    simp only [Markup.receive, hc, hp, Except.ok.injEq] at hn
    subst hn
    exact h.finish hc hpending ⟨Nat.le_refl _, (h.current _ hc).2.1, Nat.le_refl _⟩
  | _ => cases hcomment

theorem At.tagName_start (h : At g now .startTag m) {c : Char}
    (hn : m.receive g.src (.tagName c) = .ok n) : At g now .startTag n := by
  obtain ⟨⟨c', hc, hstart⟩, hpending⟩ := h.phase
  cases c' with
  | startTag t =>
    simp only [Markup.receive, Markup.growTagName, hc, Except.ok.injEq] at hn
    subst hn
    refine h.grow hc rfl ?_ ⟨⟨_, rfl, trivial⟩, hpending⟩
    rintro t' ⟨⟩
    exact (h.current _ hc).2.2 t rfl
  | _ => cases hstart

theorem At.tagName_end (h : At g now .endTag m) {c : Char}
    (hn : m.receive g.src (.tagName c) = .ok n) : At g now .endTag n := by
  obtain ⟨⟨c', hc, hend⟩, hpending⟩ := h.phase
  cases c' with
  | endTag name start =>
    simp only [Markup.receive, Markup.growTagName, hc, Except.ok.injEq] at hn
    subst hn
    exact h.grow hc rfl (fun t ht => by cases ht) ⟨⟨_, rfl, trivial⟩, hpending⟩
  | _ => cases hend

theorem At.tag_of_startTag (h : At g now .startTag m) : At g now .tag m :=
  { h with phase := ⟨h.phase.1.imp fun _ hc => ⟨hc.1, .inl hc.2⟩, h.phase.2⟩ }

theorem At.tag_of_endTag (h : At g now .endTag m) : At g now .tag m :=
  { h with phase := ⟨h.phase.1.imp fun _ hc => ⟨hc.1, .inr hc.2⟩, h.phase.2⟩ }

theorem At.selfClosing (h : At g now .tag m) (hn : m.receive g.src .selfClosing = .ok n) :
    At g now .tag n := by
  obtain ⟨⟨c, hc, htag⟩, hpending⟩ := h.phase
  cases c with
  | startTag t =>
    simp only [Markup.receive, Markup.markSelfClosing, hc, Except.ok.injEq] at hn
    subst hn
    refine h.grow hc rfl ?_ ⟨⟨_, rfl, .inl trivial⟩, hpending⟩
    rintro t' ⟨⟩
    exact (h.current _ hc).2.2 t rfl
  | endTag name start => simp [Markup.receive, Markup.markSelfClosing, hc, fault] at hn
  | text => simp [Current.IsStartTag, Current.IsEndTag] at htag
  | comment => simp [Current.IsStartTag, Current.IsEndTag] at htag

theorem At.finishTag (h : At g now .tag m) {p : Position} (hp : g.src.offsetFor p = now)
    (hn : m.receive g.src (.finishTag p) = .ok n) : At g now .rest n := by
  obtain ⟨⟨c, hc, htag⟩, hpending⟩ := h.phase
  have hnested := h.current c hc
  subst hp
  cases c with
  | startTag t =>
    simp only [Markup.receive, Markup.finishTag, hc] at hn
    obtain ⟨hframed, hcurrent, hpending'⟩ := Framed.openElement (m := { m with current := none })
      h.framed hnested.1 hnested.2.1 (hnested.2.2 t rfl) hn
    exact .rest_of_current_none hframed hcurrent (hpending'.trans hpending)
  | endTag name start =>
    simp only [Markup.receive, Markup.finishTag, hc] at hn
    obtain ⟨hframed, hcurrent, hpending'⟩ := Framed.closeElement
      (m := { m with current := none }) h.framed hn
    exact .rest_of_current_none hframed hcurrent (hpending'.trans hpending)
  | text => simp [Current.IsStartTag, Current.IsEndTag] at htag
  | comment => simp [Current.IsStartTag, Current.IsEndTag] at htag

theorem At.withPending (h : At g now φ m) {a : PendingAttribute}
    (ha : ∀ c, m.current = some c → a.Nested c.start now) {φ' : Phase}
    (hshows : φ'.Shows { m with pending := some a }) :
    At g now φ' { m with pending := some a } where
  phase := hshows
  framed := h.framed
  current := h.current
  pending c a' hc ha' := by
    cases ha'
    exact ha c hc

theorem At.beginAttribute (h : At g now .tag m) {p : Position} (hp : g.src.offsetFor p = now)
    (hn : m.receive g.src (.beginAttribute p) = .ok n) : At g now .naming n := by
  cases hn
  refine h.withPending (fun c hc => ?_) ⟨h.phase.1, _, rfl, rfl⟩
  subst hp
  exact ⟨(h.current c hc).2.1, Nat.le_refl _, Nat.le_refl _, by simp, by simp⟩

theorem At.attributeName (h : At g now .naming m) {c : Char}
    (hn : m.receive g.src (.attributeName c) = .ok n) : At g now .naming n := by
  obtain ⟨htag, a, ha, hparts⟩ := h.phase
  simp only [Markup.receive, Markup.mapAttribute, ha, Option.map_some, Except.ok.injEq] at hn
  subst hn
  refine h.withPending (fun c hc => ?_) ⟨htag, _, rfl, hparts⟩
  have hnested := h.pending c a hc ha
  exact ⟨hnested.start, hnested.start_le, hnested.valueStart_le, hnested.parts, hnested.text⟩

theorem At.beginValue (h : At g now .naming m) (quoted : Bool) {offset : Nat}
    (hstart : ∀ a, m.pending = some a → a.start ≤ offset) (hnow : offset ≤ now) :
    At g now .valuing (m.beginValue quoted offset) := by
  obtain ⟨htag, a, ha, hparts⟩ := h.phase
  simp only [Markup.beginValue, Markup.mapAttribute, ha, Option.map_some]
  refine h.withPending (fun c hc => ?_) ⟨htag, _, rfl⟩
  have hnested := h.pending c a hc ha
  exact ⟨hnested.start, hstart a ha, hnow, by simp [hparts], by simp⟩

theorem At.beginAttributeValue (h : At g now .naming m) {quoted : Bool} {p : Position}
    (hp : g.src.offsetFor p = now)
    (hn : m.receive g.src (.beginAttributeValue quoted p) = .ok n) : At g now .valuing n := by
  cases hn
  rw [hp]
  refine h.beginValue _ (fun a ha => ?_) (Nat.le_refl _)
  obtain ⟨⟨c, hc, _⟩, _⟩ := h.phase
  have hnested := h.pending c a hc ha
  exact Nat.le_trans hnested.start_le hnested.valueStart_le

theorem PendingAttribute.Nested.addText {tagStart : Nat} {a : PendingAttribute}
    (h : a.Nested tagStart now) (chars : List Char) (hnow : now ≤ now') :
    (a.addText chars ⟨now, now'⟩).Nested tagStart now' := by
  refine ⟨h.start, h.start_le, Nat.le_trans h.valueStart_le hnow, (h.later hnow).parts, ?_⟩
  rintro t ⟨⟩
  cases ht : a.text with
  | none => exact ⟨h.valueStart_le, hnow, Nat.le_refl _⟩
  | some t =>
    have htext := h.text t ht
    exact ⟨htext.1, Nat.le_trans htext.2.1 (Nat.le_trans htext.2.2 hnow), Nat.le_refl _⟩

theorem At.attributeValue (h : At g now .valuing m) {text : List Char} {l : Location}
    (hstart : g.src.offsetFor l.start = now) (hstop : g.src.offsetFor l.stop = now')
    (hnow : now ≤ now') (hn : m.receive g.src (.attributeValue text l) = .ok n) :
    At g now' .valuing n := by
  obtain ⟨htag, a, ha⟩ := h.phase
  simp only [Markup.receive, Markup.mapAttribute, ha, Option.map_some, Except.ok.injEq, hstart,
    hstop] at hn
  subst hn
  exact (h.later hnow).withPending (fun c hc => (h.pending c a hc ha).addText text hnow)
    ⟨htag, _, rfl⟩

theorem PendingAttribute.Nested.finishText {tagStart : Nat} {a : PendingAttribute}
    (h : a.Nested tagStart now) : a.finishText.Nested tagStart now := by
  unfold PendingAttribute.finishText
  split
  · rename_i t ht
    refine ⟨h.start, h.start_le, h.valueStart_le, fun p hp => ?_, by simp⟩
    rcases List.mem_append.mp hp with hp | hp
    · exact h.parts p hp
    · rw [List.mem_singleton.mp hp]
      exact h.text t ht
  · exact h

theorem PendingAttribute.Nested.addDynamic {tagStart : Nat} {a : PendingAttribute}
    (h : a.Nested tagStart now) {d : Dynamic} (hd : d.Nested ⟨now, now'⟩) (hnow : now ≤ now') :
    (a.addDynamic d).Nested tagStart now' := by
  have hfinish := h.finishText.later hnow
  refine ⟨hfinish.start, hfinish.start_le, hfinish.valueStart_le, fun p hp => ?_, hfinish.text⟩
  rcases List.mem_append.mp hp with hp | hp
  · exact hfinish.parts p hp
  · rw [List.mem_singleton.mp hp]
    exact hd.widen (Span.contains_earlier _ h.finishText.valueStart_le)

theorem PendingAttribute.Nested.value {tagStart : Nat} {a : PendingAttribute}
    (h : a.Nested tagStart now) {value : AttributeValue}
    (hvalue : a.value? ⟨a.valueStart, now⟩ = .ok value) : value.Nested ⟨a.start, now⟩ := by
  have hspan : Span.Encloses ⟨a.start, now⟩ ⟨a.valueStart, now⟩ :=
    ⟨h.start_le, h.valueStart_le, Nat.le_refl _⟩
  unfold PendingAttribute.value? at hvalue
  split at hvalue
  · cases hvalue
    exact hspan
  · split at hvalue
    · cases hvalue
      exact ⟨hspan, h.parts⟩
    · split at hvalue
      · rename_i part hparts
        cases hvalue
        have hpart := (h.parts part (by simp [hparts])).widen hspan.contains
        cases part with
        | text t => exact hpart
        | dynamic d => exact hpart
      · cases hvalue

theorem At.finishValue (h : At g now .valuing m) {stop : Nat} (hstop : stop ≤ now)
    (ha : ∀ c a, m.current = some c → m.pending = some a → a.Nested c.start stop)
    (hn : m.finishValue g.src stop = .ok n) : At g now .tag n := by
  obtain ⟨-, a, hpending⟩ := h.phase
  obtain ⟨t, value, hcurrent, hvalue, rfl⟩ := Markup.finishValue_ok hpending hn
  have hnested := ha _ a hcurrent hpending
  have ht := (h.current _ hcurrent).2.2 t rfl
  have hstart : a.finishText.start = a.start := by
    unfold PendingAttribute.finishText
    split <;> rfl
  have hvalueStart : a.finishText.valueStart = a.valueStart := by
    unfold PendingAttribute.finishText
    split <;> rfl
  have hnested' := hnested.finishText.value (by rw [hvalueStart]; exact hvalue)
  rw [hstart] at hnested'
  refine { phase := ⟨⟨_, rfl, .inl trivial⟩, rfl⟩, framed := h.framed, current := ?_,
           pending := by simp }
  rintro c ⟨⟩
  have hc := h.current _ hcurrent
  refine ⟨hc.1, hc.2.1, ?_⟩
  rintro t' ⟨⟩
  refine ⟨fun b hb => ?_, ht.2.1, ht.2.2⟩
  rcases List.mem_append.mp hb with hb | hb
  · exact ht.1 b hb
  · rw [List.mem_singleton.mp hb]
    exact ⟨⟨hnested.start, Nat.le_trans hnested.start_le hnested.valueStart_le, hstop⟩, hnested'⟩

theorem At.finishAttributeValue (h : At g now .valuing m) {p : Position}
    (hp : g.src.offsetFor p = now)
    (hn : m.receive g.src (.finishAttributeValue p) = .ok n) : At g now .tag n := by
  simp only [Markup.receive, hp] at hn
  exact h.finishValue (Nat.le_refl _) h.pending hn

theorem At.withStartTag (h : At g now .tag m) {span : Span} {f : StartTag → StartTag}
    (hstart : ∀ t, (f t).start = t.start)
    (hf : ∀ t, m.current = some (.startTag t) → t.Nested now → (f t).Nested now)
    (hn : m.withStartTag g.src span f = .ok n) : At g now .tag n := by
  obtain ⟨t, hc, rfl⟩ := Markup.withStartTag_ok hn
  refine h.grow hc (hstart t) ?_ ⟨⟨_, rfl, .inl trivial⟩, h.phase.2⟩
  rintro t' ⟨⟩
  exact hf t hc ((h.current _ hc).2.2 t rfl)

theorem At.addModifier (h : At g now .tag m) {modifier : Modifier}
    (hm : modifier.Nested ⟨now, now'⟩) (hnow : now ≤ now')
    (hn : m.addModifier g.src modifier = .ok n) : At g now' .tag n := by
  unfold Markup.addModifier at hn
  refine (h.later hnow).withStartTag ?_ ?_ hn
  · exact fun _ => rfl
  refine fun t hc ht => ⟨ht.1, fun m' hm' => ?_, ht.2.2⟩
  rcases List.mem_append.mp hm' with hm' | hm'
  · exact ht.2.1 m' hm'
  · rw [List.mem_singleton.mp hm']
    exact hm.widen (Span.contains_earlier _ (h.current _ hc).2.1)

theorem At.addTagComment (h : At g now .tag m) {c : Comment}
    (hcomment : Span.Encloses ⟨now, now'⟩ c.span) (hnow : now ≤ now')
    (hn : m.addTagComment g.src c = .ok n) : At g now' .tag n := by
  unfold Markup.addTagComment at hn
  refine (h.later hnow).withStartTag ?_ ?_ hn
  · exact fun _ => rfl
  refine fun t hc ht => ⟨ht.1, ht.2.1, fun c' hc' => ?_⟩
  rcases List.mem_append.mp hc' with hc' | hc'
  · exact ht.2.2 c' hc'
  · rw [List.mem_singleton.mp hc']
    exact hcomment.widen (Span.contains_earlier _ (h.current _ hc).2.1)

theorem At.addValuePart (h : At g now .valuing m) {d : Dynamic} (hd : d.Nested ⟨now, now'⟩)
    (hnow : now ≤ now') : At g now' .valuing (m.addValuePart d) := by
  obtain ⟨htag, a, ha⟩ := h.phase
  simp only [Markup.addValuePart, Markup.mapAttribute, ha, Option.map_some]
  exact (h.later hnow).withPending (fun c hc => (h.pending c a hc ha).addDynamic hd hnow)
    ⟨htag, _, rfl⟩

end HtmlTemplate.Tree
