import HtmlTemplate.Proofs.Grammar
import HtmlTemplate.Proofs.Modes
import HtmlTemplate.Proofs.Progress
import HtmlTemplate.Proofs.TagSteps

/-! The order of the positions that are reported. They are positions reached, except for that of a
`<`, which is reported once the character behind it has been seen: up to then nothing else is. -/

namespace HtmlTemplate.Html

def Event.positions : Event → List Position
  | beginStartTag p | beginEndTag p | finishTag p | beginAttribute p | beginAttributeValue _ p
  | finishAttributeValue p | beginData p | finishData p | beginComment p | finishComment p
  | syntaxError _ p => [p]
  | attributeValue _ l => [l.start, l.stop]
  | _ => []

structure Rises (p : Position) (ps : List Position) (q : Position) : Prop where
  ordered : ps.Pairwise (· ≤ ·)
  lower : ∀ r ∈ ps, p ≤ r
  upper : ∀ r ∈ ps, r ≤ q
  le : p ≤ q

namespace Rises

variable {p q r : Position} {ps qs : List Position}

theorem nil (h : p ≤ q) : Rises p [] q :=
  ⟨.nil, List.forall_mem_nil _, List.forall_mem_nil _, h⟩

theorem one (h : p ≤ q) (h' : q ≤ r) : Rises p [q] r :=
  ⟨List.pairwise_singleton _ _, List.forall_mem_singleton.mpr h, List.forall_mem_singleton.mpr h',
    h.trans h'⟩

theorem trans (h : Rises p ps q) (h' : Rises q qs r) : Rises p (ps ++ qs) r where
  ordered := List.pairwise_append.mpr ⟨h.ordered, h'.ordered,
    fun _ ha _ hb => (h.upper _ ha).trans (h'.lower _ hb)⟩
  lower := List.forall_mem_append.mpr ⟨h.lower, fun _ hr => h.le.trans (h'.lower _ hr)⟩
  upper := List.forall_mem_append.mpr ⟨fun _ hr => (h.upper _ hr).trans h'.le, h'.upper⟩
  le := h.le.trans h'.le

theorem mono (h : Rises p ps q) (hle : q ≤ r) : Rises p ps r := by
  simpa using h.trans (nil hle)

end Rises

def State.isOpening : State → Bool
  | tagOpen | endTagOpen | markupDeclarationOpen => true
  | _ => false

def Tokenizer.reach (t : Tokenizer) : Position :=
  if t.state.isOpening then t.tagStart else t.position

namespace Step

def positions (s : Step) : List Position :=
  s.events.flatMap Event.positions

theorem positions_emit (s : Step) (e : Event) :
    (s.emit e).positions = s.positions ++ e.positions := by
  simp [positions, events_emit]

/-- What has been reported comes in order from one position up to the one reached, and no `<` is
held back. -/
structure Climbs (p : Position) (s : Step) : Prop where
  state : s.now.state.isOpening = false
  rises : Rises p s.positions s.now.position

structure Ordered (p : Position) (s : Step) : Prop where
  rises : Rises p s.positions s.now.reach
  reach_le : s.now.reach ≤ s.now.position

section
variable {p : Position} {s : Step} {c : Char}

namespace Climbs

theorem ordered (h : s.Climbs p) : s.Ordered p := by
  have hreach : s.now.reach = s.now.position := if_neg (by simp [h.state])
  exact ⟨hreach ▸ h.rises, hreach.le⟩

theorem start {t : Tokenizer} (h : t.state.isOpening = false) :
    Climbs t.position { now := t } :=
  ⟨h, .nil le_rfl⟩

theorem emit (h : s.Climbs p) {e : Event} (he : Rises s.now.position e.positions s.now.position) :
    (s.emit e).Climbs p :=
  ⟨h.state, positions_emit s e ▸ h.rises.trans he⟩

theorem text (h : s.Climbs p) {e : Event} (he : e.positions = []) : (s.emit e).Climbs p :=
  h.emit (he ▸ .nil le_rfl)

theorem here (h : s.Climbs p) {e : Position → Event} (he : ∀ q, (e q).positions = [q]) :
    (s.emitHere e).Climbs p :=
  h.emit (he _ ▸ .one le_rfl le_rfl)

theorem read (h : s.Climbs p) (c : Char) : (s.read c).Climbs p :=
  ⟨h.state, h.rises.mono (Position.le_next _ c)⟩

theorem become (h : s.Climbs p) {state : State} (hstate : state.isOpening = false) :
    (s.become state).Climbs p :=
  ⟨hstate, h.rises⟩

theorem forgetName (h : s.Climbs p) : s.forgetName.Climbs p := ⟨h.state, h.rises⟩

theorem growName (h : s.Climbs p) (c : Char) : (s.growName c).Climbs p := by
  have hgrown : Climbs p { s with now := { s.now with tagName := s.now.tagName ++ [c] } } :=
    ⟨h.state, h.rises⟩
  exact hgrown.text rfl

theorem closeTag (h : s.Climbs p) : s.closeTag.Climbs p :=
  (h.here fun _ => rfl).become rfl

theorem closeComment (h : s.Climbs p) : s.closeComment.Climbs p :=
  (h.here fun _ => rfl).become rfl

theorem emptyValue (h : s.Climbs p) : s.emptyValue.Climbs p :=
  Climbs.here (s := s.emitHere (.beginAttributeValue false)) (h.here fun _ => rfl) fun _ => rfl

theorem commentText (h : s.Climbs p) (dashes : List Char) (c : Char) :
    (s.commentText dashes c).Climbs p := by
  unfold Step.commentText
  split
  · exact (h.text rfl).become rfl
  · exact ((h.text rfl).text rfl).become rfl

theorem decode (h : s.Climbs p) (c : Char) (rest : List Char) :
    (s.decode c rest).2.Climbs p := by
  obtain ⟨cs, hemitted, hnow⟩ := decode_moved s c rest
  refine ⟨by rw [hnow]; exact h.state, ?_⟩
  rw [positions, events, hemitted, hnow]
  exact h.rises.mono (Position.le_after _ cs)

theorem valueText (h : s.Climbs p) (c : Char) (rest : List Char) :
    (s.valueText c rest).Climbs p := by
  obtain ⟨cs, hemitted, hnow⟩ := decode_moved (s.read c) c rest
  have hdecoded : ((s.read c).decode c rest).2.Climbs p := (h.read c).decode c rest
  have hle : s.now.position ≤ ((s.read c).decode c rest).2.now.position := by
    rw [hnow]
    exact le_trans (Position.le_next _ c) (Position.le_after _ cs)
  unfold Step.valueText
  generalize (s.read c).decode c rest = decoded at *
  obtain ⟨text, s'⟩ := decoded
  have hpositions : s'.positions = s.positions := by
    rw [positions, events, show s'.emitted = s.emitted from hemitted]
    rfl
  refine ⟨hdecoded.state, ?_⟩
  rw [positions_emit, hpositions]
  exact h.rises.trans ((Rises.one le_rfl hle).trans (.one le_rfl le_rfl))

end Climbs

variable (c : Char) (rest : List Char)

theorem data_ordered (h : s.Climbs p) : (s.data c rest).Ordered p := by
  unfold data
  split
  · exact ⟨(h.here fun _ => rfl).rises, Position.le_next _ c⟩
  · split
    · exact ((h.read c).text rfl).ordered
    · exact (((h.read c).decode c rest).text rfl).ordered

theorem beforeData_ordered (h : s.Climbs p) : (s.beforeData c rest).Ordered p := by
  unfold beforeData
  split
  · exact ⟨h.rises, Position.le_next _ c⟩
  · split
    · exact (h.forgetName.read c).ordered
    · exact data_ordered c rest ((h.become rfl).here fun _ => rfl)

theorem commentStart_climbs (h : s.Climbs p) : (s.commentStart c).Climbs p := by
  unfold commentStart
  dsimp only
  split
  · exact (h.read c).become rfl
  · split
    · exact (h.read c).closeComment
    · exact (h.read c).commentText [] c

theorem commentStartDash_climbs (h : s.Climbs p) : (s.commentStartDash c).Climbs p := by
  unfold commentStartDash
  dsimp only
  split
  · exact (h.read c).become rfl
  · split
    · exact (h.read c).closeComment
    · exact ((h.read c).text rfl).become rfl

theorem comment_climbs (h : s.Climbs p) : (s.comment c).Climbs p := by
  unfold comment
  dsimp only
  split
  · exact (h.read c).become rfl
  · exact (h.read c).text rfl

theorem commentEndDash_climbs (h : s.Climbs p) : (s.commentEndDash c).Climbs p := by
  unfold commentEndDash
  dsimp only
  split
  · exact (h.read c).become rfl
  · exact (h.read c).commentText ['-'] c

theorem commentEnd_climbs (h : s.Climbs p) : (s.commentEnd c).Climbs p := by
  unfold commentEnd
  dsimp only
  split
  · exact (h.read c).closeComment
  · exact (h.read c).commentText ['-', '-'] c

theorem tagName_climbs (h : s.Climbs p) : (s.tagName c).Climbs p := by
  unfold tagName
  dsimp only
  split
  · exact (h.read c).become rfl
  · split
    · exact (h.read c).become rfl
    · split
      · exact (h.read c).closeTag
      · exact (h.read c).growName c

theorem endTagName_climbs (h : s.Climbs p) : (s.endTagName c).Climbs p := by
  unfold endTagName
  dsimp only
  split
  · exact ((h.read c).become rfl).forgetName
  · split
    · exact ((h.read c).become rfl).forgetName
    · split
      · exact (h.read c).closeTag.forgetName
      · exact (h.read c).growName c

theorem attributeName_climbs (h : s.Climbs p) : (s.attributeName c).Climbs p := by
  unfold attributeName
  split
  · exact (h.become rfl).read c
  · split
    · exact (h.emptyValue.read c).become rfl
    · split
      · exact (h.become rfl).read c
      · split
        · exact (h.emptyValue.read c).closeTag
        · split
          · exact ((h.here fun _ => rfl).read c).text rfl
          · exact (h.read c).text rfl

theorem beforeAttributeName_climbs (h : s.Climbs p) : (s.beforeAttributeName c).Climbs p := by
  unfold beforeAttributeName
  split
  · exact h.read c
  · split
    · exact (h.become rfl).read c
    · split
      · exact (h.read c).closeTag
      · split
        · have hfault : (s.emitHere (.syntaxError .equalsBeforeName)).Climbs p :=
            h.here fun _ => rfl
          have hbegun := (hfault.become (rfl : State.attributeName.isOpening = false)).here
            (e := .beginAttribute) fun _ => rfl
          exact (hbegun.read c).text rfl
        · exact attributeName_climbs c ((h.become rfl).here fun _ => rfl)

theorem afterAttributeName_climbs (h : s.Climbs p) : (s.afterAttributeName c).Climbs p := by
  unfold afterAttributeName
  split
  · exact h.read c
  · split
    · exact (h.emptyValue.read c).become rfl
    · split
      · exact (h.read c).become rfl
      · split
        · exact (h.emptyValue.read c).closeTag
        · have hbegun := (h.emptyValue.become (rfl : State.attributeName.isOpening = false)).here
            (e := .beginAttribute) fun _ => rfl
          exact (hbegun.read c).text rfl

theorem beforeAttributeValue_climbs (h : s.Climbs p) :
    (s.beforeAttributeValue c rest).Climbs p := by
  unfold beforeAttributeValue
  split
  · exact h.read c
  · split
    · exact ((h.become rfl).here fun _ => rfl).read c
    · split
      · exact ((h.become rfl).here fun _ => rfl).read c
      · split
        · exact (h.emptyValue.read c).closeTag
        · exact ((h.become rfl).here fun _ => rfl).valueText c rest

theorem quotedValue_climbs (quote : Char) (h : s.Climbs p) :
    (s.quotedValue quote c rest).Climbs p := by
  unfold quotedValue
  split
  · exact ((h.read c).here fun _ => rfl).become rfl
  · exact h.valueText c rest

theorem unquotedValue_climbs (h : s.Climbs p) : (s.unquotedValue c rest).Climbs p := by
  have hended : (s.emitHere .finishAttributeValue).Climbs p := h.here fun _ => rfl
  unfold unquotedValue
  split
  · exact (hended.read c).become rfl
  · split
    · exact (hended.read c).become rfl
    · split
      · exact (hended.read c).closeTag
      · exact h.valueText c rest

theorem afterAttributeValueQuoted_climbs (h : s.Climbs p) :
    (s.afterAttributeValueQuoted c).Climbs p := by
  unfold afterAttributeValueQuoted
  split
  · exact (h.read c).become rfl
  · split
    · exact (h.read c).become rfl
    · split
      · exact (h.read c).closeTag
      · exact beforeAttributeName_climbs c (h.become rfl)

theorem selfClosingStartTag_climbs (h : s.Climbs p) : (s.selfClosingStartTag c).Climbs p := by
  unfold selfClosingStartTag
  split
  · exact ((h.read c).text rfl).closeTag
  · exact beforeAttributeName_climbs c (h.become rfl)

end

end Step

namespace Tokenizer

variable {t : Tokenizer}

private theorem tagOpen_ordered (h : t.tagStart ≤ t.position) (c : Char) :
    (Step.tagOpen { now := t } c).Ordered t.tagStart := by
  have hle : t.tagStart ≤ t.position.next c := h.trans (Position.le_next _ c)
  unfold Step.tagOpen
  dsimp only
  split
  · exact ⟨.nil le_rfl, hle⟩
  · split
    · exact ⟨.nil le_rfl, hle⟩
    · split
      · exact ⟨.one le_rfl hle, le_rfl⟩
      · exact ⟨.one le_rfl hle, le_rfl⟩

private theorem endTagOpen_ordered (h : t.tagStart ≤ t.position) (c : Char) :
    (Step.endTagOpen { now := t } c).Ordered t.tagStart := by
  have hle : t.tagStart ≤ t.position.next c := h.trans (Position.le_next _ c)
  unfold Step.endTagOpen
  dsimp only
  split
  · exact ⟨.one le_rfl hle, le_rfl⟩
  · exact ⟨.one le_rfl hle, le_rfl⟩

private theorem markupDeclarationOpen_ordered (h : t.tagStart ≤ t.position) (c : Char)
    (rest : List Char) :
    (Step.markupDeclarationOpen { now := t } c rest).Ordered t.tagStart := by
  have hle : t.tagStart ≤ t.position.next c := h.trans (Position.le_next _ c)
  unfold Step.markupDeclarationOpen
  dsimp only
  split
  · exact ⟨.one le_rfl (hle.trans (Position.le_after _ ['-'])), le_rfl⟩
  · exact ⟨.one le_rfl hle, le_rfl⟩

theorem step_ordered (h : t.reach ≤ t.position) (c : Char) (rest : List Char) :
    (t.step c rest).Ordered t.reach := by
  have hopen (hstate : t.state.isOpening = true) : t.reach = t.tagStart := if_pos hstate
  have hstart (hstate : t.state.isOpening = false) : Step.Climbs t.reach { now := t } := by
    rw [reach, if_neg (by simp [hstate])]
    exact .start hstate
  unfold step
  cases hstate : t.state with
  | tagOpen =>
    have hreach := hopen (by rw [hstate]; rfl)
    exact hreach ▸ tagOpen_ordered (hreach ▸ h) c
  | endTagOpen =>
    have hreach := hopen (by rw [hstate]; rfl)
    exact hreach ▸ endTagOpen_ordered (hreach ▸ h) c
  | markupDeclarationOpen =>
    have hreach := hopen (by rw [hstate]; rfl)
    exact hreach ▸ markupDeclarationOpen_ordered (hreach ▸ h) c rest
  | beforeData => exact Step.beforeData_ordered c rest (hstart (by rw [hstate]; rfl))
  | data => exact Step.data_ordered c rest (hstart (by rw [hstate]; rfl))
  | commentStart => exact (Step.commentStart_climbs c (hstart (by rw [hstate]; rfl))).ordered
  | commentStartDash =>
    exact (Step.commentStartDash_climbs c (hstart (by rw [hstate]; rfl))).ordered
  | comment => exact (Step.comment_climbs c (hstart (by rw [hstate]; rfl))).ordered
  | commentEndDash => exact (Step.commentEndDash_climbs c (hstart (by rw [hstate]; rfl))).ordered
  | commentEnd => exact (Step.commentEnd_climbs c (hstart (by rw [hstate]; rfl))).ordered
  | tagName => exact (Step.tagName_climbs c (hstart (by rw [hstate]; rfl))).ordered
  | endTagName => exact (Step.endTagName_climbs c (hstart (by rw [hstate]; rfl))).ordered
  | beforeAttributeName =>
    exact (Step.beforeAttributeName_climbs c (hstart (by rw [hstate]; rfl))).ordered
  | attributeName => exact (Step.attributeName_climbs c (hstart (by rw [hstate]; rfl))).ordered
  | afterAttributeName =>
    exact (Step.afterAttributeName_climbs c (hstart (by rw [hstate]; rfl))).ordered
  | beforeAttributeValue =>
    exact (Step.beforeAttributeValue_climbs c rest (hstart (by rw [hstate]; rfl))).ordered
  | attributeValueDoubleQuoted | attributeValueSingleQuoted =>
    exact (Step.quotedValue_climbs c rest _ (hstart (by rw [hstate]; rfl))).ordered
  | attributeValueUnquoted =>
    exact (Step.unquotedValue_climbs c rest (hstart (by rw [hstate]; rfl))).ordered
  | afterAttributeValueQuoted =>
    exact (Step.afterAttributeValueQuoted_climbs c (hstart (by rw [hstate]; rfl))).ordered
  | selfClosingStartTag =>
    exact (Step.selfClosingStartTag_climbs c (hstart (by rw [hstate]; rfl))).ordered

def Climbs (t : Tokenizer) (read : List Emission × Tokenizer) : Prop :=
  Rises t.reach ((read.1.map (·.event)).flatMap Event.positions) read.2.reach
    ∧ read.2.reach ≤ read.2.position

private theorem feed_climbs (h : t.reach ≤ t.position) (cs : List Char) : t.Climbs (t.feed cs) := by
  induction hlength : cs.length using Nat.strongRecOn generalizing t cs with
  | _ length ih =>
    cases cs with
    | nil => exact ⟨.nil le_rfl, h⟩
    | cons c rest =>
      have hstep := t.step_ordered h c rest
      have hshorter : (rest.drop (t.step c rest).ahead).length < length := by
        rw [← hlength, List.length_drop, List.length_cons]
        omega
      obtain ⟨hrest, hle⟩ := ih _ hshorter hstep.reach_le _ rfl
      obtain ⟨hevents, hlast⟩ := t.events_feed_cons c rest
      rw [Climbs, hevents, hlast, List.flatMap_append]
      exact ⟨hstep.rises.trans hrest, hle⟩

private theorem finishData_climbs (h : t.reach ≤ t.position) : t.Climbs t.finishData := by
  unfold finishData
  split
  · rename_i hstate
    have hreach : t.reach = t.position := if_neg (by rw [hstate]; decide)
    exact ⟨hreach ▸ .one le_rfl le_rfl, le_rfl⟩
  · exact ⟨.nil le_rfl, h⟩

theorem perform_climbs (h : t.reach ≤ t.position) {a : Action} (ha : a.isReading = true) :
    t.Climbs (a.perform t) := by
  cases a with
  | feed chunk => exact feed_climbs h chunk
  | finishData | finish => exact finishData_climbs h
  | _ => cases ha

end Tokenizer

theorem Session.run_climbs {s : Session} (hs : s.recorder.Accepts)
    (h : s.tokenizer.reach ≤ s.tokenizer.position) {actions : List Action}
    (hactions : ∀ a ∈ actions, a.isReading = true) :
    ∃ q, Rises s.tokenizer.reach
      (((s.run actions).flatMap (·.events)).flatMap Event.positions) q := by
  induction actions generalizing s with
  | nil => exact ⟨_, .nil le_rfl⟩
  | cons a actions ih =>
    obtain ⟨ha, hactions⟩ := List.forall_mem_cons.mp hactions
    obtain ⟨r, hr, hperform⟩ := Session.perform_accepted hs a
    obtain ⟨hfirst, hle⟩ := Tokenizer.perform_climbs h ha
    obtain ⟨q, hrest⟩ := ih (s := ⟨(a.perform s.tokenizer).2, r⟩) hr hle hactions
    refine ⟨q, ?_⟩
    simp only [Session.run, hperform, List.flatMap_cons, List.flatMap_append]
    exact hfirst.trans hrest

private theorem deliver_accepted {σ ε : Type} {listen : σ → Event → σ × Option ε}
    (h : ∀ s e, (listen s e).2 = none) (s : σ) (es : List Emission) :
    deliver listen s es = (es.foldl (fun s e => (listen s e.event).1) s, none) := by
  induction es generalizing s with
  | nil => rfl
  | cons e es ih =>
    have hlisten : listen s e.event = ((listen s e.event).1, none) :=
      Prod.ext rfl (h s e.event)
    rw [deliver, hlisten]
    exact ih _

/-- From any machine a chunk is read to its end, in three turns a character at most, each
character by one of them, to the position behind it; and from a fresh machine the positions that
are reported never go back, whatever is read and flushed. -/
theorem reading_progresses {σ ε : Type} {listen : σ → Event → σ × Option ε}
    (hlisten : ∀ s e, (listen s e).2 = none) (mode : Mode) {actions : List Action}
    (hactions : ∀ a ∈ actions, a.isReading = true) :
    (∀ (s : σ) (t : Tokenizer) (cs : List Char),
      (t.turns cs).length ≤ 3 * cs.length
        ∧ (t.turns cs).flatMap (·.read) = cs
        ∧ (∀ before u after, t.turns cs = before ++ u :: after →
          u.now.position = t.position.after ((before ++ [u]).flatMap (·.read)))
        ∧ t.feed cs = ((t.turns cs).flatMap (·.emitted), t.behindTurns (t.turns cs))
        ∧ (deliver listen s (t.feed cs).1).2 = none
        ∧ (t.feed cs).2.position = t.position.after cs)
    ∧ (((Session.run ⟨{ mode }, { lenient := true }⟩ actions).flatMap (·.events)).flatMap
        Event.positions).Pairwise (· ≤ ·) := by
  refine ⟨fun s t cs => ⟨t.length_turns_le cs, t.turns_read cs, fun _ _ _ => t.turns_position,
    t.feed_eq_turns cs, by rw [deliver_accepted hlisten], t.position_feed cs⟩, ?_⟩
  obtain ⟨q, hrises⟩ := Session.run_climbs (s := ⟨{ mode }, { lenient := true }⟩) ⟨rfl, rfl⟩ le_rfl
    hactions
  exact hrises.ordered

/-- A listener that counts, a chunk with a reference in it, and a `<` that a later chunk shows to be
text. -/
theorem reading_progresses_counting :
    let listen : Nat → Event → Nat × Option String := fun n _ => (n + 1, none)
    let cs := "<p a=\"&lt;\n\"><".toList
    let actions := [Action.feed cs, .finishData, .feed [' ', '<'], .finish]
    (∀ n e, (listen n e).2 = none) ∧ (∀ a ∈ actions, a.isReading = true)
      ∧ (deliver listen 0 (({} : Tokenizer).feed cs).1).2 = none
      ∧ (({} : Tokenizer).feed cs).2.position = ⟨2, 3⟩
      ∧ (((Session.run ⟨{}, { lenient := true }⟩ actions).flatMap (·.events)).flatMap
          Event.positions).Pairwise (· ≤ ·) := by
  intro listen cs actions
  have hlisten : ∀ n e, (listen n e).2 = none := fun _ _ => rfl
  have hactions : ∀ a ∈ actions, a.isReading = true := by simp [actions, Action.isReading]
  have hposition : Position.after {} cs = ⟨2, 3⟩ := by decide +kernel
  obtain ⟨hfeed, hordered⟩ := reading_progresses hlisten .precompile hactions
  obtain ⟨-, -, -, -, hheard, hends⟩ := hfeed 0 {} cs
  exact ⟨hlisten, hactions, hheard, hends.trans hposition, hordered⟩

end HtmlTemplate.Html
