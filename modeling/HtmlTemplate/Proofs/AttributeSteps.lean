import HtmlTemplate.Proofs.Tags
import HtmlTemplate.Proofs.TagSteps

/-! What a character does to the attribute that is read, if it is not at fault: the attribute
begins, its name or its value grows, or it ends. A name begins after the one before has ended in
another way than elsewhere: there its first character is not looked at. -/

namespace HtmlTemplate.Html

/-- In an attribute that has no value yet. -/
def State.isNaming : State → Bool
  | attributeName | afterAttributeName | beforeAttributeValue => true
  | _ => false

def State.isInAttribute (s : State) : Bool :=
  s.isNaming || s.isAttributeValue

/-- Characters at which the name of an attribute ends. -/
def endsName (c : Char) : Bool :=
  isSpace c || c == '/' || c == '=' || c == '>'

/-- Characters that are at fault in the name of an attribute. -/
def isFaultyInName (c : Char) : Bool :=
  c == '"' || c == '\'' || c == '<'

/-- What is reported of an attribute. -/
def Event.isAttributePart : Event → Bool
  | beginAttribute _ | attributeName _ | beginAttributeValue .. | attributeValue ..
  | finishAttributeValue _ => true
  | _ => false

/-- What is reported of an attribute that is given no value. -/
def emptyValueEvents (p : Position) : List Event :=
  [.beginAttributeValue false p, .finishAttributeValue p]

/-- What a step does to the attribute that is read. -/
inductive AttributeStep (t : Tokenizer) (c : Char) (s : Step) : Prop
  | apart : t.state.isInAttribute = false → s.now.state.isInAttribute = false →
      (∀ e ∈ s.events, e.isAttributePart = false) → AttributeStep t c s
  | begins : t.state.isInAttribute = false → s.now.state = .attributeName →
      endsName c = false → isFaultyInName c = false →
      s.events = [.beginAttribute t.position, .attributeName c] → AttributeStep t c s
  /-- The attribute before has had no value, and the character may be any that ends no name. -/
  | beginsNext : t.state = .afterAttributeName → s.now.state = .attributeName →
      endsName c = false →
      s.events = emptyValueEvents t.position ++ [.beginAttribute t.position, .attributeName c] →
      AttributeStep t c s
  | grows : t.state = .attributeName → s.now.state = .attributeName →
      endsName c = false → isFaultyInName c = false → s.events = [.attributeName c] →
      AttributeStep t c s
  | waits : t.state.isNaming = true → s.now.state.isNaming = true →
      s.now.state ≠ .attributeName → s.events = [] → AttributeStep t c s
  | endsBare (after : List Event) : t.state.isNaming = true →
      s.now.state.isInAttribute = false →
      s.events = emptyValueEvents t.position ++ after →
      (∀ e ∈ after, e.isAttributePart = false) → AttributeStep t c s
  | beginsQuoted : t.state = .beforeAttributeValue → s.now.state.isAttributeValue = true →
      s.now.state ≠ .attributeValueUnquoted →
      s.events = [.beginAttributeValue true t.position] → AttributeStep t c s
  | beginsUnquoted {text : List Char} {l : Location} : t.state = .beforeAttributeValue →
      s.now.state = .attributeValueUnquoted →
      s.events = [.beginAttributeValue false t.position, .attributeValue text l] →
      AttributeStep t c s
  | reads {text : List Char} {l : Location} : t.state.isAttributeValue = true →
      s.now.state = t.state → s.events = [.attributeValue text l] → AttributeStep t c s
  | endsQuoted {p : Position} : t.state.isAttributeValue = true →
      t.state ≠ .attributeValueUnquoted → s.now.state.isInAttribute = false →
      s.events = [.finishAttributeValue p] → AttributeStep t c s
  /-- A value without quotes ends before a character that could end a name. -/
  | endsUnquoted (after : List Event) : t.state = .attributeValueUnquoted →
      s.now.state.isInAttribute = false → endsName c = true →
      s.events = .finishAttributeValue t.position :: after →
      (∀ e ∈ after, e.isAttributePart = false) → AttributeStep t c s

theorem Step.events_valueText (s : Step) (c : Char) (rest : List Char) :
    ∃ text, text ≠ [] ∧ (s.valueText c rest).events = s.events
      ++ [.attributeValue text ⟨s.now.position, (s.valueText c rest).now.position⟩] := by
  obtain ⟨cs, hemitted, -⟩ := decode_moved (s.read c) c rest
  have hne := decode_ne_nil (s.read c) c rest
  unfold valueText
  generalize (s.read c).decode c rest = decoded at hemitted hne
  obtain ⟨text, s'⟩ := decoded
  have hemitted : s'.emitted = s.emitted := hemitted
  refine ⟨text, hne, (events_emit _).trans ?_⟩
  rw [events, hemitted, events]
  rfl

namespace AttributeStep

variable {t : Tokenizer} {s : Step} {c : Char} {rest : List Char}

theorem of_isTagless (ht : t.state.isInAttribute = false)
    (hstate : s.now.state.isInAttribute = false) (h : ∀ e ∈ s.events, e.isTagless = true) :
    AttributeStep t c s := by
  refine .apart ht hstate fun e he => ?_
  have htagless := h e he
  cases e <;> first | rfl | cases htagless

theorem beforeAttributeName (ht : t.state.isInAttribute = false)
    (hstate : s.now.state = .beforeAttributeName) (hposition : s.now.position = t.position)
    (hevents : s.events = []) (hfaults : Faultless (s.beforeAttributeName c).events) :
    AttributeStep t c (s.beforeAttributeName c) := by
  have hemitted : s.emitted = [] := List.map_eq_nil_iff.mp hevents
  have hquiet : ∀ e ∈ s.events, e.isAttributePart = false := by
    rw [hevents]
    exact List.forall_mem_nil _
  revert hfaults
  unfold Step.beforeAttributeName
  split
  · intro hfaults
    exact .apart ht (by simp [Step.read, hstate, State.isInAttribute, State.isNaming,
      State.isAttributeValue]) hquiet
  · rename_i hspace
    split
    · intro hfaults
      exact .apart ht rfl hquiet
    · rename_i hslash
      split
      · intro hfaults
        refine .apart ht rfl ?_
        show ∀ e ∈ ((s.read c).emitHere .finishTag).events, e.isAttributePart = false
        rw [Step.emitHere, Step.events_emit]
        exact List.forall_mem_append.mpr ⟨hquiet, List.forall_mem_singleton.mpr rfl⟩
      · rename_i hgreater
        split
        · intro hfaults
          have hfault := hfaults (.syntaxError .equalsBeforeName s.now.position)
            (by simp [Step.events, Step.emit, Step.emitHere, Step.become, Step.read])
          cases hfault
        · rename_i hequals
          have hends : endsName c = false := by
            simp [endsName, hspace, hslash, hgreater, hequals]
          unfold Step.attributeName
          rw [if_neg hspace, if_neg hslash, if_neg hequals, if_neg hgreater]
          split
          · intro hfaults
            have hfault := hfaults (.syntaxError (.characterInName c) s.now.position)
              (by simp [Step.events, Step.emit, Step.emitHere, Step.become, Step.read])
            cases hfault
          · rename_i hfaulty
            intro hfaults
            refine .begins ht rfl hends (by simpa [isFaultyInName, and_assoc] using hfaulty) ?_
            simp [Step.events, Step.emit, Step.emitHere, Step.become, Step.read, hemitted,
              hposition]

theorem attributeName (ht : t.state = .attributeName)
    (hfaults : Faultless (Step.attributeName { now := t } c).events) :
    AttributeStep t c (Step.attributeName { now := t } c) := by
  have hnaming : t.state.isNaming = true := by rw [ht]; rfl
  revert hfaults
  unfold Step.attributeName
  split
  · exact fun _ => .waits hnaming rfl State.noConfusion rfl
  · rename_i hspace
    split
    · exact fun _ => .endsBare [] hnaming rfl rfl (List.forall_mem_nil _)
    · rename_i hslash
      split
      · exact fun _ => .waits hnaming rfl State.noConfusion rfl
      · rename_i hequals
        split
        · exact fun _ => .endsBare [.finishTag (t.position.next c)] hnaming rfl rfl
            (List.forall_mem_singleton.mpr rfl)
        · rename_i hgreater
          split
          · intro hfaults
            cases hfaults (.syntaxError (.characterInName c) t.position) List.mem_cons_self
          · rename_i hfaulty
            intro _
            exact .grows ht ht (by simp [endsName, hspace, hslash, hgreater, hequals])
              (by simpa [isFaultyInName, and_assoc] using hfaulty) rfl

theorem afterAttributeName (ht : t.state = .afterAttributeName) :
    AttributeStep t c (Step.afterAttributeName { now := t } c) := by
  have hnaming : t.state.isNaming = true := by rw [ht]; rfl
  unfold Step.afterAttributeName
  split
  · exact .waits hnaming hnaming (by simp [Step.read, ht]) rfl
  · rename_i hspace
    split
    · exact .endsBare [] hnaming rfl rfl (List.forall_mem_nil _)
    · rename_i hslash
      split
      · exact .waits hnaming rfl State.noConfusion rfl
      · rename_i hequals
        split
        · exact .endsBare [.finishTag (t.position.next c)] hnaming rfl rfl
            (List.forall_mem_singleton.mpr rfl)
        · rename_i hgreater
          exact .beginsNext ht rfl (by simp [endsName, hspace, hslash, hgreater, hequals]) rfl

theorem beforeAttributeValue (ht : t.state = .beforeAttributeValue) :
    AttributeStep t c (Step.beforeAttributeValue { now := t } c rest) := by
  have hnaming : t.state.isNaming = true := by rw [ht]; rfl
  unfold Step.beforeAttributeValue
  split
  · exact .waits hnaming hnaming (by simp [Step.read, ht]) rfl
  · split
    · exact .beginsQuoted ht rfl State.noConfusion rfl
    · split
      · exact .beginsQuoted ht rfl State.noConfusion rfl
      · split
        · exact .endsBare [.finishTag (t.position.next c)] hnaming rfl rfl
            (List.forall_mem_singleton.mpr rfl)
        · obtain ⟨text, -, hevents⟩ := Step.events_valueText
            ((Step.become { now := t } .attributeValueUnquoted).emitHere
              (.beginAttributeValue false)) c rest
          exact .beginsUnquoted ht (Step.valueText_state _ _ _) hevents

theorem valueText (ht : t.state.isAttributeValue = true) :
    AttributeStep t c (Step.valueText { now := t } c rest) := by
  obtain ⟨text, -, hevents⟩ := Step.events_valueText { now := t } c rest
  exact .reads ht (Step.valueText_state _ _ _) hevents

theorem quotedValue {quote : Char} (ht : t.state.isAttributeValue = true)
    (hquoted : t.state ≠ .attributeValueUnquoted) :
    AttributeStep t c (Step.quotedValue { now := t } quote c rest) := by
  unfold Step.quotedValue
  split
  · exact .endsQuoted ht hquoted rfl rfl
  · exact valueText ht

theorem unquotedValue (ht : t.state = .attributeValueUnquoted) :
    AttributeStep t c (Step.unquotedValue { now := t } c rest) := by
  unfold Step.unquotedValue
  split
  · rename_i hspace
    exact .endsUnquoted [] ht rfl (by simp [endsName, hspace]) rfl
      (List.forall_mem_nil _)
  · split
    · rename_i hslash
      exact .endsUnquoted [] ht rfl (by simp [endsName, hslash]) rfl
        (List.forall_mem_nil _)
    · split
      · rename_i hgreater
        exact .endsUnquoted [.finishTag (t.position.next c)] ht rfl
          (by simp [endsName, hgreater]) rfl (List.forall_mem_singleton.mpr rfl)
      · exact valueText (by rw [ht]; rfl)

theorem afterAttributeValueQuoted (ht : t.state = .afterAttributeValueQuoted)
    (hfaults : Faultless (Step.afterAttributeValueQuoted { now := t } c).events) :
    AttributeStep t c (Step.afterAttributeValueQuoted { now := t } c) := by
  have hapart : t.state.isInAttribute = false := by rw [ht]; rfl
  revert hfaults
  unfold Step.afterAttributeValueQuoted
  split
  · exact fun _ => .apart hapart rfl (List.forall_mem_nil _)
  · split
    · exact fun _ => .apart hapart rfl (List.forall_mem_nil _)
    · split
      · exact fun _ => .apart hapart rfl (List.forall_mem_singleton.mpr rfl)
      · exact beforeAttributeName hapart rfl rfl rfl

theorem selfClosingStartTag (ht : t.state = .selfClosingStartTag)
    (hfaults : Faultless (Step.selfClosingStartTag { now := t } c).events) :
    AttributeStep t c (Step.selfClosingStartTag { now := t } c) := by
  have hapart : t.state.isInAttribute = false := by rw [ht]; rfl
  revert hfaults
  unfold Step.selfClosingStartTag
  split
  · refine fun _ => .apart hapart rfl ?_
    show ∀ e ∈ [Event.selfClosing, .finishTag (t.position.next c)], e.isAttributePart = false
    simp [Event.isAttributePart]
  · exact beforeAttributeName hapart rfl rfl rfl

theorem naming (ht : t.state.isInAttribute = false)
    (h : s = Step.tagName { now := t } c ∧ t.state = .tagName
      ∨ s = Step.endTagName { now := t } c ∧ t.state = .endTagName) : AttributeStep t c s := by
  rcases h with ⟨rfl, hstate⟩ | ⟨rfl, hstate⟩
  · unfold Step.tagName
    dsimp only
    repeat' split
    · exact .apart ht rfl (List.forall_mem_nil _)
    · exact .apart ht rfl (List.forall_mem_nil _)
    · exact .apart ht rfl (List.forall_mem_singleton.mpr rfl)
    · exact .apart ht ht (List.forall_mem_singleton.mpr rfl)
  · unfold Step.endTagName
    dsimp only
    repeat' split
    · exact .apart ht rfl (List.forall_mem_nil _)
    · exact .apart ht rfl (List.forall_mem_nil _)
    · exact .apart ht rfl (List.forall_mem_singleton.mpr rfl)
    · exact .apart ht ht (List.forall_mem_singleton.mpr rfl)

end AttributeStep

theorem State.isInAttribute_of_isTag {s : State} (h : s.isTag = false) :
    s.isInAttribute = false := by
  revert h
  cases s <;> simp [State.isTag, State.isInTag, State.isInAttribute, State.isNaming,
    State.isAttributeValue]

theorem State.isInAttribute_of_isComment {s : State} (h : s.isComment = true) :
    s.isInAttribute = false := by
  revert h
  cases s <;> simp [State.isComment, State.isInAttribute, State.isNaming, State.isAttributeValue]

theorem Tokenizer.step_apart {t : Tokenizer} {c : Char} {rest : List Char}
    (ht : t.state.isTag = false) : AttributeStep t c (t.step c rest) := by
  have hapart := State.isInAttribute_of_isTag ht
  cases t.step_tagStep c rest with
  | outside _ hstate hevents _ =>
    exact .of_isTagless hapart (State.isInAttribute_of_isTag hstate) hevents
  | begins k _ hstate hevents _ =>
    refine .apart hapart (by rw [hstate]; cases k <;> rfl) ?_
    rw [hevents]
    cases k <;> simp [Event.beginTag, Event.isAttributePart]
  | grows k hstate =>
    rw [hstate] at ht
    cases k <;> cases ht
  | goes htag =>
    rw [ht] at htag
    cases htag

theorem Tokenizer.step_attributeStep (t : Tokenizer) (c : Char) (rest : List Char)
    (hfaults : Faultless (t.step c rest).events) : AttributeStep t c (t.step c rest) := by
  cases htag : t.state.isTag with
  | false => exact step_apart htag
  | true =>
    revert hfaults
    unfold step
    cases hstate : t.state with
    | tagName => exact fun _ => .naming (by rw [hstate]; rfl) (.inl ⟨rfl, hstate⟩)
    | endTagName => exact fun _ => .naming (by rw [hstate]; rfl) (.inr ⟨rfl, hstate⟩)
    | beforeAttributeName =>
      exact AttributeStep.beforeAttributeName (by rw [hstate]; rfl) hstate rfl rfl
    | attributeName => exact AttributeStep.attributeName hstate
    | afterAttributeName => exact fun _ => .afterAttributeName hstate
    | beforeAttributeValue => exact fun _ => .beforeAttributeValue hstate
    | attributeValueDoubleQuoted | attributeValueSingleQuoted =>
      exact fun _ => .quotedValue (by rw [hstate]; rfl) (by rw [hstate]; exact State.noConfusion)
    | attributeValueUnquoted => exact fun _ => .unquotedValue hstate
    | afterAttributeValueQuoted => exact AttributeStep.afterAttributeValueQuoted hstate
    | selfClosingStartTag => exact AttributeStep.selfClosingStartTag hstate
    | _ => simp [hstate, State.isTag, State.isInTag] at htag

end HtmlTemplate.Html
