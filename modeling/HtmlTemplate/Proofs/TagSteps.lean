import HtmlTemplate.Proofs.Moves

/-! What a character does to the tag that is read. Its name begins, grows and is kept until the
tag ends, whatever its attributes are; outside of tags the name that is kept does not change,
except that it may be forgotten. -/

namespace HtmlTemplate.Html

/-- Inside a tag, past its name. -/
def State.isInTag : State → Bool
  | beforeAttributeName | attributeName | afterAttributeName | beforeAttributeValue
  | attributeValueDoubleQuoted | attributeValueSingleQuoted | attributeValueUnquoted
  | afterAttributeValueQuoted | selfClosingStartTag => true
  | _ => false

/-- Inside a tag, from the first character of its name on. -/
def State.isTag (s : State) : Bool :=
  s == tagName || s == endTagName || s.isInTag

/-- What is reported of a tag between its name and its end. -/
def Event.isTagPart : Event → Bool
  | selfClosing | beginAttribute _ | attributeName _ | beginAttributeValue .. | attributeValue ..
  | finishAttributeValue _ | syntaxError .. => true
  | _ => false

/-- What is reported outside of tags. -/
def Event.isTagless : Event → Bool
  | beginData _ | data _ | finishData _ | beginComment _ | commentData _ | finishComment _
  | syntaxError .. => true
  | _ => false

/-- The state in which the name of a tag is read. -/
def TagKind.naming : TagKind → State
  | .start => .tagName
  | .stop => .endTagName

namespace Step

variable {s s' : Step} {name : List Char}

def events (s : Step) : List Event := s.emitted.map (·.event)

theorem events_emit (e : Event) : (s.emit e).events = s.events ++ [e] := by
  simp [events, emit]

/-- In a tag only parts of it have been reported, and a name is kept. -/
structure InTag (name : List Char) (s : Step) : Prop where
  name : s.now.tagName = name
  parts : ∀ e ∈ s.events, e.isTagPart = true

theorem InTag.of_eq (h : s.InTag name) (hname : s'.now.tagName = s.now.tagName)
    (hevents : s'.events = s.events) : s'.InTag name :=
  ⟨hname.trans h.name, hevents ▸ h.parts⟩

theorem InTag.read (h : s.InTag name) (c : Char) : (s.read c).InTag name := h.of_eq rfl rfl

theorem InTag.become (h : s.InTag name) (state : State) : (s.become state).InTag name :=
  h.of_eq rfl rfl

theorem InTag.emit (h : s.InTag name) {e : Event} (he : e.isTagPart = true) :
    (s.emit e).InTag name where
  name := h.name
  parts := by
    rw [events_emit]
    exact List.forall_mem_append.mpr ⟨h.parts, by simpa using he⟩

theorem InTag.emptyValue (h : s.InTag name) : s.emptyValue.InTag name :=
  InTag.emit (s := s.emitHere (.beginAttributeValue false)) (h.emit rfl) rfl

theorem InTag.valueText (h : s.InTag name) (c : Char) (rest : List Char) :
    (s.valueText c rest).InTag name := by
  obtain ⟨cs, hemitted, hnow⟩ := decode_moved (s.read c) c rest
  have hdecoded : ((s.read c).decode c rest).2.InTag name :=
    h.of_eq (by rw [hnow]; rfl) (by rw [events, hemitted]; rfl)
  exact hdecoded.emit rfl

/-- A tag whose name is complete goes on, or a `>` ends it. -/
inductive TagGoes (name : List Char) (c : Char) (s : Step) : Prop
  | within : s.now.state.isInTag = true → s.InTag name → TagGoes name c s
  | ends {parts : List Event} {p : Position} : c = '>' → s.ahead = 0 →
      s.now.state = .beforeData → s.now.tagName = name → s.events = parts ++ [.finishTag p] →
      (∀ e ∈ parts, e.isTagPart = true) → TagGoes name c s

theorem InTag.goes (h : s.InTag name) (hstate : s.now.state.isInTag = true) (c : Char) :
    s.TagGoes name c :=
  .within hstate h

theorem InTag.closeTag (h : s.InTag name) (hahead : s.ahead = 0) {c : Char} (hc : c = '>') :
    s.closeTag.TagGoes name c :=
  .ends hc hahead rfl h.name (events_emit _) h.parts

theorem attributeName_goes (h : s.InTag name) (hahead : s.ahead = 0)
    (hstate : s.now.state.isInTag = true) (c : Char) :
    (s.attributeName c).TagGoes name c := by
  unfold attributeName
  split
  · exact ((h.become .afterAttributeName).read c).goes rfl c
  · split
    · exact ((h.emptyValue.read c).become .selfClosingStartTag).goes rfl c
    · split
      · exact ((h.become .beforeAttributeValue).read c).goes rfl c
      · split
        · exact (h.emptyValue.read c).closeTag hahead ‹_›
        · split
          · have hfault := h.emit (e := .syntaxError (.characterInName c) s.now.position) rfl
            exact InTag.goes ((hfault.read c).emit rfl) hstate c
          · exact InTag.goes ((h.read c).emit rfl) hstate c

theorem beforeAttributeName_goes (h : s.InTag name) (hahead : s.ahead = 0)
    (hstate : s.now.state.isInTag = true) (c : Char) :
    (s.beforeAttributeName c).TagGoes name c := by
  unfold beforeAttributeName
  split
  · exact (h.read c).goes hstate c
  · split
    · exact ((h.become .selfClosingStartTag).read c).goes rfl c
    · split
      · exact (h.read c).closeTag hahead ‹_›
      · split
        · have hfault := h.emit (e := .syntaxError .equalsBeforeName s.now.position) rfl
          have hbegin : ((s.emitHere (.syntaxError .equalsBeforeName)).become .attributeName
              |>.emitHere .beginAttribute).InTag name := (hfault.become .attributeName).emit rfl
          exact InTag.goes ((hbegin.read c).emit rfl) rfl c
        · have hbegin : ((s.become .attributeName).emitHere .beginAttribute).InTag name :=
            (h.become .attributeName).emit rfl
          exact attributeName_goes hbegin hahead rfl c

theorem valueText_goes (h : s.InTag name) (hstate : s.now.state.isInTag = true) (c : Char)
    (rest : List Char) : (s.valueText c rest).TagGoes name c := by
  refine (h.valueText c rest).goes ?_ c
  rw [valueText_state]
  exact hstate

theorem afterAttributeName_goes (h : s.InTag name) (hahead : s.ahead = 0)
    (hstate : s.now.state.isInTag = true) (c : Char) : (s.afterAttributeName c).TagGoes name c := by
  unfold afterAttributeName
  split
  · exact (h.read c).goes hstate c
  · split
    · exact ((h.emptyValue.read c).become .selfClosingStartTag).goes rfl c
    · split
      · exact ((h.read c).become .beforeAttributeValue).goes rfl c
      · split
        · exact (h.emptyValue.read c).closeTag hahead ‹_›
        · have hbegin := h.emptyValue.become .attributeName |>.emit
            (rfl : Event.isTagPart (.beginAttribute s.emptyValue.now.position) = true)
          exact InTag.goes ((hbegin.read c).emit rfl) rfl c

theorem beforeAttributeValue_goes (h : s.InTag name) (hahead : s.ahead = 0)
    (hstate : s.now.state.isInTag = true) (c : Char) (rest : List Char) :
    (s.beforeAttributeValue c rest).TagGoes name c := by
  unfold beforeAttributeValue
  split
  · exact (h.read c).goes hstate c
  · split
    · exact InTag.goes (((h.become .attributeValueDoubleQuoted).emit rfl).read c) rfl c
    · split
      · exact InTag.goes (((h.become .attributeValueSingleQuoted).emit rfl).read c) rfl c
      · split
        · exact (h.emptyValue.read c).closeTag hahead ‹_›
        · exact valueText_goes ((h.become .attributeValueUnquoted).emit rfl) rfl c rest

theorem quotedValue_goes (h : s.InTag name) (hstate : s.now.state.isInTag = true)
    (quote c : Char) (rest : List Char) : (s.quotedValue quote c rest).TagGoes name c := by
  unfold quotedValue
  split
  · exact InTag.goes (((h.read c).emit rfl).become .afterAttributeValueQuoted) rfl c
  · exact valueText_goes h hstate c rest

theorem unquotedValue_goes (h : s.InTag name) (hahead : s.ahead = 0)
    (hstate : s.now.state.isInTag = true) (c : Char) (rest : List Char) :
    (s.unquotedValue c rest).TagGoes name c := by
  have hfinish : (s.emitHere .finishAttributeValue).InTag name := h.emit rfl
  unfold unquotedValue
  split
  · exact ((hfinish.read c).become .beforeAttributeName).goes rfl c
  · split
    · exact ((hfinish.read c).become .selfClosingStartTag).goes rfl c
    · split
      · exact (hfinish.read c).closeTag hahead ‹_›
      · exact valueText_goes h hstate c rest

theorem afterAttributeValueQuoted_goes (h : s.InTag name) (hahead : s.ahead = 0) (c : Char) :
    (s.afterAttributeValueQuoted c).TagGoes name c := by
  unfold afterAttributeValueQuoted
  split
  · exact ((h.read c).become .beforeAttributeName).goes rfl c
  · split
    · exact ((h.read c).become .selfClosingStartTag).goes rfl c
    · split
      · exact (h.read c).closeTag hahead ‹_›
      · exact beforeAttributeName_goes (h.become .beforeAttributeName) hahead rfl c

theorem selfClosingStartTag_goes (h : s.InTag name) (hahead : s.ahead = 0) (c : Char) :
    (s.selfClosingStartTag c).TagGoes name c := by
  unfold selfClosingStartTag
  split
  · exact InTag.closeTag ((h.read c).emit rfl) hahead ‹_›
  · exact beforeAttributeName_goes (h.become .beforeAttributeName) hahead rfl c

end Step

/-- The name that is kept once it is complete: none of an end tag. -/
def Tokenizer.keptName (t : Tokenizer) : List Char :=
  if t.state = .endTagName then [] else t.tagName

/-- What a step does to the tag that is read. -/
inductive TagStep (t : Tokenizer) (c : Char) (s : Step) : Prop
  | outside : t.state.isTag = false → s.now.state.isTag = false →
      (∀ e ∈ s.events, e.isTagless = true) → s.now.tagName = t.tagName ∨ s.now.tagName = [] →
      TagStep t c s
  | begins (k : TagKind) : t.state.isTag = false → s.now.state = k.naming →
      s.events = [.beginTag k t.tagStart, .tagName c] → s.now.tagName = [c] → TagStep t c s
  | grows (k : TagKind) : t.state = k.naming → s.now.state = k.naming → s.events = [.tagName c] →
      s.now.tagName = t.tagName ++ [c] → TagStep t c s
  | goes : t.state.isTag = true → s.TagGoes t.keptName c → TagStep t c s

namespace TagStep

variable {t : Tokenizer} {s : Step} {c : Char} {rest : List Char}

theorem apart (ht : t.state.isTag = false) (hs : s.now.state.isTag = false)
    (hname : s.now.tagName = t.tagName) (hevents : ∀ e ∈ s.events, e.isTagless = true) :
    TagStep t c s :=
  .outside ht hs hevents (.inl hname)

theorem data (ht : t.state.isTag = false) (hstate : s.now.state = .data)
    (hname : s.now.tagName = t.tagName) (hevents : ∀ e ∈ s.events, e.isTagless = true) :
    TagStep t c (s.data c rest) := by
  unfold Step.data
  split
  · refine apart ht rfl hname ?_
    show ∀ e ∈ (s.emitHere .finishData).events, _
    rw [Step.emitHere, Step.events_emit]
    exact List.forall_mem_append.mpr ⟨hevents, by simp [Event.isTagless]⟩
  · split
    · refine apart ht ?_ hname ?_
      · simp [Step.emit, Step.read, hstate, State.isTag, State.isInTag]
      · rw [Step.events_emit]
        exact List.forall_mem_append.mpr ⟨hevents, by simp [Event.isTagless]⟩
    · obtain ⟨cs, hemitted, hnow⟩ := Step.decode_moved (s.read c) c rest
      refine apart ht ?_ ?_ ?_
      · show State.isTag ((s.read c).decode c rest).2.now.state = false
        rw [hnow]
        simp [Step.read, hstate, State.isTag, State.isInTag]
      · show ((s.read c).decode c rest).2.now.tagName = t.tagName
        rw [hnow]
        exact hname
      · dsimp only
        rw [Step.events_emit]
        refine List.forall_mem_append.mpr ⟨?_, by simp [Event.isTagless]⟩
        rw [Step.events, hemitted]
        exact hevents

theorem beforeData (ht : t.state = .beforeData) :
    TagStep t c (Step.beforeData { now := t } c rest) := by
  have htag : t.state.isTag = false := by simp [ht, State.isTag, State.isInTag]
  unfold Step.beforeData
  split
  · exact apart htag rfl rfl (List.forall_mem_nil _)
  · split
    · exact .outside htag htag (List.forall_mem_nil _) (.inr rfl)
    · refine data htag rfl rfl ?_
      rw [Step.emitHere, Step.events_emit]
      exact List.forall_mem_append.mpr ⟨List.forall_mem_nil _, by simp [Event.isTagless]⟩

theorem tagOpen (ht : t.state = .tagOpen) : TagStep t c (Step.tagOpen { now := t } c) := by
  have htag : t.state.isTag = false := by simp [ht, State.isTag, State.isInTag]
  unfold Step.tagOpen
  dsimp only
  split
  · exact apart htag rfl rfl (List.forall_mem_nil _)
  · split
    · exact apart htag rfl rfl (List.forall_mem_nil _)
    · split
      · exact .begins .start htag rfl rfl rfl
      · refine apart htag rfl rfl ?_
        show ∀ e ∈ [Event.beginData t.tagStart, .data ['<'], .data [c]], e.isTagless = true
        simp [Event.isTagless]

theorem endTagOpen (ht : t.state = .endTagOpen) : TagStep t c (Step.endTagOpen { now := t } c) := by
  have htag : t.state.isTag = false := by simp [ht, State.isTag, State.isInTag]
  unfold Step.endTagOpen
  dsimp only
  split
  · exact .begins .stop htag rfl rfl rfl
  · refine apart htag rfl rfl ?_
    exact List.forall_mem_singleton.mpr rfl

theorem tagName (ht : t.state = .tagName) : TagStep t c (Step.tagName { now := t } c) := by
  have htag : t.state.isTag = true := by simp [ht, State.isTag]
  have h : Step.InTag t.keptName { now := t } :=
    ⟨by simp [Tokenizer.keptName, ht], List.forall_mem_nil _⟩
  unfold Step.tagName
  dsimp only
  split
  · exact .goes htag (((h.read c).become .beforeAttributeName).goes rfl c)
  · split
    · exact .goes htag (((h.read c).become .selfClosingStartTag).goes rfl c)
    · split
      · exact .goes htag ((h.read c).closeTag rfl ‹_›)
      · exact .grows .start ht ht rfl rfl

theorem endTagName (ht : t.state = .endTagName) :
    TagStep t c (Step.endTagName { now := t } c) := by
  have htag : t.state.isTag = true := by simp [ht, State.isTag]
  have hkept : t.keptName = [] := by simp [Tokenizer.keptName, ht]
  unfold Step.endTagName
  dsimp only
  split
  · exact .goes htag (.within rfl ⟨hkept.symm, List.forall_mem_nil _⟩)
  · split
    · exact .goes htag (.within rfl ⟨hkept.symm, List.forall_mem_nil _⟩)
    · split
      · exact .goes htag (.ends ‹_› rfl rfl hkept.symm (List.nil_append [_]).symm
          (List.forall_mem_nil _))
      · exact .grows .stop ht ht rfl rfl

end TagStep

theorem Tokenizer.step_tagStep (t : Tokenizer) (c : Char) (rest : List Char) :
    TagStep t c (t.step c rest) := by
  have hgoes {s : Step} (hin : t.state.isInTag = true)
      (hs : Step.InTag t.tagName { now := t } → s.TagGoes t.tagName c) : TagStep t c s := by
    have hkept : t.keptName = t.tagName := by
      refine if_neg fun hname => ?_
      simp [hname, State.isInTag] at hin
    exact .goes (by simp [State.isTag, hin]) (hkept ▸ hs ⟨rfl, List.forall_mem_nil _⟩)
  unfold step
  cases hstate : t.state with
  | beforeData => exact .beforeData hstate
  | data =>
    exact .data (by simp [hstate, State.isTag, State.isInTag]) hstate rfl (List.forall_mem_nil _)
  | tagOpen => exact .tagOpen hstate
  | endTagOpen => exact .endTagOpen hstate
  | tagName => exact .tagName hstate
  | endTagName => exact .endTagName hstate
  | beforeAttributeName =>
    have hin : t.state.isInTag = true := by rw [hstate]; rfl
    exact hgoes hin fun h => Step.beforeAttributeName_goes h rfl hin c
  | attributeName =>
    have hin : t.state.isInTag = true := by rw [hstate]; rfl
    exact hgoes hin fun h => Step.attributeName_goes h rfl hin c
  | afterAttributeName =>
    have hin : t.state.isInTag = true := by rw [hstate]; rfl
    exact hgoes hin fun h => Step.afterAttributeName_goes h rfl hin c
  | beforeAttributeValue =>
    have hin : t.state.isInTag = true := by rw [hstate]; rfl
    exact hgoes hin fun h => Step.beforeAttributeValue_goes h rfl hin c rest
  | attributeValueDoubleQuoted | attributeValueSingleQuoted =>
    have hin : t.state.isInTag = true := by rw [hstate]; rfl
    exact hgoes hin fun h => Step.quotedValue_goes h hin _ c rest
  | attributeValueUnquoted =>
    have hin : t.state.isInTag = true := by rw [hstate]; rfl
    exact hgoes hin fun h => Step.unquotedValue_goes h rfl hin c rest
  | afterAttributeValueQuoted =>
    exact hgoes (by rw [hstate]; rfl) fun h => Step.afterAttributeValueQuoted_goes h rfl c
  | selfClosingStartTag =>
    exact hgoes (by rw [hstate]; rfl) fun h => Step.selfClosingStartTag_goes h rfl c
  | _ =>
    -- comments and what may be one
    have htag : t.state.isTag = false := by simp [hstate, State.isTag, State.isInTag]
    simp only [Step.markupDeclarationOpen, Step.commentStart, Step.commentStartDash,
      Step.comment, Step.commentEndDash, Step.commentEnd, Step.commentText]
    repeat' split
    all_goals
      refine .apart htag ?_ rfl ?_
      · first | rfl | simp [hstate, Step.read, Step.emit, State.isTag, State.isInTag]
      · simp [Step.events, Step.become, Step.read, Step.emit, Step.emitHere, Step.readAhead,
          Step.closeComment, Event.isTagless]

end HtmlTemplate.Html
