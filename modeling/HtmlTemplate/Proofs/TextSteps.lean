import HtmlTemplate.Proofs.References
import HtmlTemplate.Proofs.Rewording
import HtmlTemplate.Proofs.TagSteps

/-! What a character does to a text or a value that is read as it is written. It goes into the
text, or the text ends there, or there is none. One character only is read into a text that its
`<` has begun. -/

namespace HtmlTemplate.Html

def State.holdsText (s : State) : Bool :=
  s == .data || s.isAttributeValue

def Step.isSilent (s : Step) : Bool :=
  s.events.all (!·.isText)

inductive TextStep (t : Tokenizer) (c : Char) (s : Step) : Prop
  /-- It goes into the text, which may begin with it. -/
  | reads : t.state.readsText = true →
      (t.state = .beforeData → c = '<' → t.tagName ∈ rawElements) → s.ahead = 0 →
      s.now = t.readOn [c] →
      s.events = t.begins ++ [t.state.reading.textEvent [c] ⟨t.position, t.position.next c⟩] →
      TextStep t c s
  /-- It goes into the text that a `<` has begun. -/
  | bracket : t.state = .tagOpen → c ≠ '/' → s.ahead = 0 →
      s.now = { t with state := .data, position := t.position.next c } →
      s.events = [.beginData t.tagStart, .data ['<'], .data [c]] → TextStep t c s
  /-- A value begins after it. -/
  | quotes {p : Position} : t.state.holdsText = false → s.ahead = 0 →
      s.now.state.isAttributeValue = true → s.events = [.beginAttributeValue true p] →
      TextStep t c s
  /-- The text, if there is one, ends before it. -/
  | rests : (t.state.holdsText = true → c ∈ breaking) → s.now.state.holdsText = false →
      s.isSilent = true → TextStep t c s

namespace Step

variable {t : Tokenizer} {s : Step} {c : Char} {rest : List Char}

theorem apart (ht : t.state.holdsText = false) (hstate : s.now.state.holdsText = false)
    (h : s.isSilent = true) : TextStep t c s :=
  .rests (fun hholds => Bool.noConfusion (ht.symm.trans hholds)) hstate h

theorem isSilent_emit (h : s.isSilent = true) {e : Event} (he : e.isText = false) :
    (s.emit e).isSilent = true := by
  rw [isSilent, events_emit, List.all_append, Bool.and_eq_true]
  exact ⟨h, by simpa using he⟩

theorem isSilent_read (h : s.isSilent = true) (c : Char) : (s.read c).isSilent = true := h

private theorem isSilent_emptyValue (h : s.isSilent = true) : s.emptyValue.isSilent = true :=
  isSilent_emit (isSilent_emit (e := .beginAttributeValue false s.now.position) h rfl) rfl

theorem attributeName_apart (ht : t.state.holdsText = false)
    (hstate : s.now.state = .attributeName) (h : s.isSilent = true) :
    TextStep t c (s.attributeName c) := by
  have hnaming (s' : Step) (hs : s'.now.state = s.now.state) :
      s'.now.state.holdsText = false := by
    rw [hs, hstate]
    rfl
  have hempty := isSilent_emptyValue h
  unfold attributeName
  split
  · exact apart ht rfl h
  · split
    · exact apart ht rfl hempty
    · split
      · exact apart ht rfl h
      · split
        · exact apart ht rfl (isSilent_emit (isSilent_read hempty c) rfl)
        · split
          · refine apart ht (hnaming _ rfl) (isSilent_emit ?_ rfl)
            exact isSilent_emit (e := .syntaxError (.characterInName c) s.now.position) h rfl
          · exact apart ht (hnaming _ rfl) (isSilent_emit (isSilent_read h c) rfl)

theorem beforeAttributeName_apart (ht : t.state.holdsText = false)
    (hstate : s.now.state = .beforeAttributeName) (h : s.isSilent = true) :
    TextStep t c (s.beforeAttributeName c) := by
  unfold beforeAttributeName
  split
  · refine apart ht ?_ h
    show s.now.state.holdsText = false
    rw [hstate]
    rfl
  · split
    · exact apart ht rfl h
    · split
      · exact apart ht rfl (isSilent_emit (isSilent_read h c) rfl)
      · have hbegin (s' : Step) (hs : s'.isSilent = true) :
            ((s'.become .attributeName).emitHere .beginAttribute).isSilent = true :=
          isSilent_emit (s := s'.become .attributeName) hs rfl
        split
        · have hfault : (s.emitHere (.syntaxError .equalsBeforeName)).isSilent = true :=
            isSilent_emit h rfl
          exact apart ht rfl (isSilent_emit (isSilent_read (hbegin _ hfault) c) rfl)
        · exact attributeName_apart ht rfl (hbegin s h)

theorem valueText_codemod (hmode : s.now.mode = .codemod) :
    s.valueText c rest = (s.read c).emit
      (.attributeValue [c] ⟨s.now.position, s.now.position.next c⟩) := by
  unfold valueText
  dsimp only
  rw [decode_codemod (s := s.read c) hmode]
  rfl

theorem data_codemod (hmode : s.now.mode = .codemod) :
    s.data c rest = if c = '<' && !s.isRawText c rest then
      s.emitHere .finishData |>.openTag |>.become .tagOpen |>.read c
    else (s.read c).emit (.data [c]) := by
  unfold data
  rw [decode_codemod (s := s.read c) hmode, ite_self]

end Step

namespace TextStep

variable {p q : Position} {name : List Char} {c : Char} {rest : List Char}

theorem beforeData : TextStep ⟨.codemod, .beforeData, p, q, name⟩ c
    (Step.beforeData { now := ⟨.codemod, .beforeData, p, q, name⟩ } c rest) := by
  unfold Step.beforeData
  split
  · exact Step.apart rfl rfl rfl
  · rename_i hbracket
    rw [if_neg (by simp), Step.data_codemod rfl]
    split
    · exact absurd ‹_› hbracket
    · refine .reads rfl (fun _ hc => ?_) rfl rfl rfl
      have hraw := hbracket
      simp only [hc, Step.isRawText, decide_true, Bool.true_and, Bool.not_eq_true',
        Bool.not_eq_false, Bool.and_eq_true, List.contains_iff_mem] at hraw
      exact hraw.1

theorem data : TextStep ⟨.codemod, .data, p, q, name⟩ c
    (Step.data { now := ⟨.codemod, .data, p, q, name⟩ } c rest) := by
  rw [Step.data_codemod rfl]
  split
  · rename_i hopens
    have hc : c = '<' := by simpa using (Bool.and_eq_true_iff.mp hopens).1
    exact .rests (fun _ => by rw [hc]; decide) rfl rfl
  · exact .reads rfl State.noConfusion rfl rfl rfl

theorem tagOpen : TextStep ⟨.codemod, .tagOpen, p, q, name⟩ c
    (Step.tagOpen { now := ⟨.codemod, .tagOpen, p, q, name⟩ } c) := by
  unfold Step.tagOpen
  dsimp only
  split
  · exact Step.apart rfl rfl rfl
  · split
    · exact Step.apart rfl rfl rfl
    · rename_i hslash
      split
      · exact Step.apart rfl rfl rfl
      · exact .bracket rfl hslash rfl rfl rfl

theorem beforeAttributeValue : TextStep ⟨.codemod, .beforeAttributeValue, p, q, name⟩ c
    (Step.beforeAttributeValue { now := ⟨.codemod, .beforeAttributeValue, p, q, name⟩ } c
      rest) := by
  unfold Step.beforeAttributeValue
  split
  · exact Step.apart rfl rfl rfl
  · split
    · exact .quotes rfl rfl rfl rfl
    · split
      · exact .quotes rfl rfl rfl rfl
      · split
        · exact Step.apart rfl rfl rfl
        · rw [Step.valueText_codemod rfl]
          exact .reads rfl State.noConfusion rfl rfl rfl

theorem quotedValue {t : Tokenizer} (hmode : t.mode = .codemod) {quote : Char}
    (hquote : quote ∈ breaking) (hstate : t.state = .attributeValueDoubleQuoted
      ∨ t.state = .attributeValueSingleQuoted) :
    TextStep t c (Step.quotedValue { now := t } quote c rest) := by
  unfold Step.quotedValue
  split
  · rename_i hc
    exact .rests (fun _ => hc ▸ hquote) rfl rfl
  · rw [Step.valueText_codemod hmode]
    obtain ⟨mode, state, position, tagStart, tagName⟩ := t
    rcases hstate with rfl | rfl
    all_goals exact .reads rfl State.noConfusion rfl rfl rfl

private theorem breaking_of_isSpace (h : isSpace c = true) : c ∈ breaking := by
  simp only [isSpace, Bool.or_eq_true, beq_iff_eq] at h
  rcases h with (((rfl | rfl) | rfl) | rfl) | rfl
  all_goals decide

theorem unquotedValue : TextStep ⟨.codemod, .attributeValueUnquoted, p, q, name⟩ c
    (Step.unquotedValue { now := ⟨.codemod, .attributeValueUnquoted, p, q, name⟩ } c rest) := by
  unfold Step.unquotedValue
  split
  · exact .rests (fun _ => breaking_of_isSpace ‹_›) rfl rfl
  · split
    · rename_i hslash
      exact .rests (fun _ => by rw [hslash]; decide) rfl rfl
    · split
      · rename_i hclose
        exact .rests (fun _ => by rw [hclose]; decide) rfl rfl
      · rw [Step.valueText_codemod rfl]
        exact .reads rfl State.noConfusion rfl rfl rfl

end TextStep

theorem Tokenizer.step_text {t : Tokenizer} (hmode : t.mode = .codemod) (c : Char)
    (rest : List Char) : TextStep t c (t.step c rest) := by
  obtain ⟨mode, state, position, tagStart, tagName⟩ := t
  obtain rfl : mode = .codemod := hmode
  cases state
  case beforeData => exact .beforeData
  case data => exact .data
  case tagOpen => exact .tagOpen
  case beforeAttributeValue => exact .beforeAttributeValue
  case attributeValueDoubleQuoted => exact .quotedValue rfl (by decide) (.inl rfl)
  case attributeValueSingleQuoted => exact .quotedValue rfl (by decide) (.inr rfl)
  case attributeValueUnquoted => exact .unquotedValue
  case attributeName => exact Step.attributeName_apart rfl rfl rfl
  case beforeAttributeName => exact Step.beforeAttributeName_apart rfl rfl rfl
  case afterAttributeValueQuoted =>
    show TextStep _ c (Step.afterAttributeValueQuoted _ c)
    unfold Step.afterAttributeValueQuoted
    repeat' split
    any_goals exact Step.apart rfl rfl rfl
    exact Step.beforeAttributeName_apart rfl rfl rfl
  case selfClosingStartTag =>
    show TextStep _ c (Step.selfClosingStartTag _ c)
    unfold Step.selfClosingStartTag
    repeat' split
    any_goals exact Step.apart rfl rfl rfl
    exact Step.beforeAttributeName_apart rfl rfl rfl
  all_goals
    -- in names and comments there is no text before or after
    simp only [Tokenizer.step, Step.markupDeclarationOpen, Step.commentStart,
      Step.commentStartDash, Step.comment, Step.commentEndDash, Step.commentEnd, Step.commentText,
      Step.tagName, Step.endTagOpen, Step.endTagName, Step.afterAttributeName]
    repeat' split
    all_goals exact Step.apart rfl rfl rfl

end HtmlTemplate.Html
