import HtmlTemplate.Html.Tokenizer
import HtmlTemplate.Proofs.WellFormed

/-! Single characters of a draft's HTML as the machine reads them. -/

namespace HtmlTemplate.Html

open Draft (isMarkupChar)

namespace Step

variable {c : Char} (s : Step) (rest : List Char)

theorem decode_of_ne (h : c ≠ '&') : s.decode c rest = ([c], s) := by
  unfold decode
  rw [if_neg (by simp [h])]

theorem data_of_ne (hlt : c ≠ '<') (hamp : c ≠ '&') :
    s.data c rest = (s.read c).emit (.data [c]) := by
  unfold data
  rw [if_neg (by simp [hlt]), decode_of_ne _ _ hamp]
  split <;> rfl

theorem beforeData_of_ne (hlt : c ≠ '<') (hamp : c ≠ '&') (hline : c ≠ '\n') :
    s.beforeData c rest = (((s.become .data).emitHere .beginData).read c).emit (.data [c]) := by
  unfold beforeData
  rw [if_neg (by simp [hlt]), if_neg (by simp [hline]), data_of_ne _ _ hlt hamp]

theorem isRawText_eq (h : s.now.tagName ∉ rawElements) : s.isRawText c rest = false := by
  unfold isRawText
  rw [Bool.and_eq_false_iff]
  exact .inl (by simpa using h)

theorem data_bracket (h : s.now.tagName ∉ rawElements) :
    s.data '<' rest = ((s.emitHere .finishData).openTag.become .tagOpen).read '<' := by
  unfold data
  rw [isRawText_eq s rest h]
  rfl

theorem beforeData_bracket (h : s.now.tagName ∉ rawElements) :
    s.beforeData '<' rest = (s.openTag.become .tagOpen).read '<' := by
  unfold beforeData
  rw [isRawText_eq s rest h]
  rfl

private theorem valueText_of_ne (hamp : c ≠ '&') :
    s.valueText c rest
      = (s.read c).emit (.attributeValue [c] ⟨s.now.position, s.now.position.next c⟩) := by
  unfold valueText
  rw [decode_of_ne _ _ hamp]
  rfl

theorem quotedValue_of_ne (hquote : c ≠ '"') (hamp : c ≠ '&') :
    s.quotedValue '"' c rest
      = (s.read c).emit (.attributeValue [c] ⟨s.now.position, s.now.position.next c⟩) := by
  unfold quotedValue
  rw [if_neg hquote, valueText_of_ne s rest hamp]

theorem startsTagName_of_isAlpha (h : c.isAlpha = true) : startsTagName c = true := by
  unfold startsTagName Text.isLetter
  rw [h]
  rfl

theorem tagOpen_of_isAlpha (h : c.isAlpha = true) :
    s.tagOpen c = ((((s.read c).become .tagName).forgetName).emit
      (.beginStartTag s.now.tagStart)).growName c := by
  have hmark : c ≠ '!' := fun heq => absurd (heq ▸ h) (by decide)
  have hslash : c ≠ '/' := fun heq => absurd (heq ▸ h) (by decide)
  unfold tagOpen
  rw [if_neg hmark, if_neg hslash, if_pos (startsTagName_of_isAlpha h)]
  rfl

theorem endTagOpen_of_isAlpha (h : c.isAlpha = true) :
    s.endTagOpen c = ((((s.read c).become .endTagName).forgetName).emit
      (.beginEndTag s.now.tagStart)).growName c := by
  unfold endTagOpen
  rw [if_pos (startsTagName_of_isAlpha h)]
  rfl

theorem ne_of_isMarkupChar (h : isMarkupChar c = true) :
    isSpace c = false ∧ c ≠ '/' ∧ c ≠ '>' ∧ c ≠ '=' ∧ c ≠ '"' ∧ c ≠ '\'' ∧ c ≠ '<' := by
  have hne : c ∉ [' ', '\t', '\n', '\r', '\x0c', '/', '>', '=', '"', '\'', '<'] :=
    not_mem_of_all h (by decide)
  simp only [List.mem_cons, not_or] at hne
  simp [isSpace, hne]

theorem tagName_of_isMarkupChar (h : isMarkupChar c = true) :
    s.tagName c = (s.read c).growName c := by
  obtain ⟨hspace, hslash, hclose, -⟩ := ne_of_isMarkupChar h
  unfold tagName
  rw [hspace, if_neg Bool.false_ne_true, if_neg hslash, if_neg hclose]

theorem endTagName_of_isMarkupChar (h : isMarkupChar c = true) :
    s.endTagName c = (s.read c).growName c := by
  obtain ⟨hspace, hslash, hclose, -⟩ := ne_of_isMarkupChar h
  unfold endTagName
  rw [hspace, if_neg Bool.false_ne_true, if_neg hslash, if_neg hclose]

theorem attributeName_of_isMarkupChar (h : isMarkupChar c = true) :
    s.attributeName c = (s.read c).emit (.attributeName c) := by
  obtain ⟨hspace, hslash, hclose, hequals, hquote, hquote', hbracket⟩ := ne_of_isMarkupChar h
  unfold attributeName
  rw [hspace, if_neg Bool.false_ne_true, if_neg hslash, if_neg hequals, if_neg hclose,
    if_neg (by simp [hquote, hquote', hbracket])]

theorem beforeAttributeName_of_isMarkupChar (h : isMarkupChar c = true) :
    s.beforeAttributeName c
      = (((s.become .attributeName).emitHere .beginAttribute).read c).emit (.attributeName c) := by
  obtain ⟨hspace, hslash, hclose, hequals, -⟩ := ne_of_isMarkupChar h
  unfold beforeAttributeName
  rw [hspace, if_neg Bool.false_ne_true, if_neg hslash, if_neg hclose, if_neg hequals,
    attributeName_of_isMarkupChar _ h]

end Step

end HtmlTemplate.Html
