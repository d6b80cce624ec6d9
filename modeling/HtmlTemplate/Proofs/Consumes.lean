import HtmlTemplate.Html.Tokenizer

/-! The machine reads every character of a chunk once: its position is where the chunk
ends. -/

namespace HtmlTemplate.Html

namespace Reference

/-- A reference ends within the text. -/
theorem decode?_le {cs : List Char} {c : Char} {n : Nat} (h : decode? cs = some (c, n)) :
    n ≤ cs.length := by
  unfold decode? at h
  dsimp only at h
  split at h
  · rename_i hlt
    obtain ⟨d, -, hd⟩ := Option.map_eq_some_iff.mp h
    cases hd
    omega
  · cases h

end Reference

namespace Step

/-- From one step to another a character and some of those that follow it are read. -/
def Consumes (s : Step) (c : Char) (rest : List Char) (s' : Step) : Prop :=
  ∃ k ≤ rest.length, s'.ahead = s.ahead + k
    ∧ s'.now.position = s.now.position.after (c :: rest.take k)

variable {s : Step} {c : Char} {rest : List Char}

/-- Nothing is decoded where text is read as it is written. -/
theorem decode_codemod (h : s.now.mode = .codemod) (c : Char) (rest : List Char) :
    s.decode c rest = ([c], s) := by
  simp [decode, h]

theorem consumes_one {s' : Step} (hahead : s'.ahead = s.ahead)
    (hposition : s'.now.position = s.now.position.next c) : s.Consumes c rest s' :=
  ⟨0, Nat.zero_le _, hahead, hposition⟩

theorem decode_consumes (s : Step) (c : Char) (rest : List Char) :
    s.Consumes c rest ((s.read c).decode c rest).2 := by
  unfold decode
  split
  · split
    · rename_i n hdecode
      have hn := Reference.decode?_le hdecode
      refine ⟨n, hn, ?_, rfl⟩
      show s.ahead + (rest.take n).length = s.ahead + n
      rw [List.length_take, Nat.min_eq_left hn]
    · exact consumes_one rfl rfl
  · exact consumes_one rfl rfl

theorem data_consumes (s : Step) (c : Char) (rest : List Char) :
    s.Consumes c rest (s.data c rest) := by
  unfold data
  split
  · exact consumes_one rfl rfl
  · split
    · exact consumes_one rfl rfl
    · exact decode_consumes s c rest

theorem beforeData_consumes (s : Step) (c : Char) (rest : List Char) :
    s.Consumes c rest (s.beforeData c rest) := by
  unfold beforeData
  split
  · exact consumes_one rfl rfl
  · split
    · exact consumes_one rfl rfl
    · exact data_consumes ((s.become .data).emitHere .beginData) c rest

theorem markupDeclarationOpen_consumes (s : Step) (c : Char) (rest : List Char) :
    s.Consumes c rest (s.markupDeclarationOpen c rest) := by
  unfold markupDeclarationOpen
  dsimp only
  split
  · rename_i hdashes
    cases rest with
    | nil => simp at hdashes
    | cons d rest =>
      obtain rfl : d = '-' := by simpa using (Bool.and_eq_true_iff.mp hdashes).2
      exact ⟨1, Nat.succ_le_succ (Nat.zero_le _), rfl, rfl⟩
  · exact consumes_one rfl rfl

theorem attributeName_consumes (s : Step) (c : Char) (rest : List Char) :
    s.Consumes c rest (s.attributeName c) := by
  unfold attributeName
  repeat' split
  all_goals exact consumes_one rfl rfl

theorem beforeAttributeName_consumes (s : Step) (c : Char) (rest : List Char) :
    s.Consumes c rest (s.beforeAttributeName c) := by
  unfold beforeAttributeName
  repeat' split
  any_goals exact consumes_one rfl rfl
  exact attributeName_consumes ((s.become .attributeName).emitHere .beginAttribute) c rest

theorem valueText_consumes (s : Step) (c : Char) (rest : List Char) :
    s.Consumes c rest (s.valueText c rest) :=
  decode_consumes s c rest

theorem beforeAttributeValue_consumes (s : Step) (c : Char) (rest : List Char) :
    s.Consumes c rest (s.beforeAttributeValue c rest) := by
  unfold beforeAttributeValue
  repeat' split
  any_goals exact consumes_one rfl rfl
  exact valueText_consumes ((s.become .attributeValueUnquoted).emitHere
    (.beginAttributeValue false)) c rest

end Step

namespace Tokenizer

open Step (Consumes)

theorem step_consumes (t : Tokenizer) (c : Char) (rest : List Char) :
    Consumes { now := t } c rest (t.step c rest) := by
  unfold step
  dsimp only
  split
  · exact Step.beforeData_consumes _ c rest
  · exact Step.data_consumes _ c rest
  · unfold Step.tagOpen
    repeat' split
    all_goals exact Step.consumes_one rfl rfl
  · exact Step.markupDeclarationOpen_consumes _ c rest
  · unfold Step.commentStart
    repeat' split
    all_goals exact Step.consumes_one rfl rfl
  · unfold Step.commentStartDash
    repeat' split
    all_goals exact Step.consumes_one rfl rfl
  · unfold Step.comment
    repeat' split
    all_goals exact Step.consumes_one rfl rfl
  · unfold Step.commentEndDash
    repeat' split
    all_goals exact Step.consumes_one rfl rfl
  · unfold Step.commentEnd
    repeat' split
    all_goals exact Step.consumes_one rfl rfl
  · unfold Step.tagName
    repeat' split
    all_goals exact Step.consumes_one rfl rfl
  · unfold Step.endTagOpen
    repeat' split
    all_goals exact Step.consumes_one rfl rfl
  · unfold Step.endTagName
    repeat' split
    all_goals exact Step.consumes_one rfl rfl
  · exact Step.beforeAttributeName_consumes _ c rest
  · exact Step.attributeName_consumes _ c rest
  · unfold Step.afterAttributeName
    repeat' split
    all_goals exact Step.consumes_one rfl rfl
  · exact Step.beforeAttributeValue_consumes _ c rest
  · unfold Step.quotedValue
    split
    · exact Step.consumes_one rfl rfl
    · exact Step.valueText_consumes _ c rest
  · unfold Step.quotedValue
    split
    · exact Step.consumes_one rfl rfl
    · exact Step.valueText_consumes _ c rest
  · unfold Step.unquotedValue
    repeat' split
    any_goals exact Step.consumes_one rfl rfl
    exact Step.valueText_consumes _ c rest
  · unfold Step.afterAttributeValueQuoted
    repeat' split
    any_goals exact Step.consumes_one rfl rfl
    exact Step.beforeAttributeName_consumes (Step.become { now := t } .beforeAttributeName) c rest
  · unfold Step.selfClosingStartTag
    repeat' split
    any_goals exact Step.consumes_one rfl rfl
    exact Step.beforeAttributeName_consumes (Step.become { now := t } .beforeAttributeName) c rest

theorem position_feed (t : Tokenizer) (cs : List Char) :
    (t.feed cs).2.position = t.position.after cs := by
  induction hlength : cs.length using Nat.strongRecOn generalizing t cs with
  | _ length ih =>
    cases cs with
    | nil => rfl
    | cons c cs =>
      obtain ⟨k, hk, hahead, hposition⟩ := step_consumes t c cs
      rw [feed_cons]
      dsimp only
      rw [ih _ ?_ _ _ rfl, hposition, hahead]
      · show (t.position.after (c :: cs.take k)).after (cs.drop (0 + k)) = _
        rw [Nat.zero_add, ← Position.after_append, List.cons_append, List.take_append_drop]
      · rw [← hlength, List.length_drop, List.length_cons]
        omega

theorem position_finishData (t : Tokenizer) : t.finishData.2.position = t.position := by
  unfold finishData
  split <;> rfl

theorem now_appendComment (t : Tokenizer) (text : List Char) :
    (t.appendComment text).2 = { t with state := .comment } := by
  unfold appendComment
  dsimp only
  split <;> rfl

theorem events_appendComment {t : Tokenizer} {text : List Char} {e : Emission}
    (he : e ∈ (t.appendComment text).1) : ∃ data, e.event = .commentData data := by
  unfold appendComment at he
  dsimp only at he
  split at he
  all_goals
    simp only [Step.emit, Step.become, List.nil_append, List.cons_append, List.mem_cons,
      List.not_mem_nil, or_false] at he
  · rcases he with rfl | rfl <;> exact ⟨_, rfl⟩
  · rcases he with rfl | rfl <;> exact ⟨_, rfl⟩
  · rcases he with rfl | rfl <;> exact ⟨_, rfl⟩
  · exact ⟨_, congrArg Emission.event he⟩

/-- No text is under way at the end. -/
theorem state_finishData (t : Tokenizer) : t.finishData.2.state ≠ .data := by
  unfold finishData
  split
  · simp [Step.emitHere, Step.emit, Step.become]
  · assumption

end Tokenizer
end HtmlTemplate.Html
