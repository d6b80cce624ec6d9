import HtmlTemplate.Text.Blank
import Mathlib.Data.List.DropRight
import Mathlib.Data.List.TakeWhile

/-! What trimming takes from a text: blanks at its ends and nothing else. Trimming all blanks
takes what is left of any of them, whatever has been taken before. -/

namespace HtmlTemplate.Text

/-- What is left of a text when blanks at its ends are taken away. -/
def Shortens (text left : List Char) : Prop :=
  ∃ before after, text = before ++ left ++ after ∧ before.all isBlank = true
    ∧ after.all isBlank = true

namespace Shortens

variable {text left less : List Char}

theorem refl (text : List Char) : Shortens text text :=
  ⟨[], [], by simp, rfl, rfl⟩

theorem trans (h : Shortens text left) (h' : Shortens left less) : Shortens text less := by
  obtain ⟨before, after, rfl, hbefore, hafter⟩ := h
  obtain ⟨before', after', rfl, hbefore', hafter'⟩ := h'
  refine ⟨before ++ before', after' ++ after, by simp only [List.append_assoc], ?_, ?_⟩
  · rw [List.all_append, hbefore, hbefore', Bool.and_self]
  · rw [List.all_append, hafter, hafter', Bool.and_self]

theorem of_suffix (before : List Char) (h : text = before ++ left)
    (hbefore : before.all isBlank = true) : Shortens text left :=
  ⟨before, [], by simpa using h, hbefore, rfl⟩

theorem reverse (h : Shortens text left) : Shortens text.reverse left.reverse := by
  obtain ⟨before, after, rfl, hbefore, hafter⟩ := h
  exact ⟨after.reverse, before.reverse, by simp, by rwa [List.all_reverse],
    by rwa [List.all_reverse]⟩

/-- Trimming takes no character that is not blank. -/
theorem countP (h : Shortens text left) :
    left.countP (!isBlank ·) = text.countP (!isBlank ·) := by
  have hblank {cs : List Char} (hcs : cs.all isBlank = true) : cs.countP (!isBlank ·) = 0 :=
    List.countP_eq_zero.mpr fun c hc => by simp [List.all_eq_true.mp hcs c hc]
  obtain ⟨before, after, rfl, hbefore, hafter⟩ := h
  simp [List.countP_append, hblank hbefore, hblank hafter]

end Shortens

theorem dropWhile_eq_nil_of_all {p : Char → Bool} {cs : List Char} (h : cs.all p = true) :
    cs.dropWhile p = [] :=
  List.dropWhile_eq_nil_iff.mpr (List.all_eq_true.mp h)

theorem all_takeWhile (p : Char → Bool) (cs : List Char) : (cs.takeWhile p).all p = true :=
  List.all_eq_true.mpr fun _ => List.mem_takeWhile_imp

theorem shortens_trimStart (cs : List Char) : Shortens cs (trimStart cs) :=
  .of_suffix _ (List.takeWhile_append_dropWhile (p := isBlank)).symm (all_takeWhile _ cs)

theorem isBlank_of_isIndent {c : Char} (h : isIndent c = true) : isBlank c = true := by
  simp only [isIndent, Bool.or_eq_true, beq_iff_eq] at h
  rcases h with rfl | rfl <;> rfl

private theorem all_isBlank_of_isIndent {cs : List Char} (h : cs.all isIndent = true) :
    cs.all isBlank = true :=
  List.all_eq_true.mpr fun c hc => isBlank_of_isIndent (List.all_eq_true.mp h c hc)

private theorem shortens_dropIf {c : Char} (hc : isBlank c = true) (cs : List Char) :
    Shortens cs (dropIf c cs) := by
  cases cs with
  | nil => exact .refl _
  | cons d ds =>
    simp only [dropIf]
    split
    · rename_i hd
      exact .of_suffix [d] rfl (by simp [hd, hc])
    · exact .refl _

theorem shortens_dropBlankLine (cs : List Char) : Shortens cs (dropBlankLine cs) := by
  have hindent : Shortens cs (cs.dropWhile isIndent) :=
    .of_suffix _ (List.takeWhile_append_dropWhile (p := isIndent)).symm
      (all_isBlank_of_isIndent (all_takeWhile _ cs))
  exact (hindent.trans (shortens_dropIf rfl _)).trans (shortens_dropIf rfl _)

theorem shortens_dropEndWhile {p : Char → Bool} (hp : ∀ c, p c = true → isBlank c = true)
    (cs : List Char) : Shortens cs (dropEndWhile p cs) := by
  refine ⟨[], takeEndWhile p cs, ?_, rfl, ?_⟩
  · rw [List.nil_append, dropEndWhile_append_takeEndWhile]
  · rw [takeEndWhile, List.all_reverse]
    exact List.all_eq_true.mpr fun c hc => hp c (List.mem_takeWhile_imp hc)

theorem Shortens.trimStart {text left : List Char} (h : Shortens text left) :
    Shortens (Text.trimStart text) (Text.trimStart left) := by
  obtain ⟨before, after, rfl, hbefore, hafter⟩ := h
  simp only [Text.trimStart, List.append_assoc, List.dropWhile_append,
    dropWhile_eq_nil_of_all hbefore, dropWhile_eq_nil_of_all hafter, List.isEmpty_nil, ↓reduceIte]
  split
  · rename_i hleft
    rw [List.isEmpty_iff.mp hleft]
    exact .refl _
  · exact ⟨[], after, rfl, rfl, hafter⟩

theorem trimEnd_eq (cs : List Char) : trimEnd cs = (Text.trimStart cs.reverse).reverse := rfl

theorem Shortens.trimEnd {text left : List Char} (h : Shortens text left) :
    Shortens (Text.trimEnd text) (Text.trimEnd left) := by
  rw [trimEnd_eq, trimEnd_eq]
  exact h.reverse.trimStart.reverse

theorem dropEndWhile_eq_nil {p : Char → Bool} {cs : List Char} (h : cs.all p = true) :
    dropEndWhile p cs = [] := by
  rw [dropEndWhile, dropWhile_eq_nil_of_all (by rwa [List.all_reverse]), List.reverse_nil]

theorem dropEndWhile_cons {p : Char → Bool} {c : Char} {cs : List Char}
    (h : ¬ (c :: cs).all p = true) : dropEndWhile p (c :: cs) = c :: dropEndWhile p cs := by
  simp only [dropEndWhile, List.reverse_cons, List.dropWhile_append]
  split
  · rename_i hnil
    have hcs : cs.all p = true := by simpa using hnil
    have hc : ¬ p c = true := fun hc => h (by rw [List.all_cons, hc, hcs, Bool.and_self])
    rw [List.isEmpty_iff.mp hnil, List.dropWhile_cons_of_neg hc]
    rfl
  · rw [List.reverse_concat]

theorem dropEndWhile_dropWhile (p : Char → Bool) (cs : List Char) :
    dropEndWhile p (cs.dropWhile p) = (dropEndWhile p cs).dropWhile p := by
  induction cs with
  | nil => rfl
  | cons c cs ih =>
    by_cases hc : p c = true
    · rw [List.dropWhile_cons_of_pos hc, ih]
      by_cases hall : (c :: cs).all p = true
      · have hcs : cs.all p = true := by simpa [hc] using hall
        rw [dropEndWhile_eq_nil hall, dropEndWhile_eq_nil hcs]
      · rw [dropEndWhile_cons hall, List.dropWhile_cons_of_pos hc]
    · have hall : ¬ (c :: cs).all p = true := by simp [hc]
      rw [List.dropWhile_cons_of_neg hc, dropEndWhile_cons hall, List.dropWhile_cons_of_neg hc]

private theorem dropEndWhile_dropIf {p : Char → Bool} {c : Char} (hc : p c = false)
    (cs : List Char) :
    dropEndWhile p (dropIf c cs) = dropIf c (dropEndWhile p cs) := by
  cases cs with
  | nil => rfl
  | cons d ds =>
    by_cases hd : d = c
    · have hall : ¬ (d :: ds).all p = true := by simp [hd, hc]
      rw [dropEndWhile_cons hall, dropIf, dropIf, if_pos hd, if_pos hd]
    · rw [dropIf, if_neg hd]
      by_cases hall : (d :: ds).all p = true
      · rw [dropEndWhile_eq_nil hall]
        rfl
      · rw [dropEndWhile_cons hall, dropIf, if_neg hd]

theorem trimEnd_trimStart (cs : List Char) : trimEnd (trimStart cs) = trimStart (trimEnd cs) :=
  dropEndWhile_dropWhile isBlank cs

theorem dropEndIndent_dropBlankLine (cs : List Char) :
    dropEndIndent (dropBlankLine cs) = dropBlankLine (dropEndIndent cs) := by
  simp only [dropEndIndent, dropBlankLine]
  rw [dropEndWhile_dropIf rfl, dropEndWhile_dropIf rfl, dropEndWhile_dropWhile]

theorem trimStart_trimStart (cs : List Char) : trimStart (trimStart cs) = trimStart cs :=
  List.dropWhile_idempotent _ _

theorem trimEnd_trimEnd (cs : List Char) : trimEnd (trimEnd cs) = trimEnd cs := by
  simp only [trimEnd, dropEndWhile, List.reverse_reverse]
  exact congrArg List.reverse (List.dropWhile_idempotent _ _)

end HtmlTemplate.Text
