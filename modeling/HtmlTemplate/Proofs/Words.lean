import HtmlTemplate.Proofs.Decimals
import HtmlTemplate.Proofs.WellFormed

/-! The words of a draft as the scanner of mustaches sees them: names, and nothing else
that begins as a word does. -/

namespace HtmlTemplate.Mustache

open Draft (isWord isWordChar reserved)
open Text (isBlank)

theorem toNat_of_isAlpha {c : Char} (h : c.isAlpha = true) :
    65 ≤ c.toNat ∧ c.toNat ≤ 90 ∨ 97 ≤ c.toNat ∧ c.toNat ≤ 122 := by
  have hcases : (c.isUpper || c.isLower) = true := h
  obtain hupper | hlower := Bool.or_eq_true_iff.mp hcases
  · exact .inl (of_decide_eq_true hupper)
  · have hlower : (decide (c.val ≥ 'a'.val) && decide (c.val ≤ 'z'.val)) = true := hlower
    simp only [Bool.and_eq_true, decide_eq_true_eq, UInt32.le_iff_toNat_le] at hlower
    exact .inr hlower

theorem isDigit_of_isAlpha {c : Char} (h : c.isAlpha = true) : c.isDigit = false := by
  have := toNat_of_isAlpha h
  by_contra hdigit
  have := toNat_of_isDigit (Bool.not_eq_false _ ▸ hdigit)
  omega

private theorem toNat_of_isWordChar {c : Char} (h : isWordChar c = true) :
    c.toNat = 45 ∨ 48 ≤ c.toNat ∧ c.toNat ≤ 57 ∨ 65 ≤ c.toNat ∧ c.toNat ≤ 90 ∨ c.toNat = 95
      ∨ 97 ≤ c.toNat ∧ c.toNat ≤ 122 := by
  simp only [isWordChar, Char.isAlphanum, Bool.or_eq_true, beq_iff_eq] at h
  obtain ((h | h) | rfl) | rfl := h
  · have := toNat_of_isAlpha h
    omega
  · have := toNat_of_isDigit h
    omega
  · decide
  · decide

theorem isBlank_of_isWordChar {c : Char} (h : isWordChar c = true) : isBlank c = false := by
  have := toNat_of_isWordChar h
  by_contra hblank
  simp only [Text.isBlank, Bool.not_eq_false, Bool.or_eq_true, Bool.and_eq_true,
    decide_eq_true_eq, beq_iff_eq] at hblank
  omega

theorem isNameChar_of_isWordChar {c : Char} (h : isWordChar c = true) : isNameChar c = true := by
  have hspecial : c ∉ "!\"#%&'()*+,./;<=>@[\\]^`\x7b|\x7d~".toList := not_mem_of_all h (by decide)
  unfold isNameChar
  rw [isBlank_of_isWordChar h, Bool.not_false, Bool.true_and, Bool.not_eq_true']
  by_contra hmem
  rw [Bool.not_eq_false, List.contains_iff_mem] at hmem
  exact hspecial hmem

theorem isWordChar_of_isAlpha {c : Char} (h : c.isAlpha = true) : isWordChar c = true := by
  unfold isWordChar Char.isAlphanum
  rw [h, Bool.true_or, Bool.true_or, Bool.true_or]

theorem isNameChar_of_endsLiteral {c : Char} (h : endsLiteral c = true) :
    isNameChar c = false := by
  obtain h | h := Bool.or_eq_true_iff.mp h
  · unfold isNameChar
    rw [h, Bool.not_true, Bool.false_and]
  · have hall : ['~', '}', ')'].all (!isNameChar ·) = true := by decide
    simpa using List.all_eq_true.mp hall c (List.contains_iff_mem.mp h)

theorem chars_of_isWord {w : List Char} (h : isWord w = true) :
    ∃ c cs, w = c :: cs ∧ c.isAlpha = true ∧ (∀ d ∈ w, isWordChar d = true) ∧ w ∉ reserved := by
  cases w with
  | nil => cases h
  | cons c cs =>
    simp only [isWord, Bool.and_eq_true, Bool.not_eq_true', List.all_eq_true] at h
    obtain ⟨⟨hc, hcs⟩, hreserved⟩ := h
    refine ⟨c, cs, rfl, hc, ?_, fun hmem => ?_⟩
    · intro d hd
      obtain rfl | hd := List.mem_cons.mp hd
      · exact isWordChar_of_isAlpha hc
      · exact hcs d hd
    · rw [List.contains_iff_mem.mpr hmem] at hreserved
      cases hreserved

theorem word_unique {w w' rest rest' : List Char} (h : isWord w = true)
    (hrest : rest.head?.all (!isNameChar ·) = true) (hw' : w'.all isNameChar = true)
    (hrest' : rest'.head?.all (!isNameChar ·) = true) (heq : w ++ rest = w' ++ rest') : w = w' := by
  obtain ⟨-, -, -, -, hchars, -⟩ := chars_of_isWord h
  have hname : ∀ c ∈ w, isNameChar c = true := fun c hc => isNameChar_of_isWordChar (hchars c hc)
  rw [← takeWhile_run hname hrest, heq, takeWhile_run (List.all_eq_true.mp hw') hrest']

theorem isNameChar_of_isBlank {c : Char} (h : isBlank c = true) : isNameChar c = false := by
  unfold isNameChar
  rw [h, Bool.not_true, Bool.false_and]

theorem paramsLength?_word {w rest : List Char} (h : isWord w = true)
    (hrest : rest.head?.all (!isNameChar ·) = true) : paramsLength? (w ++ rest) = none := by
  obtain ⟨-, -, -, -, -, hreserved⟩ := chars_of_isWord h
  unfold paramsLength?
  dsimp only
  refine if_neg fun hcon => ?_
  simp only [Bool.and_eq_true, decide_eq_true_eq] at hcon
  obtain ⟨⟨has, hblanks⟩, -⟩ := hcon
  obtain ⟨tail, htail⟩ := List.isPrefixOf_iff_prefix.mp has
  have hstop : tail.head?.all (!isNameChar ·) = true := by
    have htake : (['a', 's'] ++ tail).drop 2 = tail := rfl
    rw [← htail, htake] at hblanks
    cases tail with
    | nil => rfl
    | cons c cs =>
      by_cases hc : isBlank c = true
      · simp [isNameChar_of_isBlank hc]
      · rw [List.takeWhile_cons_of_neg hc] at hblanks
        exact absurd hblanks (Nat.lt_irrefl 0)
  obtain rfl := word_unique h hrest (by decide) hstop htail.symm
  exact hreserved (by decide)

theorem startsElse_word {w rest : List Char} (h : isWord w = true)
    (hrest : rest.head?.all (!isNameChar ·) = true) : startsElse (w ++ rest) = false := by
  obtain ⟨-, -, -, -, -, hreserved⟩ := chars_of_isWord h
  by_contra hcon
  rw [Bool.not_eq_false, startsElse, Bool.and_eq_true] at hcon
  obtain ⟨tail, htail⟩ := List.isPrefixOf_iff_prefix.mp hcon.1
  have hafter := hcon.2
  rw [← htail, List.drop_left' (by decide)] at hafter
  have hstop : tail.head?.all (!isNameChar ·) = true := by
    cases tail with
    | nil => rfl
    | cons c cs =>
      simp only [List.head?_cons, Option.all_some, Bool.or_eq_true, beq_iff_eq] at hafter
      obtain (hblank | rfl) | rfl := hafter
      · simp [isNameChar_of_isBlank hblank]
      · rfl
      · rfl
  obtain rfl := word_unique h hrest (by decide) hstop htail.symm
  exact hreserved (by decide)

theorem startsElse_of_ne {c : Char} (hc : c ≠ 'e') (cs : List Char) :
    startsElse (c :: cs) = false := by
  by_contra hcon
  rw [Bool.not_eq_false, startsElse, Bool.and_eq_true] at hcon
  obtain ⟨tail, htail⟩ := List.isPrefixOf_iff_prefix.mp hcon.1
  exact hc (List.cons.inj htail).1.symm

theorem numberText?_of_isAlpha {c : Char} (hc : c.isAlpha = true) (cs : List Char) :
    numberText? (c :: cs) = none := by
  have hminus : c ≠ '-' := fun heq => absurd (heq ▸ hc) (by decide)
  have hdigit : c.isDigit = false := isDigit_of_isAlpha hc
  unfold numberText?
  simp [hminus, hdigit]

private theorem numberText?_word {w : List Char} (h : isWord w = true) (rest : List Char) :
    numberText? (w ++ rest) = none := by
  obtain ⟨c, cs, rfl, hc, -, -⟩ := chars_of_isWord h
  exact numberText?_of_isAlpha hc (cs ++ rest)

private theorem keyword?_word {w : List Char} (h : isWord w = true) : keyword? w = none := by
  obtain ⟨c, cs, rfl, -, -, hreserved⟩ := chars_of_isWord h
  have hne : ∀ k ∈ reserved, c :: cs ≠ k := fun k hk heq => hreserved (heq ▸ hk)
  unfold keyword?
  rw [if_neg (hne _ (by decide)), if_neg (hne _ (by decide)), if_neg (hne _ (by decide)),
    if_neg (hne _ (by decide))]

theorem wordLexeme?_word {raw : Bool} {w rest : List Char} (h : isWord w = true)
    (hrest : rest.head?.all (!isNameChar ·) = true) :
    wordLexeme? raw (w ++ rest)
      = some { symbol := .name w false, length := w.length, after := .tag raw } := by
  obtain ⟨c, cs, hw, -, hchars, -⟩ := chars_of_isWord h
  have hname : ∀ d ∈ w, isNameChar d = true := fun d hd => isNameChar_of_isWordChar (hchars d hd)
  have hnonempty : w.isEmpty = false := by rw [hw]; rfl
  unfold wordLexeme?
  rw [paramsLength?_word h hrest, numberText?_word h rest]
  dsimp only
  rw [takeWhile_run hname hrest, dropWhile_run hname hrest, hnonempty, if_neg Bool.false_ne_true]
  unfold wordSymbol
  rw [keyword?_word h]

end HtmlTemplate.Mustache
