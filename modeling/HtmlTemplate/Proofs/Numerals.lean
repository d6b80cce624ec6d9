import HtmlTemplate.Proofs.Modes
import Mathlib.Data.List.Basic
import Mathlib.Data.Nat.Digits.Defs

/-! Numbers in character references. They are read in 32 bits and stand for the character with
that code point; as every number that does not fit is beyond the last code point, this is the
same as reading them without a bound. A reference takes 32 characters at most, the `;` that ends
it included. -/

namespace HtmlTemplate.Html.Reference

/-- The digits of all bases up to sixteen, in both cases; each stands at its value. -/
def smallDigits : List Char := "0123456789abcdef".toList

def largeDigits : List Char := "0123456789ABCDEF".toList

/-- The value of a digit, which is sixteen for what is none. -/
def rank (c : Char) : Nat :=
  min (smallDigits.idxOf c) (largeDigits.idxOf c)

def isNumeral (base : Nat) (digits : List Char) : Bool :=
  !digits.isEmpty && digits.all (rank · < base)

/-- The number that a numeral is written for, however large it is. -/
def number (base : Nat) (digits : List Char) : Nat :=
  Nat.ofDigits base (digits.reverse.map rank)

theorem isNumeral_iff {base : Nat} {digits : List Char} :
    isNumeral base digits = true ↔ digits ≠ [] ∧ ∀ c ∈ digits, rank c < base := by
  simp [isNumeral]

theorem mem_digits_of_rank {c : Char} (h : rank c < 16) : c ∈ smallDigits ++ largeDigits := by
  have hsmall : smallDigits.length = 16 := by decide
  have hlarge : largeDigits.length = 16 := by decide
  rw [List.mem_append, ← List.idxOf_lt_length_iff, ← List.idxOf_lt_length_iff, hsmall, hlarge,
    ← min_lt_iff]
  exact h

theorem digit_of_rank {c : Char} (h : rank c < 16) :
    isHexDigit c = true ∧ digitValue c = rank c := by
  have hall : (smallDigits ++ largeDigits).all
      (fun c => isHexDigit c && digitValue c == rank c) = true := by decide
  simpa using List.all_eq_true.mp hall c (mem_digits_of_rank h)

theorem isDigit_of_rank {c : Char} (h : rank c < 10) : c.isDigit = true := by
  have hall : (smallDigits ++ largeDigits).all
      (fun c => c.isDigit || decide (10 ≤ rank c)) = true := by decide
  have hc := List.all_eq_true.mp hall c (mem_digits_of_rank (by omega))
  simpa [Nat.not_le.mpr h] using hc

private theorem number_eq_foldl (base : Nat) (digits : List Char) :
    number base digits = digits.foldl (fun n c => base * n + rank c) 0 := by
  rw [number, Nat.ofDigits_eq_foldr, List.foldr_map, List.foldr_reverse]
  simp only [Nat.cast_id, Nat.add_comm]

private theorem le_foldl {base : Nat} (hbase : 0 < base) (digits : List Char) (n : Nat) :
    n ≤ digits.foldl (fun n c => base * n + rank c) n := by
  induction digits generalizing n with
  | nil => exact Nat.le_refl n
  | cons c cs ih =>
    calc n ≤ base * n := Nat.le_mul_of_pos_left n hbase
      _ ≤ base * n + rank c := Nat.le_add_right _ _
      _ ≤ _ := ih _

private theorem foldlM_appendDigit? {base : Nat} (hbase : 0 < base) {digits : List Char}
    (hdigits : ∀ c ∈ digits, digitValue c = rank c) {n : Nat} (hn : n < wordSize) :
    digits.foldlM (appendDigit? base) n
      = if digits.foldl (fun n c => base * n + rank c) n < wordSize
        then some (digits.foldl (fun n c => base * n + rank c) n) else none := by
  induction digits generalizing n with
  | nil => exact (if_pos hn).symm
  | cons c cs ih =>
    obtain ⟨hc, hcs⟩ := List.forall_mem_cons.mp hdigits
    rw [List.foldlM_cons, List.foldl_cons, appendDigit?, hc]
    by_cases hmore : base * n + rank c < wordSize
    · rw [if_pos hmore]
      exact ih hcs hmore
    · rw [if_neg hmore, if_neg]
      · rfl
      · exact fun hlt => hmore (Nat.lt_of_le_of_lt (le_foldl hbase cs _) hlt)

private theorem valueIn?_eq {base : Nat} (hbase : 0 < base) {digits : List Char}
    (hdigits : ∀ c ∈ digits, digitValue c = rank c) :
    valueIn? base digits
      = if number base digits < wordSize then some (number base digits) else none := by
  rw [number_eq_foldl]
  exact foldlM_appendDigit? hbase hdigits (by decide)

private theorem scalar?_eq (n : Nat) :
    scalar? n = if n.isValidChar then some (Char.ofNat n) else none := by
  by_cases hn : n.isValidChar
  · rw [scalar?, dif_pos hn, if_pos hn, Char.ofNat, dif_pos hn]
  · rw [scalar?, dif_neg hn, if_neg hn]

theorem scalar?_valueIn? {base : Nat} (hbase : 0 < base) {digits : List Char}
    (hdigits : ∀ c ∈ digits, digitValue c = rank c) :
    (valueIn? base digits).bind scalar?
      = if (number base digits).isValidChar then some (Char.ofNat (number base digits))
        else none := by
  rw [valueIn?_eq hbase hdigits]
  by_cases hfits : number base digits < wordSize
  · rw [if_pos hfits, Option.bind_some, scalar?_eq]
  · have hinvalid : ¬ (number base digits).isValidChar := by
      unfold wordSize at hfits
      unfold Nat.isValidChar
      omega
    rw [if_neg hfits, if_neg hinvalid]
    rfl

theorem numeric?_decimal {digits : List Char} (h : isNumeral 10 digits = true) :
    numeric? digits
      = if (number 10 digits).isValidChar then some (Char.ofNat (number 10 digits)) else none := by
  obtain ⟨hne, hranks⟩ := isNumeral_iff.mp h
  obtain ⟨c, cs, rfl⟩ := List.exists_cons_of_ne_nil hne
  have hdigits : ∀ d ∈ c :: cs, d.isDigit = true := fun d hd => isDigit_of_rank (hranks d hd)
  have hfirst : ¬ (c = 'x' || c = 'X') = true := by
    rw [Bool.or_eq_true, decide_eq_true_eq, decide_eq_true_eq]
    rintro (rfl | rfl) <;> exact absurd (hdigits _ List.mem_cons_self) (by decide)
  rw [numeric?, if_neg hfirst, if_pos (List.all_eq_true.mpr hdigits)]
  exact scalar?_valueIn? (by decide) fun d hd =>
    (digit_of_rank (Nat.lt_trans (hranks d hd) (by decide))).2

private theorem numeric?_hexadecimal {x : Char} (hx : x = 'x' ∨ x = 'X') {digits : List Char}
    (h : isNumeral 16 digits = true) :
    numeric? (x :: digits)
      = if (number 16 digits).isValidChar then some (Char.ofNat (number 16 digits)) else none := by
  obtain ⟨hne, hranks⟩ := isNumeral_iff.mp h
  have hdigits : (!digits.isEmpty && digits.all isHexDigit) = true := by
    rw [Bool.and_eq_true, Bool.not_eq_true', List.isEmpty_eq_false_iff]
    exact ⟨hne, List.all_eq_true.mpr fun d hd => (digit_of_rank (hranks d hd)).1⟩
  rw [numeric?, if_pos (by simpa using hx), if_pos hdigits]
  exact scalar?_valueIn? (by decide) fun d hd => (digit_of_rank (hranks d hd)).2

private theorem not_semicolon {base : Nat} (hbase : base ≤ 16) {digits : List Char}
    (h : isNumeral base digits = true) : ';' ∉ digits := by
  intro hmem
  have hrank : rank ';' < base := (isNumeral_iff.mp h).2 ';' hmem
  have hnone : 16 ≤ rank ';' := by decide
  omega

private theorem body?_nil : body? [] = none := by decide

private theorem idxOf_semicolon {body cs : List Char} (hbody : ';' ∉ body)
    (h : body ++ [';'] <+: cs) :
    body.length + 1 ≤ cs.length ∧ cs.idxOf ';' = body.length := by
  obtain ⟨more, rfl⟩ := h
  refine ⟨by simp, ?_⟩
  rw [List.append_assoc, List.idxOf_append_of_notMem hbody]
  simp

/-- A number up to the length that a reference may have stands for the character with that code
point, if there is one. Whatever is decoded ends at the first `;`, which is among the first 32
characters. -/
theorem numerals_decode :
    (∀ digits rest : List Char, isNumeral 10 digits = true → digits.length ≤ 30 →
      decode? ('#' :: digits ++ ';' :: rest)
        = if (number 10 digits).isValidChar
          then some (Char.ofNat (number 10 digits), digits.length + 2) else none)
    ∧ (∀ (x : Char) (digits rest : List Char), x = 'x' ∨ x = 'X' → isNumeral 16 digits = true →
      digits.length ≤ 29 →
      decode? ('#' :: x :: digits ++ ';' :: rest)
        = if (number 16 digits).isValidChar
          then some (Char.ofNat (number 16 digits), digits.length + 3) else none)
    ∧ ∀ (cs : List Char) (c : Char) (n : Nat), decode? cs = some (c, n) →
      2 ≤ n ∧ n ≤ 32 ∧ n ≤ cs.length ∧ n = cs.idxOf ';' + 1 := by
  refine ⟨fun digits rest hdigits hlength => ?_, fun x digits rest hx hdigits hlength => ?_,
    fun cs c n h => ?_⟩
  · have hbody : body? ('#' :: digits) = numeric? digits := rfl
    rw [decode?_body, hbody, numeric?_decimal hdigits, apply_ite (Option.map _)]
    · rfl
    · simp only [List.length_cons, maxLength]
      omega
    · simpa using not_semicolon (by decide) hdigits
  · have hbody : body? ('#' :: x :: digits) = numeric? (x :: digits) := rfl
    rw [decode?_body, hbody, numeric?_hexadecimal hx hdigits, apply_ite (Option.map _)]
    · rfl
    · simp only [List.length_cons, maxLength]
      omega
    · have hne : ';' ≠ x := by
        rintro rfl
        exact absurd hx (by decide)
      simpa [hne] using not_semicolon (by decide) hdigits
  · obtain ⟨body, hbody, rfl, hlength, hsemicolon, hstarts⟩ := decode?_eq_some.mp h
    obtain ⟨hinput, hfirst⟩ := idxOf_semicolon hsemicolon hstarts
    have hne : body ≠ [] := fun heq => by simp [heq, body?_nil] at hbody
    have hpos : 0 < body.length := List.length_pos_iff.mpr hne
    exact ⟨by omega, hlength, hinput, by rw [hfirst]⟩

/-- Leading zeros up to the longest reference, a number that 32 bits would carry round to `&`, a
surrogate in hexadecimal digits, and a name. -/
theorem numerals_decode_bounds :
    (decode? "#000000000000000000000000000038;b".toList = some ('&', 32)
      ∧ decode? "#4294967334;".toList = none)
    ∧ decode? "#XdFfF;".toList = none
    ∧ decode? "amp;b;".toList = some ('&', 4)
    ∧ 2 ≤ 4 ∧ 4 ≤ 32 ∧ 4 ≤ "amp;b;".toList.length ∧ 4 = "amp;b;".toList.idxOf ';' + 1 := by
  obtain ⟨hdecimal, hhexadecimal, hall⟩ := numerals_decode
  have hamp : decode? "amp;b;".toList = some ('&', 4) := by decide
  refine ⟨⟨?_, ?_⟩, ?_, hamp, hall _ '&' 4 hamp⟩
  · exact (hdecimal "000000000000000000000000000038".toList ['b'] (by decide) (by decide)).trans
      (by decide)
  · exact (hdecimal "4294967334".toList [] (by decide) (by decide)).trans (by decide)
  · exact (hhexadecimal 'X' "dFfF".toList [] (.inr rfl) (by decide) (by decide)).trans (by decide)

end HtmlTemplate.Html.Reference
