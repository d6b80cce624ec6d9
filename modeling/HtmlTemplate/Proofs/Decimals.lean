import HtmlTemplate.Mustache.Scan
import HtmlTemplate.Proofs.Rounding
import Mathlib.Data.List.TakeWhile

/-! Numbers as text and back. Every finite number is read back from the decimal that it
is written as. -/

namespace HtmlTemplate

section Runs

variable {p : Char → Bool} {cs rest : List Char}

/-- A run of characters of a class ends where another one follows. -/
theorem takeWhile_run (hcs : ∀ c ∈ cs, p c = true) (hrest : rest.head?.all (!p ·) = true) :
    (cs ++ rest).takeWhile p = cs := by
  rw [List.takeWhile_append_of_pos hcs]
  cases rest with
  | nil => exact List.append_nil cs
  | cons c rest =>
    have hc : p c = false := by simpa using hrest
    rw [List.takeWhile_cons_of_neg (by simp [hc]), List.append_nil]

theorem dropWhile_run (hcs : ∀ c ∈ cs, p c = true) (hrest : rest.head?.all (!p ·) = true) :
    (cs ++ rest).dropWhile p = rest := by
  rw [List.dropWhile_append_of_pos hcs]
  cases rest with
  | nil => rfl
  | cons c rest =>
    have hc : p c = false := by simpa using hrest
    rw [List.dropWhile_cons_of_neg (by simp [hc])]

end Runs

namespace Binary64

theorem tenTo_pos (n : Nat) : 0 < tenTo n := Nat.pow_pos (by decide)

theorem tenTo_add (m n : Nat) : tenTo (m + n) = tenTo m * tenTo n := Nat.pow_add 10 m n

variable {m n : Nat}

private theorem withDigits?_reads {count : Nat} (h : withDigits? m count = some n) :
    magnitudeOf n (tenTo places) = m := by
  unfold withDigits? at h
  dsimp only at h
  split at h
  · rename_i hreads
    cases h
    exact eq_of_beq (Bool.and_eq_true_iff.mp hreads).1
  · split at h
    · rename_i hreads
      cases h
      exact eq_of_beq hreads
    · cases h

private theorem near_floor (m : Nat) {ten unit : Nat} (hunit : 0 < unit) (hsmall : 2 * unit ≤ ten) :
    Near m (unitsOf m * ten / unit * unit) ten := by
  have hle := Nat.div_mul_le_self (unitsOf m * ten) unit
  have hlt := Nat.lt_div_mul_add hunit (a := unitsOf m * ten)
  exact ⟨hle, by omega⟩

private theorem two_mul_twoTo_le : 2 * twoTo 1074 ≤ tenTo places := by decide +kernel

theorem magnitudeOf_shortest (hm : m < infinite) :
    magnitudeOf (shortest m) (tenTo places) = m := by
  unfold shortest
  cases hfound : (List.range 17).findSome? fun n => withDigits? m (n + 1) with
  | none =>
    rw [Option.getD_none]
    exact magnitudeOf_eq hm (near_floor m (twoTo_pos 1074) two_mul_twoTo_le)
  | some n =>
    obtain ⟨count, -, hcount⟩ := List.exists_of_findSome?_eq_some hfound
    rw [Option.getD_some]
    exact withDigits?_reads hcount

theorem digitsValue_eq (cs : List Char) : digitsValue cs = Nat.ofDigitChars 10 cs 0 :=
  Nat.ofDigitChars_eq_foldl.symm

theorem digitsValue_append (cs ds : List Char) :
    digitsValue (cs ++ ds) = digitsValue cs * tenTo ds.length + digitsValue ds := by
  simp only [digitsValue_eq]
  rw [Nat.ofDigitChars_append, Nat.ofDigitChars_eq_ofDigitChars_zero, Nat.mul_comm]
  rfl

theorem digitsValue_replicate (n : Nat) : digitsValue (List.replicate n '0') = 0 := by
  rw [digitsValue_eq, Nat.ofDigitChars_replicate_zero, Nat.mul_zero]

theorem digitsValue_toDigits (n : Nat) : digitsValue (Nat.toDigits 10 n) = n := by
  rw [digitsValue_eq, Nat.ofDigitChars_ten_toDigits]

theorem isDigit_of_mem_toDigits {c : Char} (h : c ∈ Nat.toDigits 10 n) : c.isDigit = true :=
  Nat.isDigit_of_mem_toDigits (by decide) (by decide) h

theorem digitsValue_padded (width n : Nat) : digitsValue (padded width n) = n := by
  unfold padded
  rw [digitsValue_append, digitsValue_replicate, digitsValue_toDigits, Nat.zero_mul, Nat.zero_add]

theorem isDigit_of_mem_padded {c : Char} {width : Nat} (h : c ∈ padded width n) :
    c.isDigit = true := by
  unfold padded at h
  obtain h | h := List.mem_append.mp h
  · rw [List.eq_of_mem_replicate h]
    rfl
  · exact isDigit_of_mem_toDigits h

private theorem length_padded {width : Nat} (hwidth : 0 < width) (h : n < tenTo width) :
    (padded width n).length = width := by
  have hle : (Nat.toDigits 10 n).length ≤ width :=
    (Nat.length_toDigits_le_iff (by decide) hwidth).mpr h
  unfold padded
  rw [List.length_append, List.length_replicate, Nat.sub_add_cancel hle]

def joined (whole fraction : List Char) : List Char :=
  if fraction = [] then whole else whole ++ '.' :: fraction

structure Decimal (n : Nat) (whole fraction : List Char) : Prop where
  nonempty : whole ≠ []
  whole_digits : ∀ c ∈ whole, c.isDigit = true
  fraction_digits : ∀ c ∈ fraction, c.isDigit = true
  fits : fraction.length ≤ places
  value : digitsValue (whole ++ fraction) * tenTo (places - fraction.length) = n

private theorem decimal_whole (h : n % tenTo places = 0) :
    Decimal n (Nat.toDigits 10 (n / tenTo places)) [] where
  nonempty := Nat.toDigits_ne_nil
  whole_digits _ hc := isDigit_of_mem_toDigits hc
  fraction_digits _ hc := absurd hc List.not_mem_nil
  fits := Nat.zero_le _
  value := by
    rw [List.append_nil, digitsValue_toDigits]
    exact Nat.div_mul_cancel (Nat.dvd_of_mod_eq_zero h)

private theorem decimal_fraction (n : Nat) :
    Decimal n (Nat.toDigits 10 (n / tenTo places))
      (Text.dropEndWhile (· == '0') (padded places (n % tenTo places))) := by
  have hlength : (padded places (n % tenTo places)).length = places :=
    length_padded (by decide) (Nat.mod_lt n (tenTo_pos places))
  have hsplit := Text.dropEndWhile_append_takeEndWhile (· == '0')
    (padded places (n % tenTo places))
  have hzeros : Text.takeEndWhile (· == '0') (padded places (n % tenTo places))
      = List.replicate (Text.takeEndWhile (· == '0') (padded places (n % tenTo places))).length
        '0' := by
    refine List.eq_replicate_iff.mpr ⟨rfl, fun c hc => ?_⟩
    have hzero := List.mem_takeWhile_imp (List.mem_reverse.mp hc)
    exact eq_of_beq hzero
  have hvalue := digitsValue_padded places (n % tenTo places)
  have hdigits : ∀ c ∈ padded places (n % tenTo places), c.isDigit = true :=
    fun _ hc => isDigit_of_mem_padded hc
  generalize padded places (n % tenTo places) = digits at *
  generalize Text.dropEndWhile (· == '0') digits = kept at *
  generalize Text.takeEndWhile (· == '0') digits = zeros at *
  subst hsplit
  rw [List.length_append] at hlength
  have hrest : places - kept.length = zeros.length := by omega
  refine ⟨Nat.toDigits_ne_nil, fun _ hc => isDigit_of_mem_toDigits hc,
    fun c hc => hdigits c (List.mem_append_left _ hc), by omega, ?_⟩
  rw [digitsValue_append, hzeros, digitsValue_replicate, Nat.add_zero, List.length_replicate]
    at hvalue
  rw [digitsValue_append, digitsValue_toDigits, hrest, Nat.add_mul, Nat.mul_assoc, ← tenTo_add,
    hvalue, hlength]
  exact Nat.div_add_mod' n (tenTo places)

theorem decimalText_eq (n : Nat) :
    ∃ whole fraction, decimalText n = joined whole fraction ∧ Decimal n whole fraction := by
  unfold decimalText
  dsimp only
  split
  · rename_i hwhole
    exact ⟨_, [], rfl, decimal_whole hwhole⟩
  · rename_i hfraction
    refine ⟨_, _, ?_, decimal_fraction n⟩
    unfold joined
    rw [if_neg]
    intro hnil
    have hvalue := (decimal_fraction n).value
    rw [hnil, List.append_nil, digitsValue_toDigits] at hvalue
    exact hfraction
      (Nat.mod_eq_zero_of_dvd ⟨n / tenTo places, by rw [Nat.mul_comm]; exact hvalue.symm⟩)

def signed (negative : Bool) (digits : List Char) : List Char :=
  (if negative then ['-'] else []) ++ digits

theorem Decimal.head_ne_minus {whole fraction : List Char} (h : Decimal n whole fraction) :
    (joined whole fraction).head? ≠ some '-' := by
  obtain ⟨c, cs, rfl⟩ := List.exists_cons_of_ne_nil h.nonempty
  have hc : c.isDigit = true := h.whole_digits c List.mem_cons_self
  unfold joined
  split <;>
  · intro hhead
    cases hhead
    exact absurd hc (by decide)

theorem Decimal.digits {whole fraction : List Char} (h : Decimal n whole fraction) :
    (joined whole fraction).takeWhile Char.isDigit = whole
      ∧ ((joined whole fraction).dropWhile Char.isDigit).drop 1 = fraction := by
  unfold joined
  split
  · rename_i hnil
    have htake : (whole ++ []).takeWhile Char.isDigit = whole := takeWhile_run h.whole_digits rfl
    have hdrop : (whole ++ []).dropWhile Char.isDigit = [] := dropWhile_run h.whole_digits rfl
    rw [List.append_nil] at htake hdrop
    rw [htake, hdrop, hnil]
    exact ⟨rfl, rfl⟩
  · rw [takeWhile_run h.whole_digits rfl, dropWhile_run h.whole_digits rfl]
    exact ⟨rfl, rfl⟩

private theorem ofRatio_congr {num den num' den' : Nat} (negative : Bool)
    (h : magnitudeOf num den = magnitudeOf num' den') :
    ofRatio negative num den = ofRatio negative num' den' := by
  simp only [ofRatio, h]

private theorem ofRatio_eq {x : Binary64} {num den : Nat} (h : magnitudeOf num den = x.magnitude) :
    ofRatio x.negative num den = x := by
  obtain ⟨negative, magnitude, bounded⟩ := x
  simp only [ofRatio, h]

private theorem ofText_decimal {whole fraction : List Char} (h : Decimal n whole fraction)
    (negative : Bool) :
    ofText (signed negative (joined whole fraction)) = ofRatio negative n (tenTo places) := by
  have hsign : (signed negative (joined whole fraction)).head? = some '-' ↔ negative = true := by
    cases negative with
    | true => simp [signed]
    | false => simpa [signed] using h.head_ne_minus
  have hbody : (if (signed negative (joined whole fraction)).head? == some '-' then
        (signed negative (joined whole fraction)).drop 1
      else signed negative (joined whole fraction)) = joined whole fraction := by
    cases negative with
    | true => rfl
    | false => rw [if_neg (by simpa using hsign)]; rfl
  have hscale : tenTo places = tenTo fraction.length * tenTo (places - fraction.length) := by
    rw [← tenTo_add, Nat.add_sub_cancel' h.fits]
  unfold ofText
  dsimp only
  have hnegative : ((signed negative (joined whole fraction)).head? == some '-') = negative := by
    rw [Bool.eq_iff_iff, beq_iff_eq, hsign]
  rw [hbody, h.digits.1, h.digits.2, hnegative, ← h.value, hscale]
  exact ofRatio_congr negative (magnitudeOf_mul (tenTo_pos _)).symm

theorem text_eq {x : Binary64} (h : x.isFinite = true) :
    x.text = signed x.negative (decimalText (shortest x.magnitude)) := by
  have hlt : x.magnitude < infinite := of_decide_eq_true h
  have hnan : x.isNaN = false := decide_eq_false (Nat.lt_asymm hlt)
  unfold text signed
  rw [hnan, h, if_neg Bool.false_ne_true, if_pos rfl]

theorem text_starts {x : Binary64} (h : x.isFinite = true) :
    ∃ c cs, x.text = c :: cs ∧ (c = '-' ∨ c.isDigit = true) := by
  obtain ⟨whole, fraction, htext, hdecimal⟩ := decimalText_eq (shortest x.magnitude)
  rw [text_eq h, htext]
  cases x.negative with
  | true => exact ⟨'-', _, rfl, .inl rfl⟩
  | false =>
    obtain ⟨c, cs, rfl⟩ := List.exists_cons_of_ne_nil hdecimal.nonempty
    have hc := hdecimal.whole_digits c List.mem_cons_self
    unfold joined
    split
    · exact ⟨c, cs, rfl, .inr hc⟩
    · exact ⟨c, _, rfl, .inr hc⟩

theorem ofText_text {x : Binary64} (h : x.isFinite = true) : ofText x.text = x := by
  obtain ⟨whole, fraction, htext, hdecimal⟩ := decimalText_eq (shortest x.magnitude)
  rw [text_eq h, htext, ofText_decimal hdecimal]
  exact ofRatio_eq (magnitudeOf_shortest (of_decide_eq_true h))

end Binary64

namespace Mustache

open Binary64 (Decimal joined signed)

theorem toNat_of_isDigit {c : Char} (h : c.isDigit = true) : 48 ≤ c.toNat ∧ c.toNat ≤ 57 := by
  simp only [Char.isDigit, Bool.and_eq_true, decide_eq_true_eq, ge_iff_le,
    UInt32.le_iff_toNat_le] at h
  exact h

private theorem isDigit_of_endsLiteral {c : Char} (h : endsLiteral c = true) :
    c.isDigit = false := by
  by_contra hdigit
  obtain ⟨hlow, hhigh⟩ := toNat_of_isDigit (Bool.not_eq_false _ ▸ hdigit)
  obtain h | h := Bool.or_eq_true_iff.mp h
  · simp only [Text.isBlank, Bool.or_eq_true, Bool.and_eq_true, decide_eq_true_eq, beq_iff_eq] at h
    omega
  · have hmem : c ∈ ['~', '}', ')'] := List.contains_iff_mem.mp h
    simp only [List.mem_cons, List.not_mem_nil, or_false] at hmem
    rcases hmem with rfl | rfl | rfl
    · exact absurd hhigh (by decide)
    · exact absurd hhigh (by decide)
    · exact absurd hlow (by decide)

private theorem fraction_run {fraction rest : List Char} (h : ∀ c ∈ fraction, c.isDigit = true)
    (hrest : rest.head?.all endsLiteral = true) :
    let point := if fraction = [] then [] else '.' :: fraction
    let after := point ++ rest
    let decimals := (after.drop 1).takeWhile Char.isDigit
    after.head?.all (!Char.isDigit ·) = true
      ∧ (if after.head? == some '.' && !decimals.isEmpty then '.' :: decimals else []) = point := by
  dsimp only
  have hstop : rest.head?.all (!Char.isDigit ·) = true := by
    cases rest with
    | nil => rfl
    | cons c rest => simpa using isDigit_of_endsLiteral (c := c) (by simpa using hrest)
  split
  · rename_i hnil
    have hpoint : (rest.head? == some '.') = false := by
      cases rest with
      | nil => rfl
      | cons c rest =>
        have hc : endsLiteral c = true := by simpa using hrest
        have hne : c ≠ '.' := fun heq => absurd (heq ▸ hc) (by decide)
        simpa using hne
    refine ⟨hstop, ?_⟩
    rw [List.nil_append, hpoint, Bool.false_and, if_neg Bool.false_ne_true]
  · rename_i hne
    have hdecimals : ((('.' :: fraction) ++ rest).drop 1).takeWhile Char.isDigit = fraction :=
      takeWhile_run h hstop
    refine ⟨rfl, ?_⟩
    rw [hdecimals]
    obtain ⟨c, cs, rfl⟩ := List.exists_cons_of_ne_nil hne
    rfl

private theorem numberText?_decimal {n : Nat} {whole fraction rest : List Char}
    (h : Decimal n whole fraction) (negative : Bool)
    (hrest : rest.head?.all endsLiteral = true) :
    numberText? (signed negative (joined whole fraction) ++ rest)
      = some (signed negative (joined whole fraction)) := by
  obtain ⟨hstop, hpoint⟩ := fraction_run h.fraction_digits hrest
  have hjoined : joined whole fraction
      = whole ++ if fraction = [] then [] else '.' :: fraction := by
    unfold joined
    split
    · rw [List.append_nil]
    · rfl
  have hhead : ((joined whole fraction ++ rest).head? == some '-') = false := by
    obtain ⟨c, cs, rfl⟩ := List.exists_cons_of_ne_nil h.nonempty
    have hc := h.head_ne_minus
    rw [hjoined] at hc ⊢
    simpa using hc
  rw [hjoined] at hhead ⊢
  generalize (if fraction = [] then [] else '.' :: fraction) = point at *
  have hsign : (if (signed negative (whole ++ point) ++ rest).head? == some '-' then ['-'] else [])
      = if negative then ['-'] else [] := by
    cases negative with
    | true => rfl
    | false => exact if_neg (Bool.eq_false_iff.mp hhead)
  have hdrop : (signed negative (whole ++ point) ++ rest).drop
      (if negative then ['-'] else []).length = whole ++ (point ++ rest) := by
    cases negative with
    | true => exact List.append_assoc whole point rest
    | false => exact List.append_assoc whole point rest
  have hnonempty : whole.isEmpty = false := List.isEmpty_eq_false_iff.mpr h.nonempty
  unfold numberText?
  dsimp only
  rw [hsign, hdrop, takeWhile_run h.whole_digits hstop, dropWhile_run h.whole_digits hstop, hpoint,
    List.drop_left, hrest, hnonempty, Bool.not_false, Bool.and_self, if_pos rfl]
  rw [List.append_assoc]
  rfl

theorem numberText?_text {x : Binary64} {rest : List Char} (h : x.isFinite = true)
    (hrest : rest.head?.all endsLiteral = true) : numberText? (x.text ++ rest) = some x.text := by
  obtain ⟨whole, fraction, htext, hdecimal⟩ :=
    Binary64.decimalText_eq (Binary64.shortest x.magnitude)
  rw [Binary64.text_eq h, htext]
  exact numberText?_decimal hdecimal x.negative hrest

end Mustache
end HtmlTemplate
