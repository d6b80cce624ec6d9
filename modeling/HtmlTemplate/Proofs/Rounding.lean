import HtmlTemplate.Number.Decimal
import Mathlib.Tactic.ByContra

/-! Finite numbers come back from their decimals: a ratio close enough to a number is
rounded to it, and the digits that a number is written with are such a ratio. -/

namespace HtmlTemplate

theorem twoTo_pos (n : Nat) : 0 < twoTo n := Nat.two_pow_pos n

theorem twoTo_add (m n : Nat) : twoTo (m + n) = twoTo m * twoTo n := Nat.pow_add 2 m n

theorem roundDiv_eq {n d q : Nat} (hlow : 2 * (q * d) < 2 * n + d)
    (hhigh : 2 * n < 2 * (q * d) + d) : roundDiv n d = q := by
  have hd : 0 < d := by omega
  have hdiv : n / d * d + n % d = n := Nat.div_add_mod' n d
  have hmod : n % d < d := Nat.mod_lt n hd
  unfold roundDiv
  obtain hlt | rfl | hgt := Nat.lt_trichotomy (n / d) q
  · -- The quotient is one too small, and the remainder more than a half.
    have hle : q ≤ n / d + 1 := by
      by_contra hcon
      have hmul : (n / d + 2) * d ≤ q * d := Nat.mul_le_mul_right d (by omega)
      rw [Nat.add_mul] at hmul
      omega
    obtain rfl : q = n / d + 1 := by omega
    rw [Nat.add_mul] at hlow
    have hhalf : d < 2 * (n % d) := by omega
    simp only [if_neg (Nat.lt_asymm hhalf), if_pos hhalf]
  · have hhalf : 2 * (n % d) < d := by omega
    simp only [if_pos hhalf]
  · have hmul : (q + 1) * d ≤ n / d * d := Nat.mul_le_mul_right d hgt
    rw [Nat.add_mul] at hmul
    omega

private theorem roundDiv_mul {n d k : Nat} (hk : 0 < k) :
    roundDiv (n * k) (d * k) = roundDiv n d := by
  have hlt (a b : Nat) : 2 * (a * k) < b * k ↔ 2 * a < b := by
    rw [← Nat.mul_assoc, Nat.mul_lt_mul_right hk]
  have hgt (a b : Nat) : b * k < 2 * (a * k) ↔ b < 2 * a := by
    rw [← Nat.mul_assoc, Nat.mul_lt_mul_right hk]
  unfold roundDiv
  rw [Nat.mul_div_mul_right n d hk, Nat.mul_mod_mul_right]
  simp only [hlt, hgt]

namespace Binary64

theorem magnitudeOf_mul {num den k : Nat} (hk : 0 < k) :
    magnitudeOf (num * k) (den * k) = magnitudeOf num den := by
  unfold magnitudeOf
  dsimp only
  rw [Nat.mul_right_comm num k, Nat.mul_div_mul_right _ _ hk, Nat.mul_right_comm den k,
    roundDiv_mul hk]

def Near (magnitude units den : Nat) : Prop :=
  units ≤ unitsOf magnitude * den ∧ 2 * (unitsOf magnitude * den) < 2 * units + den

variable {m units den : Nat}

theorem Near.den_pos (h : Near m units den) : 0 < den := by
  obtain ⟨hle, hnear⟩ := h
  omega

theorem Near.div_le (h : Near m units den) : units / den ≤ unitsOf m :=
  Nat.div_le_of_le_mul (Nat.mul_comm den _ ▸ h.1)

theorem Near.le_div (h : Near m units den) : unitsOf m ≤ units / den + 1 := by
  by_contra hcon
  have hlt : units < units / den * den + den := Nat.lt_div_mul_add h.den_pos
  have hmul : (units / den + 2) * den ≤ unitsOf m * den :=
    Nat.mul_le_mul_right den (by omega)
  rw [Nat.add_mul] at hmul
  have := h.2
  omega

theorem Near.roundDiv_eq (h : Near m units den) {q shift : Nat}
    (hq : unitsOf m = q * twoTo shift) : roundDiv units (den * twoTo shift) = q := by
  obtain ⟨hle, hnear⟩ := h
  have hmul : q * (den * twoTo shift) = unitsOf m * den := by
    rw [hq, Nat.mul_assoc, Nat.mul_comm den]
  have hstep : den ≤ den * twoTo shift := Nat.le_mul_of_pos_right den (twoTo_pos shift)
  apply HtmlTemplate.roundDiv_eq
  · omega
  · omega

theorem unitsOf_small (h : m < 2 * twoTo 52) : unitsOf m = m := by
  have hsplit : m / twoTo 52 * twoTo 52 + m % twoTo 52 = m := Nat.div_add_mod' m (twoTo 52)
  have hexponent : m / twoTo 52 < 2 := Nat.div_lt_of_lt_mul (Nat.mul_comm 2 _ ▸ h)
  unfold unitsOf
  dsimp only
  split
  · rename_i hzero
    rw [hzero, Nat.zero_mul, Nat.zero_add] at hsplit
    exact hsplit
  · rename_i hzero
    have hone : m / twoTo 52 = 1 :=
      Nat.le_antisymm (Nat.le_of_lt_succ hexponent) (Nat.pos_of_ne_zero hzero)
    rw [hone, Nat.one_mul] at hsplit
    rw [hone, Nat.sub_self, twoTo_zero, Nat.mul_one]
    exact hsplit

private theorem unitsOf_large {k f : Nat} (hf : f < twoTo 52) :
    unitsOf ((k + 2) * twoTo 52 + f) = (twoTo 52 + f) * twoTo (k + 1) := by
  have hexponent : ((k + 2) * twoTo 52 + f) / twoTo 52 = k + 2 := by
    rw [Nat.mul_comm, Nat.mul_add_div (twoTo_pos 52), Nat.div_eq_of_lt hf, Nat.add_zero]
  have hfraction : ((k + 2) * twoTo 52 + f) % twoTo 52 = f := by
    rw [Nat.mul_comm, Nat.mul_add_mod, Nat.mod_eq_of_lt hf]
  unfold unitsOf
  dsimp only
  rw [hexponent, hfraction, if_neg (Nat.succ_ne_zero _)]
  rfl

theorem log2_le {n k : Nat} (h : n < twoTo (k + 1)) : n.log2 ≤ k := by
  by_cases hn : n = 0
  · subst hn
    exact Nat.zero_le k
  · exact Nat.le_of_lt_succ ((Nat.log2_lt hn).mpr h)

theorem le_log2 {n k : Nat} (h : twoTo k ≤ n) : k ≤ n.log2 :=
  (Nat.le_log2 (Nat.ne_of_gt (Nat.lt_of_lt_of_le (twoTo_pos k) h))).mpr h

theorem Near.rounded_large {k f : Nat} (hf : f < twoTo 52)
    (h : Near ((k + 2) * twoTo 52 + f) units den) :
    ((units / den).log2 - 52) * twoTo 52
      + roundDiv units (den * twoTo ((units / den).log2 - 52)) = (k + 2) * twoTo 52 + f := by
  have hle := h.div_le
  have hge := h.le_div
  generalize units / den = n at hle hge
  have hunits := unitsOf_large (k := k) hf
  have hpower : twoTo (53 + k) = twoTo 52 * twoTo (k + 1) := by
    rw [← twoTo_add, Nat.add_comm k, ← Nat.add_assoc]
  rw [hunits, Nat.add_mul, ← hpower] at hle hge
  by_cases hbelow : twoTo (53 + k) ≤ n
  · have hfraction : f * twoTo (k + 1) < twoTo (53 + k) := by
      rw [hpower]
      exact Nat.mul_lt_mul_of_pos_right hf (twoTo_pos _)
    have hlow := le_log2 hbelow
    have hhigh : n.log2 ≤ 53 + k := by
      apply log2_le
      rw [twoTo_succ]
      omega
    have hshift : n.log2 - 52 = k + 1 := by omega
    rw [hshift, h.roundDiv_eq hunits, ← Nat.add_assoc, ← Nat.succ_mul]
  · have hzero : f * twoTo (k + 1) = 0 := by omega
    obtain rfl : f = 0 :=
      (Nat.mul_eq_zero.mp hzero).resolve_right (Nat.ne_of_gt (twoTo_pos (k + 1)))
    have hhalf : twoTo (53 + k) = twoTo (52 + k) * 2 := by
      rw [← twoTo_succ, Nat.add_right_comm]
    have hlow : 52 + k ≤ n.log2 := by
      apply le_log2
      have := twoTo_pos (52 + k)
      omega
    have hhigh : n.log2 ≤ 52 + k := by
      apply log2_le
      rw [twoTo_succ, ← hhalf]
      omega
    have hshift : n.log2 - 52 = k := by omega
    have hdouble : twoTo 52 * twoTo (k + 1) = twoTo 53 * twoTo k := by
      rw [← hpower, twoTo_add]
    rw [Nat.add_zero (twoTo 52), hdouble] at hunits
    rw [hshift, h.roundDiv_eq hunits, twoTo_succ 52, Nat.mul_comm (twoTo 52), ← Nat.add_mul]
    exact (Nat.add_zero _).symm

theorem Near.rounded (h : Near m units den) :
    ((units / den).log2 - 52) * twoTo 52
      + roundDiv units (den * twoTo ((units / den).log2 - 52)) = m := by
  by_cases hsmall : m < 2 * twoTo 52
  · have hunits : unitsOf m = m := unitsOf_small hsmall
    have hle : units / den ≤ m := by simpa only [hunits] using h.div_le
    have hlog : (units / den).log2 ≤ 52 := by
      apply log2_le
      rw [twoTo_succ]
      omega
    have hround : roundDiv units (den * twoTo 0) = m :=
      h.roundDiv_eq (by rw [hunits, twoTo_zero, Nat.mul_one])
    rw [Nat.sub_eq_zero_of_le hlog, hround, Nat.zero_mul, Nat.zero_add]
  · have hsplit : m / twoTo 52 * twoTo 52 + m % twoTo 52 = m := Nat.div_add_mod' m (twoTo 52)
    have hexponent : 2 ≤ m / twoTo 52 :=
      (Nat.le_div_iff_mul_le (twoTo_pos 52)).mpr (Nat.le_of_not_lt hsmall)
    obtain ⟨k, hk⟩ := Nat.exists_eq_add_of_le' hexponent
    rw [hk] at hsplit
    rw [← hsplit] at h ⊢
    exact h.rounded_large (Nat.mod_lt _ (twoTo_pos 52))

theorem magnitudeOf_eq {num : Nat} (hm : m < infinite) (h : Near m (num * twoTo 1074) den) :
    magnitudeOf num den = m := by
  unfold magnitudeOf
  dsimp only
  rw [h.rounded]
  exact Nat.min_eq_left (Nat.le_of_lt hm)

end Binary64
end HtmlTemplate
