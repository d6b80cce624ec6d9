import HtmlTemplate.Source.Shift
import HtmlTemplate.Source.Text
import Mathlib.Data.List.TakeWhile
import Mathlib.Order.Defs.PartialOrder

/-! Positions in the order in which they are read, and what the byte offsets of a text
make of it. -/

namespace HtmlTemplate

namespace Position

instance : Preorder Position where
  le p q := p.line < q.line ∨ p.line = q.line ∧ p.column ≤ q.column
  le_refl p := .inr ⟨rfl, Nat.le_refl _⟩
  le_trans p q r := by
    rintro (h | ⟨h, h'⟩) (k | ⟨k, k'⟩) <;> omega

theorem le_iff {p q : Position} :
    p ≤ q ↔ p.line < q.line ∨ p.line = q.line ∧ p.column ≤ q.column := Iff.rfl

theorem le_next (p : Position) (c : Char) : p ≤ p.next c := by
  unfold next
  split
  · exact .inl (Nat.lt_succ_self _)
  · exact .inr ⟨rfl, Nat.le_succ _⟩

theorem le_after (p : Position) (cs : List Char) : p ≤ p.after cs := by
  induction cs generalizing p with
  | nil => exact le_refl p
  | cons c cs ih => exact le_trans (le_next p c) (ih _)

theorem after_le_after (p : Position) {cs ds : List Char} (h : cs <+: ds) :
    p.after cs ≤ p.after ds := by
  obtain ⟨es, rfl⟩ := h
  rw [after_append]
  exact le_after _ _

theorem one_le_line_of_le {p q : Position} (h : p ≤ q) (hp : 1 ≤ p.line) : 1 ≤ q.line := by
  rcases le_iff.mp h with h | ⟨h, _⟩ <;> omega

end Position

private theorem columnOffset_mono {c d : Nat} (h : c ≤ d) (cs : List Char) :
    columnOffset c cs ≤ columnOffset d cs := by
  induction cs generalizing c d with
  | nil => simp [columnOffset]
  | cons x cs ih =>
    cases c with
    | zero => exact Nat.zero_le _
    | succ c =>
      obtain ⟨d, rfl⟩ :=
        Nat.exists_eq_succ_of_ne_zero (Nat.ne_of_gt (Nat.lt_of_lt_of_le c.succ_pos h))
      simp only [columnOffset]
      split
      · exact Nat.le_refl _
      · exact Nat.add_le_add_left (ih (Nat.le_of_succ_le_succ h)) _

private theorem columnOffset_le_lineOffset_succ (c l d : Nat) (cs : List Char) :
    columnOffset c cs ≤ lineOffset (l + 1) d cs := by
  induction cs generalizing c with
  | nil => simp [columnOffset]
  | cons x cs ih =>
    cases c with
    | zero => exact Nat.zero_le _
    | succ c =>
      simp only [columnOffset, lineOffset]
      split
      · exact Nat.zero_le _
      · exact Nat.add_le_add_left (ih c) _

private theorem lineOffset_mono {l m c d : Nat} (h : l < m ∨ l = m ∧ c ≤ d) (cs : List Char) :
    lineOffset l c cs ≤ lineOffset m d cs := by
  induction cs generalizing l m with
  | nil => exact Nat.le_refl _
  | cons x cs ih =>
    rcases l with _ | l <;> rcases m with _ | m
    · obtain h | ⟨_, h⟩ := h
      · exact absurd h (Nat.lt_irrefl 0)
      · exact columnOffset_mono h _
    · exact columnOffset_le_lineOffset_succ c m d (x :: cs)
    · omega
    · simp only [lineOffset]
      refine Nat.add_le_add_left (ih ?_) _
      split <;> omega

private theorem lineOffset_le_byteLength (l c : Nat) (cs : List Char) :
    lineOffset l c cs ≤ byteLength cs := by
  have hcolumn (c : Nat) (cs : List Char) : columnOffset c cs ≤ byteLength cs := by
    induction cs generalizing c with
    | nil => simp [columnOffset]
    | cons x cs ih =>
      cases c with
      | zero => exact Nat.zero_le _
      | succ c =>
        simp only [columnOffset, byteLength_cons]
        split
        · exact Nat.zero_le _
        · exact Nat.add_le_add_left (ih c) _
  induction cs generalizing l with
  | nil => exact Nat.le_refl _
  | cons x cs ih =>
    cases l with
    | zero => exact hcolumn c (x :: cs)
    | succ l =>
      simp only [lineOffset, byteLength_cons]
      exact Nat.add_le_add_left (ih _) _

namespace Source

theorem offsetFor_mono (src : Source) {p q : Position} (hp : 1 ≤ p.line) (h : p ≤ q) :
    src.offsetFor p ≤ src.offsetFor q := by
  refine lineOffset_mono ?_ _
  rcases Position.le_iff.mp h with h | ⟨h, h'⟩
  · left
    omega
  · right
    exact ⟨by rw [h], h'⟩

theorem offsetFor_le_size (src : Source) (p : Position) : src.offsetFor p ≤ src.size :=
  lineOffset_le_byteLength _ _ _

/-- The span of a location whose ends are in order runs between their offsets. -/
theorem spanFor_eq (src : Source) {l : Location} (hl : 1 ≤ l.start.line) (h : l.start ≤ l.stop) :
    src.spanFor l = ⟨src.offsetFor l.start, src.offsetFor l.stop⟩ := by
  simp only [spanFor, Nat.max_eq_left (src.offsetFor_mono hl h)]

end Source

namespace Shift

theorem across_cons_newline (cs : List Char) :
    across ('\n' :: cs) = ⟨(across cs).lines + 1, (across cs).columns⟩ := by
  have hreverse : Text.takeEndWhile (· != '\n') ('\n' :: cs) =
      Text.takeEndWhile (· != '\n') cs := by
    simp only [Text.takeEndWhile, List.reverse_cons, List.takeWhile_append]
    split
    · rename_i hlength
      simp [(List.takeWhile_prefix _).eq_of_length hlength]
    · rfl
  simp [across, hreverse]

theorem across_cons_of_mem (c : Char) {cs : List Char} (h : '\n' ∈ cs) (hc : c ≠ '\n') :
    across (c :: cs) = across cs := by
  have hlt : (cs.reverse.takeWhile (· != '\n')).length < cs.reverse.length := by
    refine Nat.lt_of_le_of_ne (List.takeWhile_prefix _).length_le fun heq => ?_
    have hself := (List.takeWhile_prefix (l := cs.reverse) (· != '\n')).eq_of_length heq
    simpa using List.takeWhile_eq_self_iff.mp hself '\n' (List.mem_reverse.mpr h)
  have hreverse : Text.takeEndWhile (· != '\n') (c :: cs) =
      Text.takeEndWhile (· != '\n') cs := by
    simp only [Text.takeEndWhile, List.reverse_cons, List.takeWhile_append]
    rw [if_neg (Nat.ne_of_lt hlt)]
  simp [across, hreverse, hc]

theorem across_of_not_mem {cs : List Char} (h : '\n' ∉ cs) : across cs = ⟨0, cs.length⟩ := by
  have htake : cs.reverse.takeWhile (· != '\n') = cs.reverse := by
    rw [List.takeWhile_eq_self_iff]
    intro c hc
    simp only [bne_iff_ne]
    rintro rfl
    exact h (List.mem_reverse.mp hc)
  simp [across, List.count_eq_zero_of_not_mem h, Text.takeEndWhile, htake]

end Shift

namespace Position

theorem shift_across (p : Position) (cs : List Char) : p.shift (.across cs) = p.after cs := by
  induction cs generalizing p with
  | nil => simp [shift, Shift.across, Text.takeEndWhile]
  | cons c cs ih =>
    rw [after_cons, ← ih]
    by_cases hc : c = '\n'
    · subst hc
      rw [Shift.across_cons_newline]
      simp only [shift, next, ↓reduceIte]
      by_cases hlines : 0 < (Shift.across cs).lines
      · simp [hlines, Nat.add_comm, Nat.add_assoc]
      · simp [Nat.eq_zero_of_not_pos hlines]
    · by_cases hmem : '\n' ∈ cs
      · rw [Shift.across_cons_of_mem c hmem hc]
        have hlines : 0 < (Shift.across cs).lines := List.count_pos_iff.mpr hmem
        simp [shift, next, hc, hlines]
      · have hmem' : '\n' ∉ c :: cs := by simp [hmem, Ne.symm hc]
        rw [Shift.across_of_not_mem hmem, Shift.across_of_not_mem hmem']
        simp [shift, next, hc, Nat.add_comm, Nat.add_left_comm]

end Position

namespace Shift

theorem before?_eq_some {part cs pre : List Char} (h : before? part cs = some pre) :
    pre ++ part <+: cs := by
  induction cs generalizing pre with
  | nil =>
    simp only [before?] at h
    split at h
    · rename_i hpart
      cases h
      simp [List.isEmpty_iff.mp hpart]
    · cases h
  | cons c cs ih =>
    simp only [before?] at h
    split at h
    · rename_i hprefix
      cases h
      simpa using hprefix
    · cases hbefore : before? part cs with
      | none => simp [hbefore] at h
      | some pre' =>
        rw [hbefore] at h
        cases h
        exact List.cons_prefix_cons.mpr ⟨rfl, ih hbefore⟩

theorem before?_isSome {part cs : List Char} (h : part <:+: cs) :
    (before? part cs).isSome = true := by
  induction cs with
  | nil => simp [before?, List.infix_nil.mp h]
  | cons c cs ih =>
    simp only [before?]
    split
    · rfl
    · rename_i hprefix
      rcases List.infix_cons_iff.mp h with h | h
      · exact absurd (List.isPrefixOf_iff_prefix.mpr h) hprefix
      · simpa using ih h

theorem before?_le {part cs pre before : List Char} (h : before? part cs = some pre)
    (hbefore : before ++ part <+: cs) : pre <+: before := by
  induction cs generalizing pre before with
  | nil =>
    obtain ⟨rfl, rfl⟩ := List.append_eq_nil_iff.mp (List.prefix_nil.mp hbefore)
    cases h
    exact List.prefix_refl _
  | cons c cs ih =>
    simp only [before?] at h
    split at h
    · cases h
      exact List.nil_prefix
    · rename_i hne
      obtain ⟨pre', hpre', rfl⟩ := Option.map_eq_some_iff.mp h
      cases before with
      | nil => exact absurd (List.isPrefixOf_iff_prefix.mpr hbefore) hne
      | cons b before =>
        obtain ⟨rfl, hrest⟩ := List.cons_prefix_cons.mp hbefore
        exact List.cons_prefix_cons.mpr ⟨rfl, ih hpre' hrest⟩

end Shift

namespace Position

theorem le_shift (p : Position) (s : Shift) : p ≤ p.shift s := by
  rw [le_iff]
  simp only [shift]
  split <;> omega

private theorem line_after (p : Position) (cs : List Char) :
    (p.after cs).line = p.line + cs.count '\n' := by
  rw [← shift_across]
  rfl

theorem shift_ofTrimmed_after_le (p : Position) {written value : List Char}
    (h : value <:+: written) :
    (p.shift (.ofTrimmed written value)).after value ≤ p.after written := by
  unfold Shift.ofTrimmed
  split
  · rename_i hvalue
    rw [List.isEmpty_iff.mp hvalue, after_nil, le_iff, line_after]
    refine .inr ⟨rfl, ?_⟩
    by_cases hcount : 0 < written.count '\n'
    · simp [shift, hcount]
    · have hmem : '\n' ∉ written := by simpa [List.count_pos_iff] using hcount
      rw [← shift_across, Shift.across_of_not_mem hmem]
      simp [shift, Nat.eq_zero_of_not_pos hcount]
  · obtain ⟨first, hfirst⟩ := Option.isSome_iff_exists.mp (Shift.before?_isSome h)
    rw [hfirst, Option.getD_some, shift_across, ← after_append]
    exact after_le_after p (Shift.before?_eq_some hfirst)

end Position

end HtmlTemplate
