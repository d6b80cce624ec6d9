import HtmlTemplate.Proofs.Standing
import Mathlib.Data.Set.Function
import Mathlib.Order.Bounds.Defs

/-! The two coordinate systems of a text. The positions that some line has and the offsets between
two characters are in one-to-one correspondence; every other position and every offset inside a
character is taken for one of them. -/

namespace HtmlTemplate

namespace Source

/-- The lines of a text, without the line breaks between them. -/
def lines (src : Source) : List (List Char) :=
  src.text.splitOn '\n'

/-- A position that is in one of the lines or at its end. -/
structure Valid (src : Source) (p : Position) : Prop where
  one_le_line : 1 ≤ p.line
  line_le : p.line ≤ src.lines.length
  column_le : ∀ line ∈ src.lines[p.line - 1]?, p.column ≤ line.length

/-- An offset between two characters, or at one of the ends. -/
def IsBoundary (src : Source) (o : Nat) : Prop :=
  ∃ before, before <+: src.text ∧ byteLength before = o

end Source

namespace Position

attribute [ext] Position

def Among (s p : Position) : List (List Char) → Prop
  | [] => False
  | line :: lines =>
    (p.line = s.line ∧ s.column ≤ p.column ∧ p.column ≤ s.column + line.length)
      ∨ Among ⟨s.line + 1, 0⟩ p lines

theorem among_iff {p : Position} {n : Nat} {lines : List (List Char)} :
    Among ⟨n, 0⟩ p lines ↔
      n ≤ p.line ∧ ∃ line, lines[p.line - n]? = some line ∧ p.column ≤ line.length := by
  induction lines generalizing n with
  | nil => simp [Among]
  | cons line lines ih =>
    rw [Among, ih]
    rcases Nat.lt_trichotomy n p.line with h | h | h
    · have hsub : p.line - n = p.line - (n + 1) + 1 := by omega
      have hne : p.line ≠ n := Nat.ne_of_gt h
      simp [hsub, hne, Nat.le_of_lt h, Nat.succ_le_of_lt h]
    · simp [← h]
    · have hne : p.line ≠ n := Nat.ne_of_lt h
      simp [hne, Nat.not_le_of_lt h, Nat.not_le_of_lt (Nat.lt_succ_of_lt h)]

theorem exists_after_iff {s p : Position} {cs : List Char} :
    (∃ before, before <+: cs ∧ p = s.after before) ↔ s.Among p (cs.splitOn '\n') := by
  induction cs generalizing s with
  | nil =>
    simp only [List.prefix_nil, exists_eq_left, after_nil, List.splitOn_nil, Among, or_false,
      List.length_nil, Nat.add_zero]
    constructor
    · rintro rfl
      exact ⟨rfl, Nat.le_refl _, Nat.le_refl _⟩
    · rintro ⟨hline, hle, hge⟩
      exact Position.ext hline (Nat.le_antisymm hge hle)
  | cons c cs ih =>
    have hcons : (∃ before, before <+: c :: cs ∧ p = s.after before) ↔
        p = s ∨ (s.next c).Among p (cs.splitOn '\n') := by
      rw [← ih]
      constructor
      · rintro ⟨before, hbefore, rfl⟩
        rcases List.prefix_cons_iff.mp hbefore with rfl | ⟨before, heq, hbefore⟩
        · exact .inl rfl
        · exact .inr ⟨before, hbefore, by rw [heq, after_cons]⟩
      · rintro (rfl | ⟨before, hbefore, rfl⟩)
        · exact ⟨[], List.nil_prefix, rfl⟩
        · exact ⟨c :: before, List.cons_prefix_cons.mpr ⟨rfl, hbefore⟩, rfl⟩
    rw [hcons, List.splitOn_cons_eq_if_modifyHead]
    obtain ⟨line, lines, hlines⟩ := List.exists_cons_of_ne_nil (List.splitOn_ne_nil '\n' cs)
    by_cases hc : c = '\n'
    · subst hc
      simp only [next, ↓reduceIte, BEq.rfl, Among, List.length_nil, Nat.add_zero]
      refine or_congr_left ⟨?_, ?_⟩
      · rintro rfl
        exact ⟨rfl, Nat.le_refl _, Nat.le_refl _⟩
      · rintro ⟨hline, hle, hge⟩
        exact Position.ext hline (Nat.le_antisymm hge hle)
    · have hbeq : (c == '\n') = false := beq_eq_false_iff_ne.mpr hc
      simp only [next, hc, ↓reduceIte, hbeq, Bool.false_eq_true, hlines, List.modifyHead_cons,
        Among, List.length_cons, ← or_assoc]
      refine or_congr_left ⟨?_, ?_⟩
      · rintro (rfl | ⟨hline, hle, hge⟩)
        · exact ⟨rfl, Nat.le_refl _, Nat.le_add_right _ _⟩
        · exact ⟨hline, Nat.le_of_succ_le hle, by omega⟩
      · rintro ⟨hline, hle, hge⟩
        rcases Nat.eq_or_lt_of_le hle with heq | hlt
        · exact .inl (Position.ext hline heq.symm)
        · exact .inr ⟨hline, hlt, by omega⟩

end Position

namespace Source

variable {src : Source} {p q : Position} {o : Nat}

theorem valid_iff :
    src.Valid p ↔ ∃ before, before <+: src.text ∧ p = Position.first.after before := by
  rw [Position.exists_after_iff, Position.first, Position.among_iff]
  constructor
  · intro h
    have hlt : p.line - 1 < src.lines.length := by
      have hone := h.one_le_line
      have hle := h.line_le
      omega
    exact ⟨h.one_le_line, _, List.getElem?_eq_getElem hlt,
      h.column_le _ (List.getElem?_eq_getElem hlt)⟩
  · rintro ⟨hone, line, hline, hcolumn⟩
    obtain ⟨hlt, -⟩ := List.getElem?_eq_some_iff.mp hline
    refine ⟨hone, by unfold lines; omega, fun l hl => ?_⟩
    obtain rfl : l = line := Option.some.inj (hl.symm.trans hline)
    exact hcolumn

private theorem exists_stands {before : List Char} (h : before <+: src.text) :
    ∃ rest, src.Stands (.after .first before) (byteLength before) rest := by
  obtain ⟨rest, hrest⟩ := h
  exact ⟨rest, before, hrest.symm, rfl, rfl⟩

theorem offsetFor_after {before : List Char} (h : before <+: src.text) :
    src.offsetFor (.after .first before) = byteLength before :=
  (exists_stands h).elim fun _ hstands => hstands.offsetFor

end Source

theorem byteLength_mono {cs ds : List Char} (h : cs <+: ds) :
    byteLength cs ≤ byteLength ds := by
  obtain ⟨es, rfl⟩ := h
  rw [byteLength_append]
  exact Nat.le_add_right _ _

theorem positionFrom_eq_after (p : Position) (n : Nat) (cs : List Char) :
    ∃ before, before <+: cs ∧ positionFrom p n cs = p.after before
      ∧ (n ≤ byteLength cs → n ≤ byteLength before)
      ∧ ∀ shorter, shorter <+: cs → n ≤ byteLength shorter → before <+: shorter := by
  induction cs generalizing p n with
  | nil => exact ⟨[], List.nil_prefix, rfl, id, fun _ _ _ => List.nil_prefix⟩
  | cons c cs ih =>
    rw [positionFrom]
    split
    · rename_i hn
      exact ⟨[], List.nil_prefix, rfl, fun _ => hn ▸ Nat.zero_le _, fun _ _ _ => List.nil_prefix⟩
    · rename_i hn
      obtain ⟨before, hbefore, hposition, hle, hleast⟩ := ih (p.next c) (n - c.utf8Size)
      refine ⟨c :: before, List.cons_prefix_cons.mpr ⟨rfl, hbefore⟩, hposition, fun h => ?_,
        fun shorter hshorter h => ?_⟩
      · rw [byteLength_cons] at h ⊢
        have hrest := hle (by omega)
        omega
      · rcases List.prefix_cons_iff.mp hshorter with rfl | ⟨shorter, rfl, htail⟩
        · exact absurd (Nat.le_zero.mp h) hn
        · rw [byteLength_cons] at h
          exact List.cons_prefix_cons.mpr ⟨rfl, hleast shorter htail (by omega)⟩

theorem byteLength_pos {cs : List Char} (h : cs ≠ []) : 0 < byteLength cs := by
  obtain ⟨c, cs, rfl⟩ := List.exists_cons_of_ne_nil h
  exact Nat.add_pos_left c.utf8Size_pos _

/-- Of two starts of one text, the one with fewer bytes is a start of the other. -/
theorem prefix_of_byteLength_le {cs ds text : List Char} (hcs : cs <+: text) (hds : ds <+: text)
    (h : byteLength cs ≤ byteLength ds) : cs <+: ds := by
  rcases List.prefix_or_prefix_of_prefix hcs hds with hprefix | ⟨es, rfl⟩
  · exact hprefix
  · rw [byteLength_append] at h
    have hes : es = [] := by
      by_contra hne
      have hpos := byteLength_pos hne
      omega
    simp [hes]

private theorem exists_columnOffset (column : Nat) (cs : List Char) :
    ∃ before, before <+: cs ∧ byteLength before = columnOffset column cs := by
  induction cs generalizing column with
  | nil => exact ⟨[], List.nil_prefix, by rw [columnOffset, byteLength_nil]⟩
  | cons c cs ih =>
    rcases column with _ | column
    · exact ⟨[], List.nil_prefix, rfl⟩
    · rw [columnOffset]
      split
      · exact ⟨[], List.nil_prefix, rfl⟩
      · obtain ⟨before, hbefore, hlength⟩ := ih column
        exact ⟨c :: before, List.cons_prefix_cons.mpr ⟨rfl, hbefore⟩,
          by rw [byteLength_cons, hlength]⟩

private theorem exists_lineOffset (lines column : Nat) (cs : List Char) :
    ∃ before, before <+: cs ∧ byteLength before = lineOffset lines column cs := by
  induction cs generalizing lines with
  | nil => exact ⟨[], List.nil_prefix, rfl⟩
  | cons c cs ih =>
    rcases lines with _ | lines
    · exact exists_columnOffset column (c :: cs)
    · rw [lineOffset]
      obtain ⟨before, hbefore, hlength⟩ := ih (if c = '\n' then lines else lines + 1)
      exact ⟨c :: before, List.cons_prefix_cons.mpr ⟨rfl, hbefore⟩,
        by rw [byteLength_cons, hlength]⟩

namespace Source

variable {src : Source} {p q : Position} {o : Nat}

/-- The offset of any position at all is between two characters. -/
theorem isBoundary_offsetFor (src : Source) (p : Position) : src.IsBoundary (src.offsetFor p) :=
  exists_lineOffset _ _ _

theorem positionFor_byteLength {before : List Char} (h : before <+: src.text) :
    src.positionFor (byteLength before) = Position.first.after before := by
  obtain ⟨shortest, hshortest, hposition, hle, hleast⟩ :=
    positionFrom_eq_after .first (byteLength before) src.text
  have hprefix : before <+: shortest :=
    prefix_of_byteLength_le h hshortest (hle (byteLength_mono h))
  rw [positionFor, hposition,
    (hleast before h (Nat.le_refl _)).eq_of_length_le hprefix.length_le]

theorem positionFor_offsetFor (h : src.Valid p) : src.positionFor (src.offsetFor p) = p := by
  obtain ⟨before, hbefore, rfl⟩ := valid_iff.mp h
  rw [offsetFor_after hbefore, positionFor_byteLength hbefore]

private theorem offsetFor_positionFor (h : src.IsBoundary o) :
    src.offsetFor (src.positionFor o) = o := by
  obtain ⟨before, hbefore, rfl⟩ := h
  rw [positionFor_byteLength hbefore, offsetFor_after hbefore]

theorem valid_positionFor (src : Source) (o : Nat) : src.Valid (src.positionFor o) := by
  obtain ⟨before, hbefore, hposition, -⟩ := positionFrom_eq_after .first o src.text
  exact valid_iff.mpr ⟨before, hbefore, hposition⟩

private theorem isLeast_offsetFor_positionFor (h : o ≤ src.size) :
    IsLeast {b | src.IsBoundary b ∧ o ≤ b} (src.offsetFor (src.positionFor o)) := by
  obtain ⟨before, hbefore, hposition, hle, hleast⟩ := positionFrom_eq_after .first o src.text
  rw [positionFor, hposition, offsetFor_after hbefore]
  refine ⟨⟨⟨before, hbefore, rfl⟩, hle h⟩, ?_⟩
  rintro b ⟨⟨longer, hlonger, rfl⟩, hb⟩
  exact byteLength_mono (hleast longer hlonger hb)

private theorem offsetFor_lt_offsetFor (hp : src.Valid p) (hq : src.Valid q) (h : p < q) :
    src.offsetFor p < src.offsetFor q := by
  obtain ⟨before, hbefore, rfl⟩ := valid_iff.mp hp
  obtain ⟨longer, hlonger, rfl⟩ := valid_iff.mp hq
  rw [offsetFor_after hbefore, offsetFor_after hlonger]
  by_contra hle
  have hprefix := prefix_of_byteLength_le hlonger hbefore (Nat.le_of_not_lt hle)
  exact h.not_ge (Position.after_le_after .first hprefix)

theorem bijOn_offsetFor (src : Source) :
    Set.BijOn src.offsetFor { p | src.Valid p } { o | src.IsBoundary o }
      ∧ Set.InvOn src.positionFor src.offsetFor { p | src.Valid p } { o | src.IsBoundary o } := by
  have hinverse : Set.InvOn src.positionFor src.offsetFor { p | src.Valid p }
      { o | src.IsBoundary o } :=
    ⟨fun _ => positionFor_offsetFor, fun _ => offsetFor_positionFor⟩
  exact ⟨hinverse.bijOn (fun p _ => src.isBoundary_offsetFor p)
    fun o _ => src.valid_positionFor o, hinverse⟩

/-- Positions and offsets of a text: the valid positions and the offsets between characters
correspond to each other in order, positions off the lines keep to the order and have such offsets
too, and an offset inside a character is taken for the next such offset. -/
theorem coordinates (src : Source) :
    Set.BijOn src.offsetFor { p | src.Valid p } { o | src.IsBoundary o }
      ∧ StrictMonoOn src.offsetFor { p | src.Valid p }
      ∧ Set.InvOn src.positionFor src.offsetFor { p | src.Valid p } { o | src.IsBoundary o }
      ∧ (∀ p q : Position, 1 ≤ p.line → p ≤ q → src.offsetFor p ≤ src.offsetFor q)
      ∧ (∀ p : Position, 1 ≤ p.line → src.IsBoundary (src.offsetFor p))
      ∧ ∀ o ≤ src.size,
          IsLeast { b | src.IsBoundary b ∧ o ≤ b } (src.offsetFor (src.positionFor o)) :=
  ⟨src.bijOn_offsetFor.1, fun _ hp _ hq => offsetFor_lt_offsetFor hp hq, src.bijOn_offsetFor.2,
    fun _ _ => src.offsetFor_mono, fun p _ => src.isBoundary_offsetFor p,
    fun _ => isLeast_offsetFor_positionFor⟩

/-- The second byte of a character of two bytes. -/
theorem coordinates_wideCharacter :
    (⟨['é', '\n', 'b'], none⟩ : Source).positionFor 1 = ⟨1, 1⟩
      ∧ IsLeast { b | (⟨['é', '\n', 'b'], none⟩ : Source).IsBoundary b ∧ 1 ≤ b } 2 :=
  ⟨by decide, (coordinates ⟨['é', '\n', 'b'], none⟩).2.2.2.2.2 1 (by decide)⟩

end Source

end HtmlTemplate
