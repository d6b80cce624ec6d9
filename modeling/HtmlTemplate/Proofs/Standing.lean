import HtmlTemplate.Draft
import HtmlTemplate.Proofs.Order

/-! The position after some text of a template and its offset. -/

namespace HtmlTemplate

private theorem columnOffset_append {cs : List Char} (h : '\n' ∉ cs) (rest : List Char) :
    columnOffset cs.length (cs ++ rest) = byteLength cs := by
  induction cs with
  | nil =>
    cases rest with
    | nil => rfl
    | cons c cs => rfl
  | cons c cs ih =>
    have hc : c ≠ '\n' := fun heq => h (heq ▸ List.mem_cons_self)
    have hcs : '\n' ∉ cs := fun hmem => h (List.mem_cons_of_mem c hmem)
    rw [List.length_cons, List.cons_append, columnOffset, if_neg hc, ih hcs, byteLength_cons]

private theorem lineOffset_across (cs rest : List Char) :
    lineOffset (Shift.across cs).lines (Shift.across cs).columns (cs ++ rest) = byteLength cs := by
  induction cs with
  | nil =>
    cases rest with
    | nil => rfl
    | cons c cs => rfl
  | cons c cs ih =>
    by_cases hc : c = '\n'
    · subst hc
      rw [Shift.across_cons_newline, List.cons_append, lineOffset, if_pos rfl, ih, byteLength_cons]
    · by_cases hmem : '\n' ∈ cs
      · have hlines : (Shift.across cs).lines = (Shift.across cs).lines - 1 + 1 :=
          (Nat.succ_pred_eq_of_pos (List.count_pos_iff.mpr hmem)).symm
        rw [Shift.across_cons_of_mem c hmem hc, byteLength_cons, ← ih, List.cons_append, hlines,
          lineOffset, if_neg hc]
      · have hmem' : '\n' ∉ c :: cs := by
          rw [List.mem_cons, not_or]
          exact ⟨Ne.symm hc, hmem⟩
        rw [Shift.across_of_not_mem hmem']
        show columnOffset (c :: cs).length (c :: cs ++ rest) = _
        exact columnOffset_append hmem' rest

namespace Source

variable {src : Source} {p : Position} {start : Nat} {text rest : List Char}

/-- From some position on, with a given offset, the text of a template goes on with this. -/
def Stands (src : Source) (p : Position) (start : Nat) (rest : List Char) : Prop :=
  ∃ before, src.text = before ++ rest ∧ p = Position.first.after before
    ∧ start = byteLength before

theorem stands_first (src : Source) : src.Stands .first 0 src.text :=
  ⟨[], rfl, rfl, rfl⟩

theorem Stands.offsetFor (h : src.Stands p start rest) : src.offsetFor p = start := by
  obtain ⟨before, htext, rfl, rfl⟩ := h
  rw [← Position.shift_across, Source.offsetFor, htext]
  have hcolumn :
      (Position.shift .first (.across before)).column = (Shift.across before).columns := by
    simp [Position.shift, Position.first]
  rw [hcolumn]
  have hline : (Position.shift .first (.across before)).line - 1 = (Shift.across before).lines :=
    Nat.add_sub_cancel_left 1 _
  rw [hline]
  exact lineOffset_across before rest

theorem Stands.line (h : src.Stands p start rest) : 1 ≤ p.line := by
  obtain ⟨before, -, rfl, -⟩ := h
  exact Position.one_le_line_of_le (Position.le_after .first before) (Nat.le_refl 1)

theorem Stands.after (h : src.Stands p start (text ++ rest)) :
    src.Stands (p.after text) (start + byteLength text) rest := by
  obtain ⟨before, htext, rfl, rfl⟩ := h
  refine ⟨before ++ text, ?_, (Position.after_append _ _ _).symm, (byteLength_append _ _).symm⟩
  rw [htext, List.append_assoc]

theorem Stands.next {c : Char} (h : src.Stands p start (c :: rest)) :
    src.Stands (p.next c) (start + c.utf8Size) rest := by
  have hcons : src.Stands p start ([c] ++ rest) := h
  exact hcons.after

/-- The span of a text where it stands. -/
theorem Stands.spanFor (h : src.Stands p start (text ++ rest)) :
    src.spanFor ⟨p, p.after text⟩ = Draft.span start text := by
  rw [src.spanFor_eq h.line (Position.le_after p text), h.offsetFor, h.after.offsetFor]
  rfl

end Source
end HtmlTemplate
