import HtmlTemplate.Proofs.WellFormed
import HtmlTemplate.Proofs.Standing

/-! Where the statements of a draft are: each on its own text, from the first of which to
the last the text of them all is. -/

namespace HtmlTemplate.Draft

open HtmlTemplate.Tree (Statement)

variable {n : Node} {ns : List Node} {start fallback : Nat} {st : Statement}

private theorem span_of_statementAt (h : st ∈ n.statementAt start) :
    st.span = span start n.written := by
  cases n with
  | raw => cases h
  | text => cases h; rfl
  | element => cases h; rfl
  | mustache => cases h; rfl
  | literal => cases h; rfl
  | block => cases h; rfl

theorem Node.WellFormed.statementAt (h : n.WellFormed) (start : Nat) :
    ∃ st, n.statementAt start = some st := by
  cases n with
  | raw => exact h.elim
  | _ => exact ⟨_, rfl⟩

theorem Node.WellFormed.written_ne_nil (h : n.WellFormed) : n.written ≠ [] := by
  cases n with
  | text => exact h.1
  | raw => exact h.elim
  | element => simp [Node.written, startTagText]
  | mustache trusting => cases trusting <;> simp [Node.written, openBraces, List.replicate]
  | literal => simp [Node.written, openBraces, List.replicate]
  | block => simp [Node.written, openText]

private theorem nodesText_eq_nil (h : nodesWellFormed ns) : nodesText ns = [] ↔ ns = [] := by
  cases ns with
  | nil => simp [nodesText]
  | cons n ns => simp [nodesText, h.1.written_ne_nil]

theorem nodesAt_cons (h : n.WellFormed) (start : Nat) (ns : List Node) :
    ∃ st, st.span = span start n.written
      ∧ nodesAt start (n :: ns) = st :: nodesAt (start + byteLength n.written) ns := by
  obtain ⟨st, hst⟩ := h.statementAt start
  refine ⟨st, span_of_statementAt hst, ?_⟩
  rw [nodesAt, hst]
  rfl

private theorem last_nodesAt (h : nodesWellFormed ns) (start : Nat) :
    ∀ st ∈ (nodesAt start ns).getLast?,
      start ≤ st.span.start ∧ st.span.stop = start + byteLength (nodesText ns) := by
  induction ns generalizing start with
  | nil => simp [nodesAt]
  | cons n ns ih =>
    obtain ⟨hn, -, hns⟩ := h
    obtain ⟨first, hfirst, hnodes⟩ := nodesAt_cons hn start ns
    rw [hnodes, nodesText, byteLength_append, ← Nat.add_assoc]
    intro st hst
    cases ns with
    | nil =>
      obtain rfl : first = st := Option.some.inj hst
      rw [hfirst]
      exact ⟨Nat.le_refl _, rfl⟩
    | cons n' ns =>
      obtain ⟨next, -, hnodes'⟩ := nodesAt_cons hns.1 (start + byteLength n.written) ns
      rw [hnodes', List.getLast?_cons_cons, ← hnodes'] at hst
      obtain ⟨hstart, hstop⟩ := ih hns _ st hst
      exact ⟨by omega, hstop⟩

theorem sectionOf_eq (h : nodesWellFormed ns) (start fallback : Nat) (params : List (List Char)) :
    sectionOf fallback params (nodesAt start ns)
      = ⟨nodesAt start ns, params, false,
        if nodesText ns = [] then .empty fallback else span start (nodesText ns)⟩ := by
  cases ns with
  | nil => rfl
  | cons n ns =>
    have hlast := last_nodesAt h start
    obtain ⟨first, hfirst, hnodes⟩ := nodesAt_cons h.1 start ns
    obtain ⟨last, hmem⟩ : ∃ last, (nodesAt start (n :: ns)).getLast? = some last := by
      rw [hnodes]
      exact ⟨_, List.getLast?_eq_some_getLast (List.cons_ne_nil first _)⟩
    obtain ⟨hstart, hstop⟩ := hlast last hmem
    have hmerge : first.span.merge last.span = span start (nodesText (n :: ns)) := by
      have hwithin : first.span.stop ≤ last.span.stop := by
        rw [hstop, hfirst, nodesText, byteLength_append]
        show start + byteLength n.written ≤ _
        omega
      have hbefore : first.span.start ≤ last.span.start := by
        rw [hfirst]
        exact hstart
      rw [Span.merge, Nat.min_eq_left hbefore, Nat.max_eq_right hwithin, hstop, hfirst]
      rfl
    have hne : nodesText (n :: ns) ≠ [] := fun hnil => by
      cases (nodesText_eq_nil h).mp hnil
    unfold sectionOf
    rw [if_neg hne, hmem, hnodes]
    simp only [List.head?_cons, hmerge]

end HtmlTemplate.Draft
