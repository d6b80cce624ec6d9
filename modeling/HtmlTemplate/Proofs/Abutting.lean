import HtmlTemplate.Proofs.Delimits
import HtmlTemplate.Proofs.Tiling

/-! Statements that leave nothing out. In a template without backslashes each statement of a body
starts where the one before ends, and what stands from there to its end is its text if it is
text, and begins with the braces of a mustache if it is none. -/

namespace HtmlTemplate.Mustache

variable {src : Source} {lo p q : Position} {ts : List Token}

def Statement.Stands (src : Source) (s : Statement) : Prop :=
  ∃ cs, src.Covers s.loc.start cs s.loc.stop ∧ (s.text? = none → ['{', '{'] <+: cs)

def Abuts (src : Source) : Position → List Statement → Position → Prop
  | p, [], q => p = q
  | p, s :: ss, q =>
    (∃ cs, src.Covers p cs s.loc.stop ∧ s.loc.start = p ∧ (∀ text ∈ s.text?, text = cs)
      ∧ (s.text? = none → ['{', '{'] <+: cs))
      ∧ Abuts src s.loc.stop ss q

theorem Tiles.abuts {ss : List Statement} (h : Tiles src p ss q) (hplain : '\\' ∉ src.text)
    (hstands : ∀ s ∈ ss, s.Stands src) : Abuts src p ss q := by
  have hcovers {p q : Position} {cs : List Char} (hcs : src.Covers p cs q) : '\\' ∉ cs :=
    fun hmem => hplain (hcs.isInfix.subset hmem)
  induction ss generalizing p with
  | nil => exact h
  | cons s ss ih =>
    obtain ⟨hfollows, hshows, hrest⟩ := h
    obtain ⟨⟨cs, hcs, hbraces⟩, hss⟩ := List.forall_mem_cons.mp hstands
    have hstart : s.loc.start = p := by
      unfold Source.Follows at hfollows
      split at hfollows
      · exact absurd (List.mem_singleton.mpr rfl) (hcovers hfollows)
      · exact hfollows
    rw [hstart] at hcs
    refine ⟨⟨cs, hcs, hstart, fun text htext => ?_, hbraces⟩, ih hrest hss⟩
    have hslice : src.slice (src.spanFor s.loc) = cs := by
      rw [← hcs.slice_spanFor, ← hstart]
    rcases hshows text htext with hshown | ⟨hshown, -⟩
    · rw [← hshown, hslice]
    · have hmem : '\\' ∈ cs := by rw [← hslice, hshown]; simp
      exact absurd hmem (hcovers hcs)

theorem Sorted.le_of_mem {t : Token} (h : Sorted lo ts) (ht : t ∈ ts) : lo ≤ t.loc.start := by
  induction ts generalizing lo with
  | nil => cases ht
  | cons first ts ih =>
    rcases List.mem_cons.mp ht with rfl | ht
    · exact h.1
    · exact le_trans h.1 (le_trans h.2.1.1 (ih h.2.2 ht))

theorem Statement.Read.braces {t : Token} {s : Statement} {rest : List Token}
    (h : Statement.Read (t :: ts) s rest) (hwritten : t.Written src) (htext : t.text? = none) :
    ∃ cs, src.Covers t.loc.start cs t.loc.stop ∧ ['{', '{'] <+: cs := by
  obtain ⟨cs, hcovers, hcs⟩ := hwritten
  refine ⟨cs, hcovers, ?_⟩
  cases h with
  | content hsymbol =>
    rw [Token.text?_eq_some.mpr hsymbol] at htext
    cases htext
  | comment hsymbol =>
    rw [hsymbol] at hcs
    obtain ⟨inner, rfl⟩ := hcs
    exact List.prefix_append _ _
  | mustache hsymbol | decorator hsymbol | partialCall hsymbol | block _ hsymbol
  | decoratorBlock hsymbol | partialBlock hsymbol =>
    rwa [hsymbol] at hcs

theorem Statement.Read.stands {t : Token} {s : Statement} {rest : List Token}
    (h : Statement.Read (t :: ts) s rest) (hts : Sorted lo (t :: ts))
    (hwritten : AllWritten src (t :: ts)) : s.Stands src := by
  obtain ⟨hstart, htext, -, last, hsuffix, -, hstop⟩ := h.ends hts
  obtain ⟨first, hfirst, hbraces⟩ : ∃ first, src.Covers t.loc.start first t.loc.stop
      ∧ (s.text? = none → ['{', '{'] <+: first) := by
    have ht := hwritten t List.mem_cons_self
    cases hnone : t.text? with
    | none =>
      obtain ⟨cs, hcs, hbraces⟩ := h.braces ht hnone
      exact ⟨cs, hcs, fun _ => hbraces⟩
    | some text =>
      obtain ⟨cs, hcs, -⟩ := ht
      exact ⟨cs, hcs, fun heq => by simp [htext, hnone] at heq⟩
  unfold Statement.Stands
  rw [hstart, hstop]
  rcases List.suffix_cons_iff.mp hsuffix with heq | hsuffix
  · obtain rfl := (List.cons.inj heq).1
    exact ⟨first, hfirst, hbraces⟩
  · have hmem : last ∈ ts := hsuffix.subset List.mem_cons_self
    obtain ⟨cs, hcs, -⟩ := hwritten last (List.mem_cons_of_mem _ hmem)
    obtain ⟨inner, hcovers⟩ := hfirst.join hcs (hts.2.2.le_of_mem hmem)
    exact ⟨_, hcovers, fun heq => (hbraces heq).trans (List.prefix_append _ _)⟩

theorem bodyRead.stand {rest : List Token} {ss : List Statement} (h : bodyRead ts ss rest)
    (hts : Sorted lo ts) (hwritten : AllWritten src ts) : ∀ s ∈ ss, s.Stands src := by
  induction h generalizing lo with
  | nil => exact List.forall_mem_nil _
  | cons _ hs _ ih =>
    obtain ⟨mid, hleaves, -⟩ := hs.laid hts
    obtain ⟨t, ts', rfl⟩ := hs.exists_cons
    exact List.forall_mem_cons.mpr
      ⟨hs.stands hts hwritten, ih hleaves.sorted (hwritten.suffix hleaves.suffix)⟩

theorem bodyRead.abut {rest : List Token} {ss : List Statement} (h : bodyRead ts ss rest)
    (hts : Sorted lo ts) (hlinked : Linked src (some p) ts) (hwritten : AllWritten src ts)
    (hplain : '\\' ∉ src.text) : ∃ q, Abuts src p ss q := by
  obtain ⟨q, htiles, -⟩ := h.tile hts hlinked
  exact ⟨q, htiles.abuts hplain (h.stand hts hwritten)⟩

private theorem abuts_bareAll (ss : List Statement) :
    Abuts src p (bareAll ss) q ↔ Abuts src p ss q := by
  induction ss generalizing p with
  | nil => rfl
  | cons s ss ih => simp only [bareAll, Abuts, text?_bare, loc_bare, ih]

theorem abuts_of_bareAll {ss ss' : List Statement} (h : Abuts src p ss q)
    (hbare : bareAll ss' = bareAll ss) : Abuts src p ss' q := by
  rw [← abuts_bareAll, hbare, abuts_bareAll]
  exact h

/-- The body of a section is all that stands between its tags, but for the body that an
`{{else if}}` makes up, which is just its block. -/
theorem TaggedBody.abuts {p? : Option Position} {chained : Bool} {body : List Statement}
    (h : TaggedBody ts chained body) (hts : Sorted lo ts) (hlinked : Linked src p? ts)
    (hwritten : AllWritten src ts) (hplain : '\\' ∉ src.text) :
    (∃ b, body = [.block b]) ∨ ∃ p q, Abuts src p body q := by
  rcases h with ⟨-, hblock⟩ | ⟨opening, closing, before, inside, after, written, hle, rfl, hopening,
    -, hstatements, hbare⟩
  · exact .inl hblock
  · right
    have hends : opening.symbol.endsTag = true := by
      rcases hopening with hsymbol | hsymbol
      all_goals
        rw [hsymbol]
        rfl
    obtain ⟨q, habuts⟩ := (statements_read _ hstatements).abut hts.after.2
      (hlinked.suffix (List.suffix_append _ _) hends)
      (hwritten.suffix ((List.suffix_cons _ _).trans (List.suffix_append _ _))) hplain
    exact ⟨_, q, abuts_of_bareAll habuts hbare.symm⟩

end HtmlTemplate.Mustache
