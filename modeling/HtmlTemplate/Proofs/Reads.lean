import HtmlTemplate.Proofs.Paths

/-! Reading back the expressions of a draft. -/

namespace HtmlTemplate.Draft

open Mustache
open Text (isBlank)

variable {src : Source} {raw : Bool} {p : Position} {start : Nat} {text rest : List Char}

/-- A text is read as an expression of the mustaches, which has a tree. -/
structure Reads (src : Source) (raw : Bool) (p : Position) (text rest : List Char)
    (ts : List Token) (e : Mustache.Expression) (tree : Tree.Expression) : Prop where
  scans : Scans (.tag raw) p text ts (.tag raw) rest
  starts : ∃ c cs, text = c :: cs ∧ isBlank c = false
  gives : ∀ next, Unjoined next → Gives (expression (ts ++ next)) e next
  isParam : ∀ next, Unjoined next → endsParams (ts ++ next) = false
  unjoined : ∀ next, Unjoined (ts ++ next)
  tree : Tree.expression src e = .ok tree
  loc : e.loc = ⟨p, p.after text⟩

theorem unjoined_cons {t : Token} {ts : List Token} (hequals : t.symbol ≠ .equals)
    (hseparator : ∀ slash, t.symbol ≠ .separator slash) : Unjoined (t :: ts) := by
  intro t' ht'
  cases ht'
  exact ⟨hequals, hseparator⟩

theorem Reads.blank {ts : List Token} {e : Mustache.Expression} {tree : Tree.Expression}
    (h : Reads src raw (p.next ' ') text rest ts e tree) :
    Scans (.tag raw) p (' ' :: text) ts (.tag raw) rest := by
  obtain ⟨c, cs, rfl, hblank⟩ := h.starts
  exact h.scans.blank hblank

private theorem word_reads {first written : List Char} {more : List (List Char)}
    (hfirst : isWord first = true) (hmore : ∀ s ∈ more, isSegment s = true)
    (hsplit : splitDots written = first :: more) (hwritten : written = first ++ dotted more)
    (hrest : rest.head?.all endsLiteral = true) (hstands : src.Stands p start (written ++ rest)) :
    ∃ ts, Reads src raw p written rest ts
      (.path ⟨false, 0, headParts first ++ more, written, ⟨p, p.after written⟩⟩)
      (.path (pathAt start written)) := by
  have hstop := head?_not_isNameChar hrest
  obtain ⟨ts, hscans, hpair, hsegments⟩ := scans_dotted hmore hstop (p.after first)
  have hword : Scans (.tag raw) p first _ (.tag raw) (dotted more ++ rest) :=
    scans_word hfirst (head?_dotted hstop)
  refine ⟨tokenAt p first (.name first false) :: ts, ?_, ?_, ?_, ?_, ?_, ?_, rfl⟩
  · rw [hwritten]
    exact hword.append hscans
  · obtain ⟨c, cs, hcs, hc, -, -⟩ := chars_of_isWord hfirst
    refine ⟨c, cs ++ dotted more, by rw [hwritten, hcs]; rfl, ?_⟩
    exact isBlank_of_startsWord (startsWord_of_isAlpha hc)
  · intro next hnext
    obtain ⟨hlength, hgives⟩ := hsegments
      ⟨false, 0, headParts first, first, ⟨p, p.after first⟩⟩ next hnext rfl
    rw [← Position.after_append, ← hwritten] at hgives
    rw [List.cons_append]
    refine expression_gives_iff.mpr (.name (h := hlength) rfl ?_)
    unfold namePath
    simp only [tokenAt, extend_word hfirst, bind, Except.bind]
    rw [hgives]
    rfl
  · intro next hnext
    exact hpair _ next hnext
  · intro next
    exact unjoined_cons (by simp [tokenAt]) (by simp [tokenAt])
  · have hresolve := resolve_word hfirst hmore hsplit hwritten hstands.spanFor
    rw [Tree.expression, hresolve]
    rfl

private theorem argument_reads {name written : List Char} {more : List (List Char)}
    (hname : isSegment name = true) (hmore : ∀ s ∈ more, isSegment s = true)
    (hsplit : splitDots written = ('@' :: name) :: more)
    (hwritten : written = '@' :: name ++ dotted more) (hrest : rest.head?.all endsLiteral = true)
    (hstands : src.Stands p start (written ++ rest)) :
    ∃ ts, Reads src raw p written rest ts
      (.path ⟨true, 0, name :: more, written, ⟨p, p.after written⟩⟩)
      (.path (pathAt start written)) := by
  have hstop := head?_not_isNameChar hrest
  obtain ⟨ts, hscans, -, hsegments⟩ :=
    scans_dotted hmore hstop ((p.next '@').after name)
  have hword : Scans (.tag raw) (p.next '@') name _ (.tag raw) (dotted more ++ rest) :=
    scans_word (isWord_of_isSegment hname) (head?_dotted hstop)
  have hdata : Scans (.tag raw) p ['@'] _ (.tag raw) (name ++ dotted more ++ rest) := scans_data
  refine ⟨tokenAt p ['@'] .data :: tokenAt (p.next '@') name (.name name false) :: ts,
    ?_, ?_, ?_, ?_, ?_, ?_, rfl⟩
  · rw [hwritten]
    exact hdata.append (hword.append hscans)
  · exact ⟨'@', name ++ dotted more, hwritten, by decide⟩
  · intro next hnext
    have hextend : Mustache.Path.extend ⟨true, 0, [], ['@'], ⟨p, p.after ['@']⟩⟩ name false
          ((p.next '@').after name)
        = .ok ⟨true, 0, [name], '@' :: name, ⟨p, (p.next '@').after name⟩⟩ := by
      unfold Mustache.Path.extend
      simp [isPathKeyword_segment hname]
    obtain ⟨hlength, hgives⟩ := hsegments
      ⟨true, 0, [name], '@' :: name, ⟨p, (p.next '@').after name⟩⟩ next hnext rfl
    have hafter : ((p.next '@').after name).after (dotted more) = p.after written := by
      rw [hwritten, Position.after_append]
      rfl
    rw [hafter, ← hwritten] at hgives
    rw [List.cons_append, List.cons_append]
    refine expression_gives_iff.mpr (.data (h := hlength.trans (Nat.le_succ _)) rfl ?_)
    unfold pathFrom
    simp only [tokenAt, hextend, bind, Except.bind]
    rw [hgives]
    rfl
  · intro next hnext
    rfl
  · intro next
    exact unjoined_cons (by simp [tokenAt]) (by simp [tokenAt])
  · have hresolve := resolve_argument hname hmore hsplit hwritten hstands.spanFor
    rw [Tree.expression, hresolve]
    rfl

theorem path_reads {written : List Char} (h : isPath written = true)
    (hrest : rest.head?.all endsLiteral = true) (hstands : src.Stands p start (written ++ rest)) :
    ∃ ts path, Reads src raw p written rest ts (.path path) (.path (pathAt start written))
      ∧ path.written = written := by
  obtain ⟨first, more, hsplit, hwritten⟩ := splitDots_eq written
  rw [isPath, hsplit] at h
  obtain ⟨hfirst, hmore⟩ := Bool.and_eq_true_iff.mp h
  have hmore : ∀ s ∈ more, isSegment s = true := List.all_eq_true.mp hmore
  unfold isHead at hfirst
  split at hfirst
  · obtain ⟨ts, hreads⟩ := argument_reads hfirst hmore hsplit hwritten hrest hstands
    exact ⟨ts, _, hreads, rfl⟩
  · obtain ⟨ts, hreads⟩ := word_reads hfirst hmore hsplit hwritten hrest hstands
    exact ⟨ts, _, hreads, rfl⟩

theorem constant_starts {c : Constant} (h : c.WellFormed) :
    ∃ d ds, c.text = d :: ds ∧ startsCall d = true ∧ d ≠ 'e' := by
  cases c with
  | string value => exact ⟨'"', value ++ ['"'], rfl, by decide, by decide⟩
  | number x =>
    obtain ⟨d, ds, htext, hd⟩ := Binary64.text_starts h
    refine ⟨d, ds, htext, ?_, ?_⟩
    · simp [startsCall, startsWord_of_number hd]
    · rintro rfl
      exact absurd hd (by decide)
  | boolean b =>
    cases b with
    | true => exact ⟨'t', _, rfl, by decide, by decide⟩
    | false => exact ⟨'f', _, rfl, by decide, by decide⟩
  | null => exact ⟨'n', _, rfl, by decide, by decide⟩
  | undefined => exact ⟨'u', _, rfl, by decide, by decide⟩

theorem constant_reads {c : Constant} (h : c.WellFormed)
    (hrest : rest.head?.all endsLiteral = true) (hstands : src.Stands p start (c.text ++ rest)) :
    Reads src raw p c.text rest [tokenAt p c.text (.literal c.literal)]
      (.literal c.literal ⟨p, p.after c.text⟩) (.literal c.literal (span start c.text)) where
  scans := scans_constant h hrest
  starts := by
    obtain ⟨d, ds, htext, hd, -⟩ := constant_starts h
    exact ⟨d, ds, htext, isBlank_of_startsCall hd⟩
  gives := by
    intro next hnext
    exact expression_gives_iff.mpr (.literal rfl)
  isParam := by
    intro next _
    cases next <;> rfl
  unjoined next := unjoined_cons (by simp [tokenAt]) (by simp [tokenAt])
  tree := by
    rw [Tree.expression, hstands.spanFor]
  loc := rfl

end HtmlTemplate.Draft
