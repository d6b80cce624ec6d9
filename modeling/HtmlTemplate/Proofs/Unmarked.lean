import HtmlTemplate.Proofs.Alike
import HtmlTemplate.Proofs.Standalone

/-! Templates without markers. Where lines are kept as well, whitespace control has nothing to do,
and the tree of a template is what has been read. -/

namespace HtmlTemplate.Mustache

theorem head?_drop_ne_of_not_mem {c : Char} {cs : List Char} (h : c ∉ cs) (n : Nat) :
    ((cs.drop n).head? == some c) = false := by
  rw [beq_eq_false_iff_ne]
  exact fun hhead => h (List.drop_subset n cs (List.mem_of_mem_head? hhead))

private theorem commentStrip_eq_empty {written : List Char} (h : '~' ∉ written) :
    commentStrip written = {} := by
  have hreverse : '~' ∉ written.reverse := by simpa using h
  rw [commentStrip, head?_drop_ne_of_not_mem h, head?_drop_ne_of_not_mem hreverse]

private theorem closing?_unmarked {cs : List Char} {marked : Bool} {n : Nat} (h : '~' ∉ cs)
    (hclosing : closing? cs = some (marked, n)) : marked = false := by
  simp only [closing?] at hclosing
  split at hclosing
  · rename_i hpre
    have hmem := (List.isPrefixOf_iff_prefix.mp hpre).subset List.mem_cons_self
    exact absurd ((List.dropWhile_suffix _).subset hmem) h
  · split at hclosing
    · cases hclosing
      rfl
    · cases hclosing

def Lexeme.Unmarked (l : Lexeme) : Prop :=
  l.strip = {} ∧ ∀ text, l.symbol = .comment text → commentStrip text = {}

theorem Lexeme.unmarked_of_ne {l : Lexeme} (hstrip : l.strip = {})
    (hsymbol : ∀ text, l.symbol ≠ .comment text) : l.Unmarked :=
  ⟨hstrip, fun text h => absurd h (hsymbol text)⟩

private theorem openLexeme_unmarked {cs : List Char} {l : Lexeme} (h : '~' ∉ cs)
    (hl : openLexeme cs = .ok l) : l.Unmarked := by
  have hdrop (n : Nat) : '~' ∉ cs.drop n := fun hmem => h (List.drop_subset n cs hmem)
  unfold openLexeme at hl
  dsimp only at hl
  simp only [head?_drop_ne_of_not_mem h 2, Bool.false_eq_true, ↓reduceIte] at hl
  split at hl
  case h_3 =>
    split at hl
    · cases hl
      refine ⟨rfl, ?_⟩
      rintro _ ⟨⟩
      exact commentStrip_eq_empty fun hmem => h (List.take_subset _ _ hmem)
    · cases hl
  case h_8 rest hrest =>
    have htilde : '~' ∉ rest := fun hmem => hdrop 2 (hrest ▸ List.mem_cons_of_mem _ hmem)
    rw [Except.ok.injEq] at hl
    subst hl
    cases hclosing : closing? rest with
    | none => exact Lexeme.unmarked_of_ne rfl (by rintro _ ⟨⟩)
    | some closing =>
      obtain ⟨marked, n⟩ := closing
      obtain rfl := closing?_unmarked htilde hclosing
      exact Lexeme.unmarked_of_ne rfl (by rintro _ ⟨⟩)
  case h_11 =>
    split at hl
    · rw [Except.ok.injEq] at hl
      subst hl
      cases hclosing : closing? _ with
      | none => exact Lexeme.unmarked_of_ne rfl (by rintro _ ⟨⟩)
      | some closing =>
        obtain ⟨marked, n⟩ := closing
        obtain rfl := closing?_unmarked
          (fun hmem => hdrop 2 ((List.dropWhile_suffix _).subset (List.drop_subset 4 _ hmem)))
          hclosing
        exact Lexeme.unmarked_of_ne rfl (by rintro _ ⟨⟩)
    · cases hl
      exact Lexeme.unmarked_of_ne rfl (by rintro _ ⟨⟩)
  all_goals
    cases hl
    exact Lexeme.unmarked_of_ne rfl (by rintro _ ⟨⟩)

private theorem closeLexeme?_unmarked {raw : Bool} {cs : List Char} {l : Lexeme} (h : '~' ∉ cs)
    (hl : closeLexeme? raw cs = some l) : l.Unmarked := by
  have hpre (ds : List Char) (hmem : '~' ∈ ds) : ds.isPrefixOf cs = false := by
    rw [Bool.eq_false_iff, ne_eq, List.isPrefixOf_iff_prefix]
    exact fun hpre => h (hpre.subset hmem)
  simp only [closeLexeme?, hpre ['}', '~', '}', '}'] (by decide),
    hpre ['~', '}', '}'] (by decide), Bool.and_false, Bool.false_eq_true,
    ↓reduceIte] at hl
  repeat' split at hl
  all_goals
    cases hl
    try exact Lexeme.unmarked_of_ne rfl (by rintro _ ⟨⟩)

private theorem wordLexeme?_unmarked {raw : Bool} {cs : List Char} {l : Lexeme}
    (hl : wordLexeme? raw cs = some l) : l.Unmarked := by
  unfold wordLexeme? at hl
  dsimp only at hl
  repeat' split at hl
  · cases hl
    exact Lexeme.unmarked_of_ne rfl (by rintro _ ⟨⟩)
  · cases hl
    exact Lexeme.unmarked_of_ne rfl (by rintro _ ⟨⟩)
  · cases hl
  · cases hl
    refine Lexeme.unmarked_of_ne rfl fun text => ?_
    dsimp only
    unfold wordSymbol
    repeat' split
    all_goals exact Symbol.noConfusion

private theorem lexeme_unmarked {mode : Mode} {cs : List Char} {l : Lexeme} (h : '~' ∉ cs)
    (hl : lexeme mode cs = .ok l) : l.Unmarked := by
  cases mode with
  | tag raw =>
    have hrest : '~' ∉ cs.drop (leadLength (.tag raw) cs) :=
      fun hmem => h (List.drop_subset _ cs hmem)
    obtain hclose | hword | ⟨symbol, n, rfl, hin, -⟩ := tagLexeme_cases hl
    · exact closeLexeme?_unmarked hrest hclose
    · exact wordLexeme?_unmarked hword
    · refine Lexeme.unmarked_of_ne rfl ?_
      rintro text rfl
      cases hin
  | text =>
    simp only [lexeme] at hl
    repeat' split at hl
    · exact openLexeme_unmarked h hl
    · cases hl
      exact Lexeme.unmarked_of_ne rfl (by rintro _ ⟨⟩)
    · cases hl
      exact Lexeme.unmarked_of_ne rfl (by rintro _ ⟨⟩)

theorem scanAfter_unmarked {mode : Mode} {p : Position} {skip : Nat} {cs : List Char}
    {ts : List Token} (h : '~' ∉ cs) (hts : scanAfter mode p skip cs = .ok ts) :
    ∀ t ∈ ts, t.markers = {} := by
  induction cs generalizing mode p skip ts with
  | nil =>
    cases mode with
    | tag raw => cases hts
    | text =>
      cases hts
      exact List.forall_mem_singleton.mpr rfl
  | cons c cs ih =>
    have hrest : '~' ∉ cs := fun hmem => h (List.mem_cons_of_mem _ hmem)
    cases skip with
    | succ skip => exact ih hrest hts
    | zero =>
      simp only [scanAfter] at hts
      split at hts
      · cases hts
      · rename_i l hl
        obtain ⟨ts', hmore, rfl⟩ := map_eq_ok.mp hts
        obtain ⟨hstrip, hcomment⟩ := lexeme_unmarked h hl
        refine List.forall_mem_cons.mpr ⟨?_, ih hrest hmore⟩
        simp only [Token.markers]
        split
        · rename_i text hsymbol
          exact hcomment text hsymbol
        · exact hstrip

private theorem reach_unmarked {s : Statement} (h : s.Unmarked) (root : Bool)
    (before after : List Statement) : reach root true before s after = {} := by
  unfold reach
  cases ho : s.outline? with
  | none => rfl
  | some o => simp [outline?_strip h ho]

def Statement.Unindented (s : Statement) : Prop :=
  ∀ p, s = .partialCall p → p.indent = []

private theorem trimInside_empty (s : Statement) : s.trimInside {} = s := by
  cases s <;> rfl

theorem settleAfter_unmarked {ss : List Statement} (h : ∀ s ∈ ss, s.Unmarked)
    (hindent : ∀ s ∈ ss, s.Unindented) (root : Bool) (before : List Statement)
    (text : Option Content) : settleAfter root true before [] text ss = ss := by
  induction ss generalizing before text with
  | nil => rfl
  | cons s ss ih =>
    obtain ⟨hs, hss⟩ := List.forall_mem_cons.mp h
    obtain ⟨hs', hss'⟩ := List.forall_mem_cons.mp hindent
    unfold settleAfter
    rw [reach_unmarked hs]
    cases s with
    | content c =>
      cases ss with
      | nil => rfl
      | cons next ss =>
        simp only [List.foldl_nil, ih hss hss',
          reach_unmarked (hss next List.mem_cons_self) root (.content c :: before) ss]
    | partialCall p =>
      dsimp only
      rw [ih hss hss']
      obtain ⟨call, indent, strip, loc⟩ := p
      obtain rfl : indent = [] := hs' _ rfl
      cases text <;> rfl
    | _ =>
      dsimp only
      rw [ih hss hss', trimInside_empty]

private theorem trimSections_unmarked {b : Block Statement} (h : b.Unmarked) :
    b.trimSections true = b := by
  obtain ⟨call, program, inverse, openStrip, inverseStrip, closeStrip, loc⟩ := b
  obtain ⟨rfl, rfl, rfl⟩ := h
  unfold Block.trimSections
  cases program <;> cases inverse <;> rfl

def Portion.Unchanged : Portion → Prop
  | .body ss => controlAll true ss = ss ∧ ∀ s ∈ ss, s.Unindented
  | .inverse _ closing p => (∀ s ∈ closing, s = {}) → controlSection true p = p

section

variable {ts : List Token}

private theorem unchanged_program {body : List Statement} (h : Portion.Unchanged (.body body))
    (hspells : Spells ts (.body body)) (hts : ∀ t ∈ ts, t.markers = {})
    (params : List (List Char)) :
    controlProgram true ⟨body, params, false⟩ = ⟨body, params, false⟩ := by
  have hunmarked (s : Statement) (hs : s ∈ body) : s.Unmarked :=
    (hspells.controlled (t := .line) fun _ => hts).2 s hs rfl
  rw [controlProgram, h.1, if_neg Bool.false_ne_true, settle,
    settleAfter_unmarked hunmarked h.2]

theorem Portion.Unchanged.cons {s : Statement} {ss : List Statement}
    (h : Portion.Unchanged (.body ss)) (hs : s.control true = s) (hindent : s.Unindented) :
    Portion.Unchanged (.body (s :: ss)) :=
  ⟨by rw [controlAll, hs, h.1], List.forall_mem_cons.mpr ⟨hindent, h.2⟩⟩

theorem Spells.unchanged {portion : Portion} (h : Spells ts portion)
    (hts : ∀ t ∈ ts, t.markers = {}) : portion.Unchanged := by
  induction h with
  | nil => exact ⟨rfl, List.forall_mem_nil _⟩
  | content hsymbol hafter ih =>
    exact (ih (List.forall_mem_cons.mp hts).2).cons rfl (by rintro _ ⟨⟩)
  | oneTag htag hs hafter ih =>
    have hafter' := ih (List.forall_mem_append.mp hts).2
    cases hs with
    | mustache | decorator | comment => exact hafter'.cons rfl (by rintro _ ⟨⟩)
    | partialCall hindent hs =>
      refine hafter'.cons rfl ?_
      rintro _ ⟨⟩
      exact hindent
  | block hopening hclosing hloc hbody hinverse hafter ihbody ihinverse ih =>
    simp only [List.forall_mem_append] at hts
    obtain ⟨hopening', hmain, hrest, hclosing', hafter'⟩ := hts
    have hclose := markers_eq_empty hclosing'
    refine (ih hafter').cons ?_ (by rintro _ ⟨⟩)
    rw [Statement.control, controlSection, unchanged_program (ihbody hmain) hbody hmain,
      ihinverse hrest (by rintro _ ⟨⟩; exact hclose),
      trimSections_unmarked ⟨markers_eq_empty hopening', hinverse.unmarked hrest, hclose⟩]
  | inverseBlock hopening hclosing hloc hbody hinverse hplain hafter ihbody ihinverse ih =>
    simp only [List.forall_mem_append] at hts
    obtain ⟨hopening', hmain, hrest, hclosing', hafter'⟩ := hts
    have hclose := markers_eq_empty hclosing'
    refine (ih hafter').cons ?_ (by rintro _ ⟨⟩)
    rw [Statement.control, controlSection, unchanged_program (ihbody hmain) hbody hmain,
      ihinverse hrest (by rintro _ ⟨⟩; exact hclose),
      trimSections_unmarked ⟨markers_eq_empty hopening', hinverse.unmarked hrest, hclose⟩]
  | decoratorBlock hopening hclosing hbody hafter ihbody ih =>
    simp only [List.forall_mem_append] at hts
    obtain ⟨hopening', hmain, hclosing', hafter'⟩ := hts
    refine (ih hafter').cons ?_ (by rintro _ ⟨⟩)
    rw [Statement.control, controlSection, controlSection,
      unchanged_program (ihbody hmain) hbody hmain,
      trimSections_unmarked ⟨markers_eq_empty hopening', rfl, markers_eq_empty hclosing'⟩]
  | partialBlock hopening hclosing hbody hafter ihbody ih =>
    simp only [List.forall_mem_append] at hts
    obtain ⟨hopening', hmain, hclosing', hafter'⟩ := hts
    refine (ih hafter').cons ?_ (by rintro _ ⟨⟩)
    rw [Statement.control, unchanged_program (ihbody hmain) hbody hmain,
      markers_eq_empty hopening', markers_eq_empty hclosing']
    rfl
  | noInverse closing => exact fun _ => rfl
  | elseSection closing hsymbol hbody ih =>
    have hmain := (List.forall_mem_cons.mp hts).2
    intro _
    rw [controlSection, unchanged_program (ih hmain) hbody hmain]
  | @chain tag main rest call body params strip inverse loc closing htag hbody hinverse ihbody
      ihinverse =>
    simp only [List.forall_mem_append] at hts
    obtain ⟨htag', hmain, hrest⟩ := hts
    have hstrip := hinverse.unmarked hrest
    intro hclosing
    have hclose : closing.getD strip = {} := by
      cases closing with
      | none => exact hstrip
      | some s => exact hclosing s rfl
    rw [controlSection, controlProgram, controlAll, controlAll, Statement.control, controlSection,
      unchanged_program (ihbody hmain) hbody hmain, ihinverse hrest (by rintro _ ⟨⟩),
      trimSections_unmarked ⟨markers_eq_empty htag', hstrip, hclose⟩, if_pos rfl]

def Portion.contents : Portion → List Content
  | .body ss => contentsAll ss
  | .inverse _ _ p => sectionContents p

theorem Spells.contents_written {portion : Portion} (h : Spells ts portion) :
    ∀ c ∈ portion.contents, c.value = c.written := by
  induction h with
  | nil | noInverse => exact List.forall_mem_nil _
  | content hsymbol hafter ih => exact List.forall_mem_cons.mpr ⟨rfl, ih⟩
  | oneTag htag hs hafter ih => cases hs <;> exact ih
  | block _ _ _ _ _ _ ihbody ihinverse ih =>
    exact List.forall_mem_append.mpr ⟨List.forall_mem_append.mpr ⟨ihbody, ihinverse⟩, ih⟩
  | inverseBlock _ _ _ _ _ _ _ ihbody ihinverse ih =>
    exact List.forall_mem_append.mpr ⟨List.forall_mem_append.mpr ⟨ihinverse, ihbody⟩, ih⟩
  | decoratorBlock _ _ _ _ ihbody ih =>
    exact List.forall_mem_append.mpr
      ⟨List.forall_mem_append.mpr ⟨ihbody, List.forall_mem_nil _⟩, ih⟩
  | partialBlock _ _ _ _ ihbody ih => exact List.forall_mem_append.mpr ⟨ihbody, ih⟩
  | elseSection _ _ _ ih => exact ih
  | chain _ _ _ _ ihbody ihinverse =>
    exact List.forall_mem_append.mpr
      ⟨List.forall_mem_append.mpr ⟨ihbody, ihinverse⟩, List.forall_mem_nil _⟩

end

private theorem parse_unmarked {text : List Char} (h : '~' ∉ text) :
    parse text true = parseWritten text := by
  cases hwritten : parseWritten text with
  | error e =>
    rw [parse, hwritten]
    rfl
  | ok written =>
    obtain ⟨toks, rest, body, hscan, -, hspells, rfl⟩ := parseWritten_spelled hwritten
    have hts : ∀ t ∈ toks, t.markers = {} := fun t ht =>
      scanAfter_unmarked h hscan t (List.mem_append_left _ ht)
    have hunmarked (s : Statement) (hs : s ∈ body) : s.Unmarked :=
      (hspells.controlled (t := .line) fun _ => hts).2 s hs rfl
    obtain ⟨hcontrol, hindent⟩ := hspells.unchanged hts
    rw [parse, hwritten]
    show Except.ok (Program.control true ⟨body, [], false⟩) = _
    rw [Program.control, Program.mapBody]
    dsimp only
    rw [hcontrol, settle, settleAfter_unmarked hunmarked hindent]

theorem contents_unmarked {text : List Char} {program : Program Statement} (h : '~' ∉ text)
    (hparse : parse text true = .ok program) : ∀ c ∈ program.contents, c.value = c.written := by
  rw [parse_unmarked h] at hparse
  obtain ⟨toks, rest, body, -, -, hspells, rfl⟩ := parseWritten_spelled hparse
  exact hspells.contents_written

end HtmlTemplate.Mustache
