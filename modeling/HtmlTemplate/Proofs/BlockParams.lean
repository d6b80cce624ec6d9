import HtmlTemplate.Proofs.AttributeRuns
import HtmlTemplate.Proofs.Evaluation

/-! The block parameters of an element. They are read from the names of the attributes, from the
first `as` on, if a bar follows it: what is left of these names without their bars stands between
two bars. Names before them, and those of a tag whose first `as` is followed by something else, are
not looked at but for the last name of a tag without `as`. -/

namespace HtmlTemplate.Tree

def unbarred (name : List Char) : List Char :=
  name.filter (· != '|')

section

variable {names : List (List Char)} {c : Char} {cs : List Char}

theorem unbarred_intercalate (names : List (List Char)) :
    unbarred (List.intercalate [' '] names) = List.intercalate [' '] (names.map unbarred) := by
  induction names with
  | nil => rfl
  | cons name names ih =>
    cases names with
    | nil => simp [List.intercalate_singleton]
    | cons next names =>
      rw [List.map_cons] at ih
      rw [List.map_cons, List.map_cons, List.intercalate_cons_cons, List.intercalate_cons_cons,
        ← ih, unbarred, List.filter_append, List.filter_append]
      rfl

private theorem length_intercalate (hne : names ≠ []) :
    (List.intercalate [c] names).length + 1 = (names.map List.length).sum + names.length := by
  induction names with
  | nil => exact absurd rfl hne
  | cons name names ih =>
    cases names with
    | nil => simp [List.intercalate_singleton]
    | cons next names =>
      have hnext := ih (List.cons_ne_nil _ _)
      rw [List.intercalate_cons_cons, List.length_append, List.length_append, List.map_cons,
        List.sum_cons, List.length_cons (a := name), List.length_singleton]
      omega

theorem ne_nil_of_intercalate_filter (hne : names.filter (· != []) ≠ [])
    (h : List.intercalate [c] (names.filter (· != [])) = List.intercalate [c] names) :
    ∀ name ∈ names, name ≠ [] := by
  have hnames : names ≠ [] := by
    rintro rfl
    exact hne rfl
  have hsum : ((names.filter (· != [])).map List.length).sum = (names.map List.length).sum := by
    clear h hne hnames
    induction names with
    | nil => rfl
    | cons name names ih =>
      cases name with
      | nil => simpa using ih
      | cons c cs => simp [ih]
  have hlength := length_intercalate (c := c) hne
  rw [h, length_intercalate hnames, hsum] at hlength
  intro name hname hnil
  have hlt : (names.filter (· != [])).length < names.length :=
    List.length_filter_lt_length_iff_exists.mpr ⟨name, hname, by simp [hnil]⟩
  omega

theorem eq_of_count_bar (hfirst : cs.head? = some '|') (hlast : cs.getLast? = some '|')
    (hcount : cs.count '|' = 2) : cs = '|' :: (unbarred cs ++ ['|']) := by
  obtain ⟨rest, rfl⟩ := List.head?_eq_some_iff.mp hfirst
  rw [List.count_cons_self] at hcount
  rcases List.eq_nil_or_concat rest with rfl | ⟨inner, last, rfl⟩
  · cases hcount
  · rw [List.concat_eq_append] at hlast hcount ⊢
    obtain rfl : last = '|' := by
      rw [← List.cons_append, List.getLast?_concat] at hlast
      exact Option.some.inj hlast
    rw [List.count_append, List.count_singleton_self] at hcount
    have hnot : '|' ∉ inner := List.count_eq_zero.mp (by omega)
    have hinner : inner.filter (· != '|') = inner :=
      List.filter_eq_self.mpr fun x hx => by
        simp only [bne_iff_ne, ne_eq]
        rintro rfl
        exact hnot hx
    rw [unbarred, List.filter_cons_of_neg (by simp), List.filter_append, hinner,
      List.filter_cons_of_neg (by simp), List.filter_nil, List.append_nil]

end

/-- The names say `as |a b|` from the first `as` on: this many names are left, and these are the
parameters. -/
structure NamesParams (names : List (List Char)) (kept : Nat) (params : List (List Char)) :
    Prop where
  names : ∃ before after, names = before ++ "as".toList :: after ∧ "as".toList ∉ before
    ∧ kept = before.length
    ∧ List.intercalate [' '] after
      = '|' :: (List.intercalate [' '] (after.map unbarred) ++ ['|'])
    ∧ params = (after.map unbarred).filter (· != [])
  ne_nil : params ≠ []
  allowed : ∀ p ∈ params, ∀ c ∈ p, isForbidden c = false

/-- The names say nothing: no bar begins the name after the first `as`, or the last one if there
is no `as`. -/
def NamesNothing (names : List (List Char)) : Prop :=
  ("as".toList ∉ names ∧ ∀ name ∈ names.getLast?, startsWithBar name = false)
    ∨ ∃ before after, names = before ++ "as".toList :: after ∧ "as".toList ∉ before
      ∧ ∀ name ∈ after.head?, startsWithBar name = false

private theorem paramNames_ok {names params : List (List Char)}
    (h : paramNames names = .ok params) :
    params = (names.map unbarred).filter (· != [])
      ∧ ∀ p ∈ params, ∀ c ∈ p, isForbidden c = false := by
  induction names generalizing params with
  | nil =>
    obtain rfl := Except.ok.inj h
    exact ⟨rfl, List.forall_mem_nil _⟩
  | cons name names ih =>
    rw [paramNames] at h
    split at h
    · rename_i hempty
      obtain ⟨hparams, hallowed⟩ := ih h
      refine ⟨?_, hallowed⟩
      have hnil : unbarred name = [] := List.isEmpty_iff.mp hempty
      rw [List.map_cons, hnil, hparams]
      rfl
    · rename_i hempty
      split at h
      · cases h
      · rename_i hforbidden
        obtain ⟨more, hmore, rfl⟩ := map_eq_ok.mp h
        obtain ⟨hparams, hallowed⟩ := ih hmore
        refine ⟨?_, List.forall_mem_cons.mpr ⟨fun c hc => ?_, hallowed⟩⟩
        · have hne : (unbarred name != []) = true := by
            simpa [unbarred, List.isEmpty_iff] using hempty
          rw [List.map_cons, List.filter_cons_of_pos (p := (· != [])) hne, ← hparams]
          rfl
        · rw [Bool.not_eq_true, List.any_eq_false] at hforbidden
          simpa using hforbidden c hc

private theorem head?_intercalate {name : List Char} {names : List (List Char)} {c : Char}
    (h : name.head? = some c) : (List.intercalate [' '] (name :: names)).head? = some c := by
  obtain ⟨cs, rfl⟩ := List.head?_eq_some_iff.mp h
  cases names with
  | nil => rfl
  | cons next names => rfl

private theorem written_bars {after : List (List Char)}
    (hhead : after.head?.elim false startsWithBar = true)
    (hwritten : (List.intercalate [' '] ("as".toList :: after)).getLast? = some '|'
      ∧ (List.intercalate [' '] ("as".toList :: after)).count '|' = 2) :
    List.intercalate [' '] after
      = '|' :: (List.intercalate [' '] (after.map unbarred) ++ ['|']) := by
  cases after with
  | nil => cases hhead
  | cons name names =>
    have hjoined : (List.intercalate [' '] (name :: names)).head? = some '|' :=
      head?_intercalate (eq_of_beq hhead)
    rw [List.intercalate_cons_cons, List.append_assoc, List.getLast?_append,
      List.getLast?_append, List.count_append, List.count_append] at hwritten
    rw [← unbarred_intercalate]
    refine eq_of_count_bar hjoined ?_ ?_
    · obtain ⟨cs, hcs⟩ := List.head?_eq_some_iff.mp hjoined
      rw [hcs] at hwritten ⊢
      simpa [List.getLast?_cons] using hwritten.1
    · simpa using hwritten.2

private theorem names_split (names : List (List Char)) :
    names = names.takeWhile (· != "as".toList)
        ++ names.drop (names.takeWhile (· != "as".toList)).length
      ∧ "as".toList ∉ names.takeWhile (· != "as".toList)
      ∧ ∀ name ∈ (names.drop (names.takeWhile (· != "as".toList)).length).head?,
        name = "as".toList := by
  have hdrop : names.drop (names.takeWhile (· != "as".toList)).length
      = names.dropWhile (· != "as".toList) := by
    have hdrop {before rest : List (List Char)} (h : before ++ rest = names) :
        names.drop before.length = rest := by
      rw [← h, List.drop_left]
    exact hdrop List.takeWhile_append_dropWhile
  rw [hdrop]
  refine ⟨List.takeWhile_append_dropWhile.symm, fun hmem => ?_, fun name hname => ?_⟩
  · simpa using List.mem_takeWhile_imp hmem
  · have hnot := List.head?_dropWhile_not (· != "as".toList) names
    rw [Option.mem_def.mp hname] at hnot
    simpa using hnot

private theorem blockParams?_ok {names : List (List Char)} {kept : Nat} {params : List (List Char)}
    (h : blockParams? names = .ok (kept, params)) :
    (kept = names.length ∧ params = [] ∧ NamesNothing names) ∨ NamesParams names kept params := by
  obtain ⟨hsplit, hbefore, hkeyword⟩ := names_split names
  unfold blockParams? at h
  dsimp only at h
  generalize names.takeWhile (· != "as".toList) = before at *
  split at h
  · rename_i hnil
    split at h
    · cases h
    · rename_i hlast
      obtain ⟨rfl, rfl⟩ := Prod.mk.inj (Except.ok.inj h)
      rw [hnil, List.append_nil] at hsplit
      refine .inl ⟨rfl, rfl, .inl ⟨hsplit ▸ hbefore, fun name hname => ?_⟩⟩
      rw [Option.mem_def.mp hname] at hlast
      simpa using hlast
  · rename_i keyword after hdrop
    rw [hdrop] at hsplit hkeyword
    obtain rfl := hkeyword keyword rfl
    split at h
    · rename_i hhead
      obtain ⟨rfl, rfl⟩ := Prod.mk.inj (Except.ok.inj h)
      refine .inl ⟨rfl, rfl, .inr ⟨before, after, hsplit, hbefore, fun name hname => ?_⟩⟩
      rw [Option.mem_def.mp hname] at hhead
      simpa using hhead
    · rename_i hhead
      split at h
      · cases h
      · rename_i hwritten
        split at h
        · cases h
        · cases h
        · rename_i params' hne hparams
          obtain ⟨rfl, rfl⟩ := Prod.mk.inj (Except.ok.inj h)
          obtain ⟨heq, hallowed⟩ := paramNames_ok hparams
          have hbars := written_bars (by simpa using hhead) (by simpa using hwritten)
          exact .inr ⟨⟨before, after, hsplit, hbefore, rfl, hbars, heq⟩, hne, hallowed⟩

/-- Of the attributes of a start tag an element keeps all, without block parameters, or those
before the first `as`, with the parameters that the names after it say. -/
def StartTag.Yields (tag : StartTag) (e : Element Statement) : Prop :=
  e.tag = tag.name ∧ e.span.start = tag.start
    ∧ (e.attributes = tag.attributes ∧ e.params = [] ∧ NamesNothing (tag.attributes.map (·.name))
      ∨ ∃ kept, NamesParams (tag.attributes.map (·.name)) kept e.params
        ∧ e.attributes = tag.attributes.take kept)

/-- Bars are for block parameters. Without any in its names an element keeps all attributes of its
start tag and has no parameters; otherwise it keeps those before an `as`, and the names after that
are its parameters between two bars. -/
structure StartTag.Separates (tag : StartTag) (e : Element Statement) : Prop where
  kept : ∀ a ∈ e.attributes, '|' ∉ a.name
  without : (∀ a ∈ tag.attributes, '|' ∉ a.name) → e.attributes = tag.attributes ∧ e.params = []
  within : (∃ a ∈ tag.attributes, '|' ∈ a.name) → ∃ keyword after,
    tag.attributes = e.attributes ++ keyword :: after ∧ keyword.name = "as".toList
      ∧ List.intercalate [' '] (after.map (·.name))
        = '|' :: (List.intercalate [' '] e.params ++ ['|'])
      ∧ e.params ≠ [] ∧ ∀ p ∈ e.params, ∀ c ∈ p, isForbidden c = false

variable {tag : StartTag} {e : Element Statement} {attributes : List Attribute} {kept : Nat}
  {params : List (List Char)}

theorem StartTag.Opens.yields (h : tag.Opens e.opened) : tag.Yields e := by
  obtain ⟨kept, params, hparams, heq⟩ := h
  obtain ⟨htag, rfl⟩ := Prod.mk.inj heq
  have hattributes : e.attributes = tag.attributes.take kept := congrArg (·.attributes) htag
  refine ⟨congrArg (·.name) htag, congrArg (·.start) htag, ?_⟩
  rcases blockParams?_ok hparams with ⟨rfl, hnil, hnothing⟩ | hparams
  · refine .inl ⟨?_, hnil, hnothing⟩
    rw [hattributes, List.length_map, List.take_length]
  · exact .inr ⟨kept, hparams, hattributes⟩

theorem NamesParams.split (h : NamesParams (attributes.map (·.name)) kept params) :
    ∃ keyword after, attributes = attributes.take kept ++ keyword :: after
      ∧ keyword.name = "as".toList
      ∧ List.intercalate [' '] (after.map (·.name))
        = '|' :: (List.intercalate [' '] ((after.map (·.name)).map unbarred) ++ ['|'])
      ∧ params = ((after.map (·.name)).map unbarred).filter (· != []) := by
  obtain ⟨before, after, hnames, -, rfl, hbars, hparams⟩ := h.names
  obtain ⟨before, rest, rfl, rfl, hrest⟩ := List.map_eq_append_iff.mp hnames
  obtain ⟨keyword, after, rfl, hkeyword, rfl⟩ := List.map_eq_cons_iff.mp hrest
  refine ⟨keyword, after, ?_, hkeyword, hbars, hparams⟩
  rw [List.length_map, List.take_left]

private theorem exists_bar_of_intercalate {names : List (List Char)} {cs : List Char}
    (h : List.intercalate [' '] names = '|' :: cs) : ∃ name ∈ names, '|' ∈ name := by
  by_contra hnone
  push Not at hnone
  have hplain : names.map unbarred = names := by
    refine (List.map_congr_left fun name hname => ?_).trans (List.map_id names)
    exact List.filter_eq_self.mpr fun c hc => by
      simp only [bne_iff_ne, ne_eq]
      rintro rfl
      exact hnone name hname hc
  have hsame := unbarred_intercalate names
  rw [hplain, h] at hsame
  have hmem : '|' ∈ unbarred ('|' :: cs) := by
    rw [hsame]
    exact List.mem_cons_self
  simp [unbarred] at hmem

private theorem unbarred_ne_nil {name : List Char} (hne : name ≠ []) (hbar : '|' ∉ name) :
    unbarred name ≠ [] := by
  obtain ⟨c, cs, rfl⟩ := List.exists_cons_of_ne_nil hne
  refine List.ne_nil_of_mem (List.mem_filter.mpr ⟨List.mem_cons_self, ?_⟩)
  simp only [bne_iff_ne, ne_eq]
  rintro rfl
  exact hbar List.mem_cons_self

theorem StartTag.Yields.separates_iff (h : tag.Yields e) (hne : ∀ a ∈ tag.attributes, a.name ≠ []) :
    tag.Separates e ↔ (∀ a ∈ e.attributes, '|' ∉ a.name)
      ∧ ∀ a ∈ tag.attributes, unbarred a.name ≠ [] := by
  obtain ⟨-, -, ⟨hattributes, hnil, -⟩ | ⟨kept, hparams, hattributes⟩⟩ := h
  · constructor
    · intro hs
      exact ⟨hs.kept, fun a ha => unbarred_ne_nil (hne a ha) (hs.kept a (hattributes ▸ ha))⟩
    · rintro ⟨hkept, -⟩
      refine ⟨hkept, fun _ => ⟨hattributes, hnil⟩, ?_⟩
      rintro ⟨a, ha, hbar⟩
      exact absurd hbar (hkept a (hattributes ▸ ha))
  · obtain ⟨keyword, after, hsplit, hkeyword, hbars, hfilter⟩ := hparams.split
    rw [← hattributes] at hsplit
    have hbar : ∃ a ∈ tag.attributes, '|' ∈ a.name := by
      obtain ⟨name, hname, hbar⟩ := exists_bar_of_intercalate hbars
      obtain ⟨a, ha, rfl⟩ := List.mem_map.mp hname
      rw [hsplit]
      exact ⟨a, List.mem_append_right _ (List.mem_cons_of_mem _ ha), hbar⟩
    constructor
    · intro hs
      refine ⟨hs.kept, ?_⟩
      obtain ⟨keyword', after', hsplit', -, hspelled, -, -⟩ := hs.within hbar
      obtain ⟨rfl, rfl⟩ := List.cons.inj (List.append_cancel_left (hsplit.symm.trans hsplit'))
      have hsame := (List.append_cancel_right (List.cons.inj (hspelled.symm.trans hbars)).2)
      rw [hfilter] at hsame
      have hall := ne_nil_of_intercalate_filter (hfilter ▸ hparams.ne_nil) hsame
      rw [hsplit]
      refine List.forall_mem_append.mpr
        ⟨fun a ha => ?_, List.forall_mem_cons.mpr ⟨?_, fun a ha => ?_⟩⟩
      · refine unbarred_ne_nil (hne a ?_) (hs.kept a ha)
        rw [hsplit]
        exact List.mem_append_left _ ha
      · rw [hkeyword]
        decide
      · exact hall _ (List.mem_map_of_mem (List.mem_map_of_mem ha))
    · rintro ⟨hkept, hall⟩
      refine ⟨hkept, fun hnone => ?_, fun _ => ?_⟩
      · obtain ⟨a, ha, hbar⟩ := hbar
        exact absurd hbar (hnone a ha)
      · refine ⟨keyword, after, hsplit, hkeyword, ?_, hparams.ne_nil, hparams.allowed⟩
        have hfull : e.params = (after.map (·.name)).map unbarred := by
          rw [hfilter, List.filter_eq_self, List.forall_mem_map, List.forall_mem_map]
          intro a ha
          have hmem : a ∈ tag.attributes := by
            rw [hsplit]
            exact List.mem_append_right _ (List.mem_cons_of_mem _ ha)
          simpa using hall a hmem
        rw [hfull]
        exact hbars

theorem EachFits.name_ne_nil {src : Source} {E : Ends} (h : EachFits src E attributes) :
    ∀ a ∈ attributes, a.name ≠ [] := by
  intro a ha
  obtain ⟨before, after, heq⟩ := List.append_of_mem ha
  have hname := (h before a after heq).name
  intro hnil
  rw [hnil] at hname
  cases hname

end HtmlTemplate.Tree

namespace HtmlTemplate

open HtmlTemplate.Tree (unbarred)

/-- The elements of a template, and how the names of the attributes in their start tags are read.
Bars are for block parameters alone unless one is in the name of an attribute that is kept, or a
name is nothing but bars. -/
theorem element_params {text : List Char} {options : Options} {t : Tree.Template}
    (h : preprocess text options = .ok t) :
    ∃ program, Mustache.parse text options.keepLines = .ok program
      ∧ List.Forall₂ (fun tag e => tag.Yields e
          ∧ (tag.Separates e ↔ (∀ a ∈ e.attributes, '|' ∉ a.name)
            ∧ ∀ a ∈ tag.attributes, unbarred a.name ≠ []))
        (startTags text options program) t.elements := by
  obtain ⟨program, hparse, hopens⟩ := preprocess_elements h
  have htags := startTags_fit (E := fun _ _ => True) h hparse
    (fun _ _ _ _ _ _ _ _ _ _ => trivial)
  refine ⟨program, hparse, List.Forall₂.imp (fun tag e hboth => ?_)
    ((List.forall₂_and_left _ _).mpr ⟨htags, hopens⟩)⟩
  obtain ⟨hfits, hopens⟩ := hboth
  exact ⟨hopens.yields, hopens.yields.separates_iff hfits.name_ne_nil⟩

/-- Bars without `as`, in two names. -/
def barsWithoutAs : List Char :=
  "<T |x y|></T>".toList

theorem element_params_without_as :
    ∃ t, preprocess barsWithoutAs {} = .ok t
      ∧ ∃ e ∈ t.elements, e.attributes.map (·.name) = [['|', 'x'], ['y', '|']]
        ∧ ∃ tag : Tree.StartTag, tag.Yields e ∧ ¬ tag.Separates e := by
  have hscan : Mustache.scan barsWithoutAs = .ok
      [.onLine (.content barsWithoutAs) 0 13, .onLine .endOfInput 13 13] := by decide +kernel
  have hparse := Mustache.parse_of_tokens false hscan (by cbv)
  have hok : (preprocess barsWithoutAs {}).toOption.any (fun t =>
      t.elements.map (fun e => e.attributes.map (·.name)) == [[['|', 'x'], ['y', '|']]])
      = true := by
    rw [preprocess_of_parse {} hparse]
    decide +kernel
  obtain ⟨t, h, hok⟩ := exists_of_any hok
  have hnames : t.elements.map (fun e => e.attributes.map (·.name))
      = [[['|', 'x'], ['y', '|']]] := eq_of_beq hok
  obtain ⟨e, rest, helements, hnames, -⟩ := List.map_eq_cons_iff.mp hnames
  obtain ⟨program, -, hall⟩ := element_params h
  rw [helements] at hall
  obtain ⟨tag, _, ⟨hyields, hiff⟩, -, -⟩ := List.forall₂_cons_right_iff.mp hall
  refine ⟨t, h, e, helements ▸ List.mem_cons_self, hnames, tag, hyields, fun hs => ?_⟩
  obtain ⟨a, ha, hname⟩ := List.mem_map.mp (hnames ▸ List.mem_cons_self :
    ['|', 'x'] ∈ e.attributes.map (·.name))
  exact (hiff.mp hs).1 a ha (hname ▸ List.mem_cons_self)

end HtmlTemplate
