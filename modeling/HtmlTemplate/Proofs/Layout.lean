import HtmlTemplate.Proofs.Bare

/-! How the statements of a template are laid out: each part within the one around it, and
every body read from the tokens between the two tags around it. Whitespace control does not
change the layout. -/

namespace HtmlTemplate.Mustache

variable {lo lo' hi hi' : Position}

theorem Ordered.mono {ss : List Statement} (h : Ordered lo hi ss) (hlo : lo' ≤ lo)
    (hhi : hi ≤ hi') : Ordered lo' hi' ss := by
  induction ss generalizing lo lo' with
  | nil => exact trivial
  | cons s ss ih => exact ⟨h.1.mono hlo hhi, h.2.1, ih h.2.2 (le_refl _)⟩

theorem sectionWithin.mono {p : Option (Program Statement)} (h : sectionWithin lo hi p)
    (hlo : lo' ≤ lo) (hhi : hi ≤ hi') : sectionWithin lo' hi' p := by
  rcases p with _ | ⟨body, params, chained⟩
  · exact trivial
  · have hbody : Ordered lo hi body := h
    exact hbody.mono hlo hhi

theorem Ordered.tight {ss : List Statement} {first last : Statement} (h : Ordered lo hi ss)
    (hfirst : ss.head? = some first) (hlast : ss.getLast? = some last) :
    lo ≤ first.loc.start ∧ first.loc.start ≤ last.loc.stop ∧ last.loc.stop ≤ hi
      ∧ Ordered first.loc.start last.loc.stop ss := by
  induction ss generalizing lo first with
  | nil => cases hfirst
  | cons s ss ih =>
    cases hfirst
    obtain ⟨hloc, hnested, hss⟩ := h
    cases ss with
    | nil =>
      cases hlast
      exact ⟨hloc.1, hloc.2.1, hloc.2.2, ⟨le_refl _, hloc.2.1, le_refl _⟩, hnested, trivial⟩
    | cons s' ss =>
      obtain ⟨hle, hle', hhi, hrest⟩ := ih hss rfl (by rwa [List.getLast?_cons_cons] at hlast)
      have hstop := le_trans hle hle'
      exact ⟨hloc.1, le_trans hloc.2.1 hstop, hhi, ⟨le_refl _, hloc.2.1, hstop⟩, hnested,
        hrest.mono hle (le_refl _)⟩

theorem loc_bare (s : Statement) : s.bare.loc = s.loc := by
  cases s with
  | partialBlock b => rfl
  | block b => rfl
  | decoratorBlock b => rfl
  | _ => rfl

mutual

theorem nested_bare : (s : Statement) → (s.bare.Nested ↔ s.Nested)
  | .mustache m => by rfl
  | .decorator m => by rfl
  | .content c => by rfl
  | .comment c => by rfl
  | .partialCall p => by rfl
  | .block ⟨_, program, inverse, _, _, _, _⟩ =>
    and_congr_right fun _ => and_congr (sectionWithin_bare _ _ program)
      (sectionWithin_bare _ _ inverse)
  | .decoratorBlock ⟨_, program, inverse, _, _, _, _⟩ =>
    and_congr_right fun _ => and_congr (sectionWithin_bare _ _ program)
      (sectionWithin_bare _ _ inverse)
  | .partialBlock ⟨_, ⟨body, _, _⟩, _, _, _⟩ => and_congr_right fun _ => ordered_bare _ _ body

theorem sectionWithin_bare (lo hi : Position) :
    (p : Option (Program Statement)) → (sectionWithin lo hi (bareSection p) ↔ sectionWithin lo hi p)
  | none => by rfl
  | some ⟨body, _, _⟩ => ordered_bare lo hi body

theorem ordered_bare (lo hi : Position) :
    (ss : List Statement) → (Ordered lo hi (bareAll ss) ↔ Ordered lo hi ss)
  | [] => by rfl
  | s :: ss => by
    simp only [bareAll, Ordered, loc_bare, nested_bare s, ordered_bare _ hi ss]

end

theorem Trims.ordered {ss ss' : List Statement} (h : Trims ss ss') (hss : Ordered lo hi ss) :
    Ordered lo hi ss' := by
  have hbare : bareAll ss' = bareAll ss := h.1
  rw [← ordered_bare, hbare, ordered_bare]
  exact hss

def Token.OpensBody (t : Token) : Prop := t.symbol = .close ∨ t.symbol = .elseTag

def Token.ClosesBody (t : Token) : Prop :=
  t.symbol = .opener .endBlock ∨ t.symbol = .elseTag ∨ t.symbol = .opener .elseChain

/-- A body is what the tokens between two others are read as, but for trimmed texts. The
first of these ends the tag before the body and the second starts the tag after it. -/
def Between (ts : List Token) (body : List Statement) (opening closing : Token) : Prop :=
  ∃ before inside after written h,
    ts = before ++ opening :: (inside ++ closing :: after)
      ∧ opening.OpensBody ∧ closing.ClosesBody
      ∧ statements (inside ++ closing :: after) = .ok ⟨written, closing :: after, h⟩
      ∧ bareAll written = bareAll body

/-- The section of an `{{else if}}` holds just the block. -/
def TaggedBody (ts : List Token) (chained : Bool) (body : List Statement) : Prop :=
  (chained = true ∧ ∃ b, body = [.block b]) ∨ ∃ opening closing, Between ts body opening closing

mutual

/-- All bodies in a statement are between their tags. -/
def Statement.Tagged (ts : List Token) : Statement → Prop
  | .mustache _ => True
  | .decorator _ => True
  | .content _ => True
  | .comment _ => True
  | .partialCall _ => True
  | .block ⟨_, program, inverse, _, _, _, _⟩ =>
    sectionTagged ts program ∧ sectionTagged ts inverse
  | .decoratorBlock ⟨_, program, inverse, _, _, _, _⟩ =>
    sectionTagged ts program ∧ sectionTagged ts inverse
  | .partialBlock ⟨_, program, _, _, _⟩ => Program.Tagged ts program

def sectionTagged (ts : List Token) : Option (Program Statement) → Prop
  | none => True
  | some p => Program.Tagged ts p

def Program.Tagged (ts : List Token) : Program Statement → Prop
  | ⟨body, _, chained⟩ => TaggedBody ts chained body ∧ allTagged ts body

def allTagged (ts : List Token) : List Statement → Prop
  | [] => True
  | s :: ss => s.Tagged ts ∧ allTagged ts ss

end

variable {ts ts' : List Token}

theorem Between.mono {body : List Statement} {opening closing : Token}
    (h : Between ts body opening closing) (hts : ts <:+ ts') :
    Between ts' body opening closing := by
  obtain ⟨before, inside, after, written, hle, rfl, h⟩ := h
  obtain ⟨more, rfl⟩ := hts
  exact ⟨more ++ before, inside, after, written, hle, by simp, h⟩

theorem TaggedBody.mono {chained : Bool} {body : List Statement}
    (h : TaggedBody ts chained body) (hts : ts <:+ ts') : TaggedBody ts' chained body := by
  rcases h with h | ⟨opening, closing, h⟩
  · exact .inl h
  · exact .inr ⟨opening, closing, h.mono hts⟩

mutual

theorem Statement.Tagged.mono (hts : ts <:+ ts') :
    (s : Statement) → s.Tagged ts → s.Tagged ts'
  | .mustache _, _ => trivial
  | .decorator _, _ => trivial
  | .content _, _ => trivial
  | .comment _, _ => trivial
  | .partialCall _, _ => trivial
  | .block ⟨_, program, inverse, _, _, _, _⟩, h =>
    ⟨sectionTagged.mono hts program h.1, sectionTagged.mono hts inverse h.2⟩
  | .decoratorBlock ⟨_, program, inverse, _, _, _, _⟩, h =>
    ⟨sectionTagged.mono hts program h.1, sectionTagged.mono hts inverse h.2⟩
  | .partialBlock ⟨_, ⟨body, _, _⟩, _, _, _⟩, h => ⟨h.1.mono hts, allTagged.mono hts body h.2⟩

theorem sectionTagged.mono (hts : ts <:+ ts') :
    (p : Option (Program Statement)) → sectionTagged ts p → sectionTagged ts' p
  | none, _ => trivial
  | some ⟨body, _, _⟩, h => ⟨h.1.mono hts, allTagged.mono hts body h.2⟩

theorem allTagged.mono (hts : ts <:+ ts') :
    (ss : List Statement) → allTagged ts ss → allTagged ts' ss
  | [], _ => trivial
  | s :: ss, h => ⟨Statement.Tagged.mono hts s h.1, allTagged.mono hts ss h.2⟩

end

mutual

theorem bare_bare : (s : Statement) → s.bare.bare = s.bare
  | .mustache _ => rfl
  | .decorator _ => rfl
  | .content _ => rfl
  | .comment _ => rfl
  | .partialCall _ => rfl
  | .block ⟨_, program, inverse, _, _, _, _⟩ => by
    simp only [Statement.bare, bareSection_bareSection program, bareSection_bareSection inverse]
  | .decoratorBlock ⟨_, program, inverse, _, _, _, _⟩ => by
    simp only [Statement.bare, bareSection_bareSection program, bareSection_bareSection inverse]
  | .partialBlock ⟨_, ⟨body, _, _⟩, _, _, _⟩ => by
    simp only [Statement.bare, Program.bare, bareAll_bareAll body]

theorem bareSection_bareSection :
    (p : Option (Program Statement)) → bareSection (bareSection p) = bareSection p
  | none => rfl
  | some ⟨body, _, _⟩ => by
    simp only [bareSection, Program.bare, bareAll_bareAll body]

theorem bareAll_bareAll : (ss : List Statement) → bareAll (bareAll ss) = bareAll ss
  | [] => rfl
  | s :: ss => by
    simp only [bareAll, bare_bare s, bareAll_bareAll ss]

end

theorem exists_block_bareAll {body : List Statement} :
    (∃ b, bareAll body = [.block b]) ↔ ∃ b, body = [.block b] := by
  constructor
  · rintro ⟨b, hb⟩
    rcases body with _ | ⟨s, _ | ⟨s', ss⟩⟩
    · cases hb
    · cases s with
      | block b' => exact ⟨b', rfl⟩
      | _ => cases hb
    · simp [bareAll] at hb
  · rintro ⟨b, rfl⟩
    exact ⟨_, rfl⟩

theorem taggedBody_bareAll {chained : Bool} {body : List Statement} :
    TaggedBody ts chained (bareAll body) ↔ TaggedBody ts chained body := by
  simp only [TaggedBody, Between, exists_block_bareAll, bareAll_bareAll]

mutual

theorem tagged_bare : (s : Statement) → (s.bare.Tagged ts ↔ s.Tagged ts)
  | .mustache _ => by rfl
  | .decorator _ => by rfl
  | .content _ => by rfl
  | .comment _ => by rfl
  | .partialCall _ => by rfl
  | .block ⟨_, program, inverse, _, _, _, _⟩ =>
    and_congr (sectionTagged_bare program) (sectionTagged_bare inverse)
  | .decoratorBlock ⟨_, program, inverse, _, _, _, _⟩ =>
    and_congr (sectionTagged_bare program) (sectionTagged_bare inverse)
  | .partialBlock ⟨_, ⟨body, _, _⟩, _, _, _⟩ =>
    and_congr taggedBody_bareAll (allTagged_bareAll body)

theorem sectionTagged_bare :
    (p : Option (Program Statement)) → (sectionTagged ts (bareSection p) ↔ sectionTagged ts p)
  | none => by rfl
  | some ⟨body, _, _⟩ => and_congr taggedBody_bareAll (allTagged_bareAll body)

theorem allTagged_bareAll : (ss : List Statement) → (allTagged ts (bareAll ss) ↔ allTagged ts ss)
  | [] => by rfl
  | s :: ss => and_congr (tagged_bare s) (allTagged_bareAll ss)

end

theorem Trims.allTagged {ss ss' : List Statement} (h : Trims ss ss') (hss : allTagged ts ss) :
    allTagged ts ss' := by
  have hbare : bareAll ss' = bareAll ss := h.1
  rw [← allTagged_bareAll, hbare, allTagged_bareAll]
  exact hss

end HtmlTemplate.Mustache
