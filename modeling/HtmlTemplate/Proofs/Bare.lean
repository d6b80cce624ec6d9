import HtmlTemplate.Proofs.Within

/-! Whitespace control trims the texts of a tree and leaves everything else as it is. The
tree without what whitespace control decides is the same before and after. -/

namespace HtmlTemplate.Mustache

/-- A tree without what whitespace control decides, and whether the texts in it are parts
of what was written. -/
class Trimmable (α : Type) where
  bare : α → α
  Fits : α → Prop

mutual

def Statement.bare : Statement → Statement
  | .mustache m => .mustache m
  | .decorator m => .decorator m
  | .content c =>
    .content { c with value := c.written, leftStripped := false, rightStripped := false }
  | .comment c => .comment c
  | .partialCall p => .partialCall { p with indent := [] }
  | .block ⟨call, program, inverse, openStrip, inverseStrip, closeStrip, loc⟩ =>
    .block ⟨call, bareSection program, bareSection inverse, openStrip, inverseStrip, closeStrip,
      loc⟩
  | .decoratorBlock ⟨call, program, inverse, openStrip, inverseStrip, closeStrip, loc⟩ =>
    .decoratorBlock ⟨call, bareSection program, bareSection inverse, openStrip, inverseStrip,
      closeStrip, loc⟩
  | .partialBlock ⟨call, program, openStrip, closeStrip, loc⟩ =>
    .partialBlock ⟨call, program.bare, openStrip, closeStrip, loc⟩

def bareAll : List Statement → List Statement
  | [] => []
  | s :: ss => s.bare :: bareAll ss

def Program.bare : Program Statement → Program Statement
  | ⟨body, params, chained⟩ => ⟨bareAll body, params, chained⟩

def bareSection : Option (Program Statement) → Option (Program Statement)
  | none => none
  | some p => some p.bare

end

mutual

def Statement.Fits : Statement → Prop
  | .mustache _ => True
  | .decorator _ => True
  | .content c => c.value <:+: c.written
  | .comment _ => True
  | .partialCall _ => True
  | .block ⟨_, program, inverse, _, _, _, _⟩ => sectionFits program ∧ sectionFits inverse
  | .decoratorBlock ⟨_, program, inverse, _, _, _, _⟩ => sectionFits program ∧ sectionFits inverse
  | .partialBlock ⟨_, program, _, _, _⟩ => Program.Fits program

def allFit : List Statement → Prop
  | [] => True
  | s :: ss => s.Fits ∧ allFit ss

def Program.Fits : Program Statement → Prop
  | ⟨body, _, _⟩ => allFit body

def sectionFits : Option (Program Statement) → Prop
  | none => True
  | some p => Program.Fits p

end

def Block.bare (b : Block Statement) : Block Statement :=
  { b with program := bareSection b.program, inverse := bareSection b.inverse }

def Block.Fits (b : Block Statement) : Prop :=
  sectionFits b.program ∧ sectionFits b.inverse

instance : Trimmable Statement := ⟨Statement.bare, Statement.Fits⟩
instance : Trimmable (List Statement) := ⟨bareAll, allFit⟩
instance : Trimmable (Program Statement) := ⟨Program.bare, Program.Fits⟩
instance : Trimmable (Option (Program Statement)) := ⟨bareSection, sectionFits⟩
instance : Trimmable (Block Statement) := ⟨Block.bare, Block.Fits⟩

/-- The second is the first with texts trimmed. -/
def Trims {α : Type} [Trimmable α] (a b : α) : Prop :=
  Trimmable.bare b = Trimmable.bare a ∧ (Trimmable.Fits a → Trimmable.Fits b)

namespace Trims

variable {α : Type} [Trimmable α] {a b c : α}

theorem refl (a : α) : Trims a a := ⟨rfl, id⟩

theorem trans (h : Trims a b) (h' : Trims b c) : Trims a c :=
  ⟨h'.1.trans h.1, fun hfits => h'.2 (h.2 hfits)⟩

theorem applyIf (p : Bool) {f : α → α} (h : ∀ a, Trims a (f a)) (a : α) :
    Trims a (applyIf p f a) := by
  cases p with
  | false => exact refl a
  | true => exact h a

theorem cons {s s' : Statement} {ss ss' : List Statement} (h : Trims s s') (h' : Trims ss ss') :
    Trims (s :: ss) (s' :: ss') :=
  ⟨congrArg₂ List.cons h.1 h'.1, fun hfits => ⟨h.2 hfits.1, h'.2 hfits.2⟩⟩

theorem program {body body' : List Statement} (h : Trims body body')
    (params : List (List Char)) (chained : Bool) :
    Trims (Program.mk body params chained) ⟨body', params, chained⟩ :=
  ⟨congrArg (Program.mk · params chained) h.1, h.2⟩

theorem section_ {p p' : Program Statement} (h : Trims p p') : Trims (some p) (some p') :=
  ⟨congrArg some h.1, h.2⟩

theorem block {b b' : Block Statement} (h : Trims b b') :
    Trims (Statement.block b) (.block b') :=
  ⟨congrArg Statement.block h.1, h.2⟩

theorem decoratorBlock {b b' : Block Statement} (h : Trims b b') :
    Trims (Statement.decoratorBlock b) (.decoratorBlock b') :=
  ⟨congrArg Statement.decoratorBlock h.1, h.2⟩

theorem partialBlock {call : Call Expression} {p p' : Program Statement} (h : Trims p p')
    (openStrip closeStrip : Strip) (loc : Location) :
    Trims (Statement.partialBlock ⟨call, p, openStrip, closeStrip, loc⟩)
      (.partialBlock ⟨call, p', openStrip, closeStrip, loc⟩) :=
  ⟨congrArg (fun p => Statement.partialBlock ⟨call, p, openStrip, closeStrip, loc⟩) h.1, h.2⟩

theorem sections {b : Block Statement} {program inverse : Option (Program Statement)}
    (h : Trims b.program program) (h' : Trims b.inverse inverse) :
    Trims b { b with program, inverse } := by
  refine ⟨?_, fun hfits => ⟨h.2 hfits.1, h'.2 hfits.2⟩⟩
  show Block.bare _ = Block.bare _
  simp only [Block.bare]
  exact congrArg₂ (fun p i => { b with program := p, inverse := i }) h.1 h'.1

theorem mapBody {f : List Statement → List Statement} (h : ∀ ss, Trims ss (f ss))
    (p : Program Statement) : Trims p (p.mapBody f) :=
  (h p.body).program p.params p.chained

theorem option_map {f : Program Statement → Program Statement} (h : ∀ p, Trims p (f p))
    (p : Option (Program Statement)) : Trims p (p.map f) := by
  cases p with
  | none => exact refl _
  | some p => exact (h p).section_

end Trims

private theorem dropIf_suffix (c : Char) (cs : List Char) : Text.dropIf c cs <:+ cs := by
  cases cs with
  | nil => exact List.suffix_refl _
  | cons d ds =>
    simp only [Text.dropIf]
    split
    · exact List.suffix_cons d ds
    · exact List.suffix_refl _

theorem dropBlankLine_suffix (cs : List Char) : Text.dropBlankLine cs <:+ cs :=
  ((dropIf_suffix _ _).trans (dropIf_suffix _ _)).trans (List.dropWhile_suffix _)

theorem dropEndWhile_isPrefix (p : Char → Bool) (cs : List Char) :
    Text.dropEndWhile p cs <+: cs :=
  ⟨_, Text.dropEndWhile_append_takeEndWhile p cs⟩

theorem trims_content {c c' : Content} (hwritten : c'.written = c.written)
    (hloc : c'.loc = c.loc) (hvalue : c'.value <:+: c.value) :
    Trims (Statement.content c) (.content c') := by
  refine ⟨?_, fun hfits => ?_⟩
  · show Statement.bare (.content c') = Statement.bare (.content c)
    simp only [Statement.bare, hwritten, hloc]
  · have hfits : c.value <:+: c.written := hfits
    show c'.value <:+: c'.written
    rw [hwritten]
    exact hvalue.trans hfits

theorem trims_trimStart (t : Trim) (c : Content) :
    Trims (Statement.content c) (.content (c.trimStart t)) := by
  cases t with
  | all => exact trims_content rfl rfl (List.dropWhile_suffix _).isInfix
  | line =>
    simp only [Content.trimStart]
    split
    · exact .refl _
    · exact trims_content rfl rfl (dropBlankLine_suffix _).isInfix

theorem trims_trimEnd (t : Trim) (c : Content) :
    Trims (Statement.content c) (.content (c.trimEnd t)) := by
  cases t with
  | all => exact trims_content rfl rfl (dropEndWhile_isPrefix _ _).isInfix
  | line =>
    simp only [Content.trimEnd]
    split
    · exact .refl _
    · exact trims_content rfl rfl (dropEndWhile_isPrefix _ _).isInfix

theorem trims_foldl {f : Content → Trim → Content}
    (h : ∀ c t, Trims (Statement.content c) (.content (f c t))) (ts : List Trim) (c : Content) :
    Trims (Statement.content c) (.content (ts.foldl f c)) := by
  induction ts generalizing c with
  | nil => exact .refl _
  | cons t ts ih => exact (h c t).trans (ih _)

theorem trims_trimFirst (t : Trim) (ss : List Statement) : Trims ss (trimFirst t ss) := by
  unfold trimFirst
  split
  · exact (trims_trimStart t _).cons (.refl _)
  · exact .refl _

theorem trims_trimLast (t : Trim) (ss : List Statement) : Trims ss (trimLast t ss) := by
  fun_induction trimLast t ss with
  | case1 => exact .refl _
  | case2 c => exact (trims_trimEnd t c).cons (.refl _)
  | case3 s ss _ ih => exact (Trims.refl s).cons ih

section

variable {f : List Statement → List Statement}

theorem trims_mapFirst (h : ∀ ss, Trims ss (f ss)) (p : Program Statement) :
    Trims p (p.mapFirst f) := by
  unfold Program.mapFirst
  split
  · exact ((Trims.sections (.option_map (.mapBody h) _) (.refl _)).block.cons (.refl _)).program
      _ _
  · exact .mapBody h p

private theorem trims_mapLast (h : ∀ ss, Trims ss (f ss)) (p : Program Statement) :
    Trims p (p.mapLast f) := by
  fun_induction Program.mapLast f p with
  | case1 call program next openStrip inverseStrip closeStrip loc rest params ih =>
    exact ((Trims.sections (b := ⟨call, program, some next, openStrip, inverseStrip, closeStrip,
      loc⟩) (.refl _) ih.section_).block.cons (.refl _)).program _ _
  | case2 call program openStrip inverseStrip closeStrip loc rest params =>
    exact ((Trims.sections (b := ⟨call, program, none, openStrip, inverseStrip, closeStrip,
      loc⟩) (.option_map (.mapBody h) program) (.refl _)).block.cons (.refl _)).program _ _
  | case3 p => exact .mapBody h p

private theorem trims_mapOpened (h : ∀ ss, Trims ss (f ss)) (b : Block Statement) :
    Trims b (b.mapOpened f) := by
  unfold Block.mapOpened
  split
  · rename_i p hp
    refine .sections ?_ (.refl _)
    rw [hp]
    exact (Trims.mapBody h p).section_
  · exact .sections (.refl _) (.option_map (.mapBody h) _)

private theorem trims_mapClosed (h : ∀ ss, Trims ss (f ss)) (b : Block Statement) :
    Trims b (b.mapClosed f) := by
  unfold Block.mapClosed
  split
  · rename_i p hp
    refine .sections (.refl _) ?_
    rw [hp]
    exact (Trims.mapBody h p).section_
  · exact .sections (.option_map (.mapBody h) _) (.refl _)

end

private theorem trims_trimOnly (b : Block Statement) (p : Program Statement) :
    Trims p (b.trimOnly p) :=
  .mapBody (fun ss => (Trims.applyIf _ (trims_trimFirst .all) ss).trans
    (.applyIf _ (trims_trimLast .all) _)) p

private theorem trims_trimSections (keepLines : Bool) (b : Block Statement) :
    Trims b (b.trimSections keepLines) := by
  unfold Block.trimSections
  split
  · exact .refl b
  · rename_i p hp hinverse
    refine .sections ?_ (.refl _)
    rw [hp]
    exact (trims_trimOnly b p).section_
  · rename_i inverse hp hinverse
    refine .sections (.refl _) ?_
    rw [hinverse]
    exact (trims_trimOnly b inverse).section_
  · rename_i p inverse hp hinverse
    refine .sections ?_ ?_
    · rw [hp]
      exact (Trims.mapBody (fun ss => ((Trims.applyIf _ (trims_trimFirst .all) ss).trans
        (.applyIf _ (trims_trimLast .all) _)).trans (.applyIf _ (trims_trimLast .line) _))
        p).section_
    · rw [hinverse]
      exact (((Trims.applyIf _ (trims_mapFirst (trims_trimFirst .all)) inverse).trans
        (.applyIf _ (trims_mapLast (trims_trimLast .all)) _)).trans
        (.applyIf _ (trims_mapFirst (trims_trimFirst .line)) _)).section_

theorem trims_trimInside (r : Reach) (s : Statement) : Trims s (s.trimInside r) := by
  have hinside (b : Block Statement) : Trims b (Statement.trimInside.inside r b) :=
    (Trims.applyIf _ (trims_mapOpened (trims_trimFirst .line)) b).trans
      (.applyIf _ (trims_mapClosed (trims_trimLast .line)) _)
  unfold Statement.trimInside
  split
  · exact (hinside _).block
  · exact (hinside _).decoratorBlock
  · exact (Trims.mapBody (fun ss => (Trims.applyIf _ (trims_trimFirst .line) ss).trans
      (.applyIf _ (trims_trimLast .line) _)) _).partialBlock _ _ _
  · exact .refl s

theorem trims_settleAfter (root keepLines : Bool) (before : List Statement) (trims : List Trim)
    (text : Option Content) (ss : List Statement) :
    Trims ss (settleAfter root keepLines before trims text ss) := by
  induction ss generalizing before trims text with
  | nil => exact .refl _
  | cons s after ih =>
    rw [settleAfter.eq_def]
    dsimp only
    split
    · exact ((trims_foldl (fun c t => trims_trimStart t c) _ _).trans
        (trims_foldl (fun c t => trims_trimEnd t c) _ _)).cons (ih _ _ _)
    · refine Trims.cons ⟨?_, id⟩ (ih _ _ _)
      show Statement.bare _ = Statement.bare _
      simp only [Statement.bare]
    · exact (trims_trimInside _ s).cons (ih _ _ _)

theorem trims_settle (root keepLines : Bool) (ss : List Statement) :
    Trims ss (settle root keepLines ss) :=
  trims_settleAfter root keepLines [] [] none ss

mutual

theorem trims_control (keepLines : Bool) : (s : Statement) → Trims s (s.control keepLines)
  | .block ⟨call, program, inverse, openStrip, inverseStrip, closeStrip, loc⟩ => by
    rw [Statement.control]
    exact ((Trims.sections (b := ⟨call, program, inverse, openStrip, inverseStrip, closeStrip,
      loc⟩) (trims_controlSection keepLines program)
      (trims_controlSection keepLines inverse)).trans (trims_trimSections keepLines _)).block
  | .decoratorBlock ⟨call, program, inverse, openStrip, inverseStrip, closeStrip, loc⟩ => by
    rw [Statement.control]
    exact ((Trims.sections (b := ⟨call, program, inverse, openStrip, inverseStrip, closeStrip,
      loc⟩) (trims_controlSection keepLines program)
      (trims_controlSection keepLines inverse)).trans
        (trims_trimSections keepLines _)).decoratorBlock
  | .partialBlock ⟨call, program, openStrip, closeStrip, loc⟩ => by
    rw [Statement.control]
    exact ((trims_controlProgram keepLines program).trans
      (.mapBody (fun ss => (Trims.applyIf _ (trims_trimFirst .all) ss).trans
        (.applyIf _ (trims_trimLast .all) _)) _)).partialBlock _ _ _
  | .mustache m => by
    rw [Statement.control]
    exact .refl _
  | .decorator m => by
    rw [Statement.control]
    exact .refl _
  | .content c => by
    rw [Statement.control]
    exact .refl _
  | .comment c => by
    rw [Statement.control]
    exact .refl _
  | .partialCall p => by
    rw [Statement.control]
    exact .refl _

theorem trims_controlAll (keepLines : Bool) :
    (ss : List Statement) → Trims ss (controlAll keepLines ss)
  | [] => by
    rw [controlAll]
    exact .refl _
  | s :: ss => by
    rw [controlAll]
    exact (trims_control keepLines s).cons (trims_controlAll keepLines ss)

theorem trims_controlProgram (keepLines : Bool) :
    (p : Program Statement) → Trims p (controlProgram keepLines p)
  | ⟨body, params, chained⟩ => by
    rw [controlProgram]
    refine ((trims_controlAll keepLines body).trans ?_).program params chained
    split
    · exact .refl _
    · exact trims_settle false keepLines _

theorem trims_controlSection (keepLines : Bool) :
    (p : Option (Program Statement)) → Trims p (controlSection keepLines p)
  | none => by
    rw [controlSection]
    exact .refl _
  | some p => by
    rw [controlSection]
    exact (trims_controlProgram keepLines p).section_

end

end HtmlTemplate.Mustache
