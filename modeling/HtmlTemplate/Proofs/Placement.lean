import HtmlTemplate.Proofs.Alike
import HtmlTemplate.Proofs.Evaluation
import HtmlTemplate.Proofs.Spans
import Mathlib.Data.List.Permutation

/-! Where what is left of a text has been written. Each trim takes a part from one end of a
text, so what trimming takes from the start is known whatever the other end loses. A text is
read from the first place where what is left of it occurs, and that is where it has been written
unless only blanks are left. -/

namespace HtmlTemplate

namespace Text

private theorem dropIf_append {c : Char} {cs : List Char} (h : dropIf c cs ≠ []) (ds : List Char) :
    dropIf c (cs ++ ds) = dropIf c cs ++ ds := by
  cases cs with
  | nil => exact absurd rfl h
  | cons d cs =>
    simp only [List.cons_append, dropIf]
    split <;> rfl

private theorem ne_nil_of_dropIf {c : Char} {cs : List Char} (h : dropIf c cs ≠ []) : cs ≠ [] := by
  rintro rfl
  exact h rfl

theorem dropBlankLine_append {cs : List Char} (h : dropBlankLine cs ≠ []) (ds : List Char) :
    dropBlankLine (cs ++ ds) = dropBlankLine cs ++ ds := by
  have hreturn := ne_nil_of_dropIf h
  have hindent := ne_nil_of_dropIf hreturn
  simp only [dropBlankLine] at *
  rw [List.dropWhile_append, if_neg (by simpa using hindent), dropIf_append hreturn,
    dropIf_append h]

theorem trimStart_eq_nil {cs : List Char} (h : cs.all isBlank = true) : trimStart cs = [] :=
  dropWhile_eq_nil_of_all h

theorem takeWhile_isBlank_append {left : List Char} (hleft : left.all isBlank = false)
    (after : List Char) : (left ++ after).takeWhile isBlank = left.takeWhile isBlank := by
  have hshort : (left.takeWhile isBlank).length ≠ left.length := fun hlength => by
    have hall := all_takeWhile isBlank left
    rw [(List.takeWhile_prefix _).eq_of_length hlength, hleft] at hall
    cases hall
  rw [List.takeWhile_append, if_neg hshort]

theorem takeWhile_isBlank_blank_append {before left : List Char} (after : List Char)
    (hbefore : before.all isBlank = true) (hleft : left.all isBlank = false) :
    (before ++ left ++ after).takeWhile isBlank = before ++ left.takeWhile isBlank := by
  rw [List.append_assoc, List.takeWhile_append_of_pos (List.all_eq_true.mp hbefore),
    takeWhile_isBlank_append hleft]

end Text

namespace Position

theorem not_next_le (p : Position) (c : Char) : ¬ p.next c ≤ p := by
  rw [le_iff, next]
  split <;> simp only <;> omega

theorem eq_of_after_eq {p : Position} {cs ds : List Char} (h : cs <+: ds)
    (heq : p.after cs = p.after ds) : cs = ds := by
  obtain ⟨es, rfl⟩ := h
  cases es with
  | nil => exact (List.append_nil cs).symm
  | cons e es =>
    rw [after_append, after_cons] at heq
    refine absurd ?_ (not_next_le (p.after cs) e)
    exact (le_after _ es).trans_eq heq.symm

end Position

namespace Mustache

open Text (Shortens)

namespace Content

/-- The text before anything is taken from it. -/
def asWritten (c : Content) : Content :=
  { value := c.written, written := c.written, loc := c.loc }

/-- What trims make of a text, and what those of its start take from it. They take lines only
if lines may be taken. -/
inductive Takes (lines : Bool) (c : Content) : List Char → Content → Prop
  | nothing : Takes lines c [] c
  | start {c' : Content} {taken more : List Char} {t : Trim} (ht : t = .line → lines = true)
    (h : Takes lines c taken c') (hmore : c'.value = more ++ (c'.trimStart t).value) :
    Takes lines c (taken ++ more) (c'.trimStart t)
  | stop {c' : Content} {taken : List Char} {t : Trim} (ht : t = .line → lines = true)
    (h : Takes lines c taken c') : Takes lines c taken (c'.trimEnd t)

theorem shortens_trimStart (t : Trim) (c : Content) : Shortens c.value (c.trimStart t).value := by
  cases t with
  | all => exact Text.shortens_trimStart _
  | line =>
    simp only [trimStart]
    split
    · exact .refl _
    · exact Text.shortens_dropBlankLine _

theorem trimEnd_append (t : Trim) (c : Content) :
    ∃ rest, c.value = (c.trimEnd t).value ++ rest ∧ rest.all Text.isBlank = true := by
  have htake (p : Char → Bool) (hp : ∀ x, p x = true → Text.isBlank x = true) :
      ∃ rest, c.value = Text.dropEndWhile p c.value ++ rest ∧ rest.all Text.isBlank = true := by
    refine ⟨Text.takeEndWhile p c.value, (Text.dropEndWhile_append_takeEndWhile _ _).symm, ?_⟩
    rw [Text.takeEndWhile, List.all_reverse]
    exact List.all_eq_true.mpr fun x hx => hp x (List.mem_takeWhile_imp hx)
  cases t with
  | all => exact htake _ fun _ => id
  | line =>
    simp only [trimEnd]
    split
    · exact ⟨[], (List.append_nil _).symm, rfl⟩
    · exact htake _ fun _ => Text.isBlank_of_isIndent

namespace Takes

variable {lines : Bool} {c c' : Content} {taken taken' : List Char}

theorem keeps (h : c.Takes lines taken c') : c'.written = c.written ∧ c'.loc = c.loc := by
  induction h with
  | nothing => exact ⟨rfl, rfl⟩
  | @start c' _ _ t ht h hmore ih =>
    refine ⟨(c'.written_trimStart t).trans ih.1, Eq.trans ?_ ih.2⟩
    cases t <;> simp only [trimStart]
    split <;> rfl
  | @stop c' _ t ht h ih =>
    refine ⟨(c'.written_trimEnd t).trans ih.1, Eq.trans ?_ ih.2⟩
    cases t <;> simp only [trimEnd]
    split <;> rfl

theorem split (h : c.Takes lines taken c') :
    ∃ rest, c.value = taken ++ c'.value ++ rest ∧ taken.all Text.isBlank = true
      ∧ rest.all Text.isBlank = true := by
  induction h with
  | nothing => exact ⟨[], by simp, rfl, rfl⟩
  | @start c' taken more t ht h hmore ih =>
    obtain ⟨rest, hvalue, htaken, hrest⟩ := ih
    refine ⟨rest, by rw [hvalue, hmore]; simp only [List.append_assoc], ?_, hrest⟩
    have hcount := (shortens_trimStart t c').countP
    rw [hmore, List.countP_append] at hcount
    have hnone : more.countP (!Text.isBlank ·) = 0 := by omega
    rw [List.all_append, htaken, Bool.true_and]
    exact List.all_eq_true.mpr fun x hx => by simpa using List.countP_eq_zero.mp hnone x hx
  | @stop c' taken t ht h ih =>
    obtain ⟨rest, hvalue, htaken, hrest⟩ := ih
    obtain ⟨more, hmore, hblank⟩ := trimEnd_append t c'
    refine ⟨more ++ rest, ?_, htaken, by rw [List.all_append, hblank, hrest, Bool.and_self]⟩
    rw [hvalue]
    nth_rewrite 1 [hmore]
    simp only [List.append_assoc]

theorem rightStripped_trimEnd (t : Trim) (c : Content) :
    (c.trimEnd t).rightStripped = c.rightStripped := by
  cases t <;> simp only [trimEnd]
  split <;> rfl

theorem of_blank (h : c.asWritten.Takes lines taken c') (hne : c'.value ≠ [])
    (hblank : c.written.all Text.isBlank = true) :
    taken = [] ∧ c'.rightStripped = false
      ∨ lines = true ∧ c'.rightStripped = true
        ∧ taken ++ Text.dropBlankLine c.written = c.written := by
  induction h with
  | nothing => exact .inl ⟨rfl, rfl⟩
  | @start c' taken more t ht h hmore ih =>
    obtain ⟨rest, hvalue, -, -⟩ := h.split
    have hvalue : c.written = taken ++ c'.value ++ rest := hvalue
    have hleft : c'.value ≠ [] := by
      rw [hmore]
      exact List.append_ne_nil_of_right_ne_nil _ hne
    cases t with
    | all =>
      rw [hvalue, List.all_append, List.all_append, Bool.and_eq_true, Bool.and_eq_true] at hblank
      exact absurd (Text.trimStart_eq_nil hblank.1.2) hne
    | line =>
      simp only [trimStart] at hmore hne ⊢
      split at hmore
      · rename_i hflag
        obtain rfl : more = [] := List.append_left_eq_self.mp hmore.symm
        rw [if_pos hflag, List.append_nil]
        exact ih hleft
      · rename_i hflag
        rw [if_neg hflag] at hne ⊢
        obtain ⟨rfl, -⟩ := (ih hleft).resolve_right fun hline => hflag hline.2.1
        rw [List.nil_append] at hvalue ⊢
        by_cases hnone : more = []
        · subst hnone
          exact .inl ⟨rfl, by simpa using hmore.symm⟩
        · refine .inr ⟨ht rfl, ?_, ?_⟩
          · refine bne_iff_ne.mpr fun heq => hnone ?_
            exact List.append_left_eq_self.mp ((congrArg (more ++ ·) heq.symm).trans hmore.symm)
          · rw [hvalue, Text.dropBlankLine_append hne, ← List.append_assoc, ← hmore]
  | @stop c' taken t ht h ih =>
    obtain ⟨rest, hvalue, -, -⟩ := h.split
    have hvalue : c.written = taken ++ c'.value ++ rest := hvalue
    obtain ⟨more, hmore, -⟩ := trimEnd_append t c'
    rw [rightStripped_trimEnd]
    refine ih ?_
    rw [hmore]
    exact List.append_ne_nil_of_left_ne_nil hne _

theorem unique (h : c.asWritten.Takes lines taken c') (h' : c.asWritten.Takes lines taken' c')
    (hne : c'.value ≠ []) : taken = taken' := by
  obtain ⟨rest, hvalue, htaken, hrest⟩ := h.split
  obtain ⟨rest', hvalue', htaken', hrest'⟩ := h'.split
  cases hleft : c'.value.all Text.isBlank with
  | false =>
    -- The blanks in front are those taken and those left.
    have hblanks := congrArg (List.takeWhile Text.isBlank) (hvalue.symm.trans hvalue')
    rw [Text.takeWhile_isBlank_blank_append rest htaken hleft,
      Text.takeWhile_isBlank_blank_append rest' htaken' hleft] at hblanks
    exact List.append_cancel_right hblanks
  | true =>
    have hblank : c.written.all Text.isBlank = true := by
      have hvalue : c.written = taken ++ c'.value ++ rest := hvalue
      rw [hvalue, List.all_append, List.all_append, htaken, hleft, hrest]
      rfl
    obtain ⟨rfl, hflag⟩ | ⟨-, hflag, hline⟩ := h.of_blank hne hblank
    · obtain ⟨rfl, -⟩ | ⟨-, hflag', -⟩ := h'.of_blank hne hblank
      · rfl
      · rw [hflag] at hflag'
        cases hflag'
    · obtain ⟨-, hflag'⟩ | ⟨-, -, hline'⟩ := h'.of_blank hne hblank
      · rw [hflag] at hflag'
        cases hflag'
      · exact List.append_cancel_right (hline.trans hline'.symm)

end Takes

end Content

structure Lasts (keepLines : Bool) (P : Content → Prop) : Prop where
  start {c : Content} {t : Trim} : (t = .line → keepLines = false) → P c → P (c.trimStart t)
  stop {c : Content} {t : Trim} : (t = .line → keepLines = false) → P c → P (c.trimEnd t)

class HasContents (α : Type) where
  contents : α → List Content

instance : HasContents (List Statement) := ⟨contentsAll⟩
instance : HasContents (Program Statement) := ⟨Program.contents⟩
instance : HasContents (Option (Program Statement)) := ⟨sectionContents⟩
instance : HasContents (Block Statement) := ⟨fun b => Statement.contents (.block b)⟩
instance : HasContents Statement := ⟨Statement.contents⟩

def Hands {α : Type} [HasContents α] (P : Content → Prop) (a b : α) : Prop :=
  (∀ c ∈ HasContents.contents a, P c) → ∀ c ∈ HasContents.contents b, P c

variable {P : Content → Prop} {keepLines : Bool}

namespace Hands

variable {α : Type} [HasContents α] {a b c : α}

theorem refl (a : α) : Hands P a a := id

theorem trans (h : Hands P a b) (h' : Hands P b c) : Hands P a c := fun ha => h' (h ha)

theorem applyIf {p : Bool} {f : α → α} (h : p = true → ∀ a, Hands P a (f a)) (a : α) :
    Hands P a (applyIf p f a) := by
  cases p with
  | false => exact refl a
  | true => exact h rfl a

theorem cons {s s' : Statement} {ss ss' : List Statement} (h : Hands P s s')
    (h' : Hands P ss ss') : Hands P (s :: ss) (s' :: ss') := by
  intro hall
  obtain ⟨hs, hss⟩ := List.forall_mem_append.mp hall
  exact List.forall_mem_append.mpr ⟨h hs, h' hss⟩

theorem content {c c' : Content} (h : P c → P c') :
    Hands P (Statement.content c) (.content c') := by
  intro hall x hx
  obtain rfl := List.mem_singleton.mp hx
  exact h (hall c (List.mem_singleton_self c))

theorem sections {b : Block Statement} {program inverse : Option (Program Statement)}
    (h : Hands P b.program program) (h' : Hands P b.inverse inverse) :
    Hands P b { b with program, inverse } := by
  intro hall
  obtain ⟨hprogram, hinverse⟩ := List.forall_mem_append.mp hall
  exact List.forall_mem_append.mpr ⟨h hprogram, h' hinverse⟩

theorem mapBody {f : List Statement → List Statement} (h : ∀ ss, Hands P ss (f ss))
    (p : Program Statement) : Hands P p (p.mapBody f) := by
  obtain ⟨body, params, chained⟩ := p
  exact h body

theorem section_ {p p' : Program Statement} (h : Hands P p p') : Hands P (some p) (some p') := h

theorem option_map {f : Program Statement → Program Statement} (h : ∀ p, Hands P p (f p))
    (p : Option (Program Statement)) : Hands P p (p.map f) := by
  cases p with
  | none => exact refl none
  | some p => exact h p

end Hands

section

variable {f : List Statement → List Statement}

theorem hands_mapFirst (h : ∀ ss, Hands P ss (f ss)) (p : Program Statement) :
    Hands P p (p.mapFirst f) := by
  unfold Program.mapFirst
  split
  · rename_i b rest params
    have hblock : Hands P (Statement.block b)
        (.block { b with program := b.program.map (Program.mapBody f) }) :=
      Hands.sections (.option_map (.mapBody h) _) (.refl _)
    exact hblock.cons (.refl rest)
  · exact .mapBody h p

theorem hands_mapLast (h : ∀ ss, Hands P ss (f ss)) (p : Program Statement) :
    Hands P p (p.mapLast f) := by
  fun_induction Program.mapLast f p with
  | case1 call program next openStrip inverseStrip closeStrip loc rest params ih =>
    have hblock : Hands P
        (Statement.block ⟨call, program, some next, openStrip, inverseStrip, closeStrip, loc⟩)
        (.block ⟨call, program, some (next.mapLast f), openStrip, inverseStrip, closeStrip, loc⟩) :=
      Hands.sections (b := ⟨call, program, some next, openStrip, inverseStrip, closeStrip, loc⟩)
        (.refl _) ih
    exact hblock.cons (.refl rest)
  | case2 call program openStrip inverseStrip closeStrip loc rest params =>
    have hblock : Hands P
        (Statement.block ⟨call, program, none, openStrip, inverseStrip, closeStrip, loc⟩)
        (.block ⟨call, program.map (Program.mapBody f), none, openStrip, inverseStrip, closeStrip,
          loc⟩) :=
      Hands.sections (b := ⟨call, program, none, openStrip, inverseStrip, closeStrip, loc⟩)
        (.option_map (.mapBody h) program) (.refl _)
    exact hblock.cons (.refl rest)
  | case3 p => exact .mapBody h p

theorem hands_mapOpened (h : ∀ ss, Hands P ss (f ss)) (b : Block Statement) :
    Hands P b (b.mapOpened f) := by
  obtain ⟨call, _ | program, inverse, openStrip, inverseStrip, closeStrip, loc⟩ := b
  · exact Hands.sections (.refl _) (.option_map (.mapBody h) inverse)
  · exact Hands.sections (.option_map (.mapBody h) (some program)) (.refl _)

theorem hands_mapClosed (h : ∀ ss, Hands P ss (f ss)) (b : Block Statement) :
    Hands P b (b.mapClosed f) := by
  obtain ⟨call, program, _ | inverse, openStrip, inverseStrip, closeStrip, loc⟩ := b
  · exact Hands.sections (.option_map (.mapBody h) program) (.refl _)
  · exact Hands.sections (.refl _) (.option_map (.mapBody h) (some inverse))

end

theorem reach_lines (root keepLines : Bool) (before : List Statement) (s : Statement)
    (after : List Statement) :
    let r := reach root keepLines before s after
    (∀ t ∈ r.before, t = .line → keepLines = false)
      ∧ (∀ t ∈ r.after, t = .line → keepLines = false)
      ∧ (r.opensLine = true → keepLines = false) ∧ (r.closesLine = true → keepLines = false) := by
  cases keepLines with
  | false => simp
  | true =>
    unfold reach
    cases s.outline? with
    | none => simp
    | some o =>
      obtain ⟨⟨opening, closing⟩, inline, opens, closes⟩ := o
      cases opening <;> cases closing <;> simp

theorem foldl_lasts {f : Content → Trim → Content} {trims : List Trim}
    (hf : ∀ (c : Content) (t : Trim), (t = .line → keepLines = false) → P c → P (f c t))
    (htrims : ∀ t ∈ trims, t = .line → keepLines = false) {c : Content} (hc : P c) :
    P (trims.foldl f c) := by
  induction trims generalizing c with
  | nil => exact hc
  | cons t trims ih =>
    obtain ⟨ht, htrims⟩ := List.forall_mem_cons.mp htrims
    exact ih htrims (hf c t ht hc)

namespace Lasts

variable (h : Lasts keepLines P)
include h

theorem trimFirst {t : Trim} (ht : t = .line → keepLines = false) (ss : List Statement) :
    Hands P ss (trimFirst t ss) := by
  unfold Mustache.trimFirst
  split
  · exact (Hands.content (h.start ht)).cons (.refl _)
  · exact .refl ss

theorem trimLast {t : Trim} (ht : t = .line → keepLines = false) (ss : List Statement) :
    Hands P ss (trimLast t ss) := by
  fun_induction Mustache.trimLast t ss with
  | case1 => exact .refl []
  | case2 c => exact (Hands.content (h.stop ht)).cons (.refl [])
  | case3 s ss _ ih => exact (Hands.refl s).cons ih

theorem markers (first last : Bool) (ss : List Statement) :
    Hands P ss (applyIf last (Mustache.trimLast .all)
      (applyIf first (Mustache.trimFirst .all) ss)) := by
  have hall : Trim.all = .line → keepLines = false := by rintro ⟨⟩
  exact (Hands.applyIf (fun _ => h.trimFirst hall) ss).trans
    (.applyIf (fun _ => h.trimLast hall) _)

theorem trimSections (b : Block Statement) : Hands P b (b.trimSections keepLines) := by
  have hall : Trim.all = .line → keepLines = false := by rintro ⟨⟩
  obtain ⟨call, _ | program, _ | inverse, openStrip, inverseStrip, closeStrip, loc⟩ := b
  · exact .refl _
  · exact Hands.sections (.refl none) (Hands.section_ (.mapBody (h.markers _ _) inverse))
  · exact Hands.sections (Hands.section_ (.mapBody (h.markers _ _) program)) (.refl none)
  · have hline {alone : Bool} : (!keepLines && alone) = true → Trim.line = .line →
        keepLines = false := by
      intro halone _
      simpa using (Bool.and_eq_true_iff.mp halone).1
    refine Hands.sections (Hands.section_ (.mapBody (fun ss => ?_) program)) (Hands.section_ ?_)
    · exact (h.markers _ _ ss).trans (.applyIf (fun halone => h.trimLast (hline halone)) _)
    · exact ((Hands.applyIf (fun _ => hands_mapFirst (h.trimFirst hall)) inverse).trans
        (.applyIf (fun _ => hands_mapLast (h.trimLast hall)) _)).trans
        (.applyIf (fun halone => hands_mapFirst (h.trimFirst (hline halone))) _)

theorem trimInside {r : Reach} (hopens : r.opensLine = true → keepLines = false)
    (hcloses : r.closesLine = true → keepLines = false) (s : Statement) :
    Hands P s (s.trimInside r) := by
  have hinside (b : Block Statement) : Hands P b (Statement.trimInside.inside r b) :=
    (Hands.applyIf (fun ho => hands_mapOpened (h.trimFirst fun _ => hopens ho)) b).trans
      (.applyIf (fun hc => hands_mapClosed (h.trimLast fun _ => hcloses hc)) _)
  cases s with
  | block b => exact hinside b
  | decoratorBlock b => exact hinside b
  | partialBlock b =>
    obtain ⟨call, program, openStrip, closeStrip, loc⟩ := b
    exact Hands.mapBody (fun ss =>
      (Hands.applyIf (fun ho => h.trimFirst fun _ => hopens ho) ss).trans
        (.applyIf (fun hc => h.trimLast fun _ => hcloses hc) _)) program
  | _ => exact .refl _

theorem settleAfter (root : Bool) (before : List Statement) {trims : List Trim}
    (htrims : ∀ t ∈ trims, t = .line → keepLines = false) (text : Option Content)
    (ss : List Statement) :
    Hands P ss (settleAfter root keepLines before trims text ss) := by
  induction ss generalizing before trims text with
  | nil => exact .refl []
  | cons s after ih =>
    obtain ⟨-, hafter, hopens, hcloses⟩ := reach_lines root keepLines before s after
    rw [settleAfter.eq_def]
    dsimp only
    split
    · rename_i c
      refine Hands.cons (.content fun hc => ?_) (ih _ hafter _)
      refine foldl_lasts (fun _ _ => h.stop) ?_ (foldl_lasts (fun _ _ => h.start) htrims hc)
      cases after with
      | nil => exact List.forall_mem_nil _
      | cons n after => exact (reach_lines root keepLines (.content c :: before) n after).1
    · exact Hands.cons (.refl _) (ih _ hafter _)
    · exact (h.trimInside hopens hcloses s).cons (ih _ hafter _)

end Lasts

mutual

theorem Lasts.control (h : Lasts keepLines P) :
    (s : Statement) → Hands P s (s.control keepLines)
  | .block ⟨call, program, inverse, openStrip, inverseStrip, closeStrip, loc⟩ => by
    rw [Statement.control]
    exact (Hands.sections (b := ⟨call, program, inverse, openStrip, inverseStrip, closeStrip, loc⟩)
      (Lasts.controlSection h program) (Lasts.controlSection h inverse)).trans (h.trimSections _)
  | .decoratorBlock ⟨call, program, inverse, openStrip, inverseStrip, closeStrip, loc⟩ => by
    rw [Statement.control]
    exact (Hands.sections (b := ⟨call, program, inverse, openStrip, inverseStrip, closeStrip, loc⟩)
      (Lasts.controlSection h program) (Lasts.controlSection h inverse)).trans (h.trimSections _)
  | .partialBlock ⟨call, program, openStrip, closeStrip, loc⟩ => by
    rw [Statement.control]
    exact (Lasts.controlProgram h program).trans (.mapBody (h.markers _ _) _)
  | .mustache m => by
    rw [Statement.control]
    exact .refl _
  | .decorator m => by
    rw [Statement.control]
    exact .refl _
  | .content c => by
    rw [Statement.control]
    exact .refl _
  | .comment c => by
    rw [Statement.control]
    exact .refl _
  | .partialCall p => by
    rw [Statement.control]
    exact .refl _

theorem Lasts.controlAll (h : Lasts keepLines P) :
    (ss : List Statement) → Hands P ss (controlAll keepLines ss)
  | [] => by
    rw [Mustache.controlAll]
    exact .refl _
  | s :: ss => by
    rw [Mustache.controlAll]
    exact (Lasts.control h s).cons (Lasts.controlAll h ss)

theorem Lasts.controlProgram (h : Lasts keepLines P) :
    (p : Program Statement) → Hands P p (controlProgram keepLines p)
  | ⟨body, params, chained⟩ => by
    rw [Mustache.controlProgram]
    have hbody := Lasts.controlAll h body
    split
    · exact hbody
    · exact hbody.trans (h.settleAfter false [] (List.forall_mem_nil _) none _)

theorem Lasts.controlSection (h : Lasts keepLines P) :
    (p : Option (Program Statement)) → Hands P p (controlSection keepLines p)
  | none => by
    rw [Mustache.controlSection]
    exact .refl _
  | some p => by
    rw [Mustache.controlSection]
    exact Lasts.controlProgram h p

end

theorem Lasts.control_program (h : Lasts keepLines P) (p : Program Statement) :
    Hands P p (p.control keepLines) := by
  obtain ⟨body, params, chained⟩ := p
  exact (h.controlAll body).trans (h.settleAfter true [] (List.forall_mem_nil _) none _)

def Portion.AsWritten : Portion → Prop
  | .body ss => ∀ c ∈ contentsAll ss, c = c.asWritten
  | .inverse _ _ p => ∀ c ∈ sectionContents p, c = c.asWritten

theorem Spells.asWritten {ts : List Token} {portion : Portion} (h : Spells ts portion) :
    portion.AsWritten := by
  induction h with
  | nil => exact List.forall_mem_nil _
  | content hsymbol hafter ih => exact List.forall_mem_cons.mpr ⟨rfl, ih⟩
  | oneTag htag hs hafter ih => cases hs <;> exact ih
  | block hopening hclosing hloc hbody hinverse hafter ihbody ihinverse ih =>
    exact List.forall_mem_append.mpr ⟨List.forall_mem_append.mpr ⟨ihbody, ihinverse⟩, ih⟩
  | inverseBlock hopening hclosing hloc hbody hinverse hplain hafter ihbody ihinverse ih =>
    exact List.forall_mem_append.mpr ⟨List.forall_mem_append.mpr ⟨ihinverse, ihbody⟩, ih⟩
  | decoratorBlock hopening hclosing hbody hafter ihbody ih =>
    exact List.forall_mem_append.mpr
      ⟨List.forall_mem_append.mpr ⟨ihbody, List.forall_mem_nil _⟩, ih⟩
  | partialBlock hopening hclosing hbody hafter ihbody ih =>
    exact List.forall_mem_append.mpr ⟨ihbody, ih⟩
  | noInverse closing => exact List.forall_mem_nil _
  | elseSection closing hsymbol hbody ih => exact ih
  | chain closing htag hbody hinverse ihbody ihinverse =>
    exact List.forall_mem_append.mpr
      ⟨List.forall_mem_append.mpr ⟨ihbody, ihinverse⟩, List.forall_mem_nil _⟩

namespace Content

open HtmlTemplate.Tree.Assembly (textStart)

theorem trimStart_suffix (t : Trim) (c : Content) : (c.trimStart t).value <:+ c.value := by
  cases t with
  | all => exact List.dropWhile_suffix _
  | line =>
    simp only [trimStart]
    split
    · exact List.suffix_refl _
    · exact dropBlankLine_suffix _

private theorem lasts_takes (keepLines : Bool) :
    Lasts keepLines fun c => ∃ taken, c.asWritten.Takes (!keepLines) taken c where
  start {c t} ht h := by
    obtain ⟨taken, h⟩ := h
    obtain ⟨more, hmore⟩ := c.trimStart_suffix t
    have hnext := Takes.start (by simpa using ht) h hmore.symm
    rw [asWritten, hnext.keeps.1, hnext.keeps.2]
    exact ⟨_, hnext⟩
  stop {c t} ht h := by
    obtain ⟨taken, h⟩ := h
    have hnext := Takes.stop (t := t) (by simpa using ht) h
    rw [asWritten, hnext.keeps.1, hnext.keeps.2]
    exact ⟨_, hnext⟩

theorem takes_of_parse {text : List Char} {keepLines : Bool} {program : Program Statement}
    (h : parse text keepLines = .ok program) {c : Content} (hc : c ∈ program.contents) :
    ∃ taken, c.asWritten.Takes (!keepLines) taken c := by
  obtain ⟨_, _, body, -, -, hspells, rfl⟩ := parse_spelled h
  refine (lasts_takes keepLines).control_program _ (fun c hc => ⟨[], ?_⟩) c hc
  have hsame : c = c.asWritten := hspells.asWritten c hc
  rw [← hsame]
  exact .nothing

variable {c : Content} {lines : Bool} {taken : List Char}

theorem Takes.isPrefix (h : c.asWritten.Takes lines taken c) :
    taken ++ c.value <+: c.written := by
  obtain ⟨rest, hvalue, -, -⟩ := h.split
  exact ⟨rest, hvalue.symm⟩

theorem Takes.textStart_eq_iff (h : c.asWritten.Takes lines taken c) (hne : c.value ≠ []) :
    textStart c = c.loc.start.after taken ↔
      ∀ before, before ++ c.value <+: c.written → taken <+: before := by
  have hoccurs := h.isPrefix
  obtain ⟨first, hstart, hfirst, hleast⟩ := Tree.Assembly.textStart_first
    (((List.suffix_append taken c.value).isInfix).trans hoccurs.isInfix) hne
  have hle := hleast taken hoccurs
  rw [hstart]
  constructor
  · intro heq before hbefore
    rw [← Position.eq_of_after_eq hle heq]
    exact hleast before hbefore
  · intro hleast'
    rw [hle.eq_of_length_le (hleast' first hfirst).length_le]

theorem Takes.le_of_not_blank (h : c.asWritten.Takes lines taken c)
    (hblank : c.value.all Text.isBlank = false) {before : List Char}
    (hbefore : before ++ c.value <+: c.written) : taken <+: before := by
  obtain ⟨rest, hvalue, htaken, -⟩ := h.split
  obtain ⟨rest', hvalue'⟩ := hbefore
  have hblanks := congrArg (List.takeWhile Text.isBlank) (hvalue'.trans hvalue)
  rw [Text.takeWhile_isBlank_blank_append rest htaken hblank] at hblanks
  cases hall : before.all Text.isBlank with
  | true =>
    rw [Text.takeWhile_isBlank_blank_append rest' hall hblank] at hblanks
    obtain rfl := List.append_cancel_right hblanks
    exact List.prefix_refl _
  | false =>
    rw [List.append_assoc, Text.takeWhile_isBlank_append hall] at hblanks
    exact (List.prefix_append _ _).trans (hblanks ▸ List.takeWhile_prefix _)

theorem Takes.eq_nil (h : c.asWritten.Takes false taken c) (hne : c.value ≠ [])
    (hblank : c.value.all Text.isBlank = true) : taken = [] := by
  obtain ⟨rest, hvalue, htaken, hrest⟩ := h.split
  have hvalue : c.written = taken ++ c.value ++ rest := hvalue
  have hwritten : c.written.all Text.isBlank = true := by
    rw [hvalue, List.all_append, List.all_append, htaken, hblank, hrest]
    rfl
  obtain ⟨rfl, -⟩ | ⟨hlines, -⟩ := h.of_blank hne hwritten
  · rfl
  · cases hlines

/-- What has been taken from the start of a text is known. The text is read from right after it
if what is left does not occur before, and so it is if lines are kept or something is left that
is not blank. -/
theorem textStart_eq_after_iff {text : List Char} {keepLines : Bool} {program : Program Statement}
    (h : parse text keepLines = .ok program) {c : Content} (hc : c ∈ program.contents)
    (hne : c.value ≠ []) :
    ∃ taken, (∀ taken', c.asWritten.Takes (!keepLines) taken' c ↔ taken' = taken)
      ∧ (textStart c = c.loc.start.after taken ↔
          ∀ before, before ++ c.value <+: c.written → taken <+: before)
      ∧ (keepLines = true ∨ c.value.all Text.isBlank = false →
          textStart c = c.loc.start.after taken) := by
  obtain ⟨taken, htakes⟩ := takes_of_parse h hc
  have hiff := htakes.textStart_eq_iff hne
  refine ⟨taken, fun taken' => ⟨fun h' => h'.unique htakes hne, fun h' => h' ▸ htakes⟩, hiff,
    fun hright => hiff.mpr fun before hbefore => ?_⟩
  cases hblank : c.value.all Text.isBlank with
  | false => exact htakes.le_of_not_blank hblank hbefore
  | true =>
    obtain rfl : keepLines = true := hright.resolve_right (by simp [hblank])
    rw [htakes.eq_nil hne hblank]
    exact List.nil_prefix

/-- Of two line breaks after the opening tag the first is taken, and the second is read from
where the first has been written. -/
theorem textStart_lineBreaks :
    ∃ program c, parse "{{#c x}}\n\n{{/c}}".toList false = .ok program
      ∧ c ∈ program.contents ∧ c.value = ['\n'] ∧ c.loc.start = ⟨1, 8⟩
      ∧ (∀ taken, c.asWritten.Takes true taken c ↔ taken = ['\n'])
      ∧ textStart c ≠ c.loc.start.after ['\n'] := by
  have hscan : scan "{{#c x}}\n\n{{/c}}".toList = .ok
      [.onLine (.opener .block) 0 3, .onLine (.name ['c'] false) 3 4,
        .onLine (.name ['x'] false) 5 6, .onLine .close 6 8,
        { symbol := .content "\n\n".toList, loc := ⟨⟨1, 8⟩, ⟨3, 0⟩⟩ },
        { symbol := .opener .endBlock, loc := ⟨⟨3, 0⟩, ⟨3, 3⟩⟩ },
        { symbol := .name ['c'] false, loc := ⟨⟨3, 3⟩, ⟨3, 4⟩⟩ },
        { symbol := .close, loc := ⟨⟨3, 4⟩, ⟨3, 6⟩⟩ },
        { symbol := .endOfInput, loc := ⟨⟨3, 6⟩, ⟨3, 6⟩⟩ }] := by decide +kernel
  have hparse := parse_of_tokens false hscan (by cbv)
  let left : Content :=
    { value := ['\n'], written := ['\n', '\n'], rightStripped := true, loc := ⟨⟨1, 8⟩, ⟨3, 0⟩⟩ }
  have hleft : left ∈ [left] := List.mem_singleton_self left
  obtain ⟨taken, htakes, hstart, -⟩ := textStart_eq_after_iff hparse hleft (by simp [left])
  have htaken : left.asWritten.Takes true ['\n'] left :=
    Takes.start (t := .line) (fun _ => rfl) .nothing rfl
  obtain rfl := (htakes _).mp htaken
  refine ⟨_, left, hparse, hleft, rfl, rfl, htakes, fun heq => ?_⟩
  have hnone := hstart.mp heq [] ⟨['\n'], rfl⟩
  cases List.prefix_nil.mp hnone

end Content

end Mustache

end HtmlTemplate
