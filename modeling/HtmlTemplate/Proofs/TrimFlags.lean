import HtmlTemplate.Proofs.BodyTrims
import HtmlTemplate.Proofs.Evaluation
import HtmlTemplate.Proofs.Passes

/-! What the flags of a text say when whitespace control is over. After one marker the flag of an
end is right; a second one finds no blank left and clears it. Two markers come to an end of a text
only where the tag of an `{{else if}}` counts for its own block and for the one in whose inverse
it is, or the closing tag for all blocks of a chain. -/

namespace HtmlTemplate.Mustache

/-- A text with the number of markers that trim its start, and of those that trim its end. -/
structure MarkedText where
  content : Content
  before : Nat
  after : Nat

mutual

/-- The texts of a statement between so many markers. The first and the last text of the block of
an `{{else if}}` have those of the blocks around it besides. -/
def Statement.texts (before after opened closed : Nat) : Statement → List MarkedText
  | .content c => [⟨c, before, after⟩]
  | .block b => b.texts opened closed
  | .decoratorBlock b => b.texts opened closed
  | .partialBlock ⟨_, program, openStrip, closeStrip, _⟩ =>
    program.texts (opened + openStrip.closing.toNat) (closed + closeStrip.opening.toNat)
  | .mustache _ => []
  | .decorator _ => []
  | .comment _ => []
  | .partialCall _ => []

def Block.texts (opened closed : Nat) : Block Statement → List MarkedText
  | ⟨_, program, inverse, openStrip, inverseStrip, closeStrip, _⟩ =>
    sectionTexts (opened + openStrip.closing.toNat)
        (if inverse.isSome then inverseStrip.opening.toNat else closed + closeStrip.opening.toNat)
        program
      ++ sectionTexts
        (if program.isSome then inverseStrip.closing.toNat else opened + openStrip.closing.toNat)
        (closed + closeStrip.opening.toNat) inverse

/-- The texts of statements, each between the markers of those next to it. -/
def allTexts (before after : Nat) : List Statement → List MarkedText
  | [] => []
  | s :: ss =>
    s.texts before (ss.head?.elim after (·.sides.opening.toNat)) 0 0
      ++ allTexts s.sides.closing.toNat after ss

/-- The texts of the section of an `{{else if}}`, which holds just its block. -/
def linkTexts (opened closed : Nat) : List Statement → List MarkedText
  | [] => []
  | s :: ss => s.texts 0 0 opened closed ++ linkTexts 0 0 ss

def Program.texts (before after : Nat) : Program Statement → List MarkedText
  | ⟨body, _, chained⟩ =>
    if chained then linkTexts before after body else allTexts before after body

def sectionTexts (before after : Nat) : Option (Program Statement) → List MarkedText
  | none => []
  | some p => p.texts before after

end

mutual

theorem Statement.map_texts : (before after opened closed : Nat) → (s : Statement) →
    (s.texts before after opened closed).map (·.content) = s.contents
  | _, _, _, _, .content c => rfl
  | _, _, opened, closed, .block b => Block.map_texts opened closed b
  | _, _, opened, closed, .decoratorBlock b => Block.map_texts opened closed b
  | _, _, _, _, .partialBlock ⟨_, program, _, _, _⟩ => by
    rw [Statement.texts, Statement.contents, Program.map_texts _ _ program]
  | _, _, _, _, .mustache _ => rfl
  | _, _, _, _, .decorator _ => rfl
  | _, _, _, _, .comment _ => rfl
  | _, _, _, _, .partialCall _ => rfl

theorem Block.map_texts : (opened closed : Nat) → (b : Block Statement) →
    (b.texts opened closed).map (·.content)
      = sectionContents b.program ++ sectionContents b.inverse
  | _, _, ⟨_, program, inverse, _, _, _, _⟩ => by
    rw [Block.texts, List.map_append, map_sectionTexts _ _ program, map_sectionTexts _ _ inverse]

theorem map_allTexts : (before after : Nat) → (ss : List Statement) →
    (allTexts before after ss).map (·.content) = contentsAll ss
  | _, _, [] => rfl
  | _, _, s :: ss => by
    rw [allTexts, contentsAll, List.map_append, Statement.map_texts _ _ _ _ s, map_allTexts _ _ ss]

theorem map_linkTexts : (opened closed : Nat) → (ss : List Statement) →
    (linkTexts opened closed ss).map (·.content) = contentsAll ss
  | _, _, [] => rfl
  | _, _, s :: ss => by
    rw [linkTexts, contentsAll, List.map_append, Statement.map_texts _ _ _ _ s,
      map_linkTexts _ _ ss]

theorem Program.map_texts : (before after : Nat) → (p : Program Statement) →
    (p.texts before after).map (·.content) = p.contents
  | before, after, ⟨body, _, chained⟩ => by
    rw [Program.texts, Program.contents]
    split
    · exact map_linkTexts before after body
    · exact map_allTexts before after body

theorem map_sectionTexts : (before after : Nat) → (q : Option (Program Statement)) →
    (sectionTexts before after q).map (·.content) = sectionContents q
  | _, _, none => rfl
  | before, after, some p => Program.map_texts before after p

end

namespace Content

/-- Blanks have gone from the start of a text. -/
def StartGone (c : Content) : Prop :=
  ∃ front back, front ≠ [] ∧ front.all Text.isBlank = true ∧ back.all Text.isBlank = true
    ∧ c.written = front ++ (c.value ++ back)

/-- Blanks have gone from the end of a text. -/
def EndGone (c : Content) : Prop :=
  ∃ front back, back ≠ [] ∧ front.all Text.isBlank = true ∧ back.all Text.isBlank = true
    ∧ c.written = front ++ (c.value ++ back)

theorem gone_unique {front back front' back' value : List Char}
    (hvalue : value.all Text.isBlank = false) (hfront : front.all Text.isBlank = true)
    (hfront' : front'.all Text.isBlank = true)
    (h : front ++ (value ++ back) = front' ++ (value ++ back')) :
    front = front' ∧ back = back' := by
  have hblanks := congrArg (List.takeWhile Text.isBlank) h
  rw [← List.append_assoc, ← List.append_assoc,
    Text.takeWhile_isBlank_blank_append _ hfront hvalue,
    Text.takeWhile_isBlank_blank_append _ hfront' hvalue] at hblanks
  obtain rfl := List.append_cancel_right hblanks
  exact ⟨rfl, List.append_cancel_left (List.append_cancel_left h)⟩

end Content

def MarkedText.Flagged (t : MarkedText) : Prop :=
  t.content.isBlank = false →
    (t.content.rightStripped = true ↔ t.content.StartGone ∧ t.before ≤ 1)
      ∧ (t.content.leftStripped = true ↔ t.content.EndGone ∧ t.after ≤ 1)

theorem Content.Left.flagged {c : Content} {before after : Passes} (h : c.Left before after) :
    MarkedText.Flagged ⟨c, before.marks, after.marks⟩ := by
  intro hblank
  obtain ⟨front, back, hwritten, hfront, hback, hstart, hend⟩ := h hblank
  have hvalue : c.value.all Text.isBlank = false := by
    rw [Content.isBlank, hwritten, List.all_append, List.all_append, hfront, hback] at hblank
    simpa using hblank
  have hunique {front' back' : List Char} (hfront' : front'.all Text.isBlank = true)
      (h' : c.written = front' ++ (c.value ++ back')) : front = front' ∧ back = back' :=
    Content.gone_unique hvalue hfront hfront' (hwritten.symm.trans h')
  have hfrontGone : front ≠ [] ↔ c.StartGone := by
    refine ⟨fun hne => ⟨front, back, hne, hfront, hback, hwritten⟩, ?_⟩
    rintro ⟨front', back', hne, hfront', -, hwritten'⟩
    rwa [(hunique hfront' hwritten').1]
  have hbackGone : back ≠ [] ↔ c.EndGone := by
    refine ⟨fun hne => ⟨front, back, hne, hfront, hback, hwritten⟩, ?_⟩
    rintro ⟨front', back', hne, hfront', -, hwritten'⟩
    rwa [(hunique hfront' hwritten').2]
  rw [← hfrontGone, ← hbackGone]
  exact ⟨hstart.flag, hend.flag⟩

private theorem marks_passesBefore (last : Passes) (ss : List Statement) :
    (passesBefore last ss).marks = ss.head?.elim last.marks (·.sides.opening.toNat) := by
  cases ss with
  | nil => rfl
  | cons s ss => exact Nat.zero_add _

theorem marks_inner (marked : Bool) : (Passes.mark ⟨0, true⟩ marked).marks = marked.toNat :=
  Nat.zero_add _

mutual

theorem Statement.Left.flagged : (s : Statement) → {before after opened closed : Passes} →
    s.Left before after opened closed →
    ∀ t ∈ s.texts before.marks after.marks opened.marks closed.marks, t.Flagged
  | .content c, _, _, _, _, h => List.forall_mem_singleton.mpr (Content.Left.flagged h)
  | .block b, _, _, _, _, h => Block.Left.flagged b h
  | .decoratorBlock b, _, _, _, _, h => Block.Left.flagged b h
  | .partialBlock ⟨_, program, _, _, _⟩, _, _, _, _, h => by
    rw [Statement.texts]
    exact Program.Left.flagged program h.left
  | .mustache _, _, _, _, _, _ => List.forall_mem_nil _
  | .decorator _, _, _, _, _, _ => List.forall_mem_nil _
  | .comment _, _, _, _, _, _ => List.forall_mem_nil _
  | .partialCall _, _, _, _, _, _ => List.forall_mem_nil _

theorem Block.Left.flagged : (b : Block Statement) → {opened closed : Passes} →
    b.Left opened closed → ∀ t ∈ b.texts opened.marks closed.marks, t.Flagged
  | ⟨_, program, inverse, _, _, _, _⟩, _, _, h => by
    rw [Block.texts]
    obtain ⟨hprogram, hinverse⟩ := h
    have hfirst := sectionLeft.flagged program (plainLeft.section hprogram)
    rw [apply_ite Passes.marks, marks_inner] at hfirst
    refine List.forall_mem_append.mpr ⟨hfirst, ?_⟩
    cases program with
    | none => exact sectionLeft.flagged inverse (plainLeft.section hinverse)
    | some p => exact marks_inner _ ▸ sectionLeft.flagged inverse hinverse

theorem allLeft.flagged : (ss : List Statement) → {before after : Passes} →
    allLeft before after ss → ∀ t ∈ allTexts before.marks after.marks ss, t.Flagged
  | [], _, _, _ => List.forall_mem_nil _
  | s :: ss, before, after, h => by
    obtain ⟨⟨opened, closed, hopened, hclosed, hs⟩, hss⟩ := h
    have hs' := Statement.Left.flagged s hs
    have hss' := allLeft.flagged ss hss
    rw [hopened, hclosed, marks_passesBefore] at hs'
    rw [marks_inner] at hss'
    exact List.forall_mem_append.mpr ⟨hs', hss'⟩

theorem linkLeft.flagged : (ss : List Statement) → {opened closed : Passes} →
    linkLeft opened closed ss → ∀ t ∈ linkTexts opened.marks closed.marks ss, t.Flagged
  | [], _, _, h => h.elim
  | [s], _, _, h => List.forall_mem_append.mpr
    ⟨Statement.Left.flagged s h.2, List.forall_mem_nil _⟩
  | _ :: _ :: _, _, _, h => h.elim

theorem Program.Left.flagged : (p : Program Statement) → {before after : Passes} →
    p.Left before after → ∀ t ∈ p.texts before.marks after.marks, t.Flagged
  | ⟨body, _, true⟩, _, _, h => linkLeft.flagged body h
  | ⟨body, _, false⟩, _, _, h => allLeft.flagged body h

theorem sectionLeft.flagged : (q : Option (Program Statement)) → {before after : Passes} →
    sectionLeft before after q → ∀ t ∈ sectionTexts before.marks after.marks q, t.Flagged
  | none, _, _, _ => List.forall_mem_nil _
  | some p, _, _, h => Program.Left.flagged p h

end

def Program.Unchained (p : Program Statement) : Prop :=
  p.EachBody fun chained _ => chained = false

def MarkedText.Once (t : MarkedText) : Prop := t.before ≤ 1 ∧ t.after ≤ 1

mutual

theorem Statement.texts_once : (s : Statement) → {before after : Nat} → before ≤ 1 → after ≤ 1 →
    s.EachBody (fun chained _ => chained = false) → ∀ t ∈ s.texts before after 0 0, t.Once
  | .content _, _, _, hbefore, hafter, _ => List.forall_mem_singleton.mpr ⟨hbefore, hafter⟩
  | .block b, _, _, _, _, h => Block.texts_once b h
  | .decoratorBlock b, _, _, _, _, h => Block.texts_once b h
  | .partialBlock ⟨_, program, openStrip, closeStrip, _⟩, _, _, _, _, h => by
    rw [Statement.texts, Nat.zero_add, Nat.zero_add]
    exact Program.texts_once program (Bool.toNat_le _) (Bool.toNat_le _) h
  | .mustache _, _, _, _, _, _ => List.forall_mem_nil _
  | .decorator _, _, _, _, _, _ => List.forall_mem_nil _
  | .comment _, _, _, _, _, _ => List.forall_mem_nil _
  | .partialCall _, _, _, _, _, _ => List.forall_mem_nil _

theorem Block.texts_once : (b : Block Statement) →
    b.EachBody (fun chained _ => chained = false) → ∀ t ∈ b.texts 0 0, t.Once
  | ⟨_, program, inverse, openStrip, inverseStrip, closeStrip, _⟩, h => by
    rw [Block.texts, Nat.zero_add, Nat.zero_add, ← apply_ite Bool.toNat, ← apply_ite Bool.toNat]
    exact List.forall_mem_append.mpr
      ⟨sectionTexts_once program (Bool.toNat_le _) (Bool.toNat_le _) h.1,
        sectionTexts_once inverse (Bool.toNat_le _) (Bool.toNat_le _) h.2⟩

theorem allTexts_once : (ss : List Statement) → {before after : Nat} → before ≤ 1 → after ≤ 1 →
    allEach (fun chained _ => chained = false) ss → ∀ t ∈ allTexts before after ss, t.Once
  | [], _, _, _, _, _ => List.forall_mem_nil _
  | s :: ss, before, after, hbefore, hafter, h => by
    have hnext : ss.head?.elim after (·.sides.opening.toNat) ≤ 1 := by
      cases ss with
      | nil => exact hafter
      | cons n ss => exact Bool.toNat_le _
    exact List.forall_mem_append.mpr
      ⟨Statement.texts_once s hbefore hnext h.1, allTexts_once ss (Bool.toNat_le _) hafter h.2⟩

theorem Program.texts_once : (p : Program Statement) → {before after : Nat} → before ≤ 1 →
    after ≤ 1 → p.Unchained → ∀ t ∈ p.texts before after, t.Once
  | ⟨_, _, true⟩, _, _, _, _, h => Bool.noConfusion h.1
  | ⟨body, _, false⟩, _, _, hbefore, hafter, h => allTexts_once body hbefore hafter h.2

theorem sectionTexts_once : (q : Option (Program Statement)) → {before after : Nat} →
    before ≤ 1 → after ≤ 1 → sectionEach (fun chained _ => chained = false) q →
    ∀ t ∈ sectionTexts before after q, t.Once
  | none, _, _, _, _, _ => List.forall_mem_nil _
  | some p, _, _, hbefore, hafter, h => Program.texts_once p hbefore hafter h

end

/-- The flags of every text of a template that is not blank tell whether its ends have lost
anything, but for an end that two markers trim, where the flag is never set. There is none where
there is no `{{else if}}`. -/
theorem parse_flags {text : List Char} {keepLines : Bool} {program : Program Statement}
    (h : parse text keepLines = .ok program) :
    (program.texts 0 0).map (·.content) = program.contents
      ∧ (∀ t ∈ program.texts 0 0, t.content.isBlank = false →
          (t.content.rightStripped = true ↔ t.content.StartGone ∧ t.before ≤ 1)
            ∧ (t.content.leftStripped = true ↔ t.content.EndGone ∧ t.after ≤ 1))
      ∧ (program.Unchained → ∀ t ∈ program.texts 0 0, t.before ≤ 1 ∧ t.after ≤ 1) := by
  obtain ⟨ts, _, body, -, -, hspells, rfl⟩ := parse_spelled h
  refine ⟨Program.map_texts 0 0 _, ?_, Program.texts_once _ (Nat.zero_le 1) (Nat.zero_le 1)⟩
  exact allLeft.flagged _ (allLeft_settleAfter [] [] none (hspells.left keepLines) fun hc => hc)

/-- The marker of an `{{else b~}}` takes the blank after it, and then clears the flag: it trims
the text for the block of the `{{else b}}` and again for the block around it. -/
theorem parse_flags_chain :
    ∃ (text : List Char) (program : Program Statement),
      text = "{{#a}}{{else b~}} y{{/a}}".toList
      ∧ parse text false = .ok program
      ∧ ∃ c ∈ program.contents, c.StartGone ∧ c.rightStripped = false := by
  have hscan : scan "{{#a}}{{else b~}} y{{/a}}".toList = .ok
      [.onLine (.opener .block) 0 3, .onLine (.name ['a'] false) 3 4, .onLine .close 4 6,
        .onLine (.opener .elseChain) 6 12, .onLine (.name ['b'] false) 13 14,
        .onLine .close 14 17 ⟨false, true⟩, .onLine (.content " y".toList) 17 19,
        .onLine (.opener .endBlock) 19 22, .onLine (.name ['a'] false) 22 23, .onLine .close 23 25,
        .onLine .endOfInput 25 25] := by decide +kernel
  have hparse := parse_of_tokens false hscan (by cbv)
  let y : Content := { value := ['y'], written := [' ', 'y'], loc := ⟨⟨1, 17⟩, ⟨1, 19⟩⟩ }
  obtain ⟨-, hflags, -⟩ := parse_flags hparse
  obtain ⟨hstart, -⟩ := hflags ⟨y, 2, 0⟩ (List.mem_singleton_self _) (by decide)
  refine ⟨_, _, rfl, hparse, y, List.mem_singleton_self _, ⟨[' '], [], ?_⟩, ?_⟩
  · decide
  · exact Bool.eq_false_iff.mpr fun htrue => absurd (hstart.mp htrue).2 (by decide)

end HtmlTemplate.Mustache
