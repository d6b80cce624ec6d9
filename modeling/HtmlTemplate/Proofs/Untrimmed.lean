import HtmlTemplate.Mustache.Whitespace

/-! Statements that whitespace control leaves as they are: nothing in them is marked, no
text between them touches a line break and nothing stands alone on a line. -/

namespace HtmlTemplate.Mustache

structure Content.Inline (c : Content) : Prop where
  starts : c.startsLine = false
  ends : c.endsLine = false

mutual

def Statement.Untrimmed : Statement → Prop
  | .mustache m => m.strip = {}
  | .content c => c.Inline
  | .block ⟨_, program, inverse, openStrip, inverseStrip, closeStrip, _⟩ =>
    openStrip = {} ∧ inverseStrip = {} ∧ closeStrip = {}
      ∧ sectionUntrimmed program ∧ sectionUntrimmed inverse
  | _ => False

def allUntrimmed : List Statement → Prop
  | [] => True
  | s :: ss => s.Untrimmed ∧ allUntrimmed ss

def programUntrimmed : Program Statement → Prop
  | ⟨body, _, chained⟩ => chained = false ∧ allUntrimmed body

def sectionUntrimmed : Option (Program Statement) → Prop
  | none => True
  | some p => programUntrimmed p

end

theorem untrimmed_of_mem {ss : List Statement} (h : allUntrimmed ss) {s : Statement}
    (hs : s ∈ ss) : s.Untrimmed := by
  induction ss with
  | nil => cases hs
  | cons first ss ih =>
    obtain rfl | hs := List.mem_cons.mp hs
    · exact h.1
    · exact ih h.2 hs

theorem endsLine_untrimmed {ss : List Statement} (h : ∀ s ∈ ss, s.Untrimmed) :
    endsLine false ss = false := by
  cases ss with
  | nil => rfl
  | cons s ss =>
    have hs := h s List.mem_cons_self
    cases s with
    | content c => simp [endsLine, Content.Inline.starts hs]
    | _ => rfl

theorem startsLine_untrimmed {ss : List Statement} (h : ∀ s ∈ ss, s.Untrimmed) :
    startsLine false ss = false := by
  cases ss with
  | nil => rfl
  | cons s ss =>
    have hs := h s List.mem_cons_self
    cases s with
    | content c => simp [startsLine, Content.Inline.ends hs]
    | _ => rfl

structure Block.Untrimmed (b : Block Statement) : Prop where
  openStrip : b.openStrip = {}
  inverseStrip : b.inverseStrip = {}
  closeStrip : b.closeStrip = {}
  program : sectionUntrimmed b.program
  inverse : sectionUntrimmed b.inverse

theorem body_untrimmed {p : Program Statement} (h : programUntrimmed p) :
    ∀ s ∈ p.body, s.Untrimmed := by
  obtain ⟨body, params, chained⟩ := p
  exact fun s => untrimmed_of_mem h.2

theorem firstBody_untrimmed {p : Program Statement} (h : programUntrimmed p) :
    p.firstBody = p.body := by
  obtain ⟨body, params, chained⟩ := p
  obtain ⟨rfl, -⟩ := h
  unfold Program.firstBody
  split
  · rename_i heq
    cases heq
  · rfl

namespace Block

variable {b : Block Statement}

theorem opened_untrimmed (h : b.Untrimmed) : ∀ s ∈ b.openedBody, s.Untrimmed := by
  obtain ⟨call, program, inverse, openStrip, inverseStrip, closeStrip, loc⟩ := b
  cases program with
  | some p => exact body_untrimmed h.program
  | none =>
    cases inverse with
    | some inverse => exact body_untrimmed h.inverse
    | none => simp [openedBody]

theorem closed_untrimmed (h : b.Untrimmed) : ∀ s ∈ b.closedBody, s.Untrimmed := by
  obtain ⟨call, program, inverse, openStrip, inverseStrip, closeStrip, loc⟩ := b
  cases program with
  | none => exact opened_untrimmed h
  | some p =>
    cases inverse with
    | none => exact opened_untrimmed h
    | some inverse =>
      show ∀ s ∈ inverse.firstBody, s.Untrimmed
      rw [firstBody_untrimmed h.inverse]
      exact body_untrimmed h.inverse

theorem trimSections_untrimmed (keepLines : Bool) (h : b.Untrimmed) :
    b.trimSections keepLines = b := by
  obtain ⟨call, program, inverse, openStrip, inverseStrip, closeStrip, loc⟩ := b
  obtain rfl : openStrip = {} := h.openStrip
  obtain rfl : inverseStrip = {} := h.inverseStrip
  obtain rfl : closeStrip = {} := h.closeStrip
  have hprogram : sectionUntrimmed program := h.program
  have hinverse : sectionUntrimmed inverse := h.inverse
  unfold trimSections
  cases program with
  | none =>
    cases inverse with
    | none => rfl
    | some inverse => rfl
  | some p =>
    cases inverse with
    | none => rfl
    | some inverse =>
      have halone : elseAlone p inverse = false := by
        unfold elseAlone
        rw [firstBody_untrimmed hinverse, startsLine_untrimmed, Bool.false_and]
        exact fun s hs => body_untrimmed hprogram s (List.mem_reverse.mp hs)
      simp only [halone, Bool.and_false]
      rfl

end Block

private theorem reach_untrimmed {s : Statement} (h : s.Untrimmed) (root keepLines : Bool)
    (before after : List Statement) : reach root keepLines before s after = {} := by
  cases s with
  | content c => rfl
  | mustache m =>
    have hstrip : m.strip = {} := h
    simp [reach, Statement.outline?, hstrip]
  | block b =>
    have hb : b.Untrimmed := by
      obtain ⟨hopen, hinverse, hclose, hprogram, hother⟩ := h
      exact ⟨hopen, hinverse, hclose, hprogram, hother⟩
    have hopens := endsLine_untrimmed (Block.opened_untrimmed hb)
    have hcloses : startsLine false b.closedBody.reverse = false :=
      startsLine_untrimmed fun s hs => Block.closed_untrimmed hb s (List.mem_reverse.mp hs)
    simp [reach, Statement.outline?, Outline.ofBodies, hb.openStrip, hb.closeStrip, hopens, hcloses]
  | _ => exact absurd h (by simp [Statement.Untrimmed])

private theorem trimInside_untrimmed (s : Statement) (h : s.Untrimmed) : s.trimInside {} = s := by
  cases s with
  | partialBlock b => exact absurd h (by simp [Statement.Untrimmed])
  | _ => rfl

private theorem settleAfter_untrimmed {ss : List Statement} (h : ∀ s ∈ ss, s.Untrimmed)
    (root keepLines : Bool) (before : List Statement) (text : Option Content) :
    settleAfter root keepLines before [] text ss = ss := by
  induction ss generalizing before text with
  | nil => rfl
  | cons s ss ih =>
    obtain ⟨hs, hss⟩ := List.forall_mem_cons.mp h
    have hreach := reach_untrimmed hs root keepLines before ss
    have htail : ∀ before text, settleAfter root keepLines before [] text ss = ss := ih hss
    unfold settleAfter
    rw [hreach]
    cases s with
    | content c =>
      cases ss with
      | nil => rfl
      | cons next ss =>
        have hnext := reach_untrimmed (hss next List.mem_cons_self) root keepLines
          (.content c :: before) ss
        simp only [List.foldl_nil, htail, hnext]
    | partialCall p => exact absurd hs (by simp [Statement.Untrimmed])
    | _ =>
      dsimp only
      rw [htail, trimInside_untrimmed _ hs]

theorem settle_untrimmed {ss : List Statement} (h : ∀ s ∈ ss, s.Untrimmed)
    (root keepLines : Bool) : settle root keepLines ss = ss :=
  settleAfter_untrimmed h root keepLines [] none

mutual

theorem control_untrimmed (keepLines : Bool) : (s : Statement) → s.Untrimmed →
    s.control keepLines = s
  | .block ⟨call, program, inverse, openStrip, inverseStrip, closeStrip, loc⟩, h => by
    obtain ⟨hopen, hinverse, hclose, hprogram, hother⟩ := h
    rw [Statement.control, controlSection_untrimmed keepLines program hprogram,
      controlSection_untrimmed keepLines inverse hother]
    exact congrArg Statement.block
      (Block.trimSections_untrimmed keepLines ⟨hopen, hinverse, hclose, hprogram, hother⟩)
  | .mustache m, _ => rfl
  | .content c, _ => rfl
  | .decorator m, h => nomatch h
  | .decoratorBlock b, h => nomatch h
  | .comment c, h => nomatch h
  | .partialCall p, h => nomatch h
  | .partialBlock b, h => nomatch h

theorem controlAll_untrimmed (keepLines : Bool) : (ss : List Statement) → allUntrimmed ss →
    controlAll keepLines ss = ss
  | [], _ => rfl
  | s :: ss, h => by
    rw [controlAll, control_untrimmed keepLines s h.1, controlAll_untrimmed keepLines ss h.2]

theorem controlProgram_untrimmed (keepLines : Bool) : (p : Program Statement) →
    programUntrimmed p → controlProgram keepLines p = p
  | ⟨body, params, chained⟩, h => by
    obtain ⟨rfl, hbody⟩ := h
    rw [controlProgram, controlAll_untrimmed keepLines body hbody]
    rw [if_neg Bool.false_ne_true, settle_untrimmed fun s => untrimmed_of_mem hbody]

theorem controlSection_untrimmed (keepLines : Bool) : (p : Option (Program Statement)) →
    sectionUntrimmed p → controlSection keepLines p = p
  | none, _ => rfl
  | some p, h => by
    rw [controlSection, controlProgram_untrimmed keepLines p h]

end

theorem Program.control_untrimmed {p : Program Statement} (h : allUntrimmed p.body)
    (keepLines : Bool) : p.control keepLines = p := by
  unfold Program.control Program.mapBody
  dsimp only
  rw [controlAll_untrimmed keepLines p.body h, settle_untrimmed fun s => untrimmed_of_mem h]

end HtmlTemplate.Mustache
