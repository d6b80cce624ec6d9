import HtmlTemplate.Proofs.Bare

/-! What holds of all bodies of a tree after whitespace control. A body between tags is settled,
and then trimmed at its ends only by what stands around it. -/

namespace HtmlTemplate.Mustache

mutual

/-- All bodies in a statement have a property. It may tell the body that an `{{else if}}` makes
up from those between tags. -/
def Statement.EachBody (B : Bool → List Statement → Prop) : Statement → Prop
  | .mustache _ | .decorator _ | .content _ | .comment _ | .partialCall _ => True
  | .block ⟨_, program, inverse, _, _, _, _⟩ => sectionEach B program ∧ sectionEach B inverse
  | .decoratorBlock ⟨_, program, inverse, _, _, _, _⟩ =>
    sectionEach B program ∧ sectionEach B inverse
  | .partialBlock ⟨_, program, _, _, _⟩ => Program.EachBody B program

def sectionEach (B : Bool → List Statement → Prop) : Option (Program Statement) → Prop
  | none => True
  | some p => Program.EachBody B p

def Program.EachBody (B : Bool → List Statement → Prop) : Program Statement → Prop
  | ⟨body, _, chained⟩ => B chained body ∧ allEach B body

def allEach (B : Bool → List Statement → Prop) : List Statement → Prop
  | [] => True
  | s :: ss => s.EachBody B ∧ allEach B ss

end

/-- A property of bodies that trims of their ends keep, and that does not look into blocks. -/
structure Sturdy (B : Bool → List Statement → Prop) : Prop where
  first {chained : Bool} {ss : List Statement} (t : Trim) :
    B chained ss → B chained (trimFirst t ss)
  last {chained : Bool} {ss : List Statement} (t : Trim) : B chained ss → B chained (trimLast t ss)
  block {chained : Bool} {b b' : Block Statement} {ss : List Statement} :
    B chained (.block b :: ss) → B chained (.block b' :: ss)

variable {B B' : Bool → List Statement → Prop} {f g : List Statement → List Statement} {t : Trim}
  {ss : List Statement} {p : Program Statement} {q : Option (Program Statement)}
  {b : Block Statement}

theorem allEach_trimFirst (h : allEach B ss) : allEach B (trimFirst t ss) := by
  unfold trimFirst
  split
  · exact h
  · exact h

theorem allEach_trimLast (h : allEach B ss) : allEach B (trimLast t ss) := by
  fun_induction trimLast t ss with
  | case1 => trivial
  | case2 c => exact h
  | case3 s ss hne ih => exact ⟨h.1, ih h.2⟩

def KeepsBodies (B : Bool → List Statement → Prop) (f : List Statement → List Statement) : Prop :=
  ∀ chained ss, B chained ss ∧ allEach B ss → B chained (f ss) ∧ allEach B (f ss)

theorem KeepsBodies.applyIf (hf : KeepsBodies B f) (cond : Bool) :
    KeepsBodies B (Mustache.applyIf cond f) := by
  cases cond with
  | false => exact fun _ _ h => h
  | true => exact hf

theorem KeepsBodies.comp (hf : KeepsBodies B f) (hg : KeepsBodies B g) :
    KeepsBodies B fun ss => g (f ss) :=
  fun chained ss h => hg chained _ (hf chained ss h)

theorem Program.EachBody.mapBody (h : p.EachBody B) (hf : KeepsBodies B f) :
    (p.mapBody f).EachBody B := by
  obtain ⟨body, params, chained⟩ := p
  exact hf chained body h

theorem sectionEach_map (h : sectionEach B q) (hf : KeepsBodies B f) :
    sectionEach B (q.map (Program.mapBody f)) := by
  cases q with
  | none => trivial
  | some p => exact Program.EachBody.mapBody h hf

def Block.EachBody (B : Bool → List Statement → Prop) (b : Block Statement) : Prop :=
  sectionEach B b.program ∧ sectionEach B b.inverse

theorem Block.EachBody.mapOpened (h : b.EachBody B) (hf : KeepsBodies B f) :
    (b.mapOpened f).EachBody B := by
  obtain ⟨call, _ | program, inverse, openStrip, inverseStrip, closeStrip, loc⟩ := b
  · exact ⟨h.1, sectionEach_map h.2 hf⟩
  · exact ⟨Program.EachBody.mapBody h.1 hf, h.2⟩

theorem Block.EachBody.mapClosed (h : b.EachBody B) (hf : KeepsBodies B f) :
    (b.mapClosed f).EachBody B := by
  obtain ⟨call, program, _ | inverse, openStrip, inverseStrip, closeStrip, loc⟩ := b
  · exact ⟨sectionEach_map h.1 hf, h.2⟩
  · exact ⟨h.1, Program.EachBody.mapBody h.2 hf⟩

namespace Sturdy

variable (hB : Sturdy B)
include hB

theorem keepsFirst (t : Trim) : KeepsBodies B (trimFirst t) :=
  fun _ _ h => ⟨hB.first t h.1, allEach_trimFirst h.2⟩

theorem keepsLast (t : Trim) : KeepsBodies B (trimLast t) :=
  fun _ _ h => ⟨hB.last t h.1, allEach_trimLast h.2⟩

theorem keepsEnds (t : Trim) (first last : Bool) :
    KeepsBodies B fun body => applyIf last (trimLast t) (applyIf first (trimFirst t) body) :=
  ((hB.keepsFirst t).applyIf first).comp ((hB.keepsLast t).applyIf last)

theorem mapFirst (h : p.EachBody B) (hf : KeepsBodies B f) : (p.mapFirst f).EachBody B := by
  unfold Program.mapFirst
  split
  · obtain ⟨hbody, ⟨hprogram, hinverse⟩, hrest⟩ := h
    exact ⟨hB.block hbody, ⟨sectionEach_map hprogram hf, hinverse⟩, hrest⟩
  · exact h.mapBody hf

theorem mapLast (h : p.EachBody B) (hf : KeepsBodies B f) : (p.mapLast f).EachBody B := by
  fun_induction Program.mapLast f p with
  | case1 call program next openStrip inverseStrip closeStrip loc rest params ih =>
    obtain ⟨hbody, ⟨hprogram, hinverse⟩, hrest⟩ := h
    exact ⟨hB.block hbody, ⟨hprogram, ih hinverse⟩, hrest⟩
  | case2 call program openStrip inverseStrip closeStrip loc rest params =>
    obtain ⟨hbody, ⟨hprogram, hinverse⟩, hrest⟩ := h
    exact ⟨hB.block hbody, ⟨sectionEach_map hprogram hf, hinverse⟩, hrest⟩
  | case3 p => exact h.mapBody hf

theorem trimSections (h : b.EachBody B) (keepLines : Bool) :
    (b.trimSections keepLines).EachBody B := by
  obtain ⟨call, _ | program, _ | inverse, openStrip, inverseStrip, closeStrip, loc⟩ := b
  · exact h
  · exact ⟨h.1, Program.EachBody.mapBody h.2 (hB.keepsEnds .all _ _)⟩
  · exact ⟨Program.EachBody.mapBody h.1 (hB.keepsEnds .all _ _), h.2⟩
  · obtain ⟨hprogram, hinverse⟩ := h
    have happly {cond : Bool} {g : Program Statement → Program Statement} {p : Program Statement}
        (hg : p.EachBody B → (g p).EachBody B) (hp : p.EachBody B) :
        (applyIf cond g p).EachBody B := by
      cases cond with
      | false => exact hp
      | true => exact hg hp
    refine ⟨Program.EachBody.mapBody hprogram
      ((hB.keepsEnds .all _ _).comp ((hB.keepsLast .line).applyIf _)), ?_⟩
    exact happly (fun h => hB.mapFirst h (hB.keepsFirst .line))
      (happly (fun h => hB.mapLast h (hB.keepsLast .all))
        (happly (fun h => hB.mapFirst h (hB.keepsFirst .all)) hinverse))

theorem trimInside {s : Statement} (h : s.EachBody B) (r : Reach) :
    (s.trimInside r).EachBody B := by
  have hinside {b : Block Statement} (h : b.EachBody B) :
      (Statement.trimInside.inside r b).EachBody B := by
    have hopened : (applyIf r.opensLine (Block.mapOpened (trimFirst .line)) b).EachBody B := by
      cases r.opensLine with
      | false => exact h
      | true => exact h.mapOpened (hB.keepsFirst .line)
    unfold Statement.trimInside.inside
    cases r.closesLine with
    | false => exact hopened
    | true => exact hopened.mapClosed (hB.keepsLast .line)
  cases s with
  | block b => exact hinside h
  | decoratorBlock b => exact hinside h
  | partialBlock b =>
    obtain ⟨call, program, openStrip, closeStrip, loc⟩ := b
    exact Program.EachBody.mapBody h (hB.keepsEnds .line _ _)
  | _ => trivial

theorem allEach_settleAfter (root keepLines : Bool) (before : List Statement) (trims : List Trim)
    (text : Option Content) (h : allEach B ss) :
    allEach B (settleAfter root keepLines before trims text ss) := by
  induction ss generalizing before trims text with
  | nil => trivial
  | cons s after ih =>
    rw [settleAfter.eq_def]
    dsimp only
    split
    · exact ⟨trivial, ih _ _ _ h.2⟩
    · exact ⟨trivial, ih _ _ _ h.2⟩
    · exact ⟨hB.trimInside h.1 _, ih _ _ _ h.2⟩

end Sturdy

/-- What is known of bodies as they are written gives what is known of them when they are
settled. -/
structure Settles (B B' : Bool → List Statement → Prop) : Prop extends Sturdy B' where
  settle {ss : List Statement} (root keepLines : Bool) :
    B false ss → B' false (Mustache.settle root keepLines (ss.map (·.control keepLines)))
  /-- A body that an `{{else if}}` makes up is not settled. -/
  chained {ss : List Statement} (keepLines : Bool) :
    B true ss → B' true (ss.map (·.control keepLines))

theorem controlAll_eq_map (keepLines : Bool) (ss : List Statement) :
    controlAll keepLines ss = ss.map (·.control keepLines) := by
  induction ss with
  | nil => rw [controlAll, List.map_nil]
  | cons s ss ih => rw [controlAll, List.map_cons, ih]

theorem control_eq_content {s : Statement} {c : Content} (keepLines : Bool) :
    s.control keepLines = .content c ↔ s = .content c := by
  cases s <;> rw [Statement.control.eq_def] <;> simp

theorem settled_each (hB : Settles B B') (root keepLines : Bool) (h : B false ss)
    (heach : allEach B' (controlAll keepLines ss)) :
    B' false (settle root keepLines (controlAll keepLines ss))
      ∧ allEach B' (settle root keepLines (controlAll keepLines ss)) := by
  refine ⟨?_, hB.allEach_settleAfter root keepLines [] [] none heach⟩
  rw [controlAll_eq_map]
  exact hB.settle root keepLines h

mutual

theorem control_each (hB : Settles B B') (keepLines : Bool) :
    (s : Statement) → s.EachBody B → (s.control keepLines).EachBody B'
  | .block ⟨call, program, inverse, openStrip, inverseStrip, closeStrip, loc⟩, h => by
    rw [Statement.control]
    exact hB.trimSections ⟨controlSection_each hB keepLines program h.1,
      controlSection_each hB keepLines inverse h.2⟩ keepLines
  | .decoratorBlock ⟨call, program, inverse, openStrip, inverseStrip, closeStrip, loc⟩, h => by
    rw [Statement.control]
    exact hB.trimSections ⟨controlSection_each hB keepLines program h.1,
      controlSection_each hB keepLines inverse h.2⟩ keepLines
  | .partialBlock ⟨call, program, openStrip, closeStrip, loc⟩, h => by
    rw [Statement.control]
    exact (controlProgram_each hB keepLines program h).mapBody (hB.keepsEnds .all _ _)
  | .mustache m, _ => by
    rw [Statement.control]
    trivial
  | .decorator m, _ => by
    rw [Statement.control]
    trivial
  | .content c, _ => by
    rw [Statement.control]
    trivial
  | .comment c, _ => by
    rw [Statement.control]
    trivial
  | .partialCall p, _ => by
    rw [Statement.control]
    trivial

theorem controlAll_each (hB : Settles B B') (keepLines : Bool) :
    (ss : List Statement) → allEach B ss → allEach B' (controlAll keepLines ss)
  | [], _ => by
    rw [controlAll]
    trivial
  | s :: ss, h => by
    rw [controlAll]
    exact ⟨control_each hB keepLines s h.1, controlAll_each hB keepLines ss h.2⟩

theorem controlProgram_each (hB : Settles B B') (keepLines : Bool) :
    (p : Program Statement) → p.EachBody B → (controlProgram keepLines p).EachBody B'
  | ⟨body, params, chained⟩, h => by
    rw [controlProgram]
    have heach := controlAll_each hB keepLines body h.2
    cases chained with
    | true => exact ⟨controlAll_eq_map keepLines body ▸ hB.chained keepLines h.1, heach⟩
    | false => exact settled_each hB false keepLines h.1 heach

theorem controlSection_each (hB : Settles B B') (keepLines : Bool) :
    (q : Option (Program Statement)) → sectionEach B q →
      sectionEach B' (controlSection keepLines q)
  | none, _ => by
    rw [controlSection]
    trivial
  | some p, h => by
    rw [controlSection]
    exact controlProgram_each hB keepLines p h

end

theorem Program.EachBody.control (hB : Settles B B') (keepLines : Bool)
    (h : Program.EachBody B ⟨ss, [], false⟩) :
    (Program.control keepLines ⟨ss, [], false⟩).EachBody B' :=
  settled_each hB true keepLines h.1 (controlAll_each hB keepLines ss h.2)

end HtmlTemplate.Mustache
