import HtmlTemplate.Proofs.Bare

/-! What the tags of a tree do to the texts around them is read off the texts as written, so it
is the same before and after trimming. -/

namespace HtmlTemplate.Mustache

theorem bareAll_eq_map (ss : List Statement) : bareAll ss = ss.map Statement.bare := by
  induction ss with
  | nil => rfl
  | cons s ss ih => rw [bareAll, ih, List.map_cons]

theorem bareAll_reverse (ss : List Statement) : bareAll ss.reverse = (bareAll ss).reverse := by
  rw [bareAll_eq_map, bareAll_eq_map, List.map_reverse]

@[simp] theorem bareAll_isEmpty (ss : List Statement) : (bareAll ss).isEmpty = ss.isEmpty := by
  rw [bareAll_eq_map, List.isEmpty_map]

theorem startsLine_bareAll (root : Bool) (before : List Statement) :
    startsLine root (bareAll before) = startsLine root before := by
  cases before with
  | nil => rfl
  | cons s before =>
    cases s with
    | content c =>
      simp only [bareAll, Statement.bare, startsLine, bareAll_isEmpty]
      rfl
    | _ => rfl

theorem endsLine_bareAll (root : Bool) (after : List Statement) :
    endsLine root (bareAll after) = endsLine root after := by
  cases after with
  | nil => rfl
  | cons s after =>
    cases s with
    | content c =>
      simp only [bareAll, Statement.bare, endsLine, bareAll_isEmpty]
      rfl
    | _ => rfl

@[simp] theorem Program.body_bare (p : Program Statement) : p.bare.body = bareAll p.body := by
  cases p
  rfl

theorem firstBody_bare (p : Program Statement) : p.bare.firstBody = bareAll p.firstBody := by
  obtain ⟨_ | ⟨s, body⟩, params, chained⟩ := p
  · rfl
  · cases s with
    | block b =>
      obtain ⟨call, _ | ⟨body, params, chained'⟩, inverse, openStrip, inverseStrip, closeStrip,
        loc⟩ := b <;> cases chained <;> rfl
    | _ => rfl

private theorem openedBody_bare (b : Block Statement) :
    b.bare.openedBody = bareAll b.openedBody := by
  obtain ⟨call, _ | program, _ | inverse, openStrip, inverseStrip, closeStrip, loc⟩ := b
  · rfl
  · exact inverse.body_bare
  · exact program.body_bare
  · exact program.body_bare

private theorem closedBody_bare (b : Block Statement) :
    b.bare.closedBody = bareAll b.closedBody := by
  obtain ⟨call, _ | program, _ | inverse, openStrip, inverseStrip, closeStrip, loc⟩ := b
  · rfl
  · exact inverse.body_bare
  · exact program.body_bare
  · exact firstBody_bare inverse

theorem elseAlone_eq {p p' inverse inverse' : Program Statement} (hp : p'.bare = p.bare)
    (hinverse : inverse'.bare = inverse.bare) :
    Block.elseAlone p' inverse' = Block.elseAlone p inverse := by
  have hbody : bareAll p'.body = bareAll p.body := by rw [← p'.body_bare, hp, p.body_bare]
  have hfirst : bareAll inverse'.firstBody = bareAll inverse.firstBody := by
    rw [← firstBody_bare, hinverse, firstBody_bare]
  rw [Block.elseAlone, Block.elseAlone, ← startsLine_bareAll, ← endsLine_bareAll, bareAll_reverse,
    hbody, hfirst, ← bareAll_reverse, startsLine_bareAll, endsLine_bareAll]

private theorem outline_ofBodies_bareAll (openStrip closeStrip : Strip)
    (opened closed : List Statement) :
    Outline.ofBodies openStrip closeStrip (bareAll opened) (bareAll closed)
      = .ofBodies openStrip closeStrip opened closed := by
  rw [Outline.ofBodies, Outline.ofBodies, endsLine_bareAll, ← bareAll_reverse, startsLine_bareAll]

theorem outline?_bare (s : Statement) : s.bare.outline? = s.outline? := by
  cases s with
  | block b | decoratorBlock b =>
    have hopened := openedBody_bare b
    have hclosed := closedBody_bare b
    refine congrArg some (Eq.trans ?_ (outline_ofBodies_bareAll b.openStrip b.closeStrip _ _))
    rw [← hopened, ← hclosed]
    rfl
  | partialBlock b =>
    obtain ⟨call, ⟨body, params, chained⟩, openStrip, closeStrip, loc⟩ := b
    exact congrArg some (outline_ofBodies_bareAll openStrip closeStrip body body)
  | _ => rfl

theorem reach_eq (root keepLines : Bool) {before before' after after' : List Statement}
    {s s' : Statement} (hbefore : bareAll before' = bareAll before) (hs : s'.bare = s.bare)
    (hafter : bareAll after' = bareAll after) :
    reach root keepLines before' s' after' = reach root keepLines before s after := by
  have houtline : s'.outline? = s.outline? := by rw [← outline?_bare, hs, outline?_bare]
  rw [reach, reach, houtline, ← startsLine_bareAll, hbefore, startsLine_bareAll,
    ← endsLine_bareAll, hafter, endsLine_bareAll]

theorem settleAfter_of_ne_content (root keepLines : Bool) (before : List Statement)
    (trims : List Trim) (text : Option Content) {s : Statement} (hne : ∀ c, s ≠ .content c)
    (after : List Statement) :
    ∃ indent, settleAfter root keepLines before trims text (s :: after)
      = (match s with
          | .partialCall p => .partialCall { p with indent }
          | other => other.trimInside (reach root keepLines before s after))
        :: settleAfter root keepLines (s :: before) (reach root keepLines before s after).after none
          after := by
  cases s with
  | content c => exact absurd rfl (hne c)
  | partialCall p => exact ⟨_, rfl⟩
  | _ => exact ⟨[], rfl⟩

end HtmlTemplate.Mustache
