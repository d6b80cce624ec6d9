import HtmlTemplate.Proofs.Codemod
import HtmlTemplate.Proofs.Delimits
import HtmlTemplate.Proofs.Tiling

/-! What follows in a body of a tree, at any depth, and the text that is read next there. A partial
leaves the reading of a tag or a value where it is, so what is read next may be in the body of a
partial block. -/

namespace HtmlTemplate.Mustache

def Statement.sections : Statement → List (Program Statement)
  | .block b | .decoratorBlock b => b.program.toList ++ b.inverse.toList
  | .partialBlock p => [p.program]
  | _ => []

/-- The end of a body of a tree. -/
inductive Tail (body : List Statement) : List Statement → Prop
  | whole : Tail body body
  | later {s : Statement} {ss : List Statement} : Tail body (s :: ss) → Tail body ss
  | inside {s : Statement} {ss : List Statement} {p : Program Statement} :
      Tail body (s :: ss) → p ∈ s.sections → Tail body p.body

/-- The first text with characters that is read among some statements, if no more than texts
without any and partials come before it. -/
inductive FirstText : List Statement → Content → Prop
  | here {c : Content} {ss : List Statement} : c.value ≠ [] → FirstText (.content c :: ss) c
  | empty {c d : Content} {ss : List Statement} : c.value = [] → FirstText ss d →
      FirstText (.content c :: ss) d
  | partialCall {p : PartialCall} {c : Content} {ss : List Statement} : FirstText ss c →
      FirstText (.partialCall p :: ss) c
  | partialBlock {p : PartialBlock Statement} {c : Content} {ss : List Statement} :
      FirstText p.program.body c → FirstText (.partialBlock p :: ss) c

variable {src : Source} {lo hi : Position} {body ss : List Statement}

theorem Statement.of_sections {P : Statement → Prop} {Q : Program Statement → Prop}
    {s : Statement} {p : Program Statement}
    (hblock : ∀ b : Block Statement, P (.block b) ∨ P (.decoratorBlock b) →
      (∀ p, b.program = some p → Q p) ∧ ∀ p, b.inverse = some p → Q p)
    (hpartial : ∀ b : PartialBlock Statement, P (.partialBlock b) → Q b.program)
    (h : P s) (hp : p ∈ s.sections) : Q p := by
  have hmem {b : Block Statement} (hb : P (.block b) ∨ P (.decoratorBlock b))
      (hp : p ∈ b.program.toList ++ b.inverse.toList) : Q p := by
    rcases List.mem_append.mp hp with hp | hp
    · exact (hblock b hb).1 p (Option.mem_toList.mp hp)
    · exact (hblock b hb).2 p (Option.mem_toList.mp hp)
  cases s with
  | block b => exact hmem (.inl h) hp
  | decoratorBlock b => exact hmem (.inr h) hp
  | partialBlock b =>
    obtain rfl := List.mem_singleton.mp hp
    exact hpartial b h
  | _ => cases hp

theorem Statement.Joined.section_ {s : Statement} {p : Program Statement} (h : s.Joined src)
    (hp : p ∈ s.sections) : allJoined src p.body := by
  have hbody {p : Program Statement} (h : Program.Joined src p) : allJoined src p.body := by
    obtain ⟨body, params, chained⟩ := p
    exact h
  refine Statement.of_sections (Q := fun p => allJoined src p.body) ?_ ?_ h hp
  · rintro ⟨call, program, inverse, openStrip, inverseStrip, closeStrip, loc⟩ hb
    have hb : sectionJoined src program ∧ sectionJoined src inverse := hb.elim id id
    exact ⟨by rintro p rfl; exact hbody hb.1, by rintro p rfl; exact hbody hb.2⟩
  · rintro ⟨call, program, openStrip, closeStrip, loc⟩ hb
    exact hbody hb

theorem Statement.Nested.section_ {s : Statement} {p : Program Statement} (h : s.Nested)
    (hp : p ∈ s.sections) : Ordered s.loc.start s.loc.stop p.body := by
  have hbody {lo hi : Position} {p : Program Statement} (h : Program.Within lo hi p) :
      Ordered lo hi p.body := by
    obtain ⟨body, params, chained⟩ := p
    exact h
  refine Statement.of_sections (P := fun t => t.Nested ∧ t.loc = s.loc)
    (Q := fun p => Ordered s.loc.start s.loc.stop p.body) ?_ ?_ ⟨h, rfl⟩ hp
  · rintro ⟨call, program, inverse, openStrip, inverseStrip, closeStrip, loc⟩ hb
    have hb : Block.Nested ⟨call, program, inverse, openStrip, inverseStrip, closeStrip, loc⟩
        ∧ loc = s.loc := hb.elim id id
    obtain ⟨⟨-, hprogram, hinverse⟩, rfl⟩ := hb
    exact ⟨by rintro p rfl; exact hbody hprogram, by rintro p rfl; exact hbody hinverse⟩
  · rintro ⟨call, program, openStrip, closeStrip, loc⟩ ⟨⟨-, hprogram⟩, hloc⟩
    exact hloc ▸ hbody hprogram

theorem Statement.Exact.section_ {s : Statement} {p : Program Statement} {linked : Bool}
    (h : s.Exact src linked) (hp : p ∈ s.sections) : ∃ linked, allExact src linked p.body := by
  have hbody {p : Program Statement} (h : Program.Exact src p) :
      ∃ linked, allExact src linked p.body := by
    obtain ⟨body, params, chained⟩ := p
    exact ⟨chained, h.2⟩
  refine Statement.of_sections (P := fun t => t.Exact src linked)
    (Q := fun p => ∃ linked, allExact src linked p.body) ?_ ?_ h hp
  · rintro ⟨call, program, inverse, openStrip, inverseStrip, closeStrip, loc⟩ hb
    obtain ⟨-, hprogram, hinverse⟩ : Block.Exact src ⟨call, program, inverse, openStrip,
      inverseStrip, closeStrip, loc⟩ := hb.elim (·.2) (·.2)
    exact ⟨by rintro p rfl; exact hbody hprogram, by rintro p rfl; exact hbody hinverse⟩
  · rintro ⟨call, ⟨body, params, chained⟩, openStrip, closeStrip, loc⟩ ⟨-, -, -, hprogram⟩
    exact ⟨false, hprogram⟩

theorem Statement.Tiled.section_ {s : Statement} {p : Program Statement} (h : s.Tiled src)
    (hp : p ∈ s.sections) : (∃ start stop, Tiles src start p.body stop) ∧ allTiled src p.body := by
  have hbody {p : Program Statement} (h : Program.Tiled src p) :
      (∃ start stop, Tiles src start p.body stop) ∧ allTiled src p.body := by
    obtain ⟨body, params, chained⟩ := p
    exact ⟨h.1.tiles, h.2⟩
  refine Statement.of_sections
    (Q := fun p => (∃ start stop, Tiles src start p.body stop) ∧ allTiled src p.body) ?_ ?_ h hp
  · rintro ⟨call, program, inverse, openStrip, inverseStrip, closeStrip, loc⟩ hb
    have hb : sectionTiled src program ∧ sectionTiled src inverse := hb.elim id id
    exact ⟨by rintro p rfl; exact hbody hb.1, by rintro p rfl; exact hbody hb.2⟩
  · rintro ⟨call, program, openStrip, closeStrip, loc⟩ hb
    exact hbody hb

theorem Statement.EachBody.section_ {B : Bool → List Statement → Prop} {s : Statement}
    {p : Program Statement} (h : s.EachBody B) (hp : p ∈ s.sections) :
    B p.chained p.body ∧ allEach B p.body := by
  have hbody {p : Program Statement} (h : p.EachBody B) :
      B p.chained p.body ∧ allEach B p.body := by
    obtain ⟨body, params, chained⟩ := p
    exact h
  refine Statement.of_sections (P := fun t => t.EachBody B)
    (Q := fun p => B p.chained p.body ∧ allEach B p.body) ?_ ?_ h hp
  · rintro ⟨call, program, inverse, openStrip, inverseStrip, closeStrip, loc⟩ hb
    have hb : sectionEach B program ∧ sectionEach B inverse := hb.elim id id
    exact ⟨by rintro p rfl; exact hbody hb.1, by rintro p rfl; exact hbody hb.2⟩
  · rintro ⟨call, program, openStrip, closeStrip, loc⟩ hb
    exact hbody hb

namespace Tail

theorem of_each {B : Bool → List Statement → Prop} {p : Program Statement} (h : Tail p.body ss)
    (hp : p.EachBody B) : (∃ chained whole, B chained whole ∧ ss <:+ whole) ∧ allEach B ss := by
  obtain ⟨body, params, chained⟩ := p
  induction h with
  | whole => exact ⟨⟨chained, body, hp.1, List.suffix_refl _⟩, hp.2⟩
  | later _ ih =>
    obtain ⟨⟨chained, whole, hwhole, hsuffix⟩, -, hss⟩ := ih
    exact ⟨⟨chained, whole, hwhole, (List.suffix_cons _ _).trans hsuffix⟩, hss⟩
  | inside _ hp ih =>
    have hsection := ih.2.1.section_ hp
    exact ⟨⟨_, _, hsection.1, List.suffix_refl _⟩, hsection.2⟩

theorem joined (h : Tail body ss) (hbody : allJoined src body) : allJoined src ss := by
  induction h with
  | whole => exact hbody
  | later _ ih => exact ih.2.2
  | inside _ hp ih => exact ih.1.section_ hp

theorem ordered (h : Tail body ss) (hbody : Ordered lo hi body) :
    ∃ lo' hi', lo ≤ lo' ∧ Ordered lo' hi' ss := by
  induction h with
  | whole => exact ⟨lo, hi, le_refl _, hbody⟩
  | later _ ih =>
    obtain ⟨lo', hi', hle, ⟨hstart, hstop, -⟩, -, hss⟩ := ih
    exact ⟨_, hi', le_trans hle (le_trans hstart hstop), hss⟩
  | inside _ hp ih =>
    obtain ⟨lo', hi', hle, ⟨hstart, -⟩, hs, -⟩ := ih
    exact ⟨_, _, le_trans hle hstart, hs.section_ hp⟩

theorem exact (h : Tail body ss) {linked : Bool} (hbody : allExact src linked body) :
    ∃ linked, allExact src linked ss := by
  induction h with
  | whole => exact ⟨linked, hbody⟩
  | later _ ih =>
    obtain ⟨linked, -, hss⟩ := ih
    exact ⟨linked, hss⟩
  | inside _ hp ih =>
    obtain ⟨linked, hs, -⟩ := ih
    exact hs.section_ hp

theorem tiled (h : Tail body ss)
    (hbody : (∃ start stop, Tiles src start body stop) ∧ allTiled src body) :
    (∃ start stop, Tiles src start ss stop) ∧ allTiled src ss := by
  induction h with
  | whole => exact hbody
  | later _ ih =>
    obtain ⟨⟨start, stop, -, -, htiles⟩, -, hss⟩ := ih
    exact ⟨⟨_, stop, htiles⟩, hss⟩
  | inside _ hp ih => exact ih.2.1.section_ hp

end Tail

def Statement.IsPartial : Statement → Prop
  | .partialCall _ | .partialBlock _ => True
  | _ => False

theorem Content.Meets.head_value {c d : Content} (h : c.Meets src d) (hne : d.value ≠ []) :
    ∀ x ∈ d.value.head?, x = '{' ∨ x = '\\' := by
  intro x hx
  obtain ⟨y, ys, hvalue⟩ := List.exists_cons_of_ne_nil hne
  obtain rfl : y = x := by simpa [hvalue] using hx
  obtain ⟨rest, hrest⟩ := h.keepsStart
  rw [hvalue] at hrest
  rcases h.resumes with hopens | hhead
  · obtain ⟨more, hmore⟩ : ['{', '{'] <+: d.written := by
      simpa [opens, List.isPrefixOf_iff_prefix] using hopens
    rw [← hrest] at hmore
    exact .inl (List.cons.inj hmore).1.symm
  · rw [← hrest] at hhead
    exact .inr (Option.some.inj hhead)

namespace FirstText

variable {c : Content}

theorem stood (h : FirstText ss c) (hss : allJoined src ss) : c.Stood src := by
  induction h with
  | here => exact hss.1
  | empty _ _ ih => exact ih hss.2.2
  | partialCall _ ih => exact ih hss.2.2
  | partialBlock _ ih =>
    exact ih (Statement.Joined.section_ (p := _) hss.1 (List.mem_singleton.mpr rfl))

theorem le (h : FirstText ss c) (hss : Ordered lo hi ss) : lo ≤ c.loc.start := by
  have hlater {s : Statement} {ss : List Statement} {lo hi : Position} {c : Content}
      (hss : Ordered lo hi (s :: ss)) (h : s.loc.stop ≤ c.loc.start) : lo ≤ c.loc.start :=
    le_trans hss.1.1 (le_trans hss.1.2.1 h)
  induction h generalizing lo hi with
  | here => exact hss.1.1
  | empty _ _ ih => exact hlater hss (ih hss.2.2)
  | partialCall _ ih => exact hlater hss (ih hss.2.2)
  | partialBlock _ ih =>
    refine le_trans hss.1.1 (ih (Statement.Nested.section_ hss.2.1 (List.mem_singleton.mpr rfl)))

/-- The text that is read next is the statement that comes next, or begins with braces or a
backslash, or a partial stands before it. -/
theorem next (h : FirstText ss c) (hjoined : allJoined src ss) (hordered : Ordered lo hi ss) :
    (∃ more, ss = .content c :: more) ∨ (∀ x ∈ c.value.head?, x = '{' ∨ x = '\\')
      ∨ ∃ s ∈ ss, s.IsPartial ∧ lo ≤ s.loc.start ∧ s.loc.start ≤ c.loc.start := by
  induction h generalizing lo hi with
  | here => exact .inl ⟨_, rfl⟩
  | @empty c d ss _ hd ih =>
    right
    obtain ⟨-, hmeets, hss⟩ := hjoined
    obtain ⟨⟨hstart, hstop, -⟩, -, hrest⟩ := hordered
    rcases ih hss hrest with ⟨more, rfl⟩ | hhead | ⟨s, hs, hpartial, hle, hle'⟩
    · have hmeets : c.Meets src d := hmeets _ rfl
      exact .inl (hmeets.head_value (hmeets.ne_nil hss.1))
    · exact .inl hhead
    · exact .inr ⟨s, List.mem_cons_of_mem _ hs, hpartial,
        le_trans hstart (le_trans hstop hle), hle'⟩
  | partialCall hc =>
    obtain ⟨⟨hstart, hstop, -⟩, -, hrest⟩ := hordered
    exact .inr (.inr ⟨_, List.mem_cons_self, trivial, hstart, le_trans hstop (hc.le hrest)⟩)
  | partialBlock hc =>
    obtain ⟨⟨hstart, -⟩, hnested, -⟩ := hordered
    exact .inr (.inr ⟨_, List.mem_cons_self, trivial, hstart,
      hc.le (Statement.Nested.section_ hnested (List.mem_singleton.mpr rfl))⟩)

end FirstText

end HtmlTemplate.Mustache
