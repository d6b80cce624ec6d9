import HtmlTemplate.Proofs.Outlines
import HtmlTemplate.Proofs.Shortening
import HtmlTemplate.Proofs.Spelling
import Mathlib.Data.List.Forall2

/-! Whitespace control with and without taking the lines of tags. The two trees of a template
differ in their texts only, and each text has lost blanks at its ends, with the lines no fewer
than without. -/

namespace HtmlTemplate.Mustache

open Text (Shortens)

mutual

def Statement.contents : Statement → List Content
  | .content c => [c]
  | .block ⟨_, program, inverse, _, _, _, _⟩ =>
    sectionContents program ++ sectionContents inverse
  | .decoratorBlock ⟨_, program, inverse, _, _, _, _⟩ =>
    sectionContents program ++ sectionContents inverse
  | .partialBlock ⟨_, program, _, _, _⟩ => Program.contents program
  | .mustache _ => []
  | .decorator _ => []
  | .comment _ => []
  | .partialCall _ => []

def contentsAll : List Statement → List Content
  | [] => []
  | s :: ss => s.contents ++ contentsAll ss

def Program.contents : Program Statement → List Content
  | ⟨body, _, _⟩ => contentsAll body

def sectionContents : Option (Program Statement) → List Content
  | none => []
  | some p => Program.contents p

end

structure Content.Alike (c c' : Content) : Prop where
  written : c'.written = c.written
  loc : c'.loc = c.loc
  kept : Shortens c.written c.value
  more : Shortens c.value c'.value

mutual

def Statement.Alike : Statement → Statement → Prop
  | .content c, s => ∃ c', s = .content c' ∧ c.Alike c'
  | .partialCall p, s => ∃ indent, s = .partialCall { p with indent }
  | .block ⟨call, program, inverse, openStrip, inverseStrip, closeStrip, loc⟩, s =>
    ∃ program' inverse', s = .block ⟨call, program', inverse', openStrip, inverseStrip, closeStrip,
      loc⟩ ∧ sectionAlike program program' ∧ sectionAlike inverse inverse'
  | .decoratorBlock ⟨call, program, inverse, openStrip, inverseStrip, closeStrip, loc⟩, s =>
    ∃ program' inverse', s = .decoratorBlock ⟨call, program', inverse', openStrip, inverseStrip,
      closeStrip, loc⟩ ∧ sectionAlike program program' ∧ sectionAlike inverse inverse'
  | .partialBlock ⟨call, program, openStrip, closeStrip, loc⟩, s =>
    ∃ program', s = .partialBlock ⟨call, program', openStrip, closeStrip, loc⟩
      ∧ Program.Alike program program'
  | .mustache m, s => s = .mustache m
  | .decorator m, s => s = .decorator m
  | .comment c, s => s = .comment c
termination_by structural s => s

def allAlike : List Statement → List Statement → Prop
  | [], ss' => ss' = []
  | s :: ss, ss' => ∃ s' rest, ss' = s' :: rest ∧ s.Alike s' ∧ allAlike ss rest
termination_by structural ss => ss

def Program.Alike : Program Statement → Program Statement → Prop
  | ⟨body, params, chained⟩, p => ∃ body', p = ⟨body', params, chained⟩ ∧ allAlike body body'
termination_by structural p => p

def sectionAlike : Option (Program Statement) → Option (Program Statement) → Prop
  | none, p => p = none
  | some q, p => ∃ q', p = some q' ∧ Program.Alike q q'
termination_by structural p => p

end

mutual

theorem Statement.Alike.bare_eq : (s : Statement) → {s' : Statement} → s.Alike s' →
    s'.bare = s.bare
  | .content c, _, h => by
    obtain ⟨c', rfl, hc⟩ := h
    simp only [Statement.bare, hc.written, hc.loc]
  | .partialCall p, _, h => by
    obtain ⟨indent, rfl⟩ := h
    rfl
  | .block ⟨_, program, inverse, _, _, _, _⟩, _, h => by
    obtain ⟨program', inverse', rfl, hprogram, hinverse⟩ := h
    simp only [Statement.bare, sectionAlike.bare_eq program hprogram,
      sectionAlike.bare_eq inverse hinverse]
  | .decoratorBlock ⟨_, program, inverse, _, _, _, _⟩, _, h => by
    obtain ⟨program', inverse', rfl, hprogram, hinverse⟩ := h
    simp only [Statement.bare, sectionAlike.bare_eq program hprogram,
      sectionAlike.bare_eq inverse hinverse]
  | .partialBlock ⟨_, ⟨body, _, _⟩, _, _, _⟩, _, h => by
    obtain ⟨_, rfl, body', rfl, hbody⟩ := h
    simp only [Statement.bare, Program.bare, allAlike.bare_eq body hbody]
  | .mustache _, _, h => by
    obtain rfl := h
    rfl
  | .decorator _, _, h => by
    obtain rfl := h
    rfl
  | .comment _, _, h => by
    obtain rfl := h
    rfl

theorem allAlike.bare_eq : (ss : List Statement) → {ss' : List Statement} → allAlike ss ss' →
    bareAll ss' = bareAll ss
  | [], _, h => by
    obtain rfl := h
    rfl
  | s :: ss, _, h => by
    obtain ⟨s', rest, rfl, hs, hrest⟩ := h
    simp only [bareAll, Statement.Alike.bare_eq s hs, allAlike.bare_eq ss hrest]

theorem sectionAlike.bare_eq : (p : Option (Program Statement)) →
    {p' : Option (Program Statement)} → sectionAlike p p' → bareSection p' = bareSection p
  | none, _, h => by
    obtain rfl := h
    rfl
  | some ⟨body, _, _⟩, _, h => by
    obtain ⟨_, rfl, body', rfl, hbody⟩ := h
    simp only [bareSection, Program.bare, allAlike.bare_eq body hbody]

end

mutual

theorem Statement.Alike.contents : (s : Statement) → {s' : Statement} → s.Alike s' →
    List.Forall₂ Content.Alike s.contents s'.contents
  | .content c, _, h => by
    obtain ⟨c', rfl, hc⟩ := h
    exact .cons hc .nil
  | .partialCall p, _, h => by
    obtain ⟨indent, rfl⟩ := h
    exact .nil
  | .block ⟨_, program, inverse, _, _, _, _⟩, _, h => by
    obtain ⟨program', inverse', rfl, hprogram, hinverse⟩ := h
    exact List.rel_append (sectionAlike.contents program hprogram)
      (sectionAlike.contents inverse hinverse)
  | .decoratorBlock ⟨_, program, inverse, _, _, _, _⟩, _, h => by
    obtain ⟨program', inverse', rfl, hprogram, hinverse⟩ := h
    exact List.rel_append (sectionAlike.contents program hprogram)
      (sectionAlike.contents inverse hinverse)
  | .partialBlock ⟨_, ⟨body, _, _⟩, _, _, _⟩, _, h => by
    obtain ⟨_, rfl, body', rfl, hbody⟩ := h
    exact allAlike.contents body hbody
  | .mustache _, _, h => by
    obtain rfl := h
    exact .nil
  | .decorator _, _, h => by
    obtain rfl := h
    exact .nil
  | .comment _, _, h => by
    obtain rfl := h
    exact .nil

theorem allAlike.contents : (ss : List Statement) → {ss' : List Statement} → allAlike ss ss' →
    List.Forall₂ Content.Alike (contentsAll ss) (contentsAll ss')
  | [], _, h => by
    obtain rfl := h
    exact .nil
  | s :: ss, _, h => by
    obtain ⟨s', rest, rfl, hs, hrest⟩ := h
    exact List.rel_append (Statement.Alike.contents s hs) (allAlike.contents ss hrest)

theorem sectionAlike.contents : (p : Option (Program Statement)) →
    {p' : Option (Program Statement)} → sectionAlike p p' →
      List.Forall₂ Content.Alike (sectionContents p) (sectionContents p')
  | none, _, h => by
    obtain rfl := h
    exact .nil
  | some ⟨body, _, _⟩, _, h => by
    obtain ⟨_, rfl, body', rfl, hbody⟩ := h
    exact allAlike.contents body hbody

end

namespace Content.Alike

variable {c c' : Content}

theorem trimStart_all (h : c.Alike c') : (c.trimStart .all).Alike (c'.trimStart .all) where
  written := h.written
  loc := h.loc
  kept := h.kept.trans (Text.shortens_trimStart _)
  more := h.more.trimStart

theorem trimEnd_all (h : c.Alike c') : (c.trimEnd .all).Alike (c'.trimEnd .all) where
  written := h.written
  loc := h.loc
  kept := h.kept.trans (Text.shortens_dropEndWhile (fun _ => id) _)
  more := h.more.trimEnd

theorem trimStart_line (h : c.Alike c') : c.Alike (c'.trimStart .line) := by
  simp only [Content.trimStart]
  split
  · exact h
  · exact ⟨h.written, h.loc, h.kept, h.more.trans (Text.shortens_dropBlankLine _)⟩

theorem trimEnd_line (h : c.Alike c') : c.Alike (c'.trimEnd .line) := by
  simp only [Content.trimEnd]
  split
  · exact h
  · exact ⟨h.written, h.loc, h.kept,
      h.more.trans (Text.shortens_dropEndWhile (fun _ => Text.isBlank_of_isIndent) _)⟩

theorem foldl {f : Content → Trim → Content}
    (hall : ∀ {c c'}, Content.Alike c c' → Content.Alike (f c .all) (f c' .all))
    (hline : ∀ {c c'}, Content.Alike c c' → Content.Alike c (f c' .line)) {trims lines : List Trim}
    (htrims : ∀ t ∈ trims, t = .all) (hlines : ∀ t ∈ lines, t = .line) (h : c.Alike c') :
    (trims.foldl f c).Alike ((trims ++ lines).foldl f c') := by
  induction trims generalizing c c' with
  | nil =>
    rw [List.nil_append, List.foldl_nil]
    induction lines generalizing c' with
    | nil => exact h
    | cons t lines ih =>
      obtain rfl := hlines t List.mem_cons_self
      exact ih (fun t ht => hlines t (List.mem_cons_of_mem _ ht)) (hline h)
  | cons t trims ih =>
    obtain rfl := htrims t List.mem_cons_self
    exact ih (fun t ht => htrims t (List.mem_cons_of_mem _ ht)) (hall h)

end Content.Alike

def KeepAlike (f g : List Statement → List Statement) : Prop :=
  ∀ ss ss', allAlike ss ss' → allAlike (f ss) (g ss')

section

variable {f g f' g' : List Statement → List Statement}

theorem KeepAlike.applyIf (h : KeepAlike f g) (p : Bool) :
    KeepAlike (applyIf p f) (Mustache.applyIf p g) := by
  cases p with
  | false => exact fun _ _ => id
  | true => exact h

theorem KeepAlike.second (h : KeepAlike id g) (p : Bool) :
    KeepAlike id (Mustache.applyIf p g) := by
  cases p with
  | false => exact fun _ _ => id
  | true => exact h

theorem KeepAlike.comp (h' : KeepAlike f' g') (h : KeepAlike f g) :
    KeepAlike (fun ss => f' (f ss)) (fun ss => g' (g ss)) :=
  fun _ _ hss => h' _ _ (h _ _ hss)

end

theorem Statement.Alike.content_or {s s' : Statement} (h : s.Alike s') :
    (∃ c c', s = .content c ∧ s' = .content c' ∧ c.Alike c')
      ∨ (∀ c, s ≠ .content c) ∧ ∀ c, s' ≠ .content c := by
  cases s with
  | content c =>
    obtain ⟨c', rfl, hc⟩ := h
    exact .inl ⟨c, c', rfl, rfl, hc⟩
  | mustache m | decorator m | comment m =>
    obtain rfl := h
    exact .inr ⟨fun _ => Statement.noConfusion, fun _ => Statement.noConfusion⟩
  | partialCall p =>
    obtain ⟨_, rfl⟩ := h
    exact .inr ⟨fun _ => Statement.noConfusion, fun _ => Statement.noConfusion⟩
  | partialBlock p =>
    obtain ⟨_, rfl, _⟩ := h
    exact .inr ⟨fun _ => Statement.noConfusion, fun _ => Statement.noConfusion⟩
  | block b | decoratorBlock b =>
    obtain ⟨_, _, rfl, _⟩ := h
    exact .inr ⟨fun _ => Statement.noConfusion, fun _ => Statement.noConfusion⟩

structure ActsFirst (φ : Content → Content) (f : List Statement → List Statement) : Prop where
  nil : f [] = []
  text (c : Content) (ss : List Statement) : f (.content c :: ss) = .content (φ c) :: ss
  other {s : Statement} (ss : List Statement) : (∀ c, s ≠ .content c) → f (s :: ss) = s :: ss

structure ActsLast (φ : Content → Content) (f : List Statement → List Statement) : Prop where
  nil : f [] = []
  text (c : Content) : f [.content c] = [.content (φ c)]
  other {s : Statement} : (∀ c, s ≠ .content c) → f [s] = [s]
  cons_cons (s s' : Statement) (ss : List Statement) : f (s :: s' :: ss) = s :: f (s' :: ss)

theorem actsFirst_id : ActsFirst id id := ⟨rfl, fun _ _ => rfl, fun _ _ => rfl⟩

theorem actsLast_id : ActsLast id id := ⟨rfl, fun _ => rfl, fun _ => rfl, fun _ _ _ => rfl⟩

theorem actsFirst_trimFirst (t : Trim) : ActsFirst (·.trimStart t) (trimFirst t) where
  nil := rfl
  text _ _ := rfl
  other {s} ss h := by
    cases s with
    | content c => exact absurd rfl (h c)
    | _ => rfl

theorem actsLast_trimLast (t : Trim) : ActsLast (·.trimEnd t) (trimLast t) where
  nil := rfl
  text _ := rfl
  other {s} h := by
    cases s with
    | content c => exact absurd rfl (h c)
    | _ => rfl
  cons_cons s s' ss := by cases s <;> rfl

section

variable {f g : List Statement → List Statement} {φ ψ : Content → Content}

theorem ActsFirst.keepAlike (hf : ActsFirst φ f) (hg : ActsFirst ψ g)
    (h : ∀ {c c' : Content}, c.Alike c' → (φ c).Alike (ψ c')) : KeepAlike f g := by
  intro ss ss' hss
  cases ss with
  | nil =>
    obtain rfl := hss
    rw [hf.nil, hg.nil]
    rfl
  | cons s ss =>
    obtain ⟨s', rest, rfl, hs, hrest⟩ := hss
    obtain ⟨c, c', rfl, rfl, hc⟩ | ⟨hne, hne'⟩ := hs.content_or
    · rw [hf.text, hg.text]
      exact ⟨_, _, rfl, ⟨_, rfl, h hc⟩, hrest⟩
    · rw [hf.other _ hne, hg.other _ hne']
      exact ⟨s', rest, rfl, hs, hrest⟩

theorem ActsLast.keepAlike (hf : ActsLast φ f) (hg : ActsLast ψ g)
    (h : ∀ {c c' : Content}, c.Alike c' → (φ c).Alike (ψ c')) : KeepAlike f g := by
  intro ss ss' hss
  induction ss generalizing ss' with
  | nil =>
    obtain rfl := hss
    rw [hf.nil, hg.nil]
    rfl
  | cons s ss ih =>
    obtain ⟨s', rest, rfl, hs, hrest⟩ := hss
    cases ss with
    | nil =>
      obtain rfl := hrest
      obtain ⟨c, c', rfl, rfl, hc⟩ | ⟨hne, hne'⟩ := hs.content_or
      · rw [hf.text, hg.text]
        exact ⟨_, _, rfl, ⟨_, rfl, h hc⟩, rfl⟩
      · rw [hf.other hne, hg.other hne']
        exact ⟨s', [], rfl, hs, rfl⟩
    | cons s₂ ss =>
      have hrest' := hrest
      obtain ⟨s₂', rest, rfl, -, -⟩ := hrest
      rw [hf.cons_cons, hg.cons_cons]
      exact ⟨s', _, rfl, hs, ih _ hrest'⟩

end

theorem keepAlike_trimFirst_all : KeepAlike (trimFirst .all) (trimFirst .all) :=
  (actsFirst_trimFirst .all).keepAlike (actsFirst_trimFirst .all) (·.trimStart_all)

theorem keepAlike_trimLast_all : KeepAlike (trimLast .all) (trimLast .all) :=
  (actsLast_trimLast .all).keepAlike (actsLast_trimLast .all) (·.trimEnd_all)

theorem keepAlike_trimFirst_line : KeepAlike id (trimFirst .line) :=
  actsFirst_id.keepAlike (actsFirst_trimFirst .line) (·.trimStart_line)

theorem keepAlike_trimLast_line : KeepAlike id (trimLast .line) :=
  actsLast_id.keepAlike (actsLast_trimLast .line) (·.trimEnd_line)

namespace Program

def IsChain (p : Program Statement) : Prop :=
  ∃ b rest params, p = ⟨.block b :: rest, params, true⟩

variable {p : Program Statement} {f : List Statement → List Statement}

theorem mapFirst_of_not_isChain (h : ¬ p.IsChain) : p.mapFirst f = p.mapBody f := by
  unfold mapFirst
  split
  · exact absurd ⟨_, _, _, rfl⟩ h
  · rfl

theorem mapLast_of_not_isChain (h : ¬ p.IsChain) : p.mapLast f = p.mapBody f := by
  unfold mapLast
  split
  · exact absurd ⟨_, _, _, rfl⟩ h
  · exact absurd ⟨_, _, _, rfl⟩ h
  · rfl

end Program

section

variable {f g : List Statement → List Statement} {p p' : Program Statement}
  {q q' : Option (Program Statement)}

theorem Program.Alike.mapBody (hp : p.Alike p') (h : KeepAlike f g) :
    (p.mapBody f).Alike (p'.mapBody g) := by
  obtain ⟨body, params, chained⟩ := p
  obtain ⟨body', rfl, hbody⟩ := hp
  exact ⟨_, rfl, h _ _ hbody⟩

theorem Program.Alike.chain_or (hp : p.Alike p') :
    (∃ b b' rest rest' params, p = ⟨.block b :: rest, params, true⟩
      ∧ p' = ⟨.block b' :: rest', params, true⟩ ∧ (Statement.block b).Alike (.block b')
      ∧ allAlike rest rest') ∨ ¬ p.IsChain ∧ ¬ p'.IsChain := by
  obtain ⟨body, params, chained⟩ := p
  obtain ⟨body', rfl, hbody⟩ := hp
  by_cases hchain : Program.IsChain ⟨body, params, chained⟩
  · obtain ⟨b, rest, params, heq⟩ := hchain
    cases heq
    obtain ⟨_, rest', rfl, ⟨_, _, rfl, hb⟩, hrest⟩ := hbody
    exact .inl ⟨_, _, _, _, _, rfl, rfl, ⟨_, _, rfl, hb⟩, hrest⟩
  · refine .inr ⟨hchain, ?_⟩
    rintro ⟨b', rest', params', heq⟩
    cases heq
    cases body with
    | nil => cases hbody
    | cons s ss =>
      obtain ⟨_, _, heq, hs, -⟩ := hbody
      cases heq
      cases s with
      | block b => exact hchain ⟨_, _, _, rfl⟩
      | content c | partialCall c | partialBlock c =>
        obtain ⟨_, ⟨⟩, -⟩ := hs
      | decoratorBlock b =>
        obtain ⟨_, _, ⟨⟩, -⟩ := hs
      | mustache m | decorator m | comment m => cases hs

theorem sectionAlike.map (hq : sectionAlike q q') {φ ψ : Program Statement → Program Statement}
    (h : ∀ {p p' : Program Statement}, p.Alike p' → (φ p).Alike (ψ p')) :
    sectionAlike (q.map φ) (q'.map ψ) := by
  cases q with
  | none =>
    obtain rfl := hq
    rfl
  | some p =>
    obtain ⟨p', rfl, hp⟩ := hq
    exact ⟨_, rfl, h hp⟩

theorem sectionAlike.second (hq : sectionAlike q q') {ψ : Program Statement → Program Statement}
    (h : ∀ {p p' : Program Statement}, p.Alike p' → p.Alike (ψ p')) :
    sectionAlike q (q'.map ψ) := by
  cases q with
  | none =>
    obtain rfl := hq
    rfl
  | some p =>
    obtain ⟨p', rfl, hp⟩ := hq
    exact ⟨_, rfl, h hp⟩

theorem Program.Alike.mapFirst (hp : p.Alike p') (h : KeepAlike f g) :
    (p.mapFirst f).Alike (p'.mapFirst g) := by
  obtain ⟨b, b', rest, rest', params, rfl, rfl, hb, hrest⟩ | ⟨hne, hne'⟩ := hp.chain_or
  · obtain ⟨program, inverse, hb', hprogram, hinverse⟩ := hb
    cases hb'
    exact ⟨_, rfl, _, _, rfl, ⟨_, _, rfl, hprogram.map (·.mapBody h), hinverse⟩, hrest⟩
  · rw [mapFirst_of_not_isChain hne, mapFirst_of_not_isChain hne']
    exact hp.mapBody h

theorem Program.Alike.mapLast (hp : p.Alike p') (h : KeepAlike f g) :
    (p.mapLast f).Alike (p'.mapLast g) := by
  fun_induction Program.mapLast f p generalizing p' with
  | case1 call program next openStrip inverseStrip closeStrip loc rest params ih =>
    obtain ⟨_, rfl, _, _, rfl, ⟨_, _, rfl, hprogram, next', rfl, hnext⟩, hrest⟩ := hp
    rw [Program.mapLast]
    exact ⟨_, rfl, _, _, rfl, ⟨_, _, rfl, hprogram, _, rfl, ih hnext⟩, hrest⟩
  | case2 call program openStrip inverseStrip closeStrip loc rest params =>
    obtain ⟨_, rfl, _, _, rfl, ⟨_, _, rfl, hprogram, rfl⟩, hrest⟩ := hp
    rw [Program.mapLast]
    exact ⟨_, rfl, _, _, rfl, ⟨_, _, rfl, hprogram.map (·.mapBody h), rfl⟩, hrest⟩
  | case3 p hnext hlast =>
    obtain ⟨b, b', rest, rest', params, rfl, rfl, -, -⟩ | ⟨-, hne'⟩ := hp.chain_or
    · obtain ⟨call, program, _ | next, openStrip, inverseStrip, closeStrip, loc⟩ := b
      · exact (hlast _ _ _ _ _ _ _ _ rfl).elim
      · exact (hnext _ _ _ _ _ _ _ _ _ rfl).elim
    · rw [mapLast_of_not_isChain hne']
      exact hp.mapBody h

end

section

variable {b b' : Block Statement} {f g : List Statement → List Statement}

def Block.Alike (b b' : Block Statement) : Prop :=
  ∃ program inverse, b' = { b with program, inverse } ∧ sectionAlike b.program program
    ∧ sectionAlike b.inverse inverse

private theorem keepAlike_ends (first last : Bool) :
    KeepAlike (fun body => applyIf last (trimLast .all) (applyIf first (trimFirst .all) body))
      (fun body => applyIf last (trimLast .all) (applyIf first (trimFirst .all) body)) :=
  (keepAlike_trimLast_all.applyIf last).comp (keepAlike_trimFirst_all.applyIf first)

theorem Program.Alike.applyIf {p p' : Program Statement} (hp : p.Alike p')
    {φ ψ : Program Statement → Program Statement}
    (h : ∀ {p p' : Program Statement}, p.Alike p' → (φ p).Alike (ψ p')) (q : Bool) :
    (applyIf q φ p).Alike (Mustache.applyIf q ψ p') := by
  cases q with
  | false => exact hp
  | true => exact h hp

theorem Program.Alike.second {p p' : Program Statement} (hp : p.Alike p')
    {ψ : Program Statement → Program Statement}
    (h : ∀ {p p' : Program Statement}, p.Alike p' → p.Alike (ψ p')) (q : Bool) :
    p.Alike (Mustache.applyIf q ψ p') := by
  cases q with
  | false => exact hp
  | true => exact h hp

theorem Program.mapFirst_id (p : Program Statement) : p.mapFirst id = p := by
  unfold Program.mapFirst
  split
  · rename_i b rest params
    obtain ⟨call, _ | program, inverse, openStrip, inverseStrip, closeStrip, loc⟩ := b
    · rfl
    · rfl
  · rfl

theorem Block.Alike.trimSections (h : b.Alike b') :
    (b.trimSections true).Alike (b'.trimSections false) := by
  obtain ⟨program', inverse', rfl, hprogram, hinverse⟩ := h
  obtain ⟨call, program, inverse, openStrip, inverseStrip, closeStrip, loc⟩ := b
  cases program with
  | none =>
    obtain rfl := hprogram
    cases inverse with
    | none =>
      obtain rfl := hinverse
      exact ⟨none, none, rfl, rfl, rfl⟩
    | some q =>
      obtain ⟨q', rfl, hq⟩ := hinverse
      exact ⟨_, _, rfl, rfl, _, rfl, hq.mapBody (keepAlike_ends _ _)⟩
  | some p =>
    obtain ⟨p', rfl, hp⟩ := hprogram
    cases inverse with
    | none =>
      obtain rfl := hinverse
      exact ⟨_, _, rfl, ⟨_, rfl, hp.mapBody (keepAlike_ends _ _)⟩, rfl⟩
    | some q =>
      obtain ⟨q', rfl, hq⟩ := hinverse
      refine ⟨_, _, rfl, ⟨_, rfl, hp.mapBody ?_⟩, _, rfl, ?_⟩
      · exact (keepAlike_trimLast_line.second _).comp (keepAlike_ends _ _)
      · have hmarked :=
          (hq.applyIf (·.mapFirst keepAlike_trimFirst_all) inverseStrip.closing).applyIf
            (·.mapLast keepAlike_trimLast_all) closeStrip.opening
        refine hmarked.second (fun {p p'} h => ?_) _
        rw [← p.mapFirst_id]
        exact h.mapFirst keepAlike_trimFirst_line

end

section

variable {b b' : Block Statement}

theorem Block.Alike.mapOpened (h : b.Alike b') : b.Alike (b'.mapOpened (trimFirst .line)) := by
  obtain ⟨program', inverse', rfl, hprogram, hinverse⟩ := h
  obtain ⟨call, program, inverse, openStrip, inverseStrip, closeStrip, loc⟩ := b
  cases program with
  | none =>
    obtain rfl := hprogram
    exact ⟨none, _, rfl, rfl, hinverse.second (·.mapBody keepAlike_trimFirst_line)⟩
  | some p =>
    obtain ⟨p', rfl, hp⟩ := hprogram
    exact ⟨_, _, rfl, ⟨_, rfl, hp.mapBody keepAlike_trimFirst_line⟩, hinverse⟩

theorem Block.Alike.mapClosed (h : b.Alike b') : b.Alike (b'.mapClosed (trimLast .line)) := by
  obtain ⟨program', inverse', rfl, hprogram, hinverse⟩ := h
  obtain ⟨call, program, inverse, openStrip, inverseStrip, closeStrip, loc⟩ := b
  cases inverse with
  | none =>
    obtain rfl := hinverse
    exact ⟨_, none, rfl, hprogram.second (·.mapBody keepAlike_trimLast_line), rfl⟩
  | some p =>
    obtain ⟨p', rfl, hp⟩ := hinverse
    exact ⟨_, _, rfl, hprogram, _, rfl, hp.mapBody keepAlike_trimLast_line⟩

theorem Block.Alike.inside (h : b.Alike b') (r : Reach) :
    b.Alike (Statement.trimInside.inside r b') := by
  have hopened : b.Alike (applyIf r.opensLine (Block.mapOpened (trimFirst .line)) b') := by
    cases r.opensLine with
    | false => exact h
    | true => exact h.mapOpened
  unfold Statement.trimInside.inside
  cases r.closesLine with
  | false => exact hopened
  | true => exact hopened.mapClosed

end

theorem Statement.Alike.trimInside {s s' : Statement} (h : s.Alike s') (r : Reach) :
    s.Alike (s'.trimInside r) := by
  cases s with
  | block b =>
    obtain ⟨program', inverse', rfl, hsections⟩ := h
    obtain ⟨_, _, hinside, hsections⟩ := Block.Alike.inside (b := b) ⟨_, _, rfl, hsections⟩ r
    exact ⟨_, _, congrArg Statement.block hinside, hsections⟩
  | decoratorBlock b =>
    obtain ⟨program', inverse', rfl, hsections⟩ := h
    obtain ⟨_, _, hinside, hsections⟩ := Block.Alike.inside (b := b) ⟨_, _, rfl, hsections⟩ r
    exact ⟨_, _, congrArg Statement.decoratorBlock hinside, hsections⟩
  | partialBlock b =>
    obtain ⟨program', rfl, hprogram⟩ := h
    refine ⟨_, rfl, hprogram.mapBody (f := id) ?_⟩
    exact (keepAlike_trimLast_line.second r.closesLine).comp
      (keepAlike_trimFirst_line.second r.opensLine)
  | content c =>
    obtain ⟨c', rfl, hc⟩ := h
    exact ⟨c', rfl, hc⟩
  | partialCall c =>
    obtain ⟨indent, rfl⟩ := h
    exact ⟨indent, rfl⟩
  | mustache m | decorator m | comment m =>
    obtain rfl := h
    rfl

private theorem reach_alike {s s' : Statement} (h : s.Alike s') (root : Bool)
    (before before' after after' : List Statement) :
    ∃ lines lines', (∀ t ∈ lines, t = .line) ∧ (∀ t ∈ lines', t = .line)
      ∧ (∀ t ∈ (reach root true before s after).before, t = .all)
      ∧ (∀ t ∈ (reach root true before s after).after, t = .all)
      ∧ (reach root false before' s' after').before
        = (reach root true before s after).before ++ lines
      ∧ (reach root false before' s' after').after
        = (reach root true before s after).after ++ lines' := by
  have houtline : s'.outline?.map (·.strip) = s.outline?.map (·.strip) := by
    cases s with
    | content c =>
      obtain ⟨c', rfl, -⟩ := h
      rfl
    | partialCall c =>
      obtain ⟨indent, rfl⟩ := h
      rfl
    | partialBlock b =>
      obtain ⟨_, rfl, -⟩ := h
      rfl
    | block b | decoratorBlock b =>
      obtain ⟨_, _, rfl, -⟩ := h
      rfl
    | mustache m | decorator m | comment m =>
      obtain rfl := h
      rfl
  have hmarkers (on : Bool) : ∀ t ∈ (if on then [Trim.all] else []), t = .all := by
    cases on <;> simp
  have hlines (on : Bool) : ∀ t ∈ (if on then [Trim.line] else []), t = .line := by
    cases on <;> simp
  unfold reach
  cases ho : s.outline? with
  | none =>
    have ho' : s'.outline? = none := by simpa [ho] using houtline
    exact ⟨[], [], by simp, by simp, by simp, by simp, by simp [ho'], by simp [ho']⟩
  | some o =>
    obtain ⟨o', ho', hstrip⟩ : ∃ o', s'.outline? = some o' ∧ o'.strip = o.strip := by
      simpa [ho] using houtline
    simp only [ho', hstrip, Bool.not_true, Bool.false_and, Bool.or_self, Bool.false_eq_true,
      ↓reduceIte, List.append_nil]
    exact ⟨_, _, hlines _, hlines _, hmarkers _, hmarkers _, rfl, rfl⟩

private theorem opensLine_reach_true (root : Bool) (before : List Statement) (s : Statement)
    (after : List Statement) : (reach root true before s after).opensLine = false := by
  unfold reach
  cases s.outline? <;> rfl

private theorem closesLine_reach_true (root : Bool) (before : List Statement) (s : Statement)
    (after : List Statement) : (reach root true before s after).closesLine = false := by
  unfold reach
  cases s.outline? <;> rfl

private theorem trimInside_of_reach {r : Reach} (hopens : r.opensLine = false)
    (hcloses : r.closesLine = false) (s : Statement) : s.trimInside r = s := by
  cases s with
  | block b | decoratorBlock b =>
    simp only [Statement.trimInside, Statement.trimInside.inside, hopens, hcloses, applyIf,
      Bool.false_eq_true, ↓reduceIte]
  | partialBlock b =>
    simp only [Statement.trimInside, hopens, hcloses, applyIf, Bool.false_eq_true, ↓reduceIte]
    rfl
  | _ => rfl

private theorem settleAfter_alike (root : Bool) {ss ss' : List Statement} (h : allAlike ss ss')
    (before before' : List Statement) {trims lines : List Trim} (text text' : Option Content)
    (htrims : ∀ t ∈ trims, t = .all) (hlines : ∀ t ∈ lines, t = .line) :
    allAlike (settleAfter root true before trims text ss)
      (settleAfter root false before' (trims ++ lines) text' ss') := by
  induction ss generalizing ss' before before' trims lines text text' with
  | nil =>
    obtain rfl := h
    rfl
  | cons s after ih =>
    obtain ⟨s', after', rfl, hs, hafter⟩ := h
    obtain ⟨_, lines₁, -, hlines₁, -, hall₁, -, hreach₁⟩ :=
      reach_alike hs root before before' after after'
    have hrest (text text' : Option Content) := ih hafter (s :: before) (s' :: before') text text'
      hall₁ hlines₁
    rw [← hreach₁] at hrest
    obtain ⟨c, c', rfl, rfl, hc⟩ | ⟨hne, hne'⟩ := hs.content_or
    · have hstart := hc.foldl (f := fun c t => c.trimStart t) (·.trimStart_all) (·.trimStart_line)
        htrims hlines
      refine ⟨_, _, rfl, ⟨_, rfl, ?_⟩, hrest _ _⟩
      cases after with
      | nil =>
        obtain rfl := hafter
        exact hstart
      | cons n more =>
        obtain ⟨n', more', rfl, hn, -⟩ := hafter
        obtain ⟨lines₂, _, hlines₂, -, hall₂, -, hreach₂, -⟩ :=
          reach_alike hn root (.content c :: before) (.content c' :: before') more more'
        dsimp only
        rw [hreach₂]
        exact hstart.foldl (f := fun c t => c.trimEnd t) (·.trimEnd_all) (·.trimEnd_line) hall₂
          hlines₂
    · obtain ⟨indent, hsettled⟩ := settleAfter_of_ne_content root true before trims text hne
        after
      obtain ⟨indent', hsettled'⟩ := settleAfter_of_ne_content root false before'
        (trims ++ lines) text' hne' after'
      rw [hsettled, hsettled']
      refine ⟨_, _, rfl, ?_, hrest none none⟩
      have hinside := hs.trimInside (reach root false before' s' after')
      rw [← trimInside_of_reach (opensLine_reach_true root before s after)
        (closesLine_reach_true root before s after) s] at hinside
      cases s with
      | content c => exact absurd rfl (hne c)
      | partialCall p =>
        obtain ⟨_, rfl⟩ := hs
        exact ⟨_, rfl⟩
      | partialBlock b =>
        obtain ⟨_, rfl, -⟩ := hs
        exact hinside
      | block b | decoratorBlock b =>
        obtain ⟨_, _, rfl, -⟩ := hs
        exact hinside
      | mustache m | decorator m | comment m =>
        obtain rfl := hs
        exact hinside

theorem settle_alike (root : Bool) {ss ss' : List Statement} (h : allAlike ss ss') :
    allAlike (settle root true ss) (settle root false ss') :=
  settleAfter_alike root h [] [] none none (List.forall_mem_nil _) (List.forall_mem_nil _)

theorem controlProgram_alike {body : List Statement}
    (h : allAlike (controlAll true body) (controlAll false body)) (params : List (List Char)) :
    (controlProgram true ⟨body, params, false⟩).Alike
      (controlProgram false ⟨body, params, false⟩) :=
  ⟨_, rfl, settle_alike false h⟩

theorem controlled_alike (b : Block Statement)
    (hprogram : sectionAlike (controlSection true b.program) (controlSection false b.program))
    (hinverse : sectionAlike (controlSection true b.inverse) (controlSection false b.inverse)) :
    Block.Alike
      (Block.trimSections true { b with
        program := controlSection true b.program, inverse := controlSection true b.inverse })
      (Block.trimSections false { b with
        program := controlSection false b.program, inverse := controlSection false b.inverse }) :=
  Block.Alike.trimSections (b := { b with
    program := controlSection true b.program, inverse := controlSection true b.inverse })
    ⟨_, _, rfl, hprogram, hinverse⟩

private theorem control_block_alike (b : Block Statement)
    (hprogram : sectionAlike (controlSection true b.program) (controlSection false b.program))
    (hinverse : sectionAlike (controlSection true b.inverse) (controlSection false b.inverse)) :
    (Statement.control true (.block b)).Alike (Statement.control false (.block b)) := by
  obtain ⟨_, _, hsections, hprogram, hinverse⟩ := controlled_alike b hprogram hinverse
  exact ⟨_, _, congrArg Statement.block hsections, hprogram, hinverse⟩

private theorem control_decoratorBlock_alike (b : Block Statement)
    (hprogram : sectionAlike (controlSection true b.program) (controlSection false b.program))
    (hinverse : sectionAlike (controlSection true b.inverse) (controlSection false b.inverse)) :
    (Statement.control true (.decoratorBlock b)).Alike
      (Statement.control false (.decoratorBlock b)) := by
  obtain ⟨_, _, hsections, hprogram, hinverse⟩ := controlled_alike b hprogram hinverse
  exact ⟨_, _, congrArg Statement.decoratorBlock hsections, hprogram, hinverse⟩

def Portion.ControlledAlike : Portion → Prop
  | .body ss => allAlike (controlAll true ss) (controlAll false ss)
  | .inverse _ _ p => sectionAlike (controlSection true p) (controlSection false p)

theorem Spells.controlledAlike {ts : List Token} {portion : Portion} (h : Spells ts portion) :
    portion.ControlledAlike := by
  induction h with
  | nil => exact rfl
  | content hsymbol hafter ih =>
    exact ⟨_, _, rfl, ⟨_, rfl, rfl, rfl, .refl _, .refl _⟩, ih⟩
  | oneTag htag hs hafter ih =>
    cases hs with
    | mustache ho hstrip => exact ⟨_, _, rfl, rfl, ih⟩
    | decorator hstrip => exact ⟨_, _, rfl, rfl, ih⟩
    | comment hstrip => exact ⟨_, _, rfl, rfl, ih⟩
    | partialCall hindent hstrip => exact ⟨_, _, rfl, ⟨_, rfl⟩, ih⟩
  | block hopening hclosing hloc hbody hinverse hafter ihbody ihinverse ih =>
    exact ⟨_, _, rfl, control_block_alike _ ⟨_, rfl, controlProgram_alike ihbody _⟩ ihinverse, ih⟩
  | inverseBlock hopening hclosing hloc hbody hinverse hplain hafter ihbody ihinverse ih =>
    exact ⟨_, _, rfl, control_block_alike _ ihinverse ⟨_, rfl, controlProgram_alike ihbody _⟩, ih⟩
  | decoratorBlock hopening hclosing hbody hafter ihbody ih =>
    exact ⟨_, _, rfl,
      control_decoratorBlock_alike _ ⟨_, rfl, controlProgram_alike ihbody _⟩ rfl, ih⟩
  | partialBlock hopening hclosing hbody hafter ihbody ih =>
    exact ⟨_, _, rfl, ⟨_, rfl, (controlProgram_alike ihbody _).mapBody
      ((keepAlike_trimLast_all.applyIf _).comp (keepAlike_trimFirst_all.applyIf _))⟩, ih⟩
  | noInverse closing => exact rfl
  | elseSection closing hsymbol hbody ih => exact ⟨_, rfl, controlProgram_alike ih _⟩
  | chain closing htag hbody hinverse ihbody ihinverse =>
    exact ⟨_, rfl, _, rfl, _, _, rfl,
      control_block_alike _ ⟨_, rfl, controlProgram_alike ihbody _⟩ ihinverse, rfl⟩

private theorem shortens_of_alike {cs cs' : List Content} (h : List.Forall₂ Content.Alike cs cs') :
    (∀ c ∈ cs, Shortens c.written c.value) ∧ ∀ c ∈ cs', Shortens c.written c.value := by
  induction h with
  | nil => exact ⟨List.forall_mem_nil _, List.forall_mem_nil _⟩
  | cons hc hcs ih =>
    refine ⟨List.forall_mem_cons.mpr ⟨hc.kept, ih.1⟩, List.forall_mem_cons.mpr ⟨?_, ih.2⟩⟩
    rw [hc.written]
    exact hc.kept.trans hc.more

/-- Whether lines are taken decides neither about faults nor about anything but the texts and
the indentation of partials. Each text is a part of what was written, blanks aside, and a part
of the text without lines taken. -/
theorem parse_alike (text : List Char) :
    (∃ e, parse text true = .error e ∧ parse text false = .error e)
      ∨ ∃ kept taken, parse text true = .ok kept ∧ parse text false = .ok taken
        ∧ kept.bare = taken.bare
        ∧ (∀ c ∈ kept.contents, Shortens c.written c.value)
        ∧ (∀ c ∈ taken.contents, Shortens c.written c.value)
        ∧ List.Forall₂ (fun k t => t.written = k.written ∧ t.loc = k.loc
            ∧ Shortens k.value t.value) kept.contents taken.contents := by
  cases hwritten : parseWritten text with
  | error e => exact .inl ⟨e, by rw [parse, hwritten]; rfl, by rw [parse, hwritten]; rfl⟩
  | ok written =>
    obtain ⟨_, _, body, -, -, hspells, rfl⟩ := parseWritten_spelled hwritten
    have halike := settle_alike true hspells.controlledAlike
    have hcontents := halike.contents
    refine .inr ⟨_, _, by rw [parse, hwritten]; rfl, by rw [parse, hwritten]; rfl, ?_, ?_, ?_, ?_⟩
    · exact congrArg (Program.mk · [] false) halike.bare_eq.symm
    · exact (shortens_of_alike hcontents).1
    · exact (shortens_of_alike hcontents).2
    · exact hcontents.imp fun k t h => ⟨h.written, h.loc, h.more⟩

end HtmlTemplate.Mustache
