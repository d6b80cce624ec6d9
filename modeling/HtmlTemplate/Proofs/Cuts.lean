import HtmlTemplate.Proofs.Outlines
import HtmlTemplate.Proofs.Shortening
import HtmlTemplate.Proofs.Spelling

/-! Whitespace control from the side of the texts. The passes over a tree, innermost bodies
first, come to this: each text loses its start if the tag before it says so and its end if the
tag after it does. Where lines are kept the markers say so; in a template without markers it is
the tags alone on their lines. -/

namespace HtmlTemplate.Mustache

@[simp] theorem applyIf_false {α : Type} (f : α → α) (a : α) : applyIf false f a = a := rfl

@[simp] theorem applyIf_true {α : Type} (f : α → α) (a : α) : applyIf true f a = f a := rfl

def Trim.start : Trim → List Char → List Char
  | .all => Text.trimStart
  | .line => Text.dropBlankLine

def Trim.stop : Trim → List Char → List Char
  | .all => Text.trimEnd
  | .line => Text.dropEndIndent

/-- Lines are kept where all blanks next to a marker go. -/
def Trim.keepsLines : Trim → Bool
  | .all => true
  | .line => false

/-- A text with its start and its end taken or left. -/
def Trim.cut (t : Trim) (lead trail : Bool) (cs : List Char) : List Char :=
  applyIf trail t.stop (applyIf lead t.start cs)

/-- A text as it is once its start and its end have been taken or left. -/
structure Content.Cut (t : Trim) (lead trail : Bool) (c c' : Content) : Prop where
  written : c'.written = c.written
  loc : c'.loc = c.loc
  value : c'.value = t.cut lead trail c.written
  lead : c'.rightStripped = true → lead = true
  trail : c'.leftStripped = true → trail = true

theorem Trim.stop_start (t : Trim) (cs : List Char) :
    t.stop (t.start cs) = t.start (t.stop cs) := by
  cases t with
  | all => exact Text.trimEnd_trimStart cs
  | line => exact Text.dropEndIndent_dropBlankLine cs

theorem Trim.start_cut (t : Trim) (trail : Bool) (cs : List Char) :
    t.start (t.cut false trail cs) = t.cut true trail cs := by
  cases trail with
  | false => rfl
  | true => exact (t.stop_start cs).symm

theorem Trim.stop_cut (t : Trim) (lead : Bool) (cs : List Char) :
    t.stop (t.cut lead false cs) = t.cut lead true cs := rfl

theorem Trim.start_cut_all (lead trail : Bool) (cs : List Char) :
    Trim.all.start (Trim.all.cut lead trail cs) = Trim.all.cut true trail cs := by
  cases lead with
  | false => exact Trim.start_cut _ _ _
  | true =>
    rw [← Trim.start_cut .all trail cs]
    exact Text.trimStart_trimStart _

theorem Trim.stop_cut_all (lead trail : Bool) (cs : List Char) :
    Trim.all.stop (Trim.all.cut lead trail cs) = Trim.all.cut lead true cs := by
  cases trail with
  | false => rfl
  | true => exact Text.trimEnd_trimEnd _

namespace Content.Cut

variable {t : Trim} {lead trail : Bool} {c c' : Content}

theorem trimStart (h : c.Cut t lead trail c') (hlead : t = .line → lead = false) :
    c.Cut t true trail (c'.trimStart t) := by
  cases t with
  | all =>
    refine ⟨h.written, h.loc, ?_, fun _ => rfl, h.trail⟩
    rw [← Trim.start_cut_all lead trail, ← h.value]
    rfl
  | line =>
    obtain rfl := hlead rfl
    have hflag : c'.rightStripped = false := by simpa using h.lead
    simp only [Content.trimStart, hflag, Bool.false_eq_true, ↓reduceIte]
    refine ⟨h.written, h.loc, ?_, fun _ => rfl, h.trail⟩
    rw [← Trim.start_cut .line trail, ← h.value]
    rfl

theorem trimEnd (h : c.Cut t lead trail c') (htrail : t = .line → trail = false) :
    c.Cut t lead true (c'.trimEnd t) := by
  cases t with
  | all =>
    refine ⟨h.written, h.loc, ?_, h.lead, fun _ => rfl⟩
    rw [← Trim.stop_cut_all lead trail, ← h.value]
    rfl
  | line =>
    obtain rfl := htrail rfl
    have hflag : c'.leftStripped = false := by simpa using h.trail
    simp only [Content.trimEnd, hflag, Bool.false_eq_true, ↓reduceIte]
    refine ⟨h.written, h.loc, ?_, h.lead, fun _ => rfl⟩
    rw [← Trim.stop_cut .line lead, ← h.value]
    rfl

end Content.Cut

def takesEnd (t : Trim) (root : Bool) (before : List Statement) (trail : Bool) :
    List Statement → Bool
  | [] => trail
  | s :: after => !(reach root t.keepsLines before s after).before.isEmpty

def chainedSection : Option (Program Statement) → Bool
  | none => false
  | some p => p.chained

def Statement.endsChain : Statement → Bool
  | .block b | .decoratorBlock b => chainedSection b.inverse
  | _ => false

def takesElseLine (t : Trim) : Option (Program Statement) → Option (Program Statement) → Bool
  | some p, some inverse => !t.keepsLines && Block.elseAlone p inverse
  | _, _ => false

mutual

/-- A statement with its texts trimmed once at either end, or not. A text is told about its own
ends, a block about the text after its opening tag and the one before its closing tag: these
the tags take besides what their markers do. -/
def Statement.Cut (t : Trim) (lead trail opens closes : Bool) : Statement → Statement → Prop
  | .content c, s => ∃ c', s = .content c' ∧ c.Cut t lead trail c'
  | .partialCall p, s => ∃ indent, s = .partialCall { p with indent }
  | .block b, s => ∃ b', s = .block b' ∧ b.Cut t opens closes b'
  | .decoratorBlock b, s => ∃ b', s = .decoratorBlock b' ∧ b.Cut t opens closes b'
  | .partialBlock ⟨call, program, openStrip, closeStrip, loc⟩, s =>
    ∃ program', s = .partialBlock ⟨call, program', openStrip, closeStrip, loc⟩
      ∧ Program.PlainCut t (openStrip.closing || opens) (closeStrip.opening || closes) program
          program'
  | .mustache m, s => s = .mustache m
  | .decorator m, s => s = .decorator m
  | .comment c, s => s = .comment c
termination_by structural s => s

def Block.Cut (t : Trim) (opens closes : Bool) : Block Statement → Block Statement → Prop
  | ⟨call, program, inverse, openStrip, inverseStrip, closeStrip, loc⟩, b =>
    ∃ program' inverse', b = ⟨call, program', inverse', openStrip, inverseStrip, closeStrip, loc⟩
      ∧ plainCut t (openStrip.closing || opens)
          (if inverse.isSome then inverseStrip.opening || takesElseLine t program inverse
            else closeStrip.opening || closes) program program'
      ∧ if program.isSome then
          sectionCut t (inverseStrip.closing || takesElseLine t program inverse)
            (closeStrip.opening || closes) inverse inverse'
        else plainCut t (openStrip.closing || opens) (closeStrip.opening || closes) inverse inverse'
termination_by structural b => b

def allCut (t : Trim) (root : Bool) (before : List Statement) (lead trail : Bool) :
    List Statement → List Statement → Prop
  | [], ss' => ss' = []
  | s :: after, ss' =>
    ∃ s' after', ss' = s' :: after'
      ∧ s.Cut t lead (takesEnd t root (s :: before) trail after)
          (reach root t.keepsLines before s after).opensLine
          ((reach root t.keepsLines before s after).closesLine && !s.endsChain) s'
      ∧ allCut t root (s :: before) (!(reach root t.keepsLines before s after).after.isEmpty) trail
          after after'
termination_by structural ss => ss

def chainCut (t : Trim) (lead trail : Bool) : List Statement → List Statement → Prop
  | [s], ss' =>
    (∃ b, s = .block b ∧ b.program.isSome = true)
      ∧ ∃ s', ss' = [s'] ∧ s.Cut t false false lead trail s'
  | _, _ => False
termination_by structural ss => ss

def Program.PlainCut (t : Trim) (lead trail : Bool) :
    Program Statement → Program Statement → Prop
  | ⟨body, params, chained⟩, p =>
    chained = false ∧ ∃ body', p = ⟨body', params, false⟩ ∧ allCut t false [] lead trail body body'
termination_by structural p => p

def Program.Cut (t : Trim) (lead trail : Bool) : Program Statement → Program Statement → Prop
  | ⟨body, params, chained⟩, p =>
    ∃ body', p = ⟨body', params, chained⟩
      ∧ if chained then chainCut t lead trail body body'
        else allCut t false [] lead trail body body'
termination_by structural p => p

def plainCut (t : Trim) (lead trail : Bool) :
    Option (Program Statement) → Option (Program Statement) → Prop
  | none, p => p = none
  | some q, p => ∃ q', p = some q' ∧ q.PlainCut t lead trail q'
termination_by structural p => p

def sectionCut (t : Trim) (lead trail : Bool) :
    Option (Program Statement) → Option (Program Statement) → Prop
  | none, p => p = none
  | some q, p => ∃ q', p = some q' ∧ q.Cut t lead trail q'
termination_by structural p => p

end

section

variable {t : Trim} {root lead trail opens closes : Bool} {before : List Statement}
  {s s' : Statement} {ss ss' : List Statement}

theorem Statement.Cut.content_or (h : s.Cut t lead trail opens closes s') :
    (∃ c c', s = .content c ∧ s' = .content c' ∧ c.Cut t lead trail c')
      ∨ (∀ c, s ≠ .content c) ∧ ∀ c, s' ≠ .content c := by
  cases s with
  | content c =>
    obtain ⟨c', rfl, hc⟩ := h
    exact .inl ⟨c, c', rfl, rfl, hc⟩
  | mustache m | decorator m | comment m =>
    obtain rfl := h
    exact .inr ⟨fun _ => Statement.noConfusion, fun _ => Statement.noConfusion⟩
  | partialCall p =>
    obtain ⟨_, rfl⟩ := h
    exact .inr ⟨fun _ => Statement.noConfusion, fun _ => Statement.noConfusion⟩
  | partialBlock p =>
    obtain ⟨_, rfl, _⟩ := h
    exact .inr ⟨fun _ => Statement.noConfusion, fun _ => Statement.noConfusion⟩
  | block b | decoratorBlock b =>
    obtain ⟨_, rfl, _⟩ := h
    exact .inr ⟨fun _ => Statement.noConfusion, fun _ => Statement.noConfusion⟩

theorem Statement.Cut.other (h : s.Cut t lead trail opens closes s') (hne : ∀ c, s ≠ .content c)
    (lead' trail' : Bool) : s.Cut t lead' trail' opens closes s' := by
  cases s with
  | content c => exact absurd rfl (hne c)
  | _ => exact h

theorem allCut.trimFirst (h : allCut t root before lead trail ss ss')
    (hlead : t = .line → lead = false) :
    allCut t root before true trail ss (trimFirst t ss') := by
  cases ss with
  | nil =>
    obtain rfl := h
    rfl
  | cons s after =>
    obtain ⟨s', after', rfl, hs, hafter⟩ := h
    obtain ⟨c, c', rfl, rfl, hc⟩ | ⟨hne, hne'⟩ := hs.content_or
    · exact ⟨_, _, rfl, ⟨_, rfl, hc.trimStart hlead⟩, hafter⟩
    · refine ⟨_, _, ?_, hs.other hne _ _, hafter⟩
      cases s' with
      | content c => exact absurd rfl (hne' c)
      | _ => rfl

private theorem trimLast_cons (t : Trim) (s : Statement) {ss : List Statement} (h : ss ≠ []) :
    trimLast t (s :: ss) = s :: trimLast t ss := by
  cases ss with
  | nil => exact absurd rfl h
  | cons s' ss => cases s <;> rfl

private theorem trimLast_other (t : Trim) (hne : ∀ c, s ≠ .content c) : trimLast t [s] = [s] := by
  cases s with
  | content c => exact absurd rfl (hne c)
  | _ => rfl

theorem allCut.trimLast (h : allCut t root before lead trail ss ss')
    (htrail : t = .line → trail = false) :
    allCut t root before lead true ss (trimLast t ss') := by
  induction ss generalizing ss' before lead with
  | nil =>
    obtain rfl := h
    rfl
  | cons s after ih =>
    obtain ⟨s', after', rfl, hs, hafter⟩ := h
    cases after with
    | nil =>
      obtain rfl := hafter
      obtain ⟨c, c', rfl, rfl, hc⟩ | ⟨hne, hne'⟩ := hs.content_or
      · exact ⟨_, _, rfl, ⟨_, rfl, hc.trimEnd htrail⟩, rfl⟩
      · exact ⟨_, _, trimLast_other t hne', hs.other hne _ _, rfl⟩
    | cons n more =>
      refine ⟨_, _, trimLast_cons t s' ?_, hs, ih hafter⟩
      obtain ⟨n', more', rfl, -⟩ := hafter
      exact List.cons_ne_nil _ _

theorem allCut.first (h : allCut t root before lead trail ss ss')
    (hlead : t = .line → lead = false) (marked alone : Bool) (hmarked : t = .line → marked = false)
    (halone : t = .all → alone = false) :
    allCut t root before (lead || (marked || alone)) trail ss
      (applyIf alone (Mustache.trimFirst .line)
        (applyIf marked (Mustache.trimFirst .all) ss')) := by
  cases t with
  | all =>
    obtain rfl := halone rfl
    cases marked with
    | false => simpa using h
    | true => simpa using h.trimFirst hlead
  | line =>
    obtain rfl := hmarked rfl
    cases alone with
    | false => simpa using h
    | true => simpa using h.trimFirst hlead

theorem allCut.last (h : allCut t root before lead trail ss ss')
    (htrail : t = .line → trail = false) (marked alone : Bool)
    (hmarked : t = .line → marked = false) (halone : t = .all → alone = false) :
    allCut t root before lead (trail || (marked || alone)) ss
      (applyIf alone (Mustache.trimLast .line) (applyIf marked (Mustache.trimLast .all) ss')) := by
  cases t with
  | all =>
    obtain rfl := halone rfl
    cases marked with
    | false => simpa using h
    | true => simpa using h.trimLast htrail
  | line =>
    obtain rfl := hmarked rfl
    cases alone with
    | false => simpa using h
    | true => simpa using h.trimLast htrail

end

section

variable {t : Trim} {lead trail lead' trail' : Bool} {p p' : Program Statement}
  {q q' : Option (Program Statement)} {f : List Statement → List Statement}

theorem Program.PlainCut.mapBody (h : p.PlainCut t lead trail p')
    (hf : ∀ {ss ss'}, allCut t false [] lead trail ss ss' →
      allCut t false [] lead' trail' ss (f ss')) :
    p.PlainCut t lead' trail' (p'.mapBody f) := by
  obtain ⟨body, params, chained⟩ := p
  obtain ⟨hchained, body', rfl, hbody⟩ := h
  exact ⟨hchained, _, rfl, hf hbody⟩

theorem plainCut.map (h : plainCut t lead trail q q')
    (hf : ∀ {ss ss'}, allCut t false [] lead trail ss ss' →
      allCut t false [] lead' trail' ss (f ss')) :
    plainCut t lead' trail' q (q'.map (Program.mapBody f)) := by
  cases q with
  | none =>
    obtain rfl := h
    rfl
  | some p =>
    obtain ⟨p', rfl, hp⟩ := h
    exact ⟨_, rfl, hp.mapBody hf⟩

theorem Program.Cut.chain_or (h : p.Cut t lead trail p') :
    (∃ b b' params, p = ⟨[.block b], params, true⟩ ∧ p' = ⟨[.block b'], params, true⟩
      ∧ b.program.isSome = true ∧ b.Cut t lead trail b')
    ∨ p.PlainCut t lead trail p' := by
  obtain ⟨body, params, _ | _⟩ := p
  · obtain ⟨body', rfl, hbody⟩ := h
    exact .inr ⟨rfl, _, rfl, hbody⟩
  · obtain ⟨body', rfl, hbody⟩ := h
    obtain _ | ⟨s, _ | ⟨s', ss⟩⟩ := body
    · exact hbody.elim
    · obtain ⟨⟨b, rfl, hsome⟩, _, rfl, b', rfl, hb⟩ := hbody
      exact .inl ⟨b, b', params, rfl, rfl, hsome, hb⟩
    · exact hbody.elim

theorem Program.Cut.of_chain {b b' : Block Statement} (hsome : b.program.isSome = true)
    (h : b.Cut t lead trail b') (params : List (List Char)) :
    Program.Cut t lead trail ⟨[.block b], params, true⟩ ⟨[.block b'], params, true⟩ :=
  ⟨_, rfl, ⟨b, rfl, hsome⟩, _, rfl, b', rfl, h⟩

theorem Program.PlainCut.cut (h : p.PlainCut t lead trail p') : p.Cut t lead trail p' := by
  obtain ⟨body, params, chained⟩ := p
  obtain ⟨rfl, body', rfl, hbody⟩ := h
  exact ⟨_, rfl, hbody⟩

theorem Program.PlainCut.chained_eq (h : p.PlainCut t lead trail p') : p'.chained = false := by
  obtain ⟨body, params, chained⟩ := p
  obtain ⟨-, body', rfl, -⟩ := h
  rfl

theorem mapFirst_of_plain (h : p.chained = false) : p.mapFirst f = p.mapBody f := by
  unfold Program.mapFirst
  split
  · cases h
  · rfl

theorem Program.Cut.mapFirst (h : p.Cut t lead trail p')
    (hf : ∀ {lead trail ss ss'}, (t = .line → lead = false) → allCut t false [] lead trail ss ss' →
      allCut t false [] true trail ss (f ss'))
    (hlead : t = .line → lead = false)
    (hp : ∀ b params, p = ⟨[.block b], params, true⟩ → t = .line → b.openStrip.closing = false) :
    p.Cut t true trail (p'.mapFirst f) := by
  obtain ⟨b, b', params, rfl, rfl, hsome, hb⟩ | hplain := h.chain_or
  · have hmarked : t = .line → (b.openStrip.closing || lead) = false := fun ht => by
      rw [hp b params rfl ht, hlead ht, Bool.or_self]
    obtain ⟨call, _ | program, inverse, openStrip, inverseStrip, closeStrip, loc⟩ := b
    · cases hsome
    · obtain ⟨program', inverse', rfl, hprogram, hinverse⟩ := hb
      have hprogram' := hprogram.map (hf hmarked)
      have hb' : Block.Cut t true trail ⟨call, some program, inverse, openStrip, inverseStrip,
          closeStrip, loc⟩ ⟨call, program'.map (Program.mapBody f), inverse', openStrip,
          inverseStrip, closeStrip, loc⟩ :=
        ⟨_, _, rfl, by rwa [Bool.or_true], hinverse⟩
      exact .of_chain rfl hb' params
  · rw [mapFirst_of_plain hplain.chained_eq]
    exact (hplain.mapBody (hf hlead)).cut

theorem Program.Cut.mapLast (h : p.Cut .all lead trail p') :
    p.Cut .all lead true (p'.mapLast (trimLast .all)) := by
  have hf {lead trail ss ss'} (h : allCut .all false [] lead trail ss ss') :
      allCut .all false [] lead true ss (trimLast .all ss') := h.trimLast (fun h => nomatch h)
  fun_induction Program.mapLast (trimLast .all) p' generalizing p lead trail with
  | case1 call program next openStrip inverseStrip closeStrip loc rest params ih =>
    obtain ⟨b, b', params, rfl, heq, hsome, hb⟩ | hplain := h.chain_or
    · cases heq
      obtain ⟨call, _ | program, _ | inverse, openStrip, inverseStrip, closeStrip, loc⟩ := b
      · cases hsome
      · cases hsome
      · obtain ⟨_, _, heq, -, hinverse⟩ := hb
        cases heq
        cases hinverse
      · obtain ⟨_, _, heq, hprogram, _, rfl, hinverse⟩ := hb
        cases heq
        have hinverse' := ih hinverse
        rw [← Bool.or_true closeStrip.opening] at hinverse'
        have hb' : Block.Cut .all lead true ⟨call, some program, some inverse, openStrip,
            inverseStrip, closeStrip, loc⟩ _ := ⟨_, _, rfl, hprogram, _, rfl, hinverse'⟩
        exact .of_chain rfl hb' params
    · cases hplain.chained_eq
  | case2 call program openStrip inverseStrip closeStrip loc rest params =>
    obtain ⟨b, b', params, rfl, heq, hsome, hb⟩ | hplain := h.chain_or
    · cases heq
      obtain ⟨call, _ | program, _ | inverse, openStrip, inverseStrip, closeStrip, loc⟩ := b
      · cases hsome
      · cases hsome
      · obtain ⟨_, _, heq, hprogram, -⟩ := hb
        cases heq
        have hprogram' := hprogram.map hf
        rw [← Bool.or_true closeStrip.opening] at hprogram'
        have hb' : Block.Cut .all lead true ⟨call, some program, none, openStrip, inverseStrip,
            closeStrip, loc⟩ _ := ⟨_, _, rfl, hprogram', rfl⟩
        exact .of_chain rfl hb' params
      · obtain ⟨_, _, heq, -, _, ⟨⟩, -⟩ := hb
        cases heq
    · cases hplain.chained_eq
  | case3 p hnext hlast =>
    obtain ⟨b, b', params, rfl, rfl, -, -⟩ | hplain := h.chain_or
    · obtain ⟨call, program, _ | next, openStrip, inverseStrip, closeStrip, loc⟩ := b'
      · exact (hlast _ _ _ _ _ _ _ _ rfl).elim
      · exact (hnext _ _ _ _ _ _ _ _ _ rfl).elim
    · exact (hplain.mapBody hf).cut

end

def Block.Unmarked (b : Block Statement) : Prop :=
  b.openStrip = {} ∧ b.inverseStrip = {} ∧ b.closeStrip = {}

def linkUnmarked (p : Option (Program Statement)) : Prop :=
  ∀ b params, p = some ⟨[.block b], params, true⟩ → b.openStrip = {}

theorem linkUnmarked_plain (body : List Statement) (params : List (List Char)) :
    linkUnmarked (some ⟨body, params, false⟩) :=
  fun _ _ h => nomatch h

section

variable {t : Trim} {root opens closes : Bool} {before ss ss' : List Statement}
  {p p' : Program Statement}

theorem allCut.ends (h : allCut t root before false false ss ss') (first last alone : Bool)
    (hfirst : t = .line → first = false) (hlast : t = .line → last = false)
    (halone : t = .all → alone = false) :
    allCut t root before (first || false) (last || alone) ss
      (applyIf alone (Mustache.trimLast .line) (applyIf last (Mustache.trimLast .all)
        (applyIf first (Mustache.trimFirst .all) ss'))) := by
  have hopened := h.first (fun _ => rfl) first false hfirst fun _ => rfl
  have hclosed := hopened.last (fun _ => rfl) last alone hlast halone
  rwa [Bool.false_or, Bool.false_or] at hclosed

theorem Program.Cut.ends (h : p.Cut t false false p') {first last alone : Bool}
    (hfirst : t = .line → first = false) (hlast : t = .line → last = false)
    (halone : t = .all → alone = false) (hlink : t = .line → linkUnmarked (some p)) :
    p.Cut t (first || alone) (last || false)
      (applyIf alone (Program.mapFirst (trimFirst .line))
        (applyIf last (Program.mapLast (trimLast .all))
          (applyIf first (Program.mapFirst (trimFirst .all)) p'))) := by
  cases t with
  | all =>
    obtain rfl := halone rfl
    have hopened : p.Cut .all first false
        (applyIf first (Program.mapFirst (trimFirst .all)) p') := by
      cases first with
      | false => exact h
      | true =>
        exact h.mapFirst (fun hlead hss => hss.trimFirst hlead) (fun h => nomatch h)
          fun _ _ _ h => nomatch h
    rw [Bool.or_false, Bool.or_false]
    cases last with
    | false => exact hopened
    | true => exact hopened.mapLast
  | line =>
    obtain rfl := hfirst rfl
    obtain rfl := hlast rfl
    cases alone with
    | false => exact h
    | true =>
      refine h.mapFirst (fun hlead hss => hss.trimFirst hlead) (fun _ => rfl)
        fun b params hp _ => ?_
      rw [hlink rfl b params (congrArg some hp)]

theorem cut_trimSections {b : Block Statement} {program inverse : Option (Program Statement)}
    (hunmarked : t = .line → b.Unmarked) (hlink : t = .line → linkUnmarked b.inverse)
    (hprogram : plainCut t false false b.program program)
    (hinverse : if b.program.isSome then sectionCut t false false b.inverse inverse
      else plainCut t false false b.inverse inverse)
    (hbare : bareSection program = bareSection b.program)
    (hbare' : bareSection inverse = bareSection b.inverse) :
    b.Cut t false false (Block.trimSections t.keepsLines { b with program, inverse }) := by
  obtain ⟨call, program₀, inverse₀, openStrip, inverseStrip, closeStrip, loc⟩ := b
  have hopen : t = .line → openStrip.closing = false := fun ht => by
    have hstrip : openStrip = {} := (hunmarked ht).1
    rw [hstrip]
  have helse : t = .line → inverseStrip.opening = false ∧ inverseStrip.closing = false :=
    fun ht => by
      have hstrip : inverseStrip = {} := (hunmarked ht).2.1
      rw [hstrip]
      exact ⟨rfl, rfl⟩
  have hclose : t = .line → closeStrip.opening = false := fun ht => by
    have hstrip : closeStrip = {} := (hunmarked ht).2.2
    rw [hstrip]
  have hplain {p p' : Program Statement} (hp : p.PlainCut t false false p') :
      p.PlainCut t (openStrip.closing || false) (closeStrip.opening || false)
        (p'.mapBody fun body => applyIf closeStrip.opening (trimLast .all)
          (applyIf openStrip.closing (trimFirst .all) body)) :=
    hp.mapBody (allCut.ends · _ _ false hopen hclose fun _ => rfl)
  cases program₀ with
  | none =>
    obtain rfl := hprogram
    cases inverse₀ with
    | none =>
      obtain rfl := hinverse
      exact ⟨_, _, rfl, rfl, rfl⟩
    | some q =>
      obtain ⟨q', rfl, hq⟩ := hinverse
      exact ⟨_, _, rfl, rfl, _, rfl, hplain hq⟩
  | some p =>
    obtain ⟨p', rfl, hp⟩ := hprogram
    cases inverse₀ with
    | none =>
      obtain rfl := hinverse
      exact ⟨_, _, rfl, ⟨_, rfl, hplain hp⟩, rfl⟩
    | some q =>
      obtain ⟨q', rfl, hq⟩ := hinverse
      have halone : (!t.keepsLines && Block.elseAlone p' q')
          = takesElseLine t (some p) (some q) := by
        rw [elseAlone_eq (Option.some.inj hbare) (Option.some.inj hbare')]
        rfl
      have hline : t = .all → takesElseLine t (some p) (some q) = false := fun ht => by
        rw [ht]
        rfl
      refine ⟨_, _, rfl, ⟨_, rfl, ?_⟩, _, rfl, ?_⟩
      · rw [halone]
        exact hp.mapBody (allCut.ends · _ _ _ hopen (fun ht => (helse ht).1) hline)
      · rw [halone]
        exact hq.ends (fun ht => (helse ht).2) hclose hline hlink

end

section

variable {b b' : Block Statement}

theorem Block.Cut.mapOpened (h : b.Cut .line false false b') (hunmarked : b.Unmarked) :
    b.Cut .line true false (b'.mapOpened (trimFirst .line)) := by
  obtain ⟨call, program, inverse, openStrip, inverseStrip, closeStrip, loc⟩ := b
  obtain ⟨rfl, rfl, rfl⟩ : openStrip = {} ∧ inverseStrip = {} ∧ closeStrip = {} := hunmarked
  obtain ⟨program', inverse', rfl, hprogram, hinverse⟩ := h
  cases program with
  | some p =>
    obtain ⟨p', rfl, hp⟩ := hprogram
    exact ⟨_, _, rfl, ⟨_, rfl, hp.mapBody (·.trimFirst fun _ => rfl)⟩, hinverse⟩
  | none =>
    obtain rfl := hprogram
    exact ⟨_, _, rfl, rfl, plainCut.map hinverse (·.trimFirst fun _ => rfl)⟩

theorem Block.Cut.mapClosed {opens : Bool} (h : b.Cut .line opens false b')
    (hunmarked : b.Unmarked) :
    b.Cut .line opens (!chainedSection b.inverse) (b'.mapClosed (trimLast .line)) := by
  obtain ⟨call, program, inverse, openStrip, inverseStrip, closeStrip, loc⟩ := b
  obtain ⟨rfl, rfl, rfl⟩ : openStrip = {} ∧ inverseStrip = {} ∧ closeStrip = {} := hunmarked
  obtain ⟨program', inverse', rfl, hprogram, hinverse⟩ := h
  cases inverse with
  | none =>
    have hnone : inverse' = none := by cases program <;> exact hinverse
    subst hnone
    refine ⟨_, none, rfl, plainCut.map hprogram (·.trimLast fun _ => rfl), ?_⟩
    cases program <;> rfl
  | some q =>
    cases program with
    | none =>
      obtain rfl := hprogram
      obtain ⟨q', rfl, hq⟩ := hinverse
      have hplain : q.chained = false := by
        obtain ⟨body, params, chained⟩ := q
        exact hq.1
      refine ⟨_, _, rfl, rfl, _, rfl, ?_⟩
      simp only [chainedSection, hplain, Bool.not_false, Bool.or_true]
      exact hq.mapBody (·.trimLast fun _ => rfl)
    | some p =>
      obtain ⟨q', rfl, hq⟩ := hinverse
      refine ⟨_, _, rfl, hprogram, _, rfl, ?_⟩
      obtain ⟨l, l', params, rfl, rfl, hsome, hl⟩ | hplain := hq.chain_or
      · exact .of_chain hsome hl params
      · have hchained : q.chained = false := by
          obtain ⟨body, params, chained⟩ := q
          exact hplain.1
        simp only [chainedSection, hchained, Bool.not_false, Bool.or_true]
        exact (hplain.mapBody (·.trimLast fun _ => rfl)).cut

theorem Block.Cut.inside {t : Trim} (h : b.Cut t false false b')
    (hunmarked : t = .line → b.Unmarked) {r : Reach}
    (hr : t = .all → r.opensLine = false ∧ r.closesLine = false) :
    b.Cut t r.opensLine (r.closesLine && !chainedSection b.inverse)
      (Statement.trimInside.inside r b') := by
  unfold Statement.trimInside.inside
  cases t with
  | all =>
    obtain ⟨hopens, hcloses⟩ := hr rfl
    rw [hopens, hcloses]
    exact h
  | line =>
    have hunmarked := hunmarked rfl
    have hopened : b.Cut .line r.opensLine false
        (applyIf r.opensLine (Block.mapOpened (trimFirst .line)) b') := by
      cases r.opensLine with
      | false => exact h
      | true => exact h.mapOpened hunmarked
    cases r.closesLine with
    | false => exact hopened
    | true => exact hopened.mapClosed hunmarked

end

def Statement.Unmarked : Statement → Prop
  | .mustache m | .decorator m => m.strip = {}
  | .comment c => c.strip = {}
  | .partialCall p => p.strip = {}
  | .block b | .decoratorBlock b => b.Unmarked
  | .partialBlock b => b.openStrip = {} ∧ b.closeStrip = {}
  | .content _ => True

section

variable {t : Trim} {root : Bool} {before after : List Statement} {s s' : Statement}

theorem outline?_strip (hs : s.Unmarked) {o : Outline} (ho : s.outline? = some o) :
    o.strip = {} := by
  cases s with
  | content c => cases ho
  | mustache m | decorator m | comment m | partialCall m =>
    cases ho
    exact hs
  | block b | decoratorBlock b =>
    cases ho
    show Strip.mk b.openStrip.opening b.closeStrip.closing = {}
    rw [hs.1, hs.2.2]
  | partialBlock b =>
    cases ho
    show Strip.mk b.openStrip.opening b.closeStrip.closing = {}
    rw [hs.1, hs.2]

theorem reach_trims (t : Trim) (root : Bool) (before : List Statement) (s : Statement)
    (after : List Statement) (hs : t = .line → s.Unmarked) :
    (reach root t.keepsLines before s after).before
        = (if !(reach root t.keepsLines before s after).before.isEmpty then [t] else [])
      ∧ (reach root t.keepsLines before s after).after
        = (if !(reach root t.keepsLines before s after).after.isEmpty then [t] else []) := by
  unfold reach
  cases ho : s.outline? with
  | none => exact ⟨rfl, rfl⟩
  | some o =>
    cases t with
    | all =>
      obtain ⟨⟨opening, closing⟩, inline, opens, closes⟩ := o
      cases opening <;> cases closing <;> exact ⟨rfl, rfl⟩
    | line =>
      have hstrip := outline?_strip (hs rfl) ho
      simp only [hstrip]
      constructor
      all_goals
        simp only [Bool.false_eq_true, ↓reduceIte, List.nil_append]
        split <;> rfl

theorem reach_keepsLines (root : Bool) (before : List Statement) (s : Statement)
    (after : List Statement) :
    (reach root Trim.all.keepsLines before s after).opensLine = false
      ∧ (reach root Trim.all.keepsLines before s after).closesLine = false := by
  unfold reach
  cases s.outline? <;> exact ⟨rfl, rfl⟩

theorem Statement.Cut.trimInside (h : s.Cut t false false false false s')
    (hunmarked : t = .line → s.Unmarked) {r : Reach}
    (hr : t = .all → r.opensLine = false ∧ r.closesLine = false) :
    s.Cut t false false r.opensLine (r.closesLine && !s.endsChain) (s'.trimInside r) := by
  cases s with
  | content c =>
    obtain ⟨c', rfl, hc⟩ := h
    exact ⟨c', rfl, hc⟩
  | partialCall p =>
    obtain ⟨indent, rfl⟩ := h
    exact ⟨indent, rfl⟩
  | mustache m | decorator m | comment m =>
    obtain rfl := h
    rfl
  | block b | decoratorBlock b =>
    obtain ⟨b', rfl, hb⟩ := h
    exact ⟨_, rfl, hb.inside hunmarked hr⟩
  | partialBlock b =>
    obtain ⟨call, p, openStrip, closeStrip, loc⟩ := b
    obtain ⟨p', rfl, hp⟩ := h
    simp only [Statement.endsChain, Bool.not_false, Bool.and_true]
    refine ⟨_, rfl, ?_⟩
    cases t with
    | all =>
      obtain ⟨hopens, hcloses⟩ := hr rfl
      rw [hopens, hcloses]
      exact hp
    | line =>
      obtain ⟨rfl, rfl⟩ : openStrip = {} ∧ closeStrip = {} := hunmarked rfl
      refine hp.mapBody fun hbody => ?_
      have hopened := hbody.first (fun _ => rfl) false r.opensLine (fun _ => rfl)
        fun ht => nomatch ht
      exact hopened.last (fun _ => rfl) false r.closesLine (fun _ => rfl) fun ht => nomatch ht

private theorem reach_next (root : Bool) {ss ss' : List Statement}
    (hbefore : bareAll ss' = bareAll ss)
    {more more' : List Statement} (hunmarked : ∀ s ∈ more, t = .line → s.Unmarked) :
    bareAll more' = bareAll more →
      (match more' with
        | [] => []
        | n :: more' => (reach root t.keepsLines ss' n more').before)
        = if takesEnd t root ss false more then [t] else [] := by
  intro hbare
  cases more with
  | nil =>
    cases more' with
    | nil => rfl
    | cons n' more' => cases hbare
  | cons n more =>
    cases more' with
    | nil => cases hbare
    | cons n' more' =>
      obtain ⟨hn, hmore⟩ : n'.bare = n.bare ∧ bareAll more' = bareAll more := List.cons.inj hbare
      dsimp only
      rw [reach_eq root t.keepsLines hbefore hn hmore]
      exact (reach_trims t root ss n more (hunmarked n List.mem_cons_self)).1

theorem Content.Cut.ends {c c' : Content} (h : c.Cut t false false c') (lead trail : Bool) :
    c.Cut t lead trail ((if trail then [t] else []).foldl (fun c t => c.trimEnd t)
      ((if lead then [t] else []).foldl (fun c t => c.trimStart t) c')) := by
  have hlead : c.Cut t lead false
      ((if lead then [t] else []).foldl (fun c t => c.trimStart t) c') := by
    cases lead with
    | false => exact h
    | true => exact h.trimStart fun _ => rfl
  cases trail with
  | false => exact hlead
  | true => exact hlead.trimEnd fun _ => rfl

theorem settleAfter_cut {ss ss' : List Statement}
    (h : List.Forall₂ (Statement.Cut t false false false false) ss ss')
    (hbare : bareAll ss' = bareAll ss) (hunmarked : ∀ s ∈ ss, t = .line → s.Unmarked)
    {before before' : List Statement} (hbefore : bareAll before' = bareAll before) (lead : Bool)
    (text : Option Content) :
    allCut t root before lead false ss
      (settleAfter root t.keepsLines before' (if lead then [t] else []) text ss') := by
  induction h generalizing before before' lead text with
  | nil => rfl
  | @cons s s' after after' hs hafter ih =>
    obtain ⟨hs', hafter'⟩ : s'.bare = s.bare ∧ bareAll after' = bareAll after :=
      List.cons.inj hbare
    obtain ⟨hunmarked, hunmarked'⟩ := List.forall_mem_cons.mp hunmarked
    have hreach := reach_eq root t.keepsLines hbefore hs' hafter'
    have hbefore' : bareAll (s' :: before') = bareAll (s :: before) := by
      rw [bareAll, bareAll, hs', hbefore]
    have htrims := (reach_trims t root before s after hunmarked).2
    have hrest (text : Option Content) := ih hafter' hunmarked' hbefore'
      (!(reach root t.keepsLines before s after).after.isEmpty) text
    rw [← htrims] at hrest
    obtain ⟨c, c', rfl, rfl, hc⟩ | ⟨hne, hne'⟩ := hs.content_or
    · have hnext := reach_next root hbefore' hunmarked' hafter'
      have hends := hc.ends lead (takesEnd t root (.content c :: before) false after)
      rw [← hnext] at hends
      refine ⟨_, _, rfl, ⟨_, rfl, hends⟩, ?_⟩
      rw [hreach]
      exact hrest _
    · obtain ⟨indent, hsettled⟩ := settleAfter_of_ne_content root t.keepsLines before'
        (if lead then [t] else []) text hne' after'
      rw [hsettled, hreach]
      refine ⟨_, _, rfl, ?_, hrest _⟩
      have hinside := (hs.trimInside hunmarked (r := reach root t.keepsLines before s after)
        fun ht => by
          subst ht
          exact reach_keepsLines root before s after).other hne lead
        (takesEnd t root (s :: before) false after)
      cases s with
      | content c => exact absurd rfl (hne c)
      | partialCall p =>
        obtain ⟨_, rfl⟩ := hs
        exact ⟨_, rfl⟩
      | partialBlock b =>
        obtain ⟨_, rfl, -⟩ := hs
        exact hinside
      | block b | decoratorBlock b =>
        obtain ⟨_, rfl, -⟩ := hs
        exact hinside
      | mustache m | decorator m | comment m =>
        obtain rfl := hs
        exact hinside

end

def Markless (t : Trim) (ts : List Token) : Prop :=
  t = .line → ∀ token ∈ ts, token.markers = {}

theorem markless_append {t : Trim} {ts ts' : List Token} :
    Markless t (ts ++ ts') ↔ Markless t ts ∧ Markless t ts' := by
  simp only [Markless, List.forall_mem_append]
  exact ⟨fun h => ⟨fun ht => (h ht).1, fun ht => (h ht).2⟩, fun h ht => ⟨h.1 ht, h.2 ht⟩⟩

theorem markless_cons {t : Trim} {token : Token} {ts : List Token} :
    Markless t (token :: ts) ↔ (t = .line → token.markers = {}) ∧ Markless t ts := by
  simp only [Markless, List.forall_mem_cons]
  exact ⟨fun h => ⟨fun ht => (h ht).1, fun ht => (h ht).2⟩, fun h ht => ⟨h.1 ht, h.2 ht⟩⟩

theorem markers_eq_empty {tag : List Token} (h : ∀ t ∈ tag, t.markers = {}) : markers tag = {} := by
  have hfirst : (tag.head?.any (·.markers.opening)) = false := by
    cases hhead : tag.head? with
    | none => rfl
    | some t => rw [Option.any_some, h t (List.mem_of_mem_head? hhead)]
  have hlast : (tag.getLast?.any (·.markers.closing)) = false := by
    cases hlast : tag.getLast? with
    | none => rfl
    | some t => rw [Option.any_some, h t (List.mem_of_mem_getLast? hlast)]
  rw [markers, hfirst, hlast]

def Portion.Controlled (t : Trim) : Portion → Prop
  | .body ss =>
    List.Forall₂ (Statement.Cut t false false false false) ss (controlAll t.keepsLines ss)
      ∧ ∀ s ∈ ss, t = .line → s.Unmarked
  | .inverse strip closing p =>
    (t = .line → strip = {}) ∧ ((t = .line → ∀ s ∈ closing, s = {}) →
      sectionCut t false false p (controlSection t.keepsLines p) ∧ (t = .line → linkUnmarked p))

section

variable {t : Trim} {ts : List Token}

theorem controlled_program {body : List Statement} (h : Portion.Controlled t (.body body))
    (params : List (List Char)) :
    Program.PlainCut t false false ⟨body, params, false⟩
      (controlProgram t.keepsLines ⟨body, params, false⟩) :=
  ⟨rfl, _, rfl, settleAfter_cut h.1 (trims_controlAll t.keepsLines body).1 h.2 rfl false none⟩

private theorem controlled_block {b : Block Statement} (hunmarked : t = .line → b.Unmarked)
    (hlink : t = .line → linkUnmarked b.inverse)
    (hprogram : plainCut t false false b.program (controlSection t.keepsLines b.program))
    (hinverse : if b.program.isSome then
        sectionCut t false false b.inverse (controlSection t.keepsLines b.inverse)
      else plainCut t false false b.inverse (controlSection t.keepsLines b.inverse)) :
    b.Cut t false false (Block.trimSections t.keepsLines { b with
      program := controlSection t.keepsLines b.program
      inverse := controlSection t.keepsLines b.inverse }) :=
  cut_trimSections hunmarked hlink hprogram hinverse (trims_controlSection _ _).1
    (trims_controlSection _ _).1

theorem sectionCut_of_plainCut {lead trail : Bool} {p p' : Option (Program Statement)}
    (h : plainCut t lead trail p p') : sectionCut t lead trail p p' := by
  cases p with
  | none => exact h
  | some q =>
    obtain ⟨q', rfl, hq⟩ := h
    exact ⟨q', rfl, hq.cut⟩

private theorem plainCut_of_sectionCut {lead trail : Bool} {p p' : Option (Program Statement)}
    (h : sectionCut t lead trail p p') (hplain : ∀ q ∈ p, q.chained = false) :
    plainCut t lead trail p p' := by
  cases p with
  | none => exact h
  | some q =>
    obtain ⟨body, params, chained⟩ := q
    obtain rfl : chained = false := hplain _ rfl
    obtain ⟨_, rfl, body', rfl, hbody⟩ := h
    exact ⟨_, rfl, rfl, _, rfl, hbody⟩

theorem Portion.Controlled.cons {s : Statement} {ss : List Statement}
    (hs : s.Cut t false false false false (s.control t.keepsLines))
    (hunmarked : t = .line → s.Unmarked) (h : Portion.Controlled t (.body ss)) :
    Portion.Controlled t (.body (s :: ss)) :=
  ⟨.cons hs h.1, List.forall_mem_cons.mpr ⟨hunmarked, h.2⟩⟩

section
variable {call : Call Expression} {body ss : List Statement} {params : List (List Char)}
  {inverse : Option (Program Statement)} {openStrip strip closeStrip : Strip} {loc : Location}
variable (hopen : t = .line → openStrip = {}) (hclose : t = .line → closeStrip = {})
  (hbody : Portion.Controlled t (.body body)) (hafter : Portion.Controlled t (.body ss))

include hclose in
/-- The closing tag counts for the first of the sections before it. -/
private theorem Portion.Controlled.sections
    (hinverse : Portion.Controlled t (.inverse strip (some closeStrip) inverse)) :
    (t = .line → strip = {})
      ∧ sectionCut t false false inverse (controlSection t.keepsLines inverse)
      ∧ (t = .line → linkUnmarked inverse) := by
  refine ⟨hinverse.1, hinverse.2 fun ht s hs => ?_⟩
  cases hs
  exact hclose ht

include hopen hclose hbody hafter

private theorem Portion.Controlled.block
    (hinverse : Portion.Controlled t (.inverse strip (some closeStrip) inverse)) :
    Portion.Controlled t (.body (.block ⟨call, some ⟨body, params, false⟩, inverse, openStrip,
      strip, closeStrip, loc⟩ :: ss)) := by
  obtain ⟨hstrip, hsections, hlink⟩ := hinverse.sections hclose
  have hunmarked (ht : t = .line) : _ ∧ _ ∧ _ := ⟨hopen ht, hstrip ht, hclose ht⟩
  exact .cons ⟨_, rfl, controlled_block hunmarked hlink
    ⟨_, rfl, controlled_program hbody _⟩ hsections⟩ hunmarked hafter

private theorem Portion.Controlled.inverseBlock
    (hinverse : Portion.Controlled t (.inverse strip (some closeStrip) inverse))
    (hplain : ∀ p ∈ inverse, p.chained = false) :
    Portion.Controlled t (.body (.block ⟨call, inverse, some ⟨body, params, false⟩, openStrip,
      strip, closeStrip, loc⟩ :: ss)) := by
  obtain ⟨hstrip, hsections, -⟩ := hinverse.sections hclose
  have hunmarked (ht : t = .line) : _ ∧ _ ∧ _ := ⟨hopen ht, hstrip ht, hclose ht⟩
  have hmain := controlled_program hbody params
  refine .cons ⟨_, rfl, controlled_block hunmarked (fun _ => linkUnmarked_plain _ _)
    (plainCut_of_sectionCut hsections hplain) ?_⟩ hunmarked hafter
  split
  · exact ⟨_, rfl, hmain.cut⟩
  · exact ⟨_, rfl, hmain⟩

private theorem Portion.Controlled.decoratorBlock :
    Portion.Controlled t (.body (.decoratorBlock ⟨call, some ⟨body, params, false⟩, none, openStrip,
      {}, closeStrip, loc⟩ :: ss)) := by
  have hunmarked (ht : t = .line) : _ ∧ ({} : Strip) = {} ∧ _ := ⟨hopen ht, rfl, hclose ht⟩
  exact .cons ⟨_, rfl, controlled_block hunmarked (fun _ _ _ h => nomatch h)
    ⟨_, rfl, controlled_program hbody _⟩ rfl⟩ hunmarked hafter

private theorem Portion.Controlled.partialBlock :
    Portion.Controlled t
      (.body (.partialBlock ⟨call, ⟨body, [], false⟩, openStrip, closeStrip, loc⟩ :: ss)) := by
  refine .cons ⟨_, rfl, (controlled_program hbody _).mapBody
    (allCut.ends · _ _ false (fun ht => ?_) (fun ht => ?_) fun _ => rfl)⟩
    (fun ht => ⟨hopen ht, hclose ht⟩) hafter
  · rw [hopen ht]
  · rw [hclose ht]

omit hclose hafter in
private theorem Portion.Controlled.chain (closing : Option Strip)
    (hinverse : Portion.Controlled t (.inverse strip none inverse)) :
    Portion.Controlled t (.inverse openStrip closing
      (some ⟨[.block ⟨call, some ⟨body, params, false⟩, inverse, openStrip, strip,
        closing.getD strip, loc⟩], [], true⟩)) := by
  obtain ⟨hstrip, hsections⟩ := hinverse
  obtain ⟨hsections, hlink⟩ := hsections fun _ _ hs => nomatch hs
  refine ⟨hopen, fun hclosing => ?_⟩
  have hclose (ht : t = .line) : closing.getD strip = {} := by
    cases closing with
    | none => exact hstrip ht
    | some s => exact hclosing ht s rfl
  have hb := controlled_block (b := ⟨call, some ⟨body, params, false⟩, inverse, openStrip,
    strip, closing.getD strip, loc⟩) (fun ht => ⟨hopen ht, hstrip ht, hclose ht⟩) hlink
    ⟨_, rfl, controlled_program hbody params⟩ hsections
  refine ⟨⟨_, rfl, .of_chain rfl hb []⟩, fun ht b params heq => ?_⟩
  cases heq
  exact hopen ht

end

theorem Spells.controlled {portion : Portion} (h : Spells ts portion) (hts : Markless t ts) :
    portion.Controlled t := by
  induction h with
  | nil => exact ⟨.nil, List.forall_mem_nil _⟩
  | content hsymbol hafter ih =>
    refine .cons ⟨_, rfl, rfl, rfl, rfl, ?_, ?_⟩ (fun _ => trivial) (ih (markless_cons.mp hts).2)
    · exact fun h => nomatch h
    · exact fun h => nomatch h
  | oneTag htag hs hafter ih =>
    obtain ⟨htag', hafter'⟩ := markless_append.mp hts
    have hstrip (ht : t = .line) := markers_eq_empty (htag' ht)
    cases hs with
    | mustache ho hs | decorator hs | comment hs =>
      exact .cons rfl (fun ht => hs.trans (hstrip ht)) (ih hafter')
    | partialCall hindent hs => exact .cons ⟨_, rfl⟩ (fun ht => hs.trans (hstrip ht)) (ih hafter')
  | block hopening hclosing hloc hbody hinverse hafter ihbody ihinverse ih =>
    simp only [markless_append] at hts
    obtain ⟨hopening', hmain, hrest, hclosing', hafter'⟩ := hts
    exact .block (fun ht => markers_eq_empty (hopening' ht))
      (fun ht => markers_eq_empty (hclosing' ht)) (ihbody hmain) (ih hafter') (ihinverse hrest)
  | inverseBlock hopening hclosing hloc hbody hinverse hplain hafter ihbody ihinverse ih =>
    simp only [markless_append] at hts
    obtain ⟨hopening', hmain, hrest, hclosing', hafter'⟩ := hts
    exact .inverseBlock (fun ht => markers_eq_empty (hopening' ht))
      (fun ht => markers_eq_empty (hclosing' ht)) (ihbody hmain) (ih hafter') (ihinverse hrest)
      hplain
  | decoratorBlock hopening hclosing hbody hafter ihbody ih =>
    simp only [markless_append] at hts
    obtain ⟨hopening', hmain, hclosing', hafter'⟩ := hts
    exact .decoratorBlock (fun ht => markers_eq_empty (hopening' ht))
      (fun ht => markers_eq_empty (hclosing' ht)) (ihbody hmain) (ih hafter')
  | partialBlock hopening hclosing hbody hafter ihbody ih =>
    simp only [markless_append] at hts
    obtain ⟨hopening', hmain, hclosing', hafter'⟩ := hts
    exact .partialBlock (fun ht => markers_eq_empty (hopening' ht))
      (fun ht => markers_eq_empty (hclosing' ht)) (ihbody hmain) (ih hafter')
  | noInverse closing => exact ⟨fun _ => rfl, fun _ => ⟨rfl, fun _ _ _ h => nomatch h⟩⟩
  | elseSection closing hsymbol hbody ih =>
    obtain ⟨hstrip, hmain⟩ := markless_cons.mp hts
    refine ⟨fun ht => ?_, fun _ => ⟨⟨_, rfl, (controlled_program (ih hmain) []).cut⟩,
      fun _ => linkUnmarked_plain _ _⟩⟩
    have hmarkers := hstrip ht
    rwa [Token.markers, hsymbol] at hmarkers
  | chain closing htag hbody hinverse ihbody ihinverse =>
    simp only [markless_append] at hts
    obtain ⟨htag', hmain, hrest⟩ := hts
    exact .chain (fun ht => markers_eq_empty (htag' ht)) (ihbody hmain) closing (ihinverse hrest)

/-- Where the passes over the tree of a template come to: each text is trimmed as the statements
next to it and the tags around its body say. -/
theorem Spells.control_cut {body : List Statement} (h : Spells ts (.body body))
    (hts : Markless t ts) :
    allCut t true [] false false body (Program.control t.keepsLines ⟨body, [], false⟩).body := by
  obtain ⟨hbody, hunmarked⟩ := h.controlled hts
  exact settleAfter_cut hbody (trims_controlAll t.keepsLines body).1 hunmarked rfl false none

end

end HtmlTemplate.Mustache
