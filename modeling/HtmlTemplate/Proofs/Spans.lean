import HtmlTemplate.Proofs.Consumes
import HtmlTemplate.Proofs.Discipline
import HtmlTemplate.Proofs.Machine
import HtmlTemplate.Proofs.Reading

/-! The spans of a template. Between two statements the machine and the markup are in step,
and everything read so far lies in the body that it was read in. -/

namespace HtmlTemplate.Tree

open Html (Tokenizer State)

namespace Assembly

/-- Between two statements: the machine and the markup are in step, everything has been
read by now, and no text is under way. The machine may have stopped earlier, at the end of
the text before, which is where an attribute without a value then ends. -/
structure Settled (g : Ground) (now : Nat) (a : Assembly) : Prop where
  line : 1 ≤ a.tokenizer.position.line
  at_ : At g now (Phase.of a.tokenizer.state) a.markup
  opening : a.tokenizer.state.opensTag = true →
    g.floor a.markup.stack.frames ≤ g.src.offsetFor a.tokenizer.tagStart
      ∧ g.src.offsetFor a.tokenizer.tagStart ≤ now
  naming : Phase.of a.tokenizer.state = .naming → a.offset g.src ≤ now
    ∧ ∀ p, a.markup.pending = some p → p.start ≤ a.offset g.src
  notData : a.tokenizer.state ≠ .data

variable {g : Ground} {now now' : Nat} {a b : Assembly}

theorem Settled.later (h : Settled g now a) (hnow : now ≤ now') : Settled g now' a where
  line := h.line
  at_ := h.at_.later hnow
  opening ho := ⟨(h.opening ho).1, Nat.le_trans (h.opening ho).2 hnow⟩
  naming hn := ⟨Nat.le_trans (h.naming hn).1 hnow, (h.naming hn).2⟩
  notData := h.notData

theorem Settled.append (h : Settled g now a) {node : Statement}
    (hnode : node.Nested ⟨now, now'⟩) (hnow : now ≤ now') : Settled g now' (a.append node) where
  line := h.line
  at_ := (h.at_.later hnow).append
    (hnode.widen (Span.contains_earlier _ h.at_.framed.floor_le))
  opening ho := by
    have hfloor : g.floor (a.append node).markup.stack.frames = g.floor a.markup.stack.frames :=
      floor_append _ _
    rw [hfloor]
    exact (h.later hnow).opening ho
  naming := (h.later hnow).naming
  notData := h.notData

theorem settled_of_at {φ : Phase} (state : State) (hstate : b.tokenizer.state = state)
    (hline : 1 ≤ b.tokenizer.position.line) (hat : At g now φ b.markup)
    (hφ : Phase.of state = φ) (hopen : state.opensTag = false) (hnaming : φ ≠ .naming)
    (hdata : state ≠ .data) : Settled g now b := by
  subst hstate hφ
  refine ⟨hline, hat, fun ho => ?_, fun hn => absurd hn hnaming, hdata⟩
  rw [hopen] at ho
  cases ho

theorem Settled.sound (h : Settled g now a) {p : Position} (hp : 1 ≤ p.line)
    (hnow : now ≤ g.src.offsetFor p) : (a.tokenizer.moveTo p).Sound g a.markup where
  line := hp
  at_ := h.at_.later hnow
  opening ho := ⟨(h.opening ho).1, Nat.le_trans (h.opening ho).2 hnow⟩

theorem settled_of_sound (h : a.tokenizer.Sound g a.markup) (hdata : a.tokenizer.state ≠ .data) :
    Settled g (a.offset g.src) a := by
  refine ⟨h.line, h.at_, h.opening, fun hnaming => ⟨Nat.le_refl _, fun p hp => ?_⟩, hdata⟩
  have hphase := h.at_.phase
  rw [hnaming] at hphase
  obtain ⟨⟨c, hc, -⟩, -⟩ := hphase
  have hnested := h.at_.pending c p hc hp
  exact Nat.le_trans hnested.start_le hnested.valueStart_le

/-- Where the characters stand that are left of a text. -/
def textStart (c : Mustache.Content) : Position :=
  c.loc.start.shift (.ofTrimmed c.written c.value)

/-- What is left of a text is read from where it occurs first in what is written. -/
theorem textStart_first {c : Mustache.Content} (hin : c.value <:+: c.written)
    (hne : c.value ≠ []) :
    ∃ first, textStart c = c.loc.start.after first ∧ first ++ c.value <+: c.written
      ∧ ∀ before, before ++ c.value <+: c.written → first <+: before := by
  obtain ⟨first, hfirst⟩ := Option.isSome_iff_exists.mp (Shift.before?_isSome hin)
  refine ⟨first, ?_, Shift.before?_eq_some hfirst, fun _ => Shift.before?_le hfirst⟩
  simp [textStart, Shift.ofTrimmed, hne, hfirst, Position.shift_across]

/-- The machine when a text has been read. -/
def readText (t : Tokenizer) (c : Mustache.Content) : Tokenizer :=
  ((t.moveTo (textStart c)).feed c.value).2.finishData.2

/-- What is reported of a text leads on from what is under way before it. -/
theorem report_moves (src : Source) (a : Assembly) (c : Mustache.Content) (k : Html.TagKind) :
    ∃ k', Html.Moves (a.tokenizer.construct k) (textStart c)
      ((a.report src (.content c)).map (·.event)) ((readText a.tokenizer c).construct k')
      (readText a.tokenizer c).position := by
  obtain ⟨k', hfeed⟩ := (a.tokenizer.moveTo (textStart c)).feed_moves k c.value
  refine ⟨k', ?_⟩
  rw [report, List.map_append]
  exact hfeed.trans (Tokenizer.finishData_moves _ k')

/-- Of a statement that is not text something is reported only if it is part of a comment. -/
theorem report_of_ne {src : Source} {s : Mustache.Statement} (hs : ∀ c, s ≠ .content c) :
    a.report src s = if a.tokenizer.state.isComment then
      (a.tokenizer.appendComment (src.slice (src.spanFor s.loc))).1 else [] := by
  cases s with
  | content c => exact absurd rfl (hs c)
  | _ => rfl

theorem content_ok {src : Source} {c : Mustache.Content} (h : a.content src c = .ok b) :
    ((a.report src (.content c)).map (·.event)).foldlM (Markup.receive src) a.markup = .ok b.markup
      ∧ b.tokenizer = readText a.tokenizer c := by
  simp only [Assembly.content, bind_eq_ok] at h
  obtain ⟨a', ha', hb⟩ := h
  obtain ⟨hmarkup, htokenizer⟩ := follow_ok ha'
  obtain ⟨hmarkup', htokenizer'⟩ := follow_ok hb
  rw [htokenizer] at hmarkup' htokenizer'
  refine ⟨?_, htokenizer'⟩
  rw [List.foldlM_map, report, List.foldlM_append, bind_eq_ok]
  exact ⟨a'.markup, hmarkup, hmarkup'⟩

theorem content_keeps {src : Source} {I : Html.Construct → Position → Markup → Prop}
    (hsilent : ∀ {x y p q m}, I x p m → Html.Move x p none y q → I y q m)
    (hreceive : ∀ {x y p q m n e}, I x p m → Html.Move x p (some e) y q →
      m.receive src e = .ok n → I y q n)
    {c : Mustache.Content} (hb : a.content src c = .ok b) {k : Html.TagKind}
    (h : I (a.tokenizer.construct k) (textStart c) a.markup) :
    ∃ k', I (b.tokenizer.construct k') b.tokenizer.position b.markup := by
  obtain ⟨hmarkup, htokenizer⟩ := content_ok hb
  obtain ⟨k', hmoves⟩ := report_moves src a c k
  rw [htokenizer]
  exact ⟨k', hmoves.keeps hsilent hreceive h hmarkup⟩

theorem content_position {src : Source} {c : Mustache.Content}
    (hstop : c.loc.start.after c.written ≤ c.loc.stop) (hfits : c.value <:+: c.written)
    (hb : a.content src c = .ok b) : b.tokenizer.position ≤ c.loc.stop := by
  rw [(content_ok hb).2, readText, Tokenizer.position_finishData, Tokenizer.position_feed]
  exact le_trans (Position.shift_ofTrimmed_after_le c.loc.start hfits) hstop

theorem le_textStart {lo : Position} {c : Mustache.Content} (h : lo ≤ c.loc.start) :
    lo ≤ textStart c :=
  le_trans h (Position.le_shift c.loc.start (.ofTrimmed c.written c.value))

/-- Where a text begins the machine and the markup are in step. -/
theorem Settled.inStep {lo : Position} {c : Mustache.Content}
    (h : Settled g (g.src.offsetFor lo) a) (hlo : 1 ≤ lo.line) (hstart : lo ≤ c.loc.start)
    (k : Html.TagKind) : Html.InStep g (a.tokenizer.construct k) (textStart c) a.markup :=
  (Tokenizer.sound_iff k).mp (h.sound (Position.one_le_line_of_le (le_textStart hstart) hlo)
    (g.src.offsetFor_mono hlo (le_textStart hstart)))

theorem Settled.content {lo : Position} {c : Mustache.Content}
    (h : Settled g (g.src.offsetFor lo) a) (hlo : 1 ≤ lo.line) (hstart : lo ≤ c.loc.start)
    (hstop : c.loc.start.after c.written ≤ c.loc.stop) (hfits : c.value <:+: c.written)
    (hb : a.content g.src c = .ok b) : Settled g (g.src.offsetFor c.loc.stop) b := by
  obtain ⟨k, hinStep⟩ := content_keeps (I := Html.InStep g) Html.InStep.silent Html.InStep.receive
    hb (h.inStep hlo hstart .start)
  have hsound := (Tokenizer.sound_iff k).mpr hinStep
  have hdata : b.tokenizer.state ≠ .data := (content_ok hb).2 ▸ Tokenizer.state_finishData _
  exact (settled_of_sound hsound hdata).later
    (g.src.offsetFor_mono hsound.line (content_position hstop hfits hb))

theorem phase_of_isComment {state : State} (h : state.isComment = true) :
    Phase.of state = .comment := by
  revert h
  cases state <;> simp [Html.State.isComment, Phase.of]

theorem Settled.commentText (h : Settled g now a) {loc : Location}
    (hcomment : a.tokenizer.state.isComment = true) (hb : a.commentText g.src loc = .ok b) :
    Settled g now b := by
  obtain ⟨hmarkup, htokenizer⟩ := follow_ok hb
  rw [Tokenizer.now_appendComment] at htokenizer
  have hat := h.at_
  rw [phase_of_isComment hcomment] at hat
  refine settled_of_at .comment (congrArg Tokenizer.state htokenizer) ?_
    (hat.commentDatas Tokenizer.events_appendComment hmarkup) rfl rfl (by decide) (by decide)
  rw [htokenizer]
  exact h.line

theorem Settled.endAttribute (h : Settled g now a)
    (hnaming : Phase.of a.tokenizer.state = .naming) (hb : a.endAttribute g.src = .ok b) :
    At g now .tag b.markup ∧ b.tokenizer = a.tokenizer := by
  simp only [Assembly.endAttribute, withMarkup, bind_eq_ok, pure_eq_ok] at hb
  obtain ⟨m, hm, rfl⟩ := hb
  have hat := h.at_
  rw [hnaming] at hat
  obtain ⟨hnow, hstart⟩ := h.naming hnaming
  refine ⟨(hat.beginValue _ hstart hnow).finishValue hnow ?_ hm, rfl⟩
  obtain ⟨-, p, hp, hparts⟩ := hat.phase
  intro c p' hc hp'
  simp only [Markup.beginValue, Markup.mapAttribute, hp, Option.map_some, Option.some.injEq] at hp'
  subst hp'
  exact ⟨(hat.pending c p hc hp).start, hstart p hp, Nat.le_refl _, by simp [hparts], by simp⟩

theorem addModifier_at {d : Dynamic} (hat : At g now .tag a.markup) (hd : d.Nested ⟨now, now'⟩)
    (hnow : now ≤ now') (hb : a.addModifier g.src d = .ok b) :
    At g now' .tag b.markup ∧ b.tokenizer = a.tokenizer := by
  cases d with
  | call m =>
    simp only [addModifier, withMarkup, bind_eq_ok, pure_eq_ok] at hb
    obtain ⟨n, hn, rfl⟩ := hb
    have hm : Modifier.Nested _ ⟨m.call, m.span⟩ := hd
    exact ⟨hat.addModifier hm hnow hn, rfl⟩
  | literal m => simp [addModifier, fault] at hb

private theorem addTagComment_at {c : Comment} (hat : At g now .tag a.markup)
    (hc : Span.Encloses ⟨now, now'⟩ c.span) (hnow : now ≤ now')
    (hb : a.withMarkup (·.addTagComment g.src c) = .ok b) :
    At g now' .tag b.markup ∧ b.tokenizer = a.tokenizer := by
  simp only [withMarkup, bind_eq_ok, pure_eq_ok] at hb
  obtain ⟨n, hn, rfl⟩ := hb
  exact ⟨hat.addTagComment hc hnow hn, rfl⟩

/-- The phase in a known state. -/
theorem Settled.at_of_state (h : Settled g now a) {state : State}
    (hstate : a.tokenizer.state = state) : At g now (Phase.of state) a.markup :=
  hstate ▸ h.at_

private theorem Settled.placeAfterName {d : Dynamic} (h : Settled g now a)
    (hnaming : Phase.of a.tokenizer.state = .naming) (hd : d.Nested ⟨now, now'⟩)
    (hnow : now ≤ now') {a₁ a₂ : Assembly} (h₁ : a.endAttribute g.src = .ok a₁)
    (h₂ : a₁.addModifier g.src d = .ok a₂) : Settled g now' (a₂.become .beforeAttributeName) := by
  obtain ⟨hat₁, ht₁⟩ := h.endAttribute hnaming h₁
  obtain ⟨hat₂, ht₂⟩ := addModifier_at hat₁ hd hnow h₂
  refine settled_of_at .beforeAttributeName rfl ?_ hat₂ rfl rfl (by decide) (by decide)
  show 1 ≤ a₂.tokenizer.position.line
  rw [ht₂, ht₁]
  exact h.line

theorem Settled.place {d : Dynamic} (h : Settled g now a) (hd : d.Nested ⟨now, now'⟩)
    (hnow : now ≤ now') (hb : a.place g.src d = .ok b) : Settled g now' b := by
  unfold Assembly.place at hb
  split at hb
  · simp [fault] at hb
  · simp [fault] at hb
  · rename_i hstate
    obtain ⟨hat, ht⟩ := addModifier_at (h.at_of_state hstate) hd hnow hb
    exact settled_of_at _ (ht ▸ hstate) (ht ▸ h.line) hat rfl rfl (by decide) (by decide)
  · rename_i hstate
    simp only [bind_eq_ok, pure_eq_ok] at hb
    obtain ⟨a₁, h₁, a₂, h₂, rfl⟩ := hb
    exact h.placeAfterName (congrArg Phase.of hstate) hd hnow h₁ h₂
  · rename_i hstate
    simp only [bind_eq_ok, pure_eq_ok] at hb
    obtain ⟨a₁, h₁, a₂, h₂, rfl⟩ := hb
    exact h.placeAfterName (congrArg Phase.of hstate) hd hnow h₁ h₂
  · rename_i hstate
    simp only [bind_eq_ok, pure_eq_ok] at hb
    obtain ⟨a₁, h₁, rfl⟩ := hb
    obtain ⟨hat, ht⟩ := addModifier_at (h.at_of_state hstate) hd hnow h₁
    refine settled_of_at .beforeAttributeName rfl ?_ hat rfl rfl (by decide) (by decide)
    show 1 ≤ a₁.tokenizer.position.line
    exact ht ▸ h.line
  · rename_i hstate
    cases hb
    obtain ⟨hle, hstart⟩ := h.naming (congrArg Phase.of hstate)
    have hat := (h.at_of_state hstate).beginValue false hstart hle
    exact settled_of_at .attributeValueUnquoted rfl h.line (hat.addValuePart hd hnow) rfl rfl
      (by decide) (by decide)
  · rename_i hstate
    cases hb
    exact settled_of_at _ hstate h.line ((h.at_of_state hstate).addValuePart hd hnow) rfl rfl
      (by decide) (by decide)
  · rename_i hstate
    cases hb
    exact settled_of_at _ hstate h.line ((h.at_of_state hstate).addValuePart hd hnow) rfl rfl
      (by decide) (by decide)
  · rename_i hstate
    cases hb
    exact settled_of_at _ hstate h.line ((h.at_of_state hstate).addValuePart hd hnow) rfl rfl
      (by decide) (by decide)
  · cases hb
    exact h.append hd hnow

theorem Settled.placeComment {c : Comment} (h : Settled g now a)
    (hc : Span.Encloses ⟨now, now'⟩ c.span) (hnow : now ≤ now')
    (hb : a.placeComment g.src c = .ok b) : Settled g now' b := by
  unfold Assembly.placeComment at hb
  split at hb
  · rename_i hstate
    obtain ⟨hat, ht⟩ := addTagComment_at (h.at_of_state hstate) hc hnow hb
    exact settled_of_at _ (ht ▸ hstate) (ht ▸ h.line) hat rfl rfl (by decide) (by decide)
  · rename_i hstate
    simp only [bind_eq_ok, pure_eq_ok] at hb
    obtain ⟨a₁, h₁, a₂, h₂, rfl⟩ := hb
    obtain ⟨hat₁, ht₁⟩ := h.endAttribute (congrArg Phase.of hstate) h₁
    obtain ⟨hat₂, ht₂⟩ := addTagComment_at hat₁ hc hnow h₂
    refine settled_of_at .beforeAttributeName rfl ?_ hat₂ rfl rfl (by decide) (by decide)
    show 1 ≤ a₂.tokenizer.position.line
    rw [ht₂, ht₁]
    exact h.line
  · cases hb
    exact h.append hc hnow
  · cases hb
    exact h.append hc hnow
  · simp [fault] at hb

end Assembly

end HtmlTemplate.Tree
