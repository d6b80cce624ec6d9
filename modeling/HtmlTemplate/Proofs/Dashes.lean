import HtmlTemplate.Proofs.Consumes
import HtmlTemplate.Text.Blank
import Mathlib.Data.List.Infix

/-! HTML comments. Dashes with which the end of a comment may begin are held back, and go into
the comment when something else follows. -/

namespace HtmlTemplate.Html

def State.held : State → Nat
  | .commentStartDash | .commentEndDash => 1
  | .commentEnd => 2
  | _ => 0

def heldAfter (held : Nat) (c : Char) : Nat :=
  if c = '-' then (held + 1) % 3 else 0

theorem heldAfter_of_ne {held : Nat} {c : Char} (h : c ≠ '-') : heldAfter held c = 0 :=
  if_neg h

/-- The comment under way has grown by some text, dashes that are held back included. -/
structure Grows (t : Tokenizer) (read : List Char) (emitted : List Emission) (t' : Tokenizer) :
    Prop where
  isComment : t'.state.isComment = true
  tagStart : t'.tagStart = t.tagStart
  position : t'.position = t.position.after read
  held : t'.state.held = read.foldl heldAfter t.state.held
  texts : ∃ texts : List (List Char), emitted.map (·.event) = texts.map .commentData
    ∧ texts.flatten ++ List.replicate t'.state.held '-'
      = List.replicate t.state.held '-' ++ read

namespace Grows

variable {t t' t'' : Tokenizer} {read more : List Char} {es fs : List Emission}

theorem refl (h : t.state.isComment = true) : Grows t [] [] t :=
  ⟨h, rfl, rfl, rfl, [], rfl, by simp⟩

theorem trans (h : Grows t read es t') (h' : Grows t' more fs t'') :
    Grows t (read ++ more) (es ++ fs) t'' where
  isComment := h'.isComment
  tagStart := h'.tagStart.trans h.tagStart
  position := by rw [h'.position, h.position, Position.after_append]
  held := by rw [h'.held, h.held, List.foldl_append]
  texts := by
    obtain ⟨texts, hes, htexts⟩ := h.texts
    obtain ⟨texts', hfs, htexts'⟩ := h'.texts
    refine ⟨texts ++ texts', by simp [hes, hfs], ?_⟩
    rw [List.flatten_append, List.append_assoc, htexts', ← List.append_assoc, htexts,
      List.append_assoc]

end Grows

/-- What a character does to a comment. -/
inductive CommentStep (t : Tokenizer) (c : Char) (s : Step) : Prop
  | grows : Grows t [c] s.emitted s.now → s.ahead = 0 → s.now.state ≠ .commentStart →
      (s.now.state = .commentStartDash → t.state = .commentStart) → CommentStep t c s
  /-- After `<!---` a character is lost. -/
  | loses : t.state = .commentStartDash → c ≠ '-' → c ≠ '>' →
      s = ⟨{ t with position := t.position.next c, state := .comment }, 0,
        [⟨.commentData ['-'], { t with position := t.position.next c }⟩]⟩ → CommentStep t c s
  | closes : c = '>' →
      t.state = .commentStart ∨ t.state = .commentStartDash ∨ t.state = .commentEnd →
      s = ⟨{ t with position := t.position.next c, state := .beforeData }, 0,
        [⟨.finishComment (t.position.next c), { t with position := t.position.next c }⟩]⟩ →
      CommentStep t c s

namespace CommentStep

variable {t : Tokenizer} {c : Char}

theorem holds {state : State} (hcomment : state.isComment = true)
    (hheld : state.held = t.state.held + 1) (hfirst : state ≠ .commentStart)
    (hstart : state = .commentStartDash → t.state = .commentStart) :
    CommentStep t '-' ((Step.read { now := t } '-').become state) := by
  have hle : state.held ≤ 2 := by cases state <;> decide
  have hafter : state.held = heldAfter t.state.held '-' := by
    rw [heldAfter, if_pos rfl, hheld]
    omega
  have htexts : List.replicate state.held '-' = List.replicate t.state.held '-' ++ ['-'] := by
    rw [hheld, List.replicate_succ']
  exact .grows ⟨hcomment, rfl, rfl, hafter, [], rfl, htexts⟩ rfl hfirst hstart

theorem releases (hheld : heldAfter t.state.held c = 0) :
    CommentStep t c
      ((Step.read { now := t } c).commentText (List.replicate t.state.held '-') c) := by
  have hstep (texts : List (List Char)) (es : List Emission)
      (hes : es.map (·.event) = texts.map .commentData)
      (htexts : texts.flatten = List.replicate t.state.held '-' ++ [c]) :
      CommentStep t c ⟨{ t with position := t.position.next c, state := .comment }, 0, es⟩ :=
    .grows ⟨rfl, rfl, rfl, hheld.symm, texts, hes, by simpa [State.held] using htexts⟩ rfl nofun
      nofun
  unfold Step.commentText
  split
  · rename_i hempty
    exact hstep [[c]] _ rfl (by simpa using hempty)
  · exact hstep [List.replicate t.state.held '-', [c]] _ rfl rfl

theorem closeComment (hc : c = '>')
    (hstate : t.state = .commentStart ∨ t.state = .commentStartDash ∨ t.state = .commentEnd) :
    CommentStep t c (Step.read { now := t } c).closeComment :=
  .closes hc hstate rfl

end CommentStep

theorem Tokenizer.step_comment {t : Tokenizer} (h : t.state.isComment = true) (c : Char)
    (rest : List Char) : CommentStep t c (t.step c rest) := by
  obtain ⟨mode, state, position, tagStart, tagName⟩ := t
  cases state
  case commentStart =>
    show CommentStep _ c (Step.commentStart _ c)
    unfold Step.commentStart
    dsimp only
    split
    · rename_i hc
      subst hc
      exact .holds rfl rfl nofun fun _ => rfl
    · rename_i hc
      split
      · rename_i hclose
        exact .closeComment hclose (.inl rfl)
      · exact .releases (heldAfter_of_ne hc)
  case commentStartDash =>
    show CommentStep _ c (Step.commentStartDash _ c)
    unfold Step.commentStartDash
    dsimp only
    split
    · rename_i hc
      subst hc
      exact .holds rfl rfl nofun nofun
    · rename_i hc
      split
      · rename_i hclose
        exact .closeComment hclose (.inr (.inl rfl))
      · rename_i hclose
        exact .loses rfl hc hclose rfl
  case comment =>
    show CommentStep _ c (Step.comment _ c)
    unfold Step.comment
    dsimp only
    split
    · rename_i hc
      subst hc
      exact .holds rfl rfl nofun nofun
    · rename_i hc
      exact .releases (heldAfter_of_ne hc)
  case commentEndDash =>
    show CommentStep _ c (Step.commentEndDash _ c)
    unfold Step.commentEndDash
    dsimp only
    split
    · rename_i hc
      subst hc
      exact .holds rfl rfl nofun nofun
    · rename_i hc
      exact .releases (heldAfter_of_ne hc)
  case commentEnd =>
    show CommentStep _ c (Step.commentEnd _ c)
    unfold Step.commentEnd
    dsimp only
    split
    · rename_i hclose
      exact .closeComment hclose (.inr (.inr rfl))
    · refine .releases ?_
      show heldAfter 2 c = 0
      unfold heldAfter
      split <;> rfl
  all_goals cases h

structure State.Keeps (s : State) (body : List Char) : Prop where
  closer : ¬ ['-', '-', '>'] <:+: List.replicate s.held '-' ++ body
  start : s = .commentStart → ¬ ['>'] <+: body ∧ ∀ c rest, body = '-' :: c :: rest → c = '-'
  startDash : s = .commentStartDash → ∀ c rest, body = c :: rest → c = '-'

theorem State.Keeps.tail {t t' : Tokenizer} {c : Char} {cs : List Char} {es : List Emission}
    (h : t.state.Keeps (c :: cs)) (hgrows : Grows t [c] es t')
    (hfirst : t'.state ≠ .commentStart)
    (hstart : t'.state = .commentStartDash → t.state = .commentStart) : t'.state.Keeps cs where
  closer := by
    obtain ⟨texts, -, htexts⟩ := hgrows.texts
    have hwhole : List.replicate t.state.held '-' ++ c :: cs
        = texts.flatten ++ (List.replicate t'.state.held '-' ++ cs) := by
      rw [← List.append_assoc, htexts, List.append_assoc, List.singleton_append]
    exact fun hmore => h.closer (hwhole ▸ hmore.trans (List.suffix_append _ _).isInfix)
  start hstate := absurd hstate hfirst
  startDash hstate d rest hcs := by
    have hheld := hgrows.held
    rw [hstate, hstart hstate] at hheld
    have hc : c = '-' := by
      by_contra hc
      rw [List.foldl_cons, List.foldl_nil, heldAfter_of_ne hc] at hheld
      cases hheld
    exact (h.start (hstart hstate)).2 d rest (by rw [hc, hcs])

namespace Tokenizer

theorem feed_comment {t : Tokenizer} (h : t.state.isComment = true) {body : List Char}
    (hkeeps : t.state.Keeps body) (more : List Char) :
    ∃ es t', Grows t body es t'
      ∧ t.feed (body ++ more) = (es ++ (t'.feed more).1, (t'.feed more).2) := by
  induction body generalizing t with
  | nil => exact ⟨[], t, .refl h, rfl⟩
  | cons c cs ih =>
    cases t.step_comment h c (cs ++ more) with
    | grows hgrows hahead hfirst hstart =>
      obtain ⟨es, t', hrest, hfeed⟩ := ih hgrows.isComment (hkeeps.tail hgrows hfirst hstart)
      refine ⟨_, t', hgrows.trans hrest, ?_⟩
      rw [List.cons_append, feed_cons]
      dsimp only
      rw [hahead, List.drop_zero, hfeed, List.append_assoc]
    | loses hstate hc => exact absurd (hkeeps.startDash hstate c cs rfl) hc
    | closes hc hstate =>
      subst hc
      rcases hstate with hstate | hstate | hstate
      · exact absurd (List.prefix_append ['>'] cs) (hkeeps.start hstate).1
      · exact absurd (hkeeps.startDash hstate '>' cs rfl) (by decide)
      · refine absurd ?_ hkeeps.closer
        rw [hstate]
        exact (List.prefix_append ['-', '-', '>'] cs).isInfix

theorem feed_closer {t : Tokenizer} (h : t.state.isComment = true) (hheld : t.state.held = 0) :
    (t.feed ['-', '-', '>']).1.map (·.event)
      = [.finishComment (t.position.after ['-', '-', '>'])] := by
  obtain ⟨mode, state, position, tagStart, tagName⟩ := t
  cases state
  case commentStart | comment => rfl
  case commentStartDash | commentEndDash | commentEnd => simp [State.held] at hheld
  all_goals cases h

theorem feed_closer_of_held {t : Tokenizer} (h : t.state.isComment = true)
    (hheld : t.state.held ≠ 0) (p : Position) :
    .finishComment p ∉ (t.feed ['-', '-', '>']).1.map (·.event) := by
  obtain ⟨mode, state, position, tagStart, tagName⟩ := t
  cases state
  case commentStart | comment => exact absurd rfl hheld
  case commentStartDash | commentEndDash =>
    show _ ∉ [Event.commentData ['-', '-'], .commentData ['-'], .commentData ['>']]
    simp
  case commentEnd =>
    show _ ∉ [Event.commentData ['-', '-'], .commentData ['-'], .commentData ['-'],
      .commentData ['>']]
    simp
  all_goals cases h

end Tokenizer

theorem foldl_heldAfter (body : List Char) :
    body.foldl heldAfter 0 = (Text.takeEndWhile (· == '-') body).length % 3 := by
  induction body using List.reverseRecOn with
  | nil => rfl
  | append_singleton body c ih =>
    rw [List.foldl_append, List.foldl_cons, List.foldl_nil, ih]
    simp only [Text.takeEndWhile, List.length_reverse, List.reverse_append,
      List.reverse_singleton, List.singleton_append]
    by_cases hc : c = '-'
    · rw [heldAfter, if_pos hc, List.takeWhile_cons_of_pos (by simpa using hc), List.length_cons,
        Nat.mod_add_mod]
    · rw [heldAfter_of_ne hc, List.takeWhile_cons_of_neg (by simpa using hc), List.length_nil]

def commentText (body : List Char) : List Char :=
  "<!--".toList ++ body ++ "-->".toList

/-- A comment is reported as it is written: it begins, its texts make up its body, and it ends
where its text does. -/
def ReadsComment (mode : Mode) (body : List Char) : Prop :=
  ∃ texts : List (List Char), texts.flatten = body ∧
    (Tokenizer.feed { mode } (commentText body)).1.map (·.event)
      = .beginComment .first :: texts.map .commentData
        ++ [.finishComment (Position.first.after (commentText body))]

def opened (mode : Mode) : Tokenizer where
  mode
  state := .commentStart
  position := Position.first.after "<!--".toList

private theorem feed_commentText (mode : Mode) (body : List Char) :
    (Tokenizer.feed { mode } (commentText body)).1.map (·.event)
      = .beginComment .first
        :: ((opened mode).feed (body ++ ['-', '-', '>'])).1.map (·.event) := by
  have hsplit : commentText body = '<' :: '!' :: '-' :: '-' :: (body ++ ['-', '-', '>']) := by
    simp [commentText]
  rw [hsplit]
  rfl

/-- The machine after `<!---` and a character that is lost. -/
def bereft (mode : Mode) (c : Char) : Tokenizer :=
  { opened mode with
    position := Position.first.after ("<!---".toList ++ [c])
    state := .comment }

private theorem feed_bereft (mode : Mode) {c : Char} (hc : c ≠ '-') (hclose : c ≠ '>')
    (more : List Char) :
    ((opened mode).feed ('-' :: c :: more)).1.map (·.event)
      = .commentData ['-'] :: ((bereft mode c).feed more).1.map (·.event) := by
  have hstep (t : Tokenizer) (hstate : t.state = .commentStartDash) :
      t.step c more = ⟨{ t with position := t.position.next c, state := .comment }, 0,
        [⟨.commentData ['-'], { t with position := t.position.next c }⟩]⟩ := by
    simp [Tokenizer.step, hstate, Step.commentStartDash, hc, hclose, Step.read, Step.emit,
      Step.become]
  rw [Tokenizer.feed_cons]
  show (Tokenizer.feed { opened mode with
    position := _, state := .commentStartDash } (c :: more)).1.map (·.event) = _
  rw [Tokenizer.feed_cons, hstep _ rfl]
  rfl

private theorem readsComment_iff_of_feed {mode : Mode} {body : List Char} {t : Tokenizer}
    (texts : List (List Char)) (hcomment : t.state.isComment = true)
    (hposition : t.position = Position.first.after ("<!--".toList ++ body))
    (hfeed : ((opened mode).feed (body ++ ['-', '-', '>'])).1.map (·.event)
      = texts.map .commentData ++ (t.feed ['-', '-', '>']).1.map (·.event)) :
    ReadsComment mode body ↔ t.state.held = 0 ∧ texts.flatten = body := by
  have hlast : t.position.after ['-', '-', '>'] = Position.first.after (commentText body) := by
    rw [hposition, ← Position.after_append]
    rfl
  unfold ReadsComment
  rw [feed_commentText, hfeed]
  constructor
  · rintro ⟨read, hread, hevents⟩
    have hheld : t.state.held = 0 := by
      by_contra hheld
      have hfinish :=
        congrArg (.finishComment (Position.first.after (commentText body)) ∈ ·) hevents
      simp [Tokenizer.feed_closer_of_held hcomment hheld] at hfinish
    refine ⟨hheld, ?_⟩
    rw [Tokenizer.feed_closer hcomment hheld, List.cons_append, List.cons.injEq] at hevents
    have htexts := (List.append_inj' hevents.2 rfl).1
    rw [List.map_inj_right (fun _ _ => Event.commentData.inj)] at htexts
    rw [htexts, hread]
  · rintro ⟨hheld, hflatten⟩
    refine ⟨texts, hflatten, ?_⟩
    rw [Tokenizer.feed_closer hcomment hheld, hlast, List.cons_append]

/-- A comment whose body does not end it is reported as it is written except in two cases: what
comes between the dash of `<!---` and another character is lost, and dashes before the end are
taken three by three, so that one or two that are left over hide the end. -/
theorem readsComment_iff (mode : Mode) {body : List Char} (hcloser : ¬ "-->".toList <:+: body)
    (hempty : ¬ ['>'] <+: body) (hdash : ¬ ['-', '>'] <+: body) :
    ReadsComment mode body ↔
      (∀ c rest, body = '-' :: c :: rest → c = '-')
        ∧ 3 ∣ (Text.takeEndWhile (· == '-') body).length := by
  have hdashes : 3 ∣ (Text.takeEndWhile (· == '-') body).length ↔ body.foldl heldAfter 0 = 0 := by
    rw [foldl_heldAfter, Nat.dvd_iff_mod_eq_zero]
  rw [hdashes]
  by_cases hfirst : ∀ c rest, body = '-' :: c :: rest → c = '-'
  · have hkeeps : (opened mode).state.Keeps body := ⟨hcloser, fun _ => ⟨hempty, hfirst⟩, nofun⟩
    obtain ⟨es, t, hgrows, hfeed⟩ := Tokenizer.feed_comment rfl hkeeps ['-', '-', '>']
    obtain ⟨texts, hes, htexts⟩ := hgrows.texts
    have hheld : t.state.held = body.foldl heldAfter 0 := hgrows.held
    rw [readsComment_iff_of_feed texts hgrows.isComment
      (hgrows.position.trans (Position.after_append _ _ _).symm)
      (by rw [hfeed, List.map_append, hes]), ← hheld]
    constructor
    · exact fun h => ⟨hfirst, h.1⟩
    · rintro ⟨-, hzero⟩
      rw [hzero, show (opened mode).state.held = 0 from rfl] at htexts
      exact ⟨hzero, by simpa using htexts⟩
  · -- The character after the first dash is lost, so the texts are too short.
    obtain ⟨c, rest, rfl, hc⟩ : ∃ c rest, body = '-' :: c :: rest ∧ c ≠ '-' := by
      simpa using hfirst
    have hclose : c ≠ '>' := by
      rintro rfl
      exact hdash (List.prefix_append ['-', '>'] rest)
    have hkeeps : (bereft mode c).state.Keeps rest :=
      ⟨fun hmore => hcloser (hmore.trans (List.suffix_append ['-', c] rest).isInfix), nofun,
        nofun⟩
    obtain ⟨es, t, hgrows, hfeed⟩ := Tokenizer.feed_comment rfl hkeeps ['-', '-', '>']
    obtain ⟨texts, hes, htexts⟩ := hgrows.texts
    have hposition : t.position = Position.first.after ("<!--".toList ++ '-' :: c :: rest) := by
      rw [hgrows.position]
      exact (Position.after_append _ ("<!---".toList ++ [c]) rest).symm
    rw [readsComment_iff_of_feed (['-'] :: texts) hgrows.isComment hposition
      (by rw [List.cons_append, List.cons_append, feed_bereft mode hc hclose, hfeed,
        List.map_append, hes, List.map_cons, List.cons_append])]
    simp only [hfirst, false_and, iff_false]
    rintro ⟨hzero, hflatten⟩
    rw [hzero, show (bereft mode c).state.held = 0 from rfl, List.replicate_zero, List.append_nil,
      List.nil_append] at htexts
    rw [List.flatten_cons, htexts] at hflatten
    simpa using congrArg List.length hflatten

/-- Three dashes before the end make a whole; a character after `<!---` is lost, and a single
dash before the end hides it. -/
theorem readsComment_dashes :
    ReadsComment .precompile "a--b---".toList ∧ ¬ ReadsComment .precompile "-x".toList
      ∧ ¬ ReadsComment .codemod "a-".toList := by
  refine ⟨?_, ?_, ?_⟩
  · refine (readsComment_iff .precompile (by decide) (by decide) (by decide)).mpr ⟨?_, by decide⟩
    rintro c rest ⟨⟩
  · rw [readsComment_iff .precompile (by decide) (by decide) (by decide)]
    rintro ⟨hfirst, -⟩
    exact absurd (hfirst 'x' [] rfl) (by decide)
  · rw [readsComment_iff .codemod (by decide) (by decide) (by decide)]
    rintro ⟨-, hdashes⟩
    exact absurd hdashes (by decide)

end HtmlTemplate.Html
