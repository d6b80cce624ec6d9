import HtmlTemplate.Proofs.Abutting
import HtmlTemplate.Proofs.Checks
import HtmlTemplate.Proofs.Dashes
import HtmlTemplate.Proofs.Evaluation
import HtmlTemplate.Proofs.Unmarked

/-! HTML comments with mustaches in them. What the machine reports of a comment, the dashes it
holds back and the source of the statements in the comment make up what is written, as long as
no statement is cut off from the text around it. -/

namespace HtmlTemplate

namespace Source

variable {src : Source} {p q r : Position} {cs ds : List Char}

def OpensComment (src : Source) (p : Position) : Prop :=
  ∃ start c rest, c ≠ '-' ∧ src.Stands p start ("<!--".toList ++ c :: rest)

structure CommentTo (src : Source) (p : Position) (cs : List Char) (q : Position) : Prop where
  stands : ∃ start rest, src.Stands p start rest
  covers : src.OpensComment p → src.Covers p cs q

theorem CommentTo.trans (h : src.CommentTo p cs q) (h' : src.Covers q ds r) :
    src.CommentTo p (cs ++ ds) r :=
  ⟨h.stands, fun hopens => (h.covers hopens).trans h'⟩

theorem OpensComment.prefix (h : src.OpensComment p) (hcs : src.Covers p cs q) :
    ∃ c rest, c ≠ '-' ∧ cs <+: "<!--".toList ++ c :: rest := by
  obtain ⟨start, c, rest, hc, hstands⟩ := h
  obtain ⟨start', rest', hstands', -⟩ := hcs
  exact ⟨c, rest, hc, rest', hstands'.unique hstands⟩

theorem CommentTo.of_ne (h : src.CommentTo p cs q) (hne : ∀ c rest, c ≠ '-' →
    ¬ cs <+: "<!--".toList ++ c :: rest) (ds : List Char) (r : Position) :
    src.CommentTo p ds r := by
  refine ⟨h.stands, fun hopens => ?_⟩
  obtain ⟨c, rest, hc, hprefix⟩ := hopens.prefix (h.covers hopens)
  exact absurd hprefix (hne c rest hc)

end Source

namespace Html

def Event.isApart : Event → Bool
  | beginComment _ | commentData _ | finishComment _ => false
  | _ => true

def State.isApart : State → Bool
  | .tagOpen | .markupDeclarationOpen => false
  | .commentStart | .commentStartDash | .comment | .commentEndDash | .commentEnd => false
  | _ => true

def Step.isQuiet (s : Step) : Bool :=
  s.emitted.all (·.event.isApart)

inductive OutsideStep (t : Tokenizer) (c : Char) (rest : List Char) (s : Step) : Prop
  | apart : s.now.state.isApart = true → s.isQuiet = true → OutsideStep t c rest s
  | bracket : c = '<' → s.now.state = .tagOpen → s.now.tagStart = t.position →
      s.now.position = t.position.next c → s.isQuiet = true → OutsideStep t c rest s
  | bang : t.state = .tagOpen → c = '!' →
      s = ⟨{ t with position := t.position.next c, state := .markupDeclarationOpen }, 0, []⟩ →
      OutsideStep t c rest s
  | opens (more : List Char) : t.state = .markupDeclarationOpen → c = '-' → rest = '-' :: more →
      s.now = { t with position := t.position.after ['-', '-'], state := .commentStart } →
      s.emitted.map (·.event) = [.beginComment t.tagStart] → OutsideStep t c rest s

namespace Step

variable {t : Tokenizer} {s : Step} {c : Char} {rest : List Char}

theorem isQuiet_emit (h : s.isQuiet = true) {e : Event} (he : e.isApart = true) :
    (s.emit e).isQuiet = true := by
  unfold isQuiet emit
  rw [List.all_append, Bool.and_eq_true]
  exact ⟨h, by simpa using he⟩

theorem isQuiet_read (h : s.isQuiet = true) (c : Char) : (s.read c).isQuiet = true := h

private theorem decode_state (s : Step) (c : Char) (rest : List Char) :
    (s.decode c rest).2.now.state = s.now.state := by
  unfold decode
  repeat' split
  all_goals rfl

theorem isQuiet_decode (h : s.isQuiet = true) (c : Char) (rest : List Char) :
    (s.decode c rest).2.isQuiet = true := by
  unfold decode
  repeat' split
  all_goals exact h

theorem isQuiet_valueText (h : s.isQuiet = true) : (s.valueText c rest).isQuiet = true :=
  isQuiet_emit (isQuiet_decode (isQuiet_read h c) c rest) rfl

theorem data_outside (hstate : s.now.state = .data) (hposition : s.now.position = t.position)
    (hquiet : s.isQuiet = true) : OutsideStep t c rest (s.data c rest) := by
  unfold data
  split
  · rename_i hopens
    have hc : c = '<' := by simpa using (Bool.and_eq_true_iff.mp hopens).1
    exact .bracket hc rfl hposition (congrArg (·.next c) hposition) (isQuiet_emit hquiet rfl)
  · split
    · refine .apart ?_ (isQuiet_emit (isQuiet_read hquiet c) rfl)
      show s.now.state.isApart = true
      rw [hstate]
      rfl
    · refine .apart ?_ (isQuiet_emit (isQuiet_decode (isQuiet_read hquiet c) c rest) rfl)
      show ((s.read c).decode c rest).2.now.state.isApart = true
      rw [decode_state, show (s.read c).now.state = .data from hstate]
      rfl

theorem attributeName_outside (hstate : s.now.state = .attributeName) (hquiet : s.isQuiet = true) :
    OutsideStep t c rest (s.attributeName c) := by
  have hname (s' : Step) (hs : s'.now.state = s.now.state) : s'.now.state.isApart = true := by
    rw [hs, hstate]
    rfl
  have hempty : s.emptyValue.isQuiet = true := isQuiet_emit (isQuiet_emit hquiet rfl) rfl
  unfold attributeName
  split
  · exact .apart rfl hquiet
  · split
    · exact .apart rfl hempty
    · split
      · exact .apart rfl hquiet
      · split
        · exact .apart rfl (isQuiet_emit (s := s.emptyValue.read c) hempty rfl)
        · split
          · exact .apart (hname _ rfl) (isQuiet_emit (isQuiet_read (isQuiet_emit hquiet rfl) c) rfl)
          · exact .apart (hname _ rfl) (isQuiet_emit (isQuiet_read hquiet c) rfl)

theorem beforeAttributeName_outside (hstate : s.now.state = .beforeAttributeName)
    (hquiet : s.isQuiet = true) : OutsideStep t c rest (s.beforeAttributeName c) := by
  unfold beforeAttributeName
  split
  · refine .apart ?_ (isQuiet_read hquiet c)
    show s.now.state.isApart = true
    rw [hstate]
    rfl
  · split
    · exact .apart rfl hquiet
    · split
      · exact .apart rfl (isQuiet_emit (isQuiet_read hquiet c) rfl)
      · split
        · refine .apart rfl (isQuiet_emit (isQuiet_read (isQuiet_emit ?_ rfl) c) rfl)
          exact isQuiet_emit hquiet rfl
        · exact attributeName_outside rfl (isQuiet_emit (s := s.become .attributeName) hquiet rfl)

end Step

theorem Tokenizer.step_outside {t : Tokenizer} (h : t.state.isComment = false) (c : Char)
    (rest : List Char) : OutsideStep t c rest (t.step c rest) := by
  obtain ⟨mode, state, position, tagStart, tagName⟩ := t
  have hvalue (s : Step) (hs : s.now.state.isApart = true) (hquiet : s.isQuiet = true) :
      OutsideStep ⟨mode, state, position, tagStart, tagName⟩ c rest (s.valueText c rest) :=
    .apart (by rw [Step.valueText_state]; exact hs) (Step.isQuiet_valueText hquiet)
  cases state
  case beforeData =>
    show OutsideStep _ c rest (Step.beforeData _ c rest)
    unfold Step.beforeData
    split
    · rename_i hopens
      have hc : c = '<' := by simpa using (Bool.and_eq_true_iff.mp hopens).1
      exact .bracket hc rfl rfl rfl rfl
    · split
      · exact .apart rfl rfl
      · exact Step.data_outside rfl rfl rfl
  case data => exact Step.data_outside rfl rfl rfl
  case tagOpen =>
    show OutsideStep _ c rest (Step.tagOpen _ c)
    unfold Step.tagOpen
    dsimp only
    split
    · rename_i hc
      exact .bang rfl hc rfl
    · repeat' split
      all_goals exact .apart rfl rfl
  case markupDeclarationOpen =>
    show OutsideStep _ c rest (Step.markupDeclarationOpen _ c rest)
    unfold Step.markupDeclarationOpen
    dsimp only
    split
    · rename_i hdashes
      simp only [Bool.and_eq_true, decide_eq_true_eq, beq_iff_eq] at hdashes
      obtain ⟨rfl, hhead⟩ := hdashes
      obtain ⟨more, rfl⟩ := List.head?_eq_some_iff.mp hhead
      exact .opens more rfl rfl rfl rfl rfl
    · exact .apart rfl rfl
  case commentStart | commentStartDash | comment | commentEndDash | commentEnd => cases h
  case beforeAttributeValue =>
    show OutsideStep _ c rest (Step.beforeAttributeValue _ c rest)
    unfold Step.beforeAttributeValue
    repeat' split
    any_goals exact .apart rfl rfl
    exact hvalue _ rfl rfl
  case attributeValueDoubleQuoted | attributeValueSingleQuoted =>
    show OutsideStep _ c rest (Step.quotedValue _ _ c rest)
    unfold Step.quotedValue
    split
    · exact .apart rfl rfl
    · exact hvalue _ rfl rfl
  case attributeValueUnquoted =>
    show OutsideStep _ c rest (Step.unquotedValue _ c rest)
    unfold Step.unquotedValue
    repeat' split
    any_goals exact .apart rfl rfl
    exact hvalue _ rfl rfl
  case attributeName => exact Step.attributeName_outside rfl rfl
  case beforeAttributeName => exact Step.beforeAttributeName_outside rfl rfl
  case afterAttributeValueQuoted =>
    show OutsideStep _ c rest (Step.afterAttributeValueQuoted _ c)
    unfold Step.afterAttributeValueQuoted
    repeat' split
    any_goals exact .apart rfl rfl
    exact Step.beforeAttributeName_outside rfl rfl
  case selfClosingStartTag =>
    show OutsideStep _ c rest (Step.selfClosingStartTag _ c)
    unfold Step.selfClosingStartTag
    repeat' split
    any_goals exact .apart rfl rfl
    exact Step.beforeAttributeName_outside rfl rfl
  all_goals
    simp only [Tokenizer.step, Step.tagName, Step.endTagOpen, Step.endTagName,
      Step.afterAttributeName]
    repeat' split
    all_goals exact .apart rfl rfl

theorem Tokenizer.appendComment_texts {t : Tokenizer} (h : t.state.isComment = true)
    (text : List Char) : ∃ texts : List (List Char),
      (t.appendComment text).1.map (·.event) = texts.map .commentData
        ∧ texts.flatten = List.replicate t.state.held '-' ++ text := by
  obtain ⟨mode, state, position, tagStart, tagName⟩ := t
  cases state
  case commentStart | comment => exact ⟨[text], rfl, by simp [State.held]⟩
  case commentStartDash | commentEndDash => exact ⟨[['-'], text], rfl, by simp [State.held]⟩
  case commentEnd => exact ⟨[['-', '-'], text], rfl, by simp [State.held]⟩
  all_goals cases h

end Html

namespace Tree

open Html (Event Tokenizer)

/-- The value of a comment whose text does not begin with a dash is what stands between its
delimiters. -/
def Comment.AsWritten (src : Source) (c : Comment) : Prop :=
  "<!--".toList <+: src.slice c.span → ¬ "<!---".toList <+: src.slice c.span →
    7 ≤ byteLength (src.slice c.span) →
    src.slice c.span = "<!--".toList ++ c.value ++ "-->".toList

/-- What is to be shown of the comments of a template. -/
def asWritten (src : Source) : Checks where
  comment := Comment.AsWritten src

variable {src : Source} {p q : Position}

private theorem takeBytes_isPrefix {n : Nat} {cs ds : List Char} (h : takeBytes n cs = some ds) :
    ds <+: cs := by
  induction cs generalizing n ds with
  | nil =>
    simp only [takeBytes, Option.ite_none_right_eq_some, Option.some.injEq] at h
    exact h.2 ▸ List.nil_prefix
  | cons c cs ih =>
    simp only [takeBytes] at h
    split at h
    · cases h
      exact List.nil_prefix
    · split at h
      · obtain ⟨more, hmore, rfl⟩ := Option.map_eq_some_iff.mp h
        exact List.cons_prefix_cons.mpr ⟨rfl, ih hmore⟩
      · cases h

private theorem slice_isPrefix {start : Nat} {rest : List Char} (h : src.Stands p start rest)
    (stop : Nat) :
    src.slice ⟨src.offsetFor p, stop⟩ <+: rest := by
  rw [h.offsetFor]
  obtain ⟨before, htext, -, rfl⟩ := h
  unfold Source.slice
  split
  · rw [htext, dropBytes_append, Option.bind_some]
    cases htake : takeBytes (stop - byteLength before) rest with
    | none => exact List.nil_prefix
    | some cs => exact takeBytes_isPrefix htake
  · exact List.nil_prefix

theorem opensComment_of_slice {stop : Nat} (h : ∃ start rest, src.Stands p start rest)
    (hopens : "<!--".toList <+: src.slice ⟨src.offsetFor p, stop⟩)
    (hdash : ¬ "<!---".toList <+: src.slice ⟨src.offsetFor p, stop⟩)
    (hsize : 7 ≤ byteLength (src.slice ⟨src.offsetFor p, stop⟩)) : src.OpensComment p := by
  obtain ⟨start, rest, hstands⟩ := h
  obtain ⟨more, hrest⟩ := slice_isPrefix hstands stop
  obtain ⟨inner, hinner⟩ := hopens
  rw [← hinner] at hdash hsize hrest
  cases inner with
  | nil => exact absurd hsize (by decide)
  | cons c inner =>
    refine ⟨start, c, inner ++ more, ?_, ?_⟩
    · rintro rfl
      exact hdash (List.prefix_append "<!---".toList inner)
    · rw [← hrest, List.append_assoc, List.cons_append] at hstands
      exact hstands

structure Gathering (src : Source) (t : Tokenizer) (m : Markup) (value : List Char) : Prop where
  current : m.current = some (.comment value (src.offsetFor t.tagStart))
  fresh : t.state = .commentStart ∨ t.state = .commentStartDash → value = []
  read : src.CommentTo t.tagStart ("<!--".toList ++ value ++ List.replicate t.state.held '-')
    t.position

structure Reached (src : Source) (t : Tokenizer) (m : Markup) : Prop where
  opening : t.state = .tagOpen → src.CommentTo t.tagStart ['<'] t.position
  declaring : t.state = .markupDeclarationOpen → src.CommentTo t.tagStart ['<', '!'] t.position
  comment : t.state.isComment = true → ∃ value, Gathering src t m value

theorem reached_of_isApart {t : Tokenizer} {m : Markup} (h : t.state.isApart = true) :
    Reached src t m := by
  refine ⟨fun hstate => ?_, fun hstate => ?_, fun hcomment => ?_⟩
  · rw [hstate] at h
    cases h
  · rw [hstate] at h
    cases h
  · revert h hcomment
    cases t.state <;> simp [Html.State.isApart, Html.State.isComment]

theorem reached_of_isComment {t : Tokenizer} {m : Markup} (value : List Char)
    (h : t.state.isComment = true) (hvalue : Gathering src t m value) : Reached src t m := by
  refine ⟨fun hstate => ?_, fun hstate => ?_, fun _ => ⟨value, hvalue⟩⟩
  all_goals
    rw [hstate] at h
    cases h

theorem Markup.receive_commentDatas {m : Markup} {value : List Char} {start : Nat}
    (h : m.current = some (.comment value start)) (texts : List (List Char)) :
    (texts.map Event.commentData).foldlM (Markup.receive src) m
      = .ok { m with current := some (.comment (value ++ texts.flatten) start) } := by
  induction texts generalizing m value with
  | nil =>
    obtain ⟨stack, current, pending⟩ := m
    obtain rfl : current = _ := h
    simp only [List.map_nil, List.foldlM_nil, List.flatten_nil, List.append_nil]
    rfl
  | cons text texts ih =>
    rw [List.map_cons, List.foldlM_cons, bind_eq_ok]
    refine ⟨{ m with current := some (.comment (value ++ text) start) }, ?_, ?_⟩
    · simp only [Markup.receive, h]
    · rw [ih rfl, List.flatten_cons, List.append_assoc]

theorem Gathering.closes {t : Tokenizer} {m : Markup} {value : List Char}
    (h : Gathering src t m value)
    (hstate : t.state = .commentStart ∨ t.state = .commentStartDash ∨ t.state = .commentEnd)
    (hclose : src.Covers t.position ['>'] q) :
    Comment.AsWritten src ⟨value, ⟨src.offsetFor t.tagStart, src.offsetFor q⟩⟩ := by
  intro hopens hdash hsize
  have hcomment := opensComment_of_slice h.read.stands hopens hdash hsize
  have hslice := ((h.read.covers hcomment).trans hclose).slice
  rcases hstate with hstate | hstate | hstate
  · rw [hslice, h.fresh (.inl hstate), hstate] at hsize
    exact absurd hsize (by decide)
  · rw [hslice, h.fresh (.inr hstate), hstate] at hdash
    exact absurd (List.prefix_append _ _) hdash
  · rw [hslice, hstate]
    simp [Html.State.held]

theorem Gathering.grows {t t' : Tokenizer} {m : Markup} {value : List Char} {c : Char}
    {es : List Html.Emission} {texts : List (List Char)} (h : Gathering src t m value)
    (hgrows : Html.Grows t [c] es t') (hfirst : t'.state ≠ .commentStart)
    (hstart : t'.state = .commentStartDash → t.state = .commentStart)
    (htexts : texts.flatten ++ List.replicate t'.state.held '-'
      = List.replicate t.state.held '-' ++ [c])
    (hc : src.Covers t.position [c] (t.position.next c)) :
    Gathering src t'
      { m with current := some (.comment (value ++ texts.flatten) (src.offsetFor t.tagStart)) }
      (value ++ texts.flatten) where
  current := by rw [hgrows.tagStart]
  fresh hstate := by
    have hdash := hstate.resolve_left hfirst
    rw [hdash, hstart hdash] at htexts
    have hnone : texts.flatten = [] := (List.append_inj' htexts rfl).1
    rw [h.fresh (.inl (hstart hdash)), hnone]
    rfl
  read := by
    have hread := h.read.trans hc
    rw [List.append_assoc, List.append_assoc, ← htexts] at hread
    rw [hgrows.tagStart, hgrows.position]
    simpa using hread

theorem Gathering.loses {t : Tokenizer} {m : Markup} {value : List Char}
    (h : Gathering src t m value) (hstate : t.state = .commentStartDash) (cs : List Char)
    (q : Position) : src.CommentTo t.tagStart cs q := by
  have hread := h.read
  rw [h.fresh (.inr hstate), hstate] at hread
  refine hread.of_ne (fun c rest hc hprefix => ?_) cs q
  have hdash : ['-'] <+: c :: rest := (List.prefix_append_right_inj "<!--".toList).mp hprefix
  exact hc (List.cons_prefix_cons.mp hdash).1.symm

theorem Gathering.step {t : Tokenizer} {m n : Markup} {value : List Char} {c : Char}
    {rest : List Char} (h : Gathering src t m value) (hcomment : t.state.isComment = true)
    (hm : m.Satisfies (asWritten src)) (hc : src.Covers t.position [c] (t.position.next c))
    (hn : ((t.step c rest).emitted.map (·.event)).foldlM (Markup.receive src) m = .ok n) :
    Reached src (t.step c rest).now n ∧ n.Satisfies (asWritten src) := by
  cases t.step_comment hcomment c rest with
  | grows hgrows _ hfirst hstart =>
    obtain ⟨texts, hes, htexts⟩ := hgrows.texts
    rw [hes, Markup.receive_commentDatas h.current, Except.ok.injEq] at hn
    subst hn
    exact ⟨reached_of_isComment _ hgrows.isComment (h.grows hgrows hfirst hstart htexts hc),
      hm.withCurrent (by rintro _ ⟨⟩)⟩
  | loses hstate _ _ hs =>
    rw [hs] at hn ⊢
    have hn : ([['-']].map Event.commentData).foldlM (Markup.receive src) m = .ok n := hn
    rw [Markup.receive_commentDatas h.current, Except.ok.injEq] at hn
    subst hn
    refine ⟨reached_of_isComment (value ++ ['-']) rfl ⟨rfl, ?_, h.loses hstate _ _⟩,
      hm.withCurrent (by rintro _ ⟨⟩)⟩
    rintro (hnot | hnot) <;> cases hnot
  | closes hclose hstate hs =>
    subst hclose
    rw [hs] at hn ⊢
    have hn : m.receive src (.finishComment (t.position.next '>')) = .ok n := by
      simpa [List.foldlM_cons, List.foldlM_nil] using hn
    refine ⟨reached_of_isApart rfl, hm.receive hn ?_⟩
    rintro _ ⟨⟩ value' start hcurrent
    rw [h.current] at hcurrent
    cases hcurrent
    exact h.closes hstate hc

theorem Reached.step_outside {t : Tokenizer} {m n : Markup} {c : Char} {rest : List Char}
    (h : Reached src t m) (hcomment : t.state.isComment = false)
    (hm : m.Satisfies (asWritten src)) (hcovers : src.Covers t.position (c :: rest) q)
    (hn : ((t.step c rest).emitted.map (·.event)).foldlM (Markup.receive src) m = .ok n) :
    Reached src (t.step c rest).now n ∧ n.Satisfies (asWritten src) := by
  have hquiet (hs : (t.step c rest).isQuiet = true) : n.Satisfies (asWritten src) := by
    rw [List.foldlM_map] at hn
    refine hm.reports (fun e he p hp => ?_) hn
    have hapart := List.all_eq_true.mp hs e he
    rw [hp] at hapart
    cases hapart
  have hfirst (cs : List Char) {ds : List Char} (hcs : c :: rest = cs ++ ds) :
      src.Covers t.position cs (t.position.after cs) := by
    rw [hcs] at hcovers
    exact hcovers.left.1
  cases t.step_outside hcomment c rest with
  | apart hapart hs => exact ⟨reached_of_isApart hapart, hquiet hs⟩
  | bracket hlt hstate htag hposition hs =>
    subst hlt
    refine ⟨⟨fun _ => ?_, fun hnot => ?_, fun hnot => ?_⟩, hquiet hs⟩
    · have hread := hfirst ['<'] rfl
      rw [htag, hposition]
      exact ⟨⟨_, _, hread.choose_spec.choose_spec.1⟩, fun _ => hread⟩
    · rw [hstate] at hnot
      cases hnot
    · rw [hstate] at hnot
      cases hnot
  | bang hstate hc hs =>
    subst hc
    have hread := (h.opening hstate).trans (hfirst ['!'] rfl)
    have hs' : (t.step '!' rest).isQuiet = true := by
      rw [hs]
      rfl
    refine ⟨?_, hquiet hs'⟩
    rw [hs]
    exact ⟨by rintro ⟨⟩, fun _ => hread, by rintro ⟨⟩⟩
  | opens more hstate hc hrest hnow hes =>
    subst hc hrest
    have hread := (h.declaring hstate).trans (hfirst ['-', '-'] rfl)
    rw [hes] at hn
    have hn : m.receive src (.beginComment t.tagStart) = .ok n := by
      simpa [List.foldlM_cons, List.foldlM_nil] using hn
    cases hn
    refine ⟨?_, hm.withCurrent (by rintro _ ⟨⟩)⟩
    rw [hnow]
    exact reached_of_isComment [] rfl ⟨rfl, fun _ => rfl, hread⟩

theorem Reached.feed {t : Tokenizer} {m n : Markup} {cs : List Char} (h : Reached src t m)
    (hm : m.Satisfies (asWritten src)) (hcovers : src.Covers t.position cs q)
    (hn : ((t.feed cs).1.map (·.event)).foldlM (Markup.receive src) m = .ok n) :
    Reached src (t.feed cs).2 n ∧ n.Satisfies (asWritten src) := by
  induction hlength : cs.length using Nat.strongRecOn generalizing t m cs with
  | _ length ih =>
    cases cs with
    | nil =>
      obtain rfl := pure_eq_ok.mp hn
      exact ⟨h, hm⟩
    | cons c cs =>
      rw [Tokenizer.feed_cons] at hn ⊢
      dsimp only at hn ⊢
      rw [List.map_append, List.foldlM_append, bind_eq_ok] at hn
      obtain ⟨k, hk, hn⟩ := hn
      have hc : src.Covers t.position [c] (t.position.next c) := by
        rw [← List.singleton_append] at hcovers
        exact hcovers.left.1
      obtain ⟨hreached, hsatisfies⟩ :
          Reached src (t.step c cs).now k ∧ k.Satisfies (asWritten src) := by
        by_cases hcomment : t.state.isComment = true
        · obtain ⟨value, hvalue⟩ := h.comment hcomment
          exact hvalue.step hcomment hm hc hk
        · exact h.step_outside (Bool.not_eq_true _ ▸ hcomment) hm hcovers hk
      obtain ⟨ahead, hle, hahead, hposition⟩ := t.step_consumes c cs
      rw [hahead, Nat.zero_add] at hn ⊢
      have hrest : src.Covers (t.step c cs).now.position (cs.drop ahead) q := by
        rw [← List.take_append_drop ahead cs, ← List.cons_append] at hcovers
        rw [hposition]
        exact hcovers.right.1
      exact ih _ (by rw [← hlength, List.length_drop, List.length_cons]; omega) hreached hsatisfies
        hrest hn rfl

theorem Reached.finishData {t : Tokenizer} {m n : Markup} (h : Reached src t m)
    (hm : m.Satisfies (asWritten src))
    (hn : (t.finishData.1.map (·.event)).foldlM (Markup.receive src) m = .ok n) :
    Reached src t.finishData.2 n ∧ n.Satisfies (asWritten src) := by
  unfold Tokenizer.finishData at hn ⊢
  split at hn
  · rename_i hdata
    rw [if_pos hdata]
    have hn : m.receive src (.finishData t.position) = .ok n := by
      simpa [List.foldlM_cons, List.foldlM_nil, Html.Step.emitHere, Html.Step.emit,
        Html.Step.become] using hn
    exact ⟨reached_of_isApart rfl, hm.receive hn (by rintro _ ⟨⟩)⟩
  · rename_i hdata
    rw [if_neg hdata]
    obtain rfl := pure_eq_ok.mp hn
    exact ⟨h, hm⟩

theorem Reached.elsewhere {cs : List Char} {t : Tokenizer} {m : Markup}
    (h : Reached src (t.moveTo p) m) (hcomment : t.state.isComment = false)
    (hcovers : src.Covers p cs q) (hbraces : ['{', '{'] <+: cs) (p' : Position) (m' : Markup) :
    Reached src (t.moveTo p') m' := by
  obtain ⟨inner, rfl⟩ := hbraces
  refine ⟨fun hstate => ?_, fun hstate => ?_, fun hnot => ?_⟩
  · refine ((h.opening hstate).trans hcovers).of_ne (fun c rest _ hprefix => ?_) _ _
    simp at hprefix
  · refine ((h.declaring hstate).trans hcovers).of_ne (fun c rest _ hprefix => ?_) _ _
    simp at hprefix
  · exact absurd (hcomment.symm.trans hnot) Bool.false_ne_true

namespace Assembly

variable {a b : Assembly}

theorem isApart_of_isData {state : Html.State} (h : state.isData = true) :
    state.isApart = true := by
  revert h
  cases state <;> simp [Html.State.isData, Html.State.isApart]

private theorem textStart_of_value {c : Mustache.Content} (hvalue : c.value = c.written) :
    textStart c = c.loc.start := by
  by_cases hne : c.value = []
  · simp [textStart, Shift.ofTrimmed, ← hvalue, hne, Position.shift]
  · obtain ⟨first, hfirst, -, hleast⟩ := textStart_first (hvalue ▸ List.infix_refl _) hne
    have hnil : first <+: [] := hleast [] (hvalue ▸ List.prefix_refl _)
    rw [hfirst, List.prefix_nil.mp hnil, Position.after_nil]

theorem reached_content {c : Mustache.Content} (h : Reached src (a.tokenizer.moveTo p) a.markup)
    (ha : a.markup.Satisfies (asWritten src)) (hstart : c.loc.start = p)
    (hvalue : c.value = c.written) (hcovers : src.Covers p c.value q)
    (hb : a.content src c = .ok b) :
    Reached src (b.tokenizer.moveTo q) b.markup ∧ b.markup.Satisfies (asWritten src) := by
  obtain ⟨hmarkup, htokenizer⟩ := content_ok hb
  have htext : textStart c = p := (textStart_of_value hvalue).trans hstart
  have hposition : b.tokenizer.position = q := by
    rw [htokenizer, readText, Tokenizer.position_finishData, Tokenizer.position_feed, htext]
    exact hcovers.choose_spec.choose_spec.2.symm
  rw [report, List.map_append, List.foldlM_append, bind_eq_ok] at hmarkup
  obtain ⟨m, hfed, hfinished⟩ := hmarkup
  rw [← hposition]
  show Reached src b.tokenizer b.markup ∧ _
  rw [htokenizer, readText, htext]
  have hfed : (((a.tokenizer.moveTo p).feed c.value).1.map (·.event)).foldlM
      (Markup.receive src) a.markup = .ok m := htext ▸ hfed
  have hfinished : (((a.tokenizer.moveTo p).feed c.value).2.finishData.1.map (·.event)).foldlM
      (Markup.receive src) m = .ok b.markup := htext ▸ hfinished
  obtain ⟨hreached, hsatisfies⟩ := h.feed ha hcovers hfed
  exact hreached.finishData hsatisfies hfinished

theorem reached_commentText {loc : Location} {cs : List Char}
    (h : Reached src (a.tokenizer.moveTo loc.start) a.markup)
    (hcomment : a.tokenizer.state.isComment = true) (hcovers : src.Covers loc.start cs loc.stop)
    (hb : a.commentText src loc = .ok b) :
    Reached src (b.tokenizer.moveTo loc.stop) b.markup := by
  obtain ⟨value, hvalue⟩ := h.comment hcomment
  obtain ⟨hmarkup, htokenizer⟩ := follow_ok hb
  rw [← List.foldlM_map, show loc = ⟨loc.start, loc.stop⟩ from rfl,
    hcovers.slice_spanFor] at hmarkup
  obtain ⟨texts, htexts, hflatten⟩ := Tokenizer.appendComment_texts hcomment cs
  rw [htexts, Markup.receive_commentDatas hvalue.current, Except.ok.injEq] at hmarkup
  have hread : src.CommentTo a.tokenizer.tagStart
      ("<!--".toList ++ (value ++ texts.flatten) ++ List.replicate 0 '-') loc.stop := by
    rw [hflatten, List.replicate_zero, List.append_nil, ← List.append_assoc, ← List.append_assoc]
    exact hvalue.read.trans hcovers
  rw [htokenizer, Tokenizer.now_appendComment, ← hmarkup]
  exact reached_of_isComment (value ++ texts.flatten) rfl
    ⟨rfl, (by rintro (hnot | hnot) <;> cases hnot), hread⟩

private theorem place_tokenizer {d : Dynamic} (h : a.place src d = .ok b) :
    b.tokenizer.state.isApart = true ∨ b.tokenizer = a.tokenizer := by
  unfold Assembly.place at h
  split at h
  · simp [fault] at h
  · simp [fault] at h
  · exact .inr (addModifier_sameNode h).2
  · simp only [bind_eq_ok, pure_eq_ok] at h
    obtain ⟨a₁, -, a₂, -, rfl⟩ := h
    exact .inl rfl
  · simp only [bind_eq_ok, pure_eq_ok] at h
    obtain ⟨a₁, -, a₂, -, rfl⟩ := h
    exact .inl rfl
  · simp only [bind_eq_ok, pure_eq_ok] at h
    obtain ⟨a₁, -, rfl⟩ := h
    exact .inl rfl
  · cases h
    exact .inl rfl
  all_goals
    cases h
    exact .inr rfl

private theorem placeComment_tokenizer {c : Comment} (h : a.placeComment src c = .ok b) :
    b.tokenizer.state.isApart = true ∨ b.tokenizer = a.tokenizer := by
  unfold Assembly.placeComment at h
  split at h
  · exact .inr (addTagComment_sameNode h).2
  · simp only [bind_eq_ok, pure_eq_ok] at h
    obtain ⟨a₁, -, a₂, -, rfl⟩ := h
    exact .inl rfl
  · cases h
    exact .inr rfl
  · cases h
    exact .inr rfl
  · simp [fault] at h

/-- The statements to be read begin where a comment has been read to. The section of an
`{{else if}}` is read where no comment is. -/
inductive Resumes (src : Source) (a : Assembly) : List Mustache.Statement → Prop
  | there {p q : Position} {ss : List Mustache.Statement} : Mustache.Abuts src p ss q →
      Reached src (a.tokenizer.moveTo p) a.markup → Resumes src a ss
  | linked {b : Mustache.Block Mustache.Statement} : a.tokenizer.state.isComment = false →
      Resumes src a [.block b]

theorem resumes_of_isData {ss : List Mustache.Statement} (h : a.tokenizer.state.isData = true)
    (hss : (∃ b, ss = [.block b]) ∨ ∃ p q, Mustache.Abuts src p ss q) : Resumes src a ss := by
  rcases hss with ⟨b, rfl⟩ | ⟨p, q, habuts⟩
  · exact .linked (Html.State.isComment_of_isData h)
  · exact .there habuts (reached_of_isApart (isApart_of_isData h))

theorem Resumes.later {s : Mustache.Statement} {ss : List Mustache.Statement}
    (h : Resumes src a (s :: ss)) (hvalue : ∀ c, s = .content c → c.value = c.written)
    (ha : a.markup.Satisfies (asWritten src)) (hb : statement src a s = .ok b) :
    Resumes src b ss := by
  cases h with
  | linked hcomment =>
    cases statement_ok hb with
    | commented _ hcomment' _ => exact absurd (hcomment.symm.trans hcomment') (by decide)
    | block hblock =>
      have hdata := block_isData hblock
      exact resumes_of_isData hdata (.inr ⟨.first, .first, rfl⟩)
  | @there p q _ habuts hreached =>
    obtain ⟨⟨cs, hcovers, hstart, htext, hbraces⟩, hrest⟩ := habuts
    refine .there hrest ?_
    have hmoved (hcomment : a.tokenizer.state.isComment = false) (hnone : s.text? = none)
        (ht : b.tokenizer.state.isApart = true ∨ b.tokenizer = a.tokenizer) :
        Reached src (b.tokenizer.moveTo s.loc.stop) b.markup := by
      rcases ht with hapart | hsame
      · exact reached_of_isApart hapart
      · rw [hsame]
        exact hreached.elsewhere hcomment hcovers (hbraces hnone) _ _
    cases statement_ok hb with
    | @content c _ hb =>
      obtain rfl : c.written = cs := htext c.written rfl
      have hvalue := hvalue c rfl
      exact (reached_content hreached ha hstart hvalue (hvalue ▸ hcovers) hb).1
    | commented _ hcomment hb =>
      subst hstart
      exact reached_commentText hreached hcomment hcovers hb
    | mustache hcomment _ hb => exact hmoved hcomment rfl (place_tokenizer hb)
    | decorator hdata _ => exact reached_of_isApart (isApart_of_isData hdata)
    | comment hcomment hb => exact hmoved hcomment rfl (placeComment_tokenizer hb)
    | partialCall hcomment _ => exact hmoved hcomment rfl (.inr rfl)
    | block hblock | decoratorBlock hblock =>
      have hdata := block_isData hblock
      exact reached_of_isApart (isApart_of_isData hdata)
    | partialBlock _ _ hsection =>
      have hdata := sectionOf_isData hsection
      exact reached_of_isApart (isApart_of_isData hdata)

theorem Enters.body {ts : List Mustache.Token} {s : Mustache.Statement} {fallback : Nat}
    {p : Mustache.Program Mustache.Statement} (h : Enters src a s fallback p b)
    (hs : s.Tagged ts) :
    (Mustache.TaggedBody ts p.chained p.body ∧ Mustache.allTagged ts p.body)
      ∧ Mustache.contentsAll p.body ⊆ s.contents := by
  cases h with
  | @program _ m _ _ hs' _ _ hp =>
    obtain ⟨call, program, inverse, openStrip, inverseStrip, closeStrip, loc⟩ := m
    obtain rfl : program = some p := hp
    obtain ⟨body, params, chained⟩ := p
    rcases hs' with rfl | rfl
    all_goals exact ⟨hs.1, List.subset_append_left _ _⟩
  | @inverse _ m _ _ _ _ hs' _ _ _ hp =>
    obtain ⟨call, program, inverse, openStrip, inverseStrip, closeStrip, loc⟩ := m
    obtain rfl : inverse = some p := hp
    obtain ⟨body, params, chained⟩ := p
    rcases hs' with rfl | rfl
    all_goals exact ⟨hs.2, List.subset_append_right _ _⟩
  | @partialBlock m _ _ _ =>
    obtain ⟨call, ⟨body, params, chained⟩, openStrip, closeStrip, loc⟩ := m
    exact ⟨hs, List.Subset.refl _⟩

/-- Statements of a template that whitespace control has left alone, with their bodies between
tags, are read from where the template has been read to. -/
structure Carries (src : Source) (ts : List Mustache.Token) (a : Assembly)
    (ss : List Mustache.Statement) : Prop where
  tagged : Mustache.allTagged ts ss
  unchanged : ∀ c ∈ Mustache.contentsAll ss, c.value = c.written
  resumes : Resumes src a ss

theorem Carries.guides {ts : List Mustache.Token} {lo : Position} {p? : Option Position}
    (hts : Mustache.Sorted lo ts) (hlinked : Mustache.Linked src p? ts)
    (hwritten : Mustache.AllWritten src ts) (hplain : '\\' ∉ src.text) :
    Guides src (asWritten src) (Carries src ts) where
  call _ _ _ := trivial
  name _ _ _ := trivial
  content {a b c ss} h hb ha := by
    have hvalue := h.unchanged c List.mem_cons_self
    cases h.resumes with
    | @there p q _ habuts hreached =>
      obtain ⟨⟨cs, hcovers, hstart, htext, -⟩, -⟩ := habuts
      obtain rfl : c.written = cs := htext c.written rfl
      exact (reached_content hreached ha hstart hvalue (hvalue ▸ hcovers) hb).2
  inside {a b s ss fallback p} h henters := by
    obtain ⟨⟨hbody, htagged⟩, hcontents⟩ := henters.body h.tagged.1
    refine ⟨htagged, fun c hc => h.unchanged c (List.mem_append_left _ (hcontents hc)), ?_⟩
    have hss := hbody.abuts hts hlinked hwritten hplain
    cases henters with
    | program _ hdata => exact resumes_of_isData (a := a.pushBody.2) hdata hss
    | inverse _ hdata _ hprogram =>
      have hdata' := sectionOf?_isData hprogram hdata
      exact resumes_of_isData (a := _) hdata' hss
    | partialBlock hcomment =>
      rcases hss with ⟨m, hm⟩ | ⟨p', q', habuts⟩
      · rw [hm]
        exact .linked hcomment
      · cases h.resumes with
        | there hwhole hreached =>
          obtain ⟨⟨cs, hcovers, -, -, hbraces⟩, -⟩ := hwhole
          exact .there habuts (hreached.elsewhere hcomment hcovers (hbraces rfl) _ _)
  later {a b s ss} h ha hb := by
    refine ⟨h.tagged.2, fun c hc => h.unchanged c (List.mem_append_right _ hc), ?_⟩
    refine h.resumes.later ?_ ha hb
    rintro c rfl
    exact h.unchanged c List.mem_cons_self

end Assembly

end Tree

/-- What stands between the delimiters of an HTML comment is its value, mustaches and whole blocks
included, in a template without backslashes and markers that keeps its lines. A comment whose text
begins with a dash is another matter, and so is one that is too short for both delimiters. -/
theorem preprocess_comments {text : List Char} {options : Options} {t : Tree.Template}
    (hkeep : options.keepLines = true) (hmarker : '~' ∉ text) (hplain : '\\' ∉ text)
    (h : preprocess text options = .ok t) :
    t.Satisfies (Tree.asWritten ⟨text, options.moduleName⟩) := by
  obtain ⟨program, a, stack, hparse, -⟩ := preprocess_ok h
  obtain ⟨ts, written, rest, hscan, hwritten, -, htrims⟩ := Mustache.parse_written hparse
  have hsorted := Mustache.scan_sorted hscan
  have hlinked := Mustache.scan_linked options.moduleName hscan
  have hall : Mustache.AllWritten ⟨text, options.moduleName⟩ ts := Mustache.scan_written hscan
  obtain ⟨q, habuts⟩ := hwritten.abut hsorted hlinked hall hplain
  obtain ⟨-, -, -, -, htagged⟩ := hwritten.laid hsorted
  refine (Tree.Assembly.Carries.guides hsorted hlinked hall hplain).template ?_ h
  intro program' hparse'
  obtain rfl : program' = program := Except.ok.inj (hparse'.symm.trans hparse)
  refine ⟨htrims.allTagged htagged, ?_, ?_⟩
  · rw [hkeep] at hparse
    obtain ⟨body, params, chained⟩ := program'
    exact Mustache.contents_unmarked hmarker hparse
  · exact Tree.Assembly.resumes_of_isData (a := .initial options.mode) rfl
      (.inr ⟨.first, q, Mustache.abuts_of_bareAll habuts htrims.1⟩)

/-- A block between the delimiters of a comment. -/
theorem preprocess_comments_block :
    ∃ t, preprocess "<!--a-{{#b}}-{{/b}}-->".toList { keepLines := true } = .ok t
      ∧ t.body.map (·.span) = [⟨0, 22⟩]
      ∧ '~' ∉ "<!--a-{{#b}}-{{/b}}-->".toList ∧ '\\' ∉ "<!--a-{{#b}}-{{/b}}-->".toList
      ∧ t.Satisfies (Tree.asWritten ⟨"<!--a-{{#b}}-{{/b}}-->".toList, none⟩) := by
  have hscan : Mustache.scan "<!--a-{{#b}}-{{/b}}-->".toList = .ok
      [.onLine (.content "<!--a-".toList) 0 6, .onLine (.opener .block) 6 9,
        .onLine (.name ['b'] false) 9 10, .onLine .close 10 12, .onLine (.content ['-']) 12 13,
        .onLine (.opener .endBlock) 13 16, .onLine (.name ['b'] false) 16 17,
        .onLine .close 17 19, .onLine (.content "-->".toList) 19 22,
        .onLine .endOfInput 22 22] := by decide +kernel
  have hparse := Mustache.parse_of_tokens true hscan (by cbv)
  have hbody : (preprocess "<!--a-{{#b}}-{{/b}}-->".toList { keepLines := true }).map
      (·.body.map (·.span)) = .ok [⟨0, 22⟩] := by
    rw [preprocess_of_parse { keepLines := true } hparse]
    decide +kernel
  obtain ⟨t, ht, hbody⟩ := map_eq_ok.mp hbody
  have hmarker : '~' ∉ "<!--a-{{#b}}-{{/b}}-->".toList := by decide +kernel
  have hplain : '\\' ∉ "<!--a-{{#b}}-{{/b}}-->".toList := by decide +kernel
  exact ⟨t, ht, hbody, hmarker, hplain, preprocess_comments rfl hmarker hplain ht⟩

end HtmlTemplate
