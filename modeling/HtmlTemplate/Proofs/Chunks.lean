import HtmlTemplate.Html.Delivery
import HtmlTemplate.Proofs.Consumes
import HtmlTemplate.Proofs.Moves
import Mathlib.Data.List.Basic

/-! Text in chunks. The machine looks beyond the character that it reads in three places: for
the rest of a character reference, for the second dash of a comment and for the end tag of
a raw element. A chunk that cuts off none of these can be fed apart from what follows it. -/

namespace HtmlTemplate.Html

/-- Nothing that the machine looks for reaches over the end of a chunk. -/
structure Closed (mode : Mode) (chunk : List Char) : Prop where
  comment : ¬ "<!-".toList <:+ chunk
  endTag : ∀ name ∈ rawElements, ∀ part, part ≠ [] → part <+: Html.endTag name →
    part ≠ Html.endTag name → ¬ part <:+ chunk
  /-- A reference is short, so enough characters decide as well as its end does. -/
  reference : mode = .precompile → ∀ seen rest, chunk = seen ++ '&' :: rest →
    ';' ∈ rest ∨ 32 ≤ rest.length

theorem Reference.decode?_append {cs : List Char} (h : ';' ∈ cs ∨ 32 ≤ cs.length)
    (more : List Char) : decode? (cs ++ more) = decode? cs := by
  by_cases hlong : 32 ≤ cs.length
  · have htake : (cs ++ more).take maxLength = cs.take maxLength :=
      List.take_append_of_le_length hlong
    have hmin : min maxLength (cs ++ more).length = min maxLength cs.length := by
      rw [List.length_append, show maxLength = 32 from rfl]
      omega
    simp only [decode?, htake, hmin]
  · have hmem : ';' ∈ cs := h.resolve_right hlong
    have hshort : cs.length ≤ maxLength := Nat.le_of_not_le hlong
    have hends : (cs.takeWhile (· != ';')).length < cs.length := by
      refine Nat.lt_of_le_of_ne (List.takeWhile_prefix _).length_le fun hlength => ?_
      have hall := List.takeWhile_eq_self_iff.mp
        ((List.takeWhile_prefix _).eq_of_length hlength)
      exact absurd (hall _ hmem) (by simp)
    have hbody : ((cs ++ more).take maxLength).takeWhile (· != ';')
        = (cs.take maxLength).takeWhile (· != ';') := by
      rw [List.take_append, List.take_of_length_le hshort, List.takeWhile_append,
        if_neg (Nat.ne_of_lt hends)]
    have hlt : (cs.takeWhile (· != ';')).length < min maxLength (cs ++ more).length := by
      rw [List.length_append]
      omega
    simp only [decode?, hbody, List.take_of_length_le hshort]
    rw [if_pos hlt, if_pos (by omega)]

structure Decided (t : Tokenizer) (c : Char) (rest : List Char) : Prop where
  reference : t.mode = .precompile → c = '&' → ';' ∈ rest ∨ 32 ≤ rest.length
  dash : t.state = .markupDeclarationOpen → c = '-' → rest ≠ []
  endTag : ∀ name ∈ rawElements, c :: rest <+: Html.endTag name → c :: rest = Html.endTag name

namespace Step

variable {s : Step} {c : Char} {rest : List Char}

theorem decode_append (h : s.now.mode = .precompile → c = '&' → ';' ∈ rest ∨ 32 ≤ rest.length)
    (more : List Char) : s.decode c (rest ++ more) = s.decode c rest := by
  unfold decode
  split
  · rename_i hreference
    obtain ⟨hc, hmode⟩ : c = '&' ∧ s.now.mode = .precompile := by simpa using hreference
    rw [Reference.decode?_append (h hmode hc)]
    split
    · rename_i n hn
      rw [List.take_append_of_le_length (Reference.decode?_le hn)]
    · rfl
  · rfl

theorem isRawText_append
    (h : ∀ name ∈ rawElements, c :: rest <+: endTag name → c :: rest = endTag name)
    (more : List Char) : s.isRawText c (rest ++ more) = s.isRawText c rest := by
  unfold isRawText
  by_cases hraw : s.now.tagName ∈ rawElements
  · congr 2
    rw [Bool.eq_iff_iff, List.isPrefixOf_iff_prefix, List.isPrefixOf_iff_prefix]
    constructor
    · intro hlong
      rcases List.prefix_or_prefix_of_prefix hlong (List.prefix_append (c :: rest) more)
        with hp | hp
      · exact hp
      · exact h _ hraw hp ▸ List.prefix_refl _
    · intro hp
      exact hp.trans (List.prefix_append (c :: rest) more)
  · have hfalse : rawElements.contains s.now.tagName = false := by simpa using hraw
    rw [hfalse, Bool.false_and, Bool.false_and]

end Step

theorem Tokenizer.step_append {t : Tokenizer} {c : Char} {rest : List Char}
    (h : Decided t c rest) (more : List Char) : t.step c (rest ++ more) = t.step c rest := by
  have hdecode (s : Step) (hmode : s.now.mode = t.mode) :
      s.decode c (rest ++ more) = s.decode c rest :=
    Step.decode_append (fun hs => h.reference (hmode ▸ hs)) more
  have hraw (s : Step) : s.isRawText c (rest ++ more) = s.isRawText c rest :=
    Step.isRawText_append h.endTag more
  unfold step
  dsimp only
  split
  · simp only [Step.beforeData, Step.data, hraw]
    rw [hdecode _ rfl]
  · simp only [Step.data, hraw]
    rw [hdecode _ rfl]
  · rfl
  · rename_i hstate
    unfold Step.markupDeclarationOpen
    by_cases hc : c = '-'
    · rw [List.head?_append_of_ne_nil _ (h.dash hstate hc)]
    · simp only [hc, decide_false, Bool.false_and]
  all_goals first | rfl | skip
  · simp only [Step.beforeAttributeValue, Step.valueText]
    rw [hdecode _ rfl]
  · simp only [Step.quotedValue, Step.valueText]
    rw [hdecode _ rfl]
  · simp only [Step.quotedValue, Step.valueText]
    rw [hdecode _ rfl]
  · simp only [Step.unquotedValue, Step.valueText]
    rw [hdecode _ rfl]

namespace Step

/-- What is known of the machine after a character: it keeps its mode, and two of its states
are reached by one character only. -/
structure Traced (t : Tokenizer) (c : Char) (s : Step) : Prop where
  mode : s.now.mode = t.mode
  tagOpen : s.now.state = .tagOpen → c = '<' ∧ s.ahead = 0
  declaration : s.now.state = .markupDeclarationOpen →
    t.state = .tagOpen ∧ c = '!' ∧ s.ahead = 0

variable {t : Tokenizer} {s : Step} {c : Char} {rest : List Char}

theorem Traced.of_state (hmode : s.now.mode = t.mode)
    (hstate : s.now.state ≠ .tagOpen ∧ s.now.state ≠ .markupDeclarationOpen) : Traced t c s :=
  ⟨hmode, fun h => absurd h hstate.1, fun h => absurd h hstate.2⟩

theorem valueText_traced (hmode : s.now.mode = t.mode)
    (hstate : s.now.state ≠ .tagOpen ∧ s.now.state ≠ .markupDeclarationOpen) :
    Traced t c (s.valueText c rest) := by
  obtain ⟨cs, -, hnow⟩ := decode_moved (s.read c) c rest
  have hvalue : (s.valueText c rest).now = ((s.read c).decode c rest).2.now := rfl
  refine .of_state ?_ ?_
  · rw [hvalue, hnow]
    exact hmode
  · rw [hvalue, hnow]
    exact hstate

theorem data_traced (hmode : s.now.mode = t.mode) (hstate : s.now.state = .data)
    (hahead : s.ahead = 0) : Traced t c (s.data c rest) := by
  unfold data
  split
  · rename_i hopens
    have hc : c = '<' := by simpa using (Bool.and_eq_true_iff.mp hopens).1
    exact ⟨hmode, fun _ => ⟨hc, hahead⟩, fun h => by cases h⟩
  · have hother : s.now.state ≠ .tagOpen ∧ s.now.state ≠ .markupDeclarationOpen := by
      simp [hstate]
    split
    · exact .of_state hmode hother
    · obtain ⟨cs, -, hnow⟩ := decode_moved (s.read c) c rest
      refine .of_state ?_ ?_
      · show ((s.read c).decode c rest).2.now.mode = t.mode
        rw [hnow]
        exact hmode
      · show ((s.read c).decode c rest).2.now.state ≠ _ ∧ ((s.read c).decode c rest).2.now.state ≠ _
        rw [hnow]
        exact hother

theorem beforeAttributeName_traced (hmode : s.now.mode = t.mode)
    (hstate : s.now.state = .beforeAttributeName) : Traced t c (s.beforeAttributeName c) := by
  unfold beforeAttributeName attributeName
  repeat' split
  all_goals exact .of_state hmode (by simp [read, become, closeTag, emit, emitHere, hstate])

end Step

theorem Tokenizer.step_traced (t : Tokenizer) (c : Char) (rest : List Char) :
    Step.Traced t c (t.step c rest) := by
  obtain ⟨mode, state, position, tagStart, tagName⟩ := t
  cases state with
  | beforeData =>
    show Step.Traced _ c (Step.beforeData _ c rest)
    unfold Step.beforeData
    split
    · rename_i hopens
      have hc : c = '<' := by simpa using (Bool.and_eq_true_iff.mp hopens).1
      exact ⟨rfl, fun _ => ⟨hc, rfl⟩, nofun⟩
    · split
      · exact .of_state rfl ⟨nofun, nofun⟩
      · exact Step.data_traced rfl rfl rfl
  | data => exact Step.data_traced rfl rfl rfl
  | tagOpen =>
    show Step.Traced _ c (Step.tagOpen _ c)
    unfold Step.tagOpen
    dsimp only
    split
    · rename_i hc
      exact ⟨rfl, nofun, fun _ => ⟨rfl, hc, rfl⟩⟩
    · repeat' split
      all_goals exact .of_state rfl ⟨nofun, nofun⟩
  | markupDeclarationOpen =>
    show Step.Traced _ c (Step.markupDeclarationOpen _ c rest)
    unfold Step.markupDeclarationOpen
    dsimp only
    split
    all_goals exact .of_state rfl ⟨nofun, nofun⟩
  | commentStart | commentStartDash | comment | commentEndDash | commentEnd | tagName | endTagOpen
  | endTagName | attributeName | afterAttributeName =>
    simp only [step, Step.commentStart, Step.commentStartDash, Step.comment, Step.commentEndDash,
      Step.commentEnd, Step.tagName, Step.endTagOpen, Step.endTagName, Step.attributeName,
      Step.afterAttributeName]
    repeat' split
    all_goals exact .of_state rfl ⟨nofun, nofun⟩
  | beforeAttributeName => exact Step.beforeAttributeName_traced rfl rfl
  | beforeAttributeValue =>
    show Step.Traced _ c (Step.beforeAttributeValue _ c rest)
    unfold Step.beforeAttributeValue
    repeat' split
    any_goals exact .of_state rfl ⟨nofun, nofun⟩
    exact Step.valueText_traced rfl ⟨nofun, nofun⟩
  | attributeValueDoubleQuoted | attributeValueSingleQuoted =>
    simp only [step, Step.quotedValue]
    split
    · exact .of_state rfl ⟨nofun, nofun⟩
    · exact Step.valueText_traced rfl ⟨nofun, nofun⟩
  | attributeValueUnquoted =>
    show Step.Traced _ c (Step.unquotedValue _ c rest)
    unfold Step.unquotedValue
    repeat' split
    any_goals exact .of_state rfl ⟨nofun, nofun⟩
    exact Step.valueText_traced rfl ⟨nofun, nofun⟩
  | afterAttributeValueQuoted =>
    show Step.Traced _ c (Step.afterAttributeValueQuoted _ c)
    unfold Step.afterAttributeValueQuoted
    repeat' split
    any_goals exact .of_state rfl ⟨nofun, nofun⟩
    exact Step.beforeAttributeName_traced rfl rfl
  | selfClosingStartTag =>
    show Step.Traced _ c (Step.selfClosingStartTag _ c)
    unfold Step.selfClosingStartTag
    split
    · exact .of_state rfl ⟨nofun, nofun⟩
    · exact Step.beforeAttributeName_traced rfl rfl

/-- What the machine knows of the text before a character: some states are reached right
after `<` and `<!` only. -/
structure Recalls (t : Tokenizer) (seen : List Char) : Prop where
  tagOpen : t.state = .tagOpen → ['<'] <:+ seen
  declaration : t.state = .markupDeclarationOpen → ['<', '!'] <:+ seen

theorem Step.Traced.recalls {t : Tokenizer} {c : Char} {s : Step} {seen : List Char}
    (h : Traced t c s) (ht : Recalls t seen) (rest : List Char) :
    Recalls s.now (seen ++ c :: rest.take s.ahead) := by
  constructor
  · intro hstate
    obtain ⟨rfl, hahead⟩ := h.tagOpen hstate
    rw [hahead, List.take_zero]
    exact List.suffix_append seen ['<']
  · intro hstate
    obtain ⟨hbefore, rfl, hahead⟩ := h.declaration hstate
    obtain ⟨front, hfront⟩ := ht.tagOpen hbefore
    rw [hahead, List.take_zero, ← hfront, List.append_assoc]
    exact List.suffix_append front ['<', '!']

theorem Closed.decided {t : Tokenizer} {seen rest : List Char} {c : Char}
    (h : Closed t.mode (seen ++ c :: rest)) (ht : Recalls t seen) : Decided t c rest where
  reference hmode hc := h.reference hmode seen rest (hc ▸ rfl)
  dash hstate hc hrest := by
    subst hc hrest
    obtain ⟨front, hfront⟩ := ht.declaration hstate
    refine h.comment ?_
    rw [← hfront, List.append_assoc]
    exact List.suffix_append front ['<', '!', '-']
  endTag name hname hpart := by
    by_contra hne
    exact h.endTag name hname _ (List.cons_ne_nil _ _) hpart hne (List.suffix_append seen _)

namespace Tokenizer

theorem feed_append {t : Tokenizer} {seen chunk : List Char} (h : Closed t.mode (seen ++ chunk))
    (ht : Recalls t seen) (more : List Char) :
    t.feed (chunk ++ more)
      = ((t.feed chunk).1 ++ ((t.feed chunk).2.feed more).1, ((t.feed chunk).2.feed more).2) := by
  induction hlength : chunk.length using Nat.strongRecOn generalizing t seen chunk with
  | _ length ih =>
    cases chunk with
    | nil => simp
    | cons c rest =>
      have htraced := t.step_traced c rest
      obtain ⟨n, hn, hahead, -⟩ := t.step_consumes c rest
      obtain rfl : (t.step c rest).ahead = n := by simpa using hahead
      have hsplit : seen ++ c :: rest
          = (seen ++ c :: rest.take (t.step c rest).ahead) ++ rest.drop (t.step c rest).ahead := by
        rw [List.append_assoc, List.cons_append, List.take_append_drop]
      have hrest := ih (rest.drop (t.step c rest).ahead).length
        (by rw [← hlength, List.length_drop, List.length_cons]; omega)
        (by rw [← hsplit, htraced.mode]; exact h) (htraced.recalls ht rest) rfl
      rw [List.cons_append, feed_cons, feed_cons, step_append (h.decided ht)]
      dsimp only
      rw [List.drop_append_of_le_length hn, hrest, List.append_assoc]

end Tokenizer

variable {σ ε : Type}

/-- Feeds a chunk to a machine that a listener hears: the listener after it, the machine as it
stands then and what the listener has refused. -/
def Tokenizer.tell (listen : σ → Event → σ × Option ε) (s : σ) (t : Tokenizer)
    (chunk : List Char) : σ × Tokenizer × Option ε :=
  match deliver listen s (t.feed chunk).1 with
  | (s, none) => (s, (t.feed chunk).2, none)
  | (s, some (refusal, t)) => (s, t, some refusal)

/-- A fresh machine tells any listener the same of a text in two chunks as of the whole text,
unless the first chunk cuts off what the machine looks for; a refusal comes at the same event
and leaves the same machine. -/
theorem tell_append (mode : Mode) (listen : σ → Event → σ × Option ε) (s : σ)
    {chunk : List Char} (h : Closed mode chunk) (more : List Char) :
    Tokenizer.tell listen s { mode } (chunk ++ more) =
      match Tokenizer.tell listen s { mode } chunk with
      | (s, t, none) => Tokenizer.tell listen s t more
      | refused => refused := by
  have hclosed : Closed mode ([] ++ chunk) := h
  have hfeed := Tokenizer.feed_append (t := { mode }) hclosed ⟨nofun, nofun⟩ more
  unfold Tokenizer.tell
  rw [hfeed]
  dsimp only
  rw [deliver_append]
  cases hheard : deliver listen s (Tokenizer.feed { mode } chunk).1 with
  | mk s' refused =>
    cases refused with
    | none => rfl
    | some refused => rfl

/-- A text in a raw element that ends before its end tag. -/
theorem tell_append_title :
    Closed .precompile "<title>&amp;".toList
      ∧ Tokenizer.tell Recorder.listen {} {} ("<title>&amp;".toList ++ "</title>".toList) =
        match Tokenizer.tell Recorder.listen {} {} "<title>&amp;".toList with
        | (r, t, none) => Tokenizer.tell Recorder.listen r t "</title>".toList
        | refused => refused := by
  -- The chunk ends in a `;`, which is in no end tag and after every `&`.
  have hends {part : List Char} (hne : part ≠ []) (h : part <:+ "<title>&amp;".toList) :
      ';' ∈ part := by
    obtain ⟨front, hfront⟩ := h
    have hlast := congrArg List.getLast? hfront
    rw [List.getLast?_append_of_ne_nil _ hne] at hlast
    exact List.mem_of_getLast? hlast
  have hendTag : ∀ name ∈ rawElements, ';' ∉ endTag name := by decide
  have hclosed : Closed .precompile "<title>&amp;".toList :=
    { comment := by decide
      endTag := fun name hname part hne hpart _ hsuffix =>
        hendTag name hname (hpart.subset (hends hne hsuffix))
      reference := fun _ seen rest hchunk => by
        have hmem := hends (List.cons_ne_nil _ _) (hchunk ▸ List.suffix_append seen ('&' :: rest))
        exact .inl ((List.mem_cons.mp hmem).resolve_left (by decide)) }
  exact ⟨hclosed, tell_append .precompile Recorder.listen {} hclosed _⟩

end HtmlTemplate.Html
