import HtmlTemplate.Proofs.Consumes

/-! The two modes of the machine. They part where a character reference is read: one machine
reads it in a single step, the other character by character, and none of its characters
ends what is being read. -/

namespace HtmlTemplate.Html

def Tokenizer.inMode (t : Tokenizer) (mode : Mode) : Tokenizer :=
  { t with mode }

def Emission.inMode (e : Emission) (mode : Mode) : Emission :=
  { e with source := e.source.inMode mode }

def Step.inMode (s : Step) (mode : Mode) : Step :=
  { s with now := s.now.inMode mode, emitted := s.emitted.map (·.inMode mode) }

def Tokenizer.readsReferences (t : Tokenizer) : Bool :=
  match t.state with
  | .beforeData | .data => !verbatimElements.contains t.tagName
  | .beforeAttributeValue | .attributeValueDoubleQuoted | .attributeValueSingleQuoted
  | .attributeValueUnquoted => true
  | _ => false

theorem Step.decode_eq {s : Step} {c : Char} {rest : List Char}
    (h : c = '&' → Reference.decode? rest = none) : s.decode c rest = ([c], s) := by
  unfold decode
  split
  · rename_i hc
    rw [h (by simpa using (Bool.and_eq_true_iff.mp hc).1)]
  · rfl

namespace Step

variable (s : Step) (mode : Mode) (c : Char) (rest : List Char)

@[simp] theorem position_inMode : (s.inMode mode).now.position = s.now.position := rfl

@[simp] theorem tagStart_inMode : (s.inMode mode).now.tagStart = s.now.tagStart := rfl

@[simp] theorem tagName_inMode : (s.inMode mode).now.tagName = s.now.tagName := rfl

theorem events_inMode : (s.inMode mode).emitted.map (·.event) = s.emitted.map (·.event) := by
  simp [inMode, Emission.inMode, Function.comp_def]

@[simp] theorem read_inMode : (s.inMode mode).read c = (s.read c).inMode mode := rfl

@[simp] theorem readAhead_inMode (cs : List Char) :
    (s.inMode mode).readAhead cs = (s.readAhead cs).inMode mode := rfl

@[simp] theorem become_inMode (state : State) :
    (s.inMode mode).become state = (s.become state).inMode mode := rfl

@[simp] theorem openTag_inMode : (s.inMode mode).openTag = s.openTag.inMode mode := rfl

@[simp] theorem forgetName_inMode : (s.inMode mode).forgetName = s.forgetName.inMode mode := rfl

@[simp] theorem emit_inMode (e : Event) :
    (s.inMode mode).emit e = (s.emit e).inMode mode := by
  simp [emit, inMode, Emission.inMode]

@[simp] theorem emitHere_inMode (e : Position → Event) :
    (s.inMode mode).emitHere e = (s.emitHere e).inMode mode :=
  s.emit_inMode mode _

@[simp] theorem growName_inMode : (s.inMode mode).growName c = (s.growName c).inMode mode :=
  emit_inMode { s with now := { s.now with tagName := s.now.tagName ++ [c] } } mode _

@[simp] theorem isRawText_inMode : (s.inMode mode).isRawText c rest = s.isRawText c rest := rfl

@[simp] theorem closeTag_inMode : (s.inMode mode).closeTag = s.closeTag.inMode mode := by
  simp [closeTag]

@[simp] theorem closeComment_inMode :
    (s.inMode mode).closeComment = s.closeComment.inMode mode := by
  simp [closeComment]

@[simp] theorem emptyValue_inMode : (s.inMode mode).emptyValue = s.emptyValue.inMode mode := by
  simp [emptyValue]

theorem ite_inMode {p : Prop} [Decidable p] (s s' : Step) :
    (if p then s else s').inMode mode = if p then s.inMode mode else s'.inMode mode :=
  apply_ite (Step.inMode · mode) p s s'

@[simp] theorem commentText_inMode (dashes : List Char) :
    (s.inMode mode).commentText dashes c = (s.commentText dashes c).inMode mode := by
  unfold commentText
  split <;> simp

@[simp] theorem attributeName_inMode :
    (s.inMode mode).attributeName c = (s.attributeName c).inMode mode := by
  simp [attributeName, ite_inMode]

@[simp] theorem beforeAttributeName_inMode :
    (s.inMode mode).beforeAttributeName c = (s.beforeAttributeName c).inMode mode := by
  simp [beforeAttributeName, ite_inMode]

theorem valueText_inMode (h : c = '&' → Reference.decode? rest = none) :
    (s.inMode mode).valueText c rest = (s.valueText c rest).inMode mode := by
  simp [valueText, decode_eq h]

theorem data_inMode
    (h : s.now.tagName ∉ verbatimElements → c = '&' → Reference.decode? rest = none) :
    (s.inMode mode).data c rest = (s.data c rest).inMode mode := by
  by_cases hverbatim : s.now.tagName ∈ verbatimElements
  · simp [data, hverbatim, ite_inMode]
  · simp [data, hverbatim, ite_inMode, decode_eq (h hverbatim)]

theorem beforeData_inMode (hline : c = '\n' → s.now.tagName ∉ preformattedElements)
    (href : s.now.tagName ∉ verbatimElements → c = '&' → Reference.decode? rest = none) :
    (s.inMode mode).beforeData c rest = (s.beforeData c rest).inMode mode := by
  have hline' (mode : Mode) :
      (mode == .precompile && decide (c = '\n') && preformattedElements.contains s.now.tagName)
        = false := by
    by_cases hc : c = '\n'
    · simp [hline hc]
    · simp [hc]
  have hdata := ((s.become .data).emitHere .beginData).data_inMode mode c rest href
  simp only [beforeData, isRawText_inMode, tagName_inMode, hline', ite_inMode, Bool.false_eq_true,
    ↓reduceIte, openTag_inMode, become_inMode, read_inMode, emitHere_inMode, hdata]

end Step

/-- The mode makes no difference to a character that starts no reference and is not the newline
after certain tags. -/
theorem Tokenizer.step_inMode (t : Tokenizer) (mode : Mode) (c : Char) (rest : List Char)
    (hline : t.state = .beforeData → c = '\n' → t.tagName ∉ preformattedElements)
    (href : t.readsReferences = true → c = '&' → Reference.decode? rest = none) :
    (t.inMode mode).step c rest = (t.step c rest).inMode mode := by
  have hstep : ({ now := t.inMode mode } : Step) = Step.inMode { now := t } mode := rfl
  unfold step
  rw [show (t.inMode mode).state = t.state from rfl]
  simp only [hstep]
  split
  all_goals rename_i hstate
  all_goals simp only [readsReferences, hstate] at hline href
  case h_1 =>
    refine Step.beforeData_inMode _ mode c rest (hline trivial) fun hverbatim => href ?_
    simpa using hverbatim
  case h_2 =>
    refine Step.data_inMode _ mode c rest fun hverbatim => href ?_
    simpa using hverbatim
  case h_16 =>
    have hvalue := Step.valueText_inMode
      (((Step.mk t 0 []).become .attributeValueUnquoted).emitHere (.beginAttributeValue false))
      mode c rest (href trivial)
    simp [Step.beforeAttributeValue, Step.ite_inMode, hvalue]
  case h_17 | h_18 =>
    simp [Step.quotedValue, Step.ite_inMode, Step.valueText_inMode _ mode c rest (href trivial)]
  case h_19 =>
    simp [Step.unquotedValue, Step.ite_inMode, Step.valueText_inMode _ mode c rest (href trivial)]
  all_goals
    simp [Step.tagOpen, Step.markupDeclarationOpen, Step.commentStart, Step.commentStartDash,
      Step.comment, Step.commentEndDash, Step.commentEnd, Step.tagName, Step.endTagOpen,
      Step.endTagName, Step.afterAttributeName, Step.afterAttributeValueQuoted,
      Step.selfClosingStartTag, Step.ite_inMode]

/-- The characters that may end a text or an attribute value. -/
def breaking : List Char :=
  ['<', '>', '/', '"', '\'', ' ', '\t', '\n', '\r', '\x0c']

namespace Reference

private theorem plain_of_all {p : Char → Bool} (hp : breaking.any p = false) {cs : List Char}
    (h : cs.all p = true) : ∀ c ∈ cs, c ∉ breaking := by
  intro c hc hbreak
  have hpc := List.all_eq_true.mp h c hc
  exact List.any_eq_false.mp hp c hbreak hpc

private theorem numeric?_plain {digits : List Char} {d : Char} (h : numeric? digits = some d) :
    ∀ c ∈ digits, c ∉ breaking := by
  unfold numeric? at h
  split at h
  · cases h
  · rename_i x ds
    split at h
    · rename_i hx
      split at h
      · rename_i hds
        have hrest := plain_of_all (by decide) (Bool.and_eq_true_iff.mp hds).2
        have hfirst : x ∉ breaking := by
          rcases Bool.or_eq_true_iff.mp hx with hx | hx
          all_goals
            rw [of_decide_eq_true hx]
            decide
        exact List.forall_mem_cons.mpr ⟨hfirst, hrest⟩
      · cases h
    · split at h
      · rename_i hall
        exact plain_of_all (by decide) hall
      · cases h

theorem body?_plain {body : List Char} {d : Char} (h : body? body = some d) :
    ∀ c ∈ body, c ∉ breaking := by
  unfold body? at h
  split at h
  · exact List.forall_mem_cons.mpr ⟨by decide, numeric?_plain h⟩
  · obtain ⟨before, after, hnamed, -⟩ := List.lookup_eq_some_iff.mp h
    have hplain : named.any (·.1.any breaking.contains) = false := by decide
    have hentry : (body, d) ∈ named := hnamed ▸ List.mem_append_right _ List.mem_cons_self
    have hbody := List.any_eq_false.mp hplain (body, d) hentry
    intro c hc hbreak
    exact hbody (List.any_eq_true.mpr ⟨c, hc, List.contains_iff_mem.mpr hbreak⟩)

theorem decode?_body {body : List Char} (hlength : body.length < maxLength)
    (hsemicolon : ';' ∉ body) (more : List Char) :
    decode? (body ++ ';' :: more) = (body? body).map fun c => (c, body.length + 1) := by
  have htake : (body ++ ';' :: more).take maxLength
      = body ++ ';' :: more.take (maxLength - body.length - 1) := by
    obtain ⟨k, hk⟩ := Nat.exists_eq_add_of_lt hlength
    rw [hk, List.take_append]
    simp [List.take_of_length_le (show body.length ≤ body.length + k + 1 by omega),
      show body.length + k + 1 - body.length = k + 1 by omega]
  have hwhile : ((body ++ ';' :: more).take maxLength).takeWhile (· != ';') = body := by
    rw [htake, List.takeWhile_append_of_pos, List.takeWhile_cons_of_neg (by simp),
      List.append_nil]
    intro c hc
    simpa using fun hc' : c = ';' => hsemicolon (hc' ▸ hc)
  unfold decode?
  dsimp only
  rw [hwhile, if_pos]
  simp only [List.length_append, List.length_cons]
  omega

theorem decode?_eq_some {cs : List Char} {d : Char} {n : Nat} :
    decode? cs = some (d, n) ↔ ∃ body, body? body = some d ∧ n = body.length + 1
      ∧ body.length < maxLength ∧ ';' ∉ body ∧ body ++ [';'] <+: cs := by
  have hsplit := List.takeWhile_append_dropWhile (p := (· != ';')) (l := cs.take maxLength)
  constructor
  · intro h
    unfold decode? at h
    dsimp only at h
    split at h
    · rename_i hlt
      obtain ⟨d', hbody, hd⟩ := Option.map_eq_some_iff.mp h
      cases hd
      refine ⟨_, hbody, rfl, by omega, fun hmem => ?_, ?_⟩
      · simpa using List.all_eq_true.mp List.all_takeWhile _ hmem
      · cases hrest : (cs.take maxLength).dropWhile (· != ';') with
        | nil =>
          rw [hrest, List.append_nil] at hsplit
          rw [hsplit, List.length_take] at hlt
          exact absurd hlt (Nat.lt_irrefl _)
        | cons c more =>
          have hc : c = ';' := by
            have hnot := List.head_dropWhile_not (· != ';')
              (by rw [hrest]; exact List.cons_ne_nil c more)
            simpa [hrest] using hnot
          rw [hrest, hc] at hsplit
          refine List.IsPrefix.trans ⟨more, ?_⟩ (List.take_prefix maxLength cs)
          rw [List.append_assoc]
          exact hsplit
    · cases h
  · rintro ⟨body, hbody, rfl, hlength, hsemicolon, more, rfl⟩
    rw [List.append_assoc, List.singleton_append, decode?_body hlength hsemicolon, hbody]
    rfl

theorem decode?_plain {cs : List Char} {d : Char} {n : Nat} (h : decode? cs = some (d, n)) :
    ∀ c ∈ cs.take n, c ∉ breaking := by
  obtain ⟨body, hbody, rfl, -, -, hstarts⟩ := decode?_eq_some.mp h
  rw [show body.length + 1 = (body ++ [';']).length by simp, ← List.prefix_iff_eq_take.mp hstarts]
  exact List.forall_mem_append.mpr ⟨body?_plain hbody, by simp [breaking]⟩

end Reference

def State.readsText : State → Bool
  | beforeData | data | beforeAttributeValue | attributeValueDoubleQuoted
  | attributeValueSingleQuoted | attributeValueUnquoted => true
  | _ => false

/-- The state in which a text goes on. -/
def State.reading : State → State
  | beforeData => data
  | beforeAttributeValue => attributeValueUnquoted
  | s => s

def State.textEvent (s : State) (text : List Char) (l : Location) : Event :=
  if s.isAttributeValue then .attributeValue text l else .data text

def State.textEvents (s : State) (p : Position) : List Char → List Event
  | [] => []
  | c :: cs => s.textEvent [c] ⟨p, p.next c⟩ :: s.textEvents (p.next c) cs

namespace Tokenizer

/-- What is reported of the beginning of a text. -/
def begins (t : Tokenizer) : List Event :=
  match t.state with
  | .beforeData => [.beginData t.position]
  | .beforeAttributeValue => [.beginAttributeValue false t.position]
  | _ => []

/-- The machine after some of a text. -/
def readOn (t : Tokenizer) (cs : List Char) : Tokenizer :=
  { t with state := t.state.reading, position := t.position.after cs }

variable {t : Tokenizer}

theorem step_reference (hmode : t.mode = .precompile) (hreads : t.readsReferences = true)
    {rest : List Char} {d : Char} {n : Nat} (h : Reference.decode? rest = some (d, n)) :
    (t.step '&' rest).ahead = n
      ∧ (t.step '&' rest).now = t.readOn ('&' :: rest.take n)
      ∧ (t.step '&' rest).emitted.map (·.event) = t.begins
        ++ [t.state.reading.textEvent [d] ⟨t.position, t.position.after ('&' :: rest.take n)⟩] := by
  have hlength : (rest.take n).length = n := by
    rw [List.length_take, Nat.min_eq_left (Reference.decode?_le h)]
  have hdecode (s : Step) (hs : s.now.mode = .precompile) :
      s.decode '&' rest = ([d], s.readAhead (rest.take n)) := by
    simp [Step.decode, hs, h]
  obtain ⟨mode, state, position, tagStart, tagName⟩ := t
  obtain rfl : mode = .precompile := hmode
  cases state <;> try cases hreads
  case data =>
    have hverbatim : tagName ∉ verbatimElements := by simpa [readsReferences] using hreads
    simp [step, Step.data, hverbatim, hdecode, hlength, Step.readAhead, Step.emit, Step.read,
      readOn, begins, State.reading, State.textEvent, State.isAttributeValue]
  case beforeData =>
    have hverbatim : tagName ∉ verbatimElements := by simpa [readsReferences] using hreads
    simp [step, Step.beforeData, Step.data, hverbatim, hdecode, hlength, Step.readAhead, Step.emit,
      Step.emitHere, Step.become, Step.read, readOn, begins, State.reading, State.textEvent,
      State.isAttributeValue]
  all_goals
    simp [step, Step.beforeAttributeValue, Step.quotedValue, Step.unquotedValue, Step.valueText,
      isSpace, hdecode, hlength, Step.readAhead, Step.emit, Step.emitHere, Step.become, Step.read,
      readOn, begins, State.reading, State.textEvent, State.isAttributeValue]

theorem step_plain (hmode : t.mode = .codemod) (hreads : t.state.readsText = true) {c : Char}
    (hc : c ∉ breaking) (rest : List Char) :
    (t.step c rest).ahead = 0 ∧ (t.step c rest).now = t.readOn [c]
      ∧ (t.step c rest).emitted.map (·.event)
        = t.begins ++ [t.state.reading.textEvent [c] ⟨t.position, t.position.next c⟩] := by
  have hdecode (s : Step) (hs : s.now.mode = .codemod) := Step.decode_codemod hs c rest
  have hne : c ≠ '<' ∧ c ≠ '>' ∧ c ≠ '/' ∧ c ≠ '"' ∧ c ≠ '\'' ∧ isSpace c = false := by
    simp only [breaking, List.mem_cons, not_or] at hc
    simp [isSpace, hc]
  obtain ⟨hlt, hgt, hslash, hquote, hquote', hspace⟩ := hne
  obtain ⟨mode, state, position, tagStart, tagName⟩ := t
  obtain rfl : mode = .codemod := hmode
  cases state <;> try cases hreads
  case data | beforeData =>
    by_cases hverbatim : tagName ∈ verbatimElements
    all_goals
      simp [step, Step.beforeData, Step.data, hlt, hverbatim, hdecode, Step.emit, Step.emitHere,
        Step.become, Step.read, readOn, begins, State.reading, State.textEvent,
        State.isAttributeValue]
  all_goals
    simp [step, Step.beforeAttributeValue, Step.quotedValue, Step.unquotedValue, Step.valueText,
      hgt, hslash, hquote, hquote', hspace, hdecode, Step.emit, Step.emitHere, Step.become,
      Step.read, readOn, begins, State.reading, State.textEvent, State.isAttributeValue]

theorem readOn_cons (t : Tokenizer) (c : Char) (cs : List Char) :
    (t.readOn [c]).readOn cs = t.readOn (c :: cs) := by
  obtain ⟨mode, state, position, tagStart, tagName⟩ := t
  cases state <;> rfl

theorem begins_readOn (t : Tokenizer) (cs : List Char) : (t.readOn cs).begins = [] := by
  obtain ⟨mode, state, position, tagStart, tagName⟩ := t
  cases state <;> rfl

theorem reading_readOn (t : Tokenizer) (cs : List Char) :
    (t.readOn cs).state.reading = t.state.reading := by
  obtain ⟨mode, state, position, tagStart, tagName⟩ := t
  cases state <;> rfl

theorem readsText_of_readsReferences (h : t.readsReferences = true) : t.state.readsText = true := by
  revert h
  unfold readsReferences
  cases t.state <;> simp [State.readsText]

private theorem readsText_readOn (h : t.state.readsText = true) (cs : List Char) :
    (t.readOn cs).state.readsText = true := by
  obtain ⟨mode, state, position, tagStart, tagName⟩ := t
  cases state <;> simp_all [State.readsText, readOn, State.reading]

/-- A text is read a step at a time. -/
theorem events_feed_cons (t : Tokenizer) (c : Char) (cs : List Char) :
    (t.feed (c :: cs)).1.map (·.event) = (t.step c cs).emitted.map (·.event)
        ++ ((t.step c cs).now.feed (cs.drop (t.step c cs).ahead)).1.map (·.event)
      ∧ (t.feed (c :: cs)).2 = ((t.step c cs).now.feed (cs.drop (t.step c cs).ahead)).2 := by
  rw [feed_cons]
  exact ⟨List.map_append, rfl⟩

private theorem feed_plain_cons (hmode : t.mode = .codemod) (hreads : t.state.readsText = true)
    {c : Char}
    (hc : c ∉ breaking) (rest : List Char) :
    (t.feed (c :: rest)).1.map (·.event)
        = t.begins ++ t.state.reading.textEvent [c] ⟨t.position, t.position.next c⟩
          :: ((t.readOn [c]).feed rest).1.map (·.event)
      ∧ (t.feed (c :: rest)).2 = ((t.readOn [c]).feed rest).2 := by
  obtain ⟨hahead, hnow, hevents⟩ := step_plain hmode hreads hc rest
  have hfeed := t.events_feed_cons c rest
  rw [hahead, hnow, hevents, List.append_assoc] at hfeed
  exact hfeed

private theorem feed_plain (hmode : t.mode = .codemod) (hreads : t.state.readsText = true)
    {c : Char}
    {cs : List Char} (hplain : ∀ x ∈ c :: cs, x ∉ breaking) (rest : List Char) :
    (t.feed (c :: cs ++ rest)).1.map (·.event)
        = t.begins ++ t.state.reading.textEvents t.position (c :: cs)
          ++ ((t.readOn (c :: cs)).feed rest).1.map (·.event)
      ∧ (t.feed (c :: cs ++ rest)).2 = ((t.readOn (c :: cs)).feed rest).2 := by
  induction cs generalizing c t with
  | nil =>
    obtain ⟨hevents, hlast⟩ := feed_plain_cons hmode hreads (hplain c List.mem_cons_self) rest
    exact ⟨by simpa [State.textEvents] using hevents, hlast⟩
  | cons d cs ih =>
    obtain ⟨hc, hcs⟩ := List.forall_mem_cons.mp hplain
    obtain ⟨hevents, hlast⟩ := feed_plain_cons hmode hreads hc (d :: cs ++ rest)
    obtain ⟨ihevents, ihlast⟩ := ih (t := t.readOn [c]) hmode (readsText_readOn hreads [c]) hcs
    rw [begins_readOn, reading_readOn, readOn_cons] at ihevents
    rw [readOn_cons] at ihlast
    rw [List.cons_append, hevents, hlast, ihevents, ihlast]
    exact ⟨by simp [State.textEvents, readOn], rfl⟩

theorem feed_reference (hmode : t.mode = .precompile) (hreads : t.readsReferences = true)
    {rest : List Char} {d : Char} {n : Nat} (h : Reference.decode? rest = some (d, n)) :
    ((t.inMode .codemod).feed ('&' :: rest)).1.map (·.event)
        = t.begins ++ t.state.reading.textEvents t.position ('&' :: rest.take n)
          ++ (((t.step '&' rest).now.inMode .codemod).feed (rest.drop n)).1.map (·.event)
      ∧ ((t.inMode .codemod).feed ('&' :: rest)).2
        = (((t.step '&' rest).now.inMode .codemod).feed (rest.drop n)).2 := by
  have hplain : ∀ x ∈ '&' :: rest.take n, x ∉ breaking :=
    List.forall_mem_cons.mpr ⟨by decide, Reference.decode?_plain h⟩
  have hfeed := feed_plain (t := t.inMode .codemod) rfl (readsText_of_readsReferences hreads)
    hplain (rest.drop n)
  rw [List.cons_append, List.take_append_drop] at hfeed
  rw [(step_reference hmode hreads h).2.1]
  exact hfeed

end Tokenizer

end HtmlTemplate.Html
