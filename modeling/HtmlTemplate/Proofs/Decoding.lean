import HtmlTemplate.Proofs.Agreement
import HtmlTemplate.Proofs.Document
import HtmlTemplate.Proofs.History
import HtmlTemplate.Proofs.OpenTags
import HtmlTemplate.Proofs.TextSteps

/-! Templates with their references decoded. Text that is read as a browser reads it is the text
as it is written with its references decoded, but for one right behind a `<` that begins no tag,
which is not read as a reference. -/

namespace HtmlTemplate

namespace Html

/-- What the text of an element is read as, given the name of the element. -/
def readText (parent : Option (List Char)) (chars : List Char) : List Char :=
  if parent.any verbatimElements.contains then chars
  else if ['<', '&'].isPrefixOf chars && !parent.any rawElements.contains then
    chars.take 2 ++ decodeRefs (chars.drop 2)
  else decodeRefs chars

section
variable {parent : Option (List Char)}

theorem readText_verbatim (h : parent.any verbatimElements.contains = true) (chars : List Char) :
    readText parent chars = chars := by
  rw [readText, if_pos h]

theorem readText_cons (h : parent.any verbatimElements.contains = false) {c : Char}
    (hc : c = '<' → parent.any rawElements.contains = true) (cs : List Char) :
    readText parent (c :: cs) = decodeRefs (c :: cs) := by
  rw [readText, if_neg (by simp [h]), if_neg]
  intro hbracket
  obtain ⟨hstarts, hraw⟩ := Bool.and_eq_true_iff.mp hbracket
  obtain ⟨rfl, -⟩ := List.cons_prefix_cons.mp (List.isPrefixOf_iff_prefix.mp hstarts)
  simp [hc rfl] at hraw

private theorem verbatim_of_not_raw (h : parent.any rawElements.contains = false) :
    parent.any verbatimElements.contains = false := by
  have hsubset : ∀ name ∈ verbatimElements, name ∈ rawElements := by decide +kernel
  simp only [Option.any_eq_false, List.contains_eq_mem, decide_eq_false_iff_not] at h ⊢
  exact fun name hname hverbatim => h name hname (hsubset name hverbatim)

theorem readText_bracket (h : parent.any rawElements.contains = false) (c : Char)
    (cs : List Char) : readText parent ('<' :: c :: cs) = '<' :: c :: decodeRefs cs := by
  rw [readText, if_neg (by simp [verbatim_of_not_raw h])]
  by_cases hc : c = '&'
  · subst hc
    rw [if_pos (by simp [h])]
    rfl
  · rw [if_neg (by simpa using fun hstarts => absurd hstarts.symm hc), decodeRefs_cons (by simp),
      decodeRefs_cons fun hc' => absurd hc' hc]

end

def Tokenizer.decoded (t : Tokenizer) (cs : List Char) : List Char :=
  if t.readsReferences then decodeRefs cs else cs

end Html

namespace Tree

open Html (Event Scribe TagHead Tokenizer Broken decodeRefs readText rawElements verbatimElements
  preformattedElements)

def decoding : Rewording where
  text := readText
  value := decodeRefs
  text_nil parent := by
    unfold readText
    split <;> rfl
  value_nil := rfl

def Hears (src : Source) (t : Tokenizer) (rest : List Char) (m n : Markup) : Prop :=
  ∀ cs more, cs ≠ [] → rest = cs ++ more → Broken more →
    m.receive src (t.state.reading.textEvent (t.decoded cs) ⟨t.position, t.position.after cs⟩)
      = (n.receive src (t.state.reading.textEvent cs ⟨t.position, t.position.after cs⟩)).map
        (Markup.reword decoding)

/-- Two trees put together in the two modes, with a text left to read: they differ in references,
and inside a text it is what comes next that decides. -/
structure Decodes (src : Source) (t : Tokenizer) (rest : List Char) (m n : Markup) : Prop where
  same : (t.state.holdsText = true → Broken rest) → m = n.reword decoding
  hears : t.state.holdsText = true → Hears src t rest m n

section

variable {src : Source} {t : Tokenizer} {c : Char} {cs read rest chars : List Char} {m n : Markup}

@[simp] theorem decoded_nil (t : Tokenizer) : t.decoded [] = [] := by
  simp [Tokenizer.decoded]

private theorem decoded_readOn (t : Tokenizer) (read : List Char) :
    (t.readOn read).decoded = t.decoded := by
  obtain ⟨mode, state, position, tagStart, tagName⟩ := t
  cases state <;> rfl

private theorem holdsText_readOn (h : t.state.readsText = true) (read : List Char) :
    (t.readOn read).state.holdsText = true := by
  obtain ⟨mode, state, position, tagStart, tagName⟩ := t
  cases state
  all_goals first | rfl | cases h

theorem Hears.readOn (h : Hears src t (read ++ rest) m n) (hreads : t.state.readsText = true)
    (hread : read ≠ [])
    (hdecoded : ∀ cs more, rest = cs ++ more → Broken more →
      t.decoded (read ++ cs) = chars ++ t.decoded cs) :
    Agree (Decodes src (t.readOn read) rest)
      (m.receive src (t.state.reading.textEvent chars ⟨t.position, t.position.after read⟩))
      (n.receive src (t.state.reading.textEvent read ⟨t.position, t.position.after read⟩)) := by
  have hjoin (m : Markup) (chars cs : List Char) (q : Position) :=
    m.receive_textEvent src t.state.reading chars cs t.position (t.position.after read) q
  obtain ⟨m', hm, -⟩ := hjoin m chars [] (t.position.after read)
  obtain ⟨n', hn, -⟩ := hjoin n read [] (t.position.after read)
  rw [hm, hn]
  refine .ok ⟨fun hbroken => ?_, fun _ cs more hcs hrest hbroken => ?_⟩
  · have hends := hbroken (holdsText_readOn hreads read)
    have hall := h read rest hread rfl hends
    have hchars := hdecoded [] rest rfl hends
    rw [List.append_nil, decoded_nil, List.append_nil] at hchars
    rw [hchars, hm, hn] at hall
    exact Except.ok.inj hall
  · have hall := h (read ++ cs) more (by simp [hread]) (by rw [hrest, List.append_assoc]) hbroken
    rw [hdecoded cs more hrest hbroken, Position.after_append] at hall
    obtain ⟨m'', hm', hmjoin⟩ := hjoin m chars (t.decoded cs) ((t.position.after read).after cs)
    obtain ⟨n'', hn', hnjoin⟩ := hjoin n read cs ((t.position.after read).after cs)
    obtain rfl := Except.ok.inj (hm.symm.trans hm')
    obtain rfl := Except.ok.inj (hn.symm.trans hn')
    rw [← hmjoin, ← hnjoin] at hall
    rw [decoded_readOn, Html.Tokenizer.reading_readOn]
    exact hall

def Parented (t : Tokenizer) (m : Markup) : Prop :=
  ∀ name ∈ rawElements, t.tagName = name ↔ m.names.head? = some name

theorem Parented.any_eq (h : Parented t m) (names : List (List Char))
    (hnames : ∀ name ∈ names, name ∈ rawElements) :
    m.names.head?.any names.contains = names.contains t.tagName := by
  rw [Bool.eq_iff_iff, Option.any_eq_true]
  simp only [List.contains_iff_mem]
  constructor
  · rintro ⟨name, hhead, hname⟩
    exact (h name (hnames name hname)).mpr hhead ▸ hname
  · exact fun hname => ⟨_, (h _ (hnames _ hname)).mp rfl, hname⟩

theorem Markup.names_reword (w : Rewording) (m : Markup) : (m.reword w).names = m.names :=
  openNames_rewordFrames m.stack.frames

theorem Parented.readText_eq (h : Parented t m) (hstate : t.state = .beforeData)
    (hbracket : c = '<' → t.tagName ∈ rawElements) (cs : List Char) :
    readText m.names.head? (c :: cs) = t.decoded (c :: cs) := by
  have hverbatim := h.any_eq verbatimElements (by decide +kernel)
  have hraw := h.any_eq rawElements fun _ hname => hname
  by_cases hname : t.tagName ∈ verbatimElements
  · rw [Html.readText_verbatim (by simpa [hverbatim] using hname)]
    simp [Tokenizer.decoded, Tokenizer.readsReferences, hstate, hname]
  · rw [Html.readText_cons (by simpa [hverbatim] using hname)
      (fun hc => by simpa [hraw] using hbracket hc)]
    simp [Tokenizer.decoded, Tokenizer.readsReferences, hstate, hname]

theorem hears_beginValue (hvalue : t.state.reading.isAttributeValue = true) (n : Markup)
    (quoted : Bool) (start : Nat) :
    Hears src t rest ((n.reword decoding).beginValue quoted start) (n.beginValue quoted start) := by
  have hdecoded : t.decoded = decodeRefs := by
    funext chars
    revert hvalue
    unfold Tokenizer.decoded Tokenizer.readsReferences
    cases t.state <;> simp [Html.State.reading, Html.State.isAttributeValue]
  intro chars _ _ _ _
  rw [hdecoded, Html.State.textEvent, if_pos hvalue, Html.State.textEvent, if_pos hvalue]
  obtain ⟨stack, current, _ | a⟩ := n
  · rfl
  · rfl

theorem Decodes.begins (h : Decodes src t (c :: cs) m n) (hreads : t.state.readsText = true)
    (hparent : t.state = .beforeData → Parented t m)
    (hbracket : t.state = .beforeData → c = '<' → t.tagName ∈ rawElements) :
    Agree (Hears src t (c :: cs)) (t.begins.foldlM (Markup.receive src) m)
      (t.begins.foldlM (Markup.receive src) n) := by
  cases hholds : t.state.holdsText with
  | true =>
    have hbegins : t.begins = [] := by
      revert hholds
      unfold Tokenizer.begins
      cases t.state <;> simp [Html.State.holdsText, Html.State.isAttributeValue]
    rw [hbegins]
    exact .ok (h.hears hholds)
  | false =>
    obtain rfl := h.same fun hholds' => Bool.noConfusion (hholds.symm.trans hholds')
    cases hstate : t.state
    case beforeData =>
      have hparent := hparent hstate
      unfold Tokenizer.begins
      rw [hstate]
      refine .ok fun chars _ hne hrest _ => ?_
      obtain ⟨d, ds, rfl⟩ := List.exists_cons_of_ne_nil hne
      obtain ⟨rfl, -⟩ := List.cons.inj hrest
      have hread := hparent.readText_eq hstate (hbracket hstate) ds
      rw [Markup.names_reword] at hread
      rw [hstate, ← hread]
      rfl
    case beforeAttributeValue =>
      unfold Tokenizer.begins
      rw [hstate]
      exact .ok (hears_beginValue (by rw [hstate]; rfl) n false _)
    all_goals simp [hstate, Html.State.holdsText, Html.State.readsText,
      Html.State.isAttributeValue] at hholds hreads

private theorem decoded_cons {more : List Char}
    (href : t.readsReferences = true → c = '&' → Html.Reference.decode? (cs ++ more) = none)
    (hmore : Broken more) : t.decoded (c :: cs) = c :: t.decoded cs := by
  unfold Tokenizer.decoded
  split
  · rename_i hreads
    refine Html.decodeRefs_cons fun hc => ?_
    rw [← Html.Reference.decode?_broken hmore]
    exact href hreads hc
  · rfl

private theorem decoded_reference {d : Char} {k : Nat} {more : List Char}
    (hreads : t.readsReferences = true) (h : Html.Reference.decode? rest = some (d, k))
    (hrest : rest.drop k = cs ++ more) (hmore : Broken more) :
    t.decoded ('&' :: rest.take k ++ cs) = [d] ++ t.decoded cs := by
  have hlength : (rest.take k).length = k := by
    rw [List.length_take, Nat.min_eq_left (Html.Reference.decode?_le h)]
  have hsplit : rest = rest.take k ++ cs ++ more := by
    rw [List.append_assoc, ← hrest, List.take_append_drop]
  have hdecode : Html.Reference.decode? (rest.take k ++ cs) = some (d, k) := by
    rw [← Html.Reference.decode?_broken hmore, ← hsplit, h]
  rw [Tokenizer.decoded, Tokenizer.decoded, if_pos hreads, if_pos hreads, List.cons_append,
    Html.decodeRefs_reference hdecode, List.drop_left' hlength]
  rfl

private theorem decodes_bracket (hstate : t.state = .data) (hname : t.tagName ∉ rawElements)
    (hparent : ∀ name ∈ rawElements, n.names.head? ≠ some name) (start : Nat) :
    Decodes src t cs { n.reword decoding with current := some (.text ['<', c] start) }
      { n with current := some (.text ['<', c] start) } := by
  have hraw : n.names.head?.any rawElements.contains = false := by
    simpa [Option.any_eq_false] using fun name hhead hraw => hparent name hraw hhead
  have hread (chars : List Char) :
      readText n.names.head? ('<' :: c :: chars) = '<' :: c :: t.decoded chars := by
    have hverbatim : t.tagName ∉ verbatimElements := fun hmem =>
      hname ((by decide +kernel : ∀ name ∈ verbatimElements, name ∈ rawElements) _ hmem)
    rw [Html.readText_bracket hraw]
    simp [Tokenizer.decoded, Tokenizer.readsReferences, hstate, hverbatim]
  refine ⟨fun _ => ?_, fun _ chars _ _ _ _ => ?_⟩
  · have hnone := hread []
    rw [decoded_nil] at hnone
    show _ = Markup.mk _ (some (.text (readText n.names.head? ['<', c]) start)) _
    rw [hnone]
    rfl
  · rw [hstate]
    show _ = Except.ok (Markup.mk _
      (some (.text (readText n.names.head? ('<' :: c :: chars)) start)) _)
    rw [hread]
    rfl

theorem Decodes.step (hmode : t.mode = .codemod) (h : Decodes src t (c :: cs) m n)
    (hparent : t.state = .beforeData → Parented t m)
    (hopens : t.state = .tagOpen → c ≠ '/' →
      t.tagName ∉ rawElements ∧ ∀ name ∈ rawElements, m.names.head? ≠ some name)
    (href : t.readsReferences = true → c = '&' → Html.Reference.decode? cs = none) :
    Agree (Decodes src (t.step c cs).now (cs.drop (t.step c cs).ahead))
      ((t.step c cs).events.foldlM (Markup.receive src) m)
      ((t.step c cs).events.foldlM (Markup.receive src) n) := by
  have htext := t.step_text hmode c cs
  generalize t.step c cs = s at *
  cases htext with
  | reads hreads hbracket hahead hnow hevents =>
    rw [hahead, hnow, hevents, List.foldlM_append, List.foldlM_append]
    refine (h.begins hreads hparent hbracket).bind fun _ _ hears => ?_
    simp only [List.foldlM_cons, List.foldlM_nil, bind_pure]
    have hreading : Hears src t ([c] ++ cs) _ _ := hears
    refine hreading.readOn hreads (List.cons_ne_nil c []) fun ds more hcs hmore => ?_
    exact decoded_cons (hcs ▸ href) hmore
  | bracket hstate hslash hahead hnow hevents =>
    obtain rfl := h.same fun hholds => by simp [hstate, Html.State.holdsText,
      Html.State.isAttributeValue] at hholds
    obtain ⟨hname, hnames⟩ := hopens hstate hslash
    rw [hevents]
    exact .ok (decodes_bracket (by rw [hnow]) (by rwa [hnow])
      (by rwa [Markup.names_reword] at hnames) _)
  | @quotes p hholds hahead hstate hevents =>
    obtain rfl := h.same fun hholds' => Bool.noConfusion (hholds.symm.trans hholds')
    rw [hevents]
    refine .ok ⟨fun _ => (n.beginValue_reword true (src.offsetFor p)).symm, fun _ => ?_⟩
    refine hears_beginValue ?_ n true (src.offsetFor p)
    revert hstate
    cases s.now.state <;> simp [Html.State.reading, Html.State.isAttributeValue]
  | rests hbreaks hstate hsilent =>
    obtain rfl := h.same fun hholds => Html.broken_cons.mpr (hbreaks hholds)
    have hsilent : ∀ e ∈ s.events, e.isText = false := by
      simpa [Html.Step.isSilent] using hsilent
    rw [n.foldlM_receive_reword src hsilent]
    cases s.events.foldlM (Markup.receive src) n with
    | error e => exact .error e
    | ok n' => exact .ok ⟨fun _ => rfl, fun hholds => Bool.noConfusion (hstate.symm.trans hholds)⟩

theorem Decodes.reference (h : Decodes src t ('&' :: cs) m n) (hmode : t.mode = .precompile)
    (hreads : t.readsReferences = true) (hparent : t.state = .beforeData → Parented t m) {d : Char}
    {k : Nat} (hdecode : Html.Reference.decode? cs = some (d, k)) :
    Agree (Decodes src (t.step '&' cs).now (cs.drop (t.step '&' cs).ahead))
      ((t.step '&' cs).events.foldlM (Markup.receive src) m)
      ((t.begins ++ t.state.reading.textEvents t.position ('&' :: cs.take k)).foldlM
        (Markup.receive src) n) := by
  obtain ⟨hahead, hnow, hevents⟩ := Html.Tokenizer.step_reference hmode hreads hdecode
  have hreadsText := Html.Tokenizer.readsText_of_readsReferences hreads
  rw [Html.Step.events, hahead, hnow, hevents, List.foldlM_append, List.foldlM_append]
  refine (h.begins hreadsText hparent fun _ hc => by simp at hc).bind fun _ _ hears => ?_
  simp only [List.foldlM_cons, List.foldlM_nil, bind_pure, Markup.foldlM_textEvents]
  rw [← List.take_append_drop k cs, ← List.cons_append] at hears
  refine hears.readOn hreadsText (List.cons_ne_nil _ _) fun ds more hcs hmore => ?_
  exact decoded_reference hreads hdecode hcs hmore

theorem decodes_inMode {mode : Html.Mode} :
    Decodes src (t.inMode mode) rest m n ↔ Decodes src t rest m n :=
  ⟨fun h => ⟨h.same, h.hears⟩, fun h => ⟨h.same, h.hears⟩⟩

def PlainTags (ts : List Html.Token) : Prop :=
  ∀ tag, .startTag tag ∈ ts →
    tag.name ∉ preformattedElements ∧ (tag.name ∈ rawElements → tag.selfClosing = false)

theorem PlainTags.of_isPrefix {ts ts' : List Html.Token} (h : PlainTags ts') (hts : ts <+: ts') :
    PlainTags ts :=
  fun tag hmem => h tag (hts.subset hmem)

variable {r : Scribe}

theorem Attuned.parented (h : Attuned t m r rest) (htags : PlainTags r.done)
    (hdata : t.state.isData = true) : Parented t m := by
  intro name hraw
  rw [h.tagName_eq_iff hdata hraw, or_iff_left]
  intro hlast
  obtain ⟨tag, hmem, rfl, hclosing⟩ := Html.startTag_of_lastTag? hlast
  exact Bool.noConfusion (((htags tag hmem).2 hraw).symm.trans hclosing)

theorem Attuned.not_preformatted (h : Attuned t m r rest) (htags : PlainTags r.done)
    (hdata : t.state.isData = true) : t.tagName ∉ preformattedElements := by
  intro hname
  have hnonempty : t.tagName ≠ [] := by
    intro hnone
    rw [hnone] at hname
    exact absurd hname (by decide)
  have hout : t.state.isTag = false := by
    revert hdata
    cases t.state <;> simp [Html.State.isData, Html.State.isTag, Html.State.isInTag]
  obtain ⟨b, hlast⟩ := h.name.last_eq hout hnonempty
  obtain ⟨tag, hmem, htag, -⟩ := Html.startTag_of_lastTag? hlast
  exact (htags tag hmem).1 (htag ▸ hname)

theorem Decodes.next (h : Decodes src t (c :: cs) m n) (hmode : t.mode = .precompile)
    (hattuned : Attuned t m r (c :: cs)) (htags : PlainTags r.done) :
    ∃ es, Agree (Decodes src (t.step c cs).now (cs.drop (t.step c cs).ahead))
        ((t.step c cs).events.foldlM (Markup.receive src) m) (es.foldlM (Markup.receive src) n)
      ∧ ((t.inMode .codemod).feed (c :: cs)).1.map (·.event) = es
        ++ (((t.step c cs).now.inMode .codemod).feed (cs.drop (t.step c cs).ahead)).1.map (·.event)
      ∧ ((t.inMode .codemod).feed (c :: cs)).2
        = (((t.step c cs).now.inMode .codemod).feed (cs.drop (t.step c cs).ahead)).2 := by
  have hparent (hstate : t.state = .beforeData) : Parented t m :=
    hattuned.parented htags (by rw [hstate]; rfl)
  by_cases href : t.readsReferences = true ∧ c = '&'
      ∧ (Html.Reference.decode? cs).isSome = true
  · obtain ⟨hreads, rfl, hsome⟩ := href
    obtain ⟨⟨d, k⟩, hdecode⟩ := Option.isSome_iff_exists.mp hsome
    refine ⟨_, h.reference hmode hreads hparent hdecode, ?_⟩
    rw [(Html.Tokenizer.step_reference hmode hreads hdecode).1]
    exact Html.Tokenizer.feed_reference hmode hreads hdecode
  · have hplain : t.readsReferences = true → c = '&' → Html.Reference.decode? cs = none := by
      intro hreads hc
      simpa [hreads, hc] using href
    have hother := (t.inMode .codemod).events_feed_cons c cs
    have hsame := t.step_inMode .codemod c cs
      (fun hstate _ => hattuned.not_preformatted htags (by rw [hstate]; rfl)) hplain
    rw [hsame, Html.Step.events_inMode] at hother
    refine ⟨_, ?_, hother⟩
    have hcodemod : Decodes src (t.inMode .codemod) (c :: cs) m n := decodes_inMode.mpr h
    have hstep := hcodemod.step rfl hparent
      (fun hstate hslash => hattuned.not_raw_tagOpen hstate hslash) hplain
    rw [hsame, Html.Step.events, Html.Step.events_inMode] at hstep
    exact hstep.mono fun _ _ => decodes_inMode.mp

theorem Decodes.feed (h : Decodes src t rest m n) (hmode : t.mode = .precompile)
    (hattuned : Attuned t m r rest)
    (htags : PlainTags (((t.feed rest).1.map (·.event)).foldl Scribe.record r).done) :
    Agree (fun m n => m = n.reword decoding
        ∧ ((t.inMode .codemod).feed rest).2 = (t.feed rest).2.inMode .codemod)
      (((t.feed rest).1.map (·.event)).foldlM (Markup.receive src) m)
      ((((t.inMode .codemod).feed rest).1.map (·.event)).foldlM (Markup.receive src) n) := by
  -- a reference is read in one step in one mode only, so the induction is on the text
  induction hlength : rest.length using Nat.strongRecOn generalizing t m n r rest with
  | _ length ih =>
    cases rest with
    | nil => exact .ok ⟨h.same fun _ => Html.broken_nil, rfl⟩
    | cons c cs =>
      have hlt : (cs.drop (t.step c cs).ahead).length < length := by
        rw [← hlength, List.length_drop, List.length_cons]
        omega
      have hbefore : PlainTags r.done := by
        obtain ⟨_, hmoves⟩ := t.feed_moves .start (c :: cs)
        exact htags.of_isPrefix (r.done_isPrefix_foldl hmoves.reset_not_mem)
      obtain ⟨hevents, hlast⟩ := t.events_feed_cons c cs
      obtain ⟨es, hstep, hevents', hlast'⟩ := h.next hmode hattuned hbefore
      rw [hevents, List.foldl_append] at htags
      rw [hevents, hlast, hevents', hlast', List.foldlM_append, List.foldlM_append]
      refine hstep.bind fun hm _ hdecodes => ?_
      exact ih _ hlt hdecodes ((t.step_traced c cs).mode.trans hmode) (hattuned.step hm) htags rfl

private theorem finishData_inMode (t : Tokenizer) (mode : Html.Mode) :
    (t.inMode mode).finishData.1.map (·.event) = t.finishData.1.map (·.event)
      ∧ (t.inMode mode).finishData.2.state = t.finishData.2.state
      ∧ ∀ e ∈ t.finishData.1.map (·.event), e.isText = false := by
  unfold Tokenizer.finishData
  rw [show (t.inMode mode).state = t.state from rfl]
  split
  · exact ⟨rfl, rfl, List.forall_mem_singleton.mpr rfl⟩
  · exact ⟨rfl, rfl, List.forall_mem_nil _⟩

private theorem reports_decoding (src : Source) {text : List Char}
    (htags : PlainTags (Html.tokens (({ mode := .precompile } : Tokenizer).reports text))) :
    Agree (fun m n => m = n.reword decoding
        ∧ (({ mode := .codemod } : Tokenizer).feed text).2.finishData.2.state
          = (({ mode := .precompile } : Tokenizer).feed text).2.finishData.2.state)
      ((({ mode := .precompile } : Tokenizer).reports text).foldlM (Markup.receive src)
        (Assembly.initial .precompile).markup)
      ((({ mode := .codemod } : Tokenizer).reports text).foldlM (Markup.receive src)
        (Assembly.initial .codemod).markup) := by
  have hattuned := Attuned.moveTo (Assembly.inStep_initial .precompile) {} text
  have hdecodes : Decodes src { mode := .precompile } text (Assembly.initial .precompile).markup
      (Assembly.initial .codemod).markup :=
    ⟨fun _ => rfl, fun hholds => Bool.noConfusion hholds⟩
  have hfed : PlainTags (((({ mode := .precompile } : Tokenizer).feed text).1.map
      (·.event)).foldl Scribe.record {}).done := by
    refine htags.of_isPrefix ?_
    obtain ⟨_, hmoves⟩ := ({ mode := .precompile } : Tokenizer).reports_move text
    have hreset := hmoves.reset_not_mem
    rw [Tokenizer.reports, List.map_append] at hreset
    rw [Html.tokens, Tokenizer.reports, List.map_append, List.foldl_append]
    exact Scribe.done_isPrefix_foldl _ fun hmem => hreset (List.mem_append_right _ hmem)
  simp only [Tokenizer.reports, List.map_append, List.foldlM_append]
  refine (hdecodes.feed rfl hattuned hfed).bind fun {m n} _ _ hends => ?_
  obtain ⟨rfl, hlast⟩ := hends
  have hlast : (({ mode := .codemod } : Tokenizer).feed text).2
      = (({ mode := .precompile } : Tokenizer).feed text).2.inMode .codemod := hlast
  rw [hlast]
  generalize (({ mode := .precompile } : Tokenizer).feed text).2 = t
  obtain ⟨hevents, hstate, hsilent⟩ := finishData_inMode t .codemod
  rw [hevents, n.foldlM_receive_reword src hsilent]
  cases (t.finishData.1.map (·.event)).foldlM (Markup.receive src) n with
  | error e => exact .error e
  | ok n => exact .ok ⟨rfl, hstate⟩

theorem assemble_decoding (src : Source) (locals : List (List Char)) {text : List Char}
    (htags : PlainTags (Html.tokens (({ mode := .precompile } : Tokenizer).reports text))) :
    Agree (fun t t' => t = t'.reword decoding)
      (assemble src .precompile locals { body := Draft.contents .first text })
      (assemble src .codemod locals { body := Draft.contents .first text }) := by
  rw [assemble_contents_eq, assemble_contents_eq]
  refine (reports_decoding src htags).bind fun {m n} _ hn ⟨hsame, hstate⟩ => ?_
  subst hsame
  rw [hstate, n.finish_reword]
  refine (Agree.refl _).bind fun _ _ _ => ?_
  show Agree _ ((n.stack.reword decoding).popExpecting src 0 >>= _)
    (n.stack.popExpecting src 0 >>= _)
  rw [n.stack.popExpecting_reword]
  cases hpop : n.stack.popExpecting src 0 with
  | error e => exact .error e
  | ok popped =>
    obtain ⟨frame, stack⟩ := popped
    have hframes := (rooted_reports hn).of_popExpecting hpop
    generalize frame.children = children at hframes
    obtain ⟨⟨frames, nextId⟩, current, pending⟩ := n
    subst hframes
    cases hpop
    exact .ok rfl

end

end Tree

open Html (Tokenizer preformattedElements rawElements)

/-- A text without mustaches, in which no start tag drops a newline and no raw element closes
itself, gives the tree that is put together from the references as they are written, with the
references decoded: those in values, and those in texts but for raw elements and for a reference
right behind a `<` that begins a text. -/
theorem preprocess_decoding (text : List Char) (options : Options) (htext : ¬ ['{', '{'] <:+: text)
    (htags : ∀ tag, .startTag tag ∈ Html.tokens
        ((({ mode := .precompile } : Tokenizer).document text).1.map (·.event)) →
      tag.name ∉ preformattedElements ∧ (tag.name ∈ rawElements → tag.selfClosing = false)) :
    preprocess text { options with mode := .precompile }
      = (preprocess text { options with mode := .codemod }).map
        (Tree.Template.reword Tree.decoding) := by
  have hparse := Mustache.Unbraced.parse htext options.keepLines
  simp only [preprocess, hparse]
  exact (Tree.assemble_decoding ⟨text, options.moduleName⟩ options.locals htags).eq_map

/-- Three references, of which the last is right behind a `<`. -/
def bracketText : List Char :=
  ['<', 'p', ' ', 'a', '=', '"', '&', 'l', 't', ';', '"', '>', '&', 'a', 'm', 'p', ';', '<', '&',
    'g', 't', ';', '<', '/', 'p', '>']

theorem preprocess_decoding_bracket :
    preprocess bracketText {}
        = (preprocess bracketText { mode := .codemod }).map (Tree.Template.reword Tree.decoding)
      ∧ (preprocess bracketText {}).map (fun t => Tree.walkAll t.body)
        = .ok [.opens ['p'] [(['a'], some ['<'])] [] false, .text ['&'],
          .text ['<', '&', 'g', 't', ';'], .closes ['p']]
      ∧ Html.decodeRefs ['<', '&', 'g', 't', ';'] = ['<', '>'] := by
  have hbraces : ¬ ['{', '{'] <:+: bracketText := by decide
  have htags : ∀ tag, .startTag tag ∈ Html.tokens
      ((({ mode := .precompile } : Tokenizer).document bracketText).1.map (·.event)) →
        tag.name ∉ preformattedElements ∧ (tag.name ∈ rawElements → tag.selfClosing = false) := by
    have htokens : Html.tokens
        ((({ mode := .precompile } : Tokenizer).document bracketText).1.map (·.event))
          = [.startTag { name := ['p'], attributes := [(['a'], ['<'])] }, .text ['&'],
            .text ['<', '&', 'g', 't', ';'], .endTag { name := ['p'] }] := by decide +kernel
    rw [htokens]
    intro tag htag
    obtain rfl : tag = { name := ['p'], attributes := [(['a'], ['<'])] } := by simpa using htag
    exact ⟨by decide, fun _ => rfl⟩
  refine ⟨preprocess_decoding bracketText {} hbraces htags, ?_, by decide +kernel⟩
  simp only [preprocess, Mustache.Unbraced.parse hbraces]
  rfl

end HtmlTemplate
