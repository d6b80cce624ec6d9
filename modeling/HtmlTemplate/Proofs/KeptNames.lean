import HtmlTemplate.Proofs.Dashes
import HtmlTemplate.Proofs.Document
import HtmlTemplate.Proofs.History

/-! The name that is kept of the last start tag, and the text behind it. In a raw element a `<` is
text, and so it is after a raw element that closes itself; a newline is dropped after the start
tag of certain elements, and also where a comment or a mustache has come since. -/

namespace HtmlTemplate

namespace Html

theorem Step.state_data {s : Step} (hstate : s.now.state = .data) (c : Char) (rest : List Char) :
    (s.data c rest).now.state = if c = '<' && !s.isRawText c rest then .tagOpen else .data := by
  unfold Step.data
  by_cases hopens : (decide (c = '<') && !s.isRawText c rest) = true
  · rw [if_pos hopens, if_pos hopens]
    rfl
  · rw [if_neg hopens, if_neg hopens]
    split
    · exact hstate
    · obtain ⟨cs, -, hnow⟩ := Step.decode_moved (s.read c) c rest
      show ((s.read c).decode c rest).2.now.state = .data
      rw [hnow]
      exact hstate

theorem Tokenizer.step_bracket {t : Tokenizer} (hdata : t.state.isData = true)
    (rest : List Char) :
    (t.step '<' rest).now.state ≠ .tagOpen ↔ Step.isRawText { now := t } '<' rest = true := by
  have hread {s : Step} (hstate : s.now.state = .data) :
      (s.data '<' rest).now.state ≠ .tagOpen ↔ s.isRawText '<' rest = true := by
    rw [Step.state_data hstate]
    cases s.isRawText '<' rest <;> simp
  obtain ⟨mode, state, position, tagStart, tagName⟩ := t
  cases state with
  | data => exact hread rfl
  | beforeData =>
    show (Step.beforeData _ '<' rest).now.state ≠ _ ↔ _
    unfold Step.beforeData
    split
    · rename_i hopens
      simp_all [Step.read, Step.become]
    · rw [if_neg (by simp)]
      exact hread rfl
  | _ => cases hdata

end Html

open Html (endTag lastTag? preformattedElements rawElements tokens)
open HtmlTemplate.Tree (Glance)

variable {text : List Char} {options : Options} {g : Glance}

/-- Where text is read a `<` is text, and does not begin a tag, if and only if the innermost open
element is raw, or the last tag is that of a raw element that closes itself, and the end tag of
that element does not follow. -/
theorem bracket_isText_iff (h : Sees text options g) (hdata : g.tokenizer.state.isData = true)
    (hchar : g.char = '<') :
    g.step.now.state ≠ .tagOpen ↔
      ∃ name ∈ rawElements, ¬ endTag name <+: '<' :: g.rest
        ∧ (g.markup.names.head? = some name
          ∨ lastTag? (tokens g.heard) = some ⟨.start, name, true⟩) := by
  rw [Glance.step, hchar, Html.Tokenizer.step_bracket hdata]
  simp only [Html.Step.isRawText, Bool.and_eq_true, List.contains_iff_mem, Bool.not_eq_true',
    ← Bool.not_eq_true, List.isPrefixOf_iff_prefix]
  constructor
  · rintro ⟨hraw, hends⟩
    exact ⟨_, hraw, hends, (h.attuned.tagName_eq_iff hdata hraw).mp rfl⟩
  · rintro ⟨name, hraw, hends, hname⟩
    obtain rfl := (h.attuned.tagName_eq_iff hdata hraw).mpr hname
    exact ⟨hraw, hends⟩

theorem sees_first {c : Char} {cs : List Char} (h : ¬ ['{', '{'] <:+: c :: cs)
    (options : Options) :
    Sees (c :: cs) options
      ⟨{ mode := options.mode }, (Tree.Assembly.initial options.mode).markup, [], [], c, cs⟩ := by
  have hparse := Mustache.Unbraced.parse h options.keepLines
  rw [Draft.contents_of_ne (List.cons_ne_nil c cs)] at hparse
  have hfirst : Sees (c :: cs) options ⟨_, _, _, _, c, cs⟩ := .first hparse .here rfl
  have hstart : Tree.Assembly.textStart (Tree.Assembly.contentAt .first (c :: cs)) = .first := by
    simp [Tree.Assembly.textStart, Tree.Assembly.contentAt, Shift.ofTrimmed, Shift.before?,
      Shift.across, Text.takeEndWhile, Position.shift]
  rw [hstart] at hfirst
  exact hfirst

/-- The text of the third `<` of `<title/><b></b>`. -/
def closedTitle : List Char :=
  ['<', 't', 'i', 't', 'l', 'e', '/', '>', '<', 'b', '>', '<', '/', 'b', '>']

theorem bracket_isText_selfClosing : ∃ g, Sees closedTitle {} g
    ∧ g.tokenizer.state.isData = true ∧ g.read = closedTitle.take 8 ∧ g.char = '<'
    ∧ g.markup.names = [] ∧ g.step.now.state ≠ .tagOpen
    ∧ ∃ name ∈ rawElements, lastTag? (tokens g.heard) = some ⟨.start, name, true⟩ := by
  have hfirst := sees_first (by decide : ¬ ['{', '{'] <:+: '<' :: closedTitle.tail) {}
  have hafter : (Glance.after? ⟨closedTitle, none⟩ ⟨{}, (Tree.Assembly.initial .precompile).markup,
      [], [], '<', closedTitle.tail⟩ 8).any (fun g => g.tokenizer.state.isData
        && g.read == closedTitle.take 8 && g.char == '<' && g.markup.names == []
        && g.step.now.state != .tagOpen) = true := by decide +kernel
  obtain ⟨g, hg, hprops⟩ := (Option.any_eq_true _ _).mp hafter
  have hsees := hfirst.after hg
  obtain ⟨hdata, hread, hchar, hnames, hstate⟩ : g.tokenizer.state.isData = true
      ∧ g.read = closedTitle.take 8 ∧ g.char = '<' ∧ g.markup.names = []
      ∧ g.step.now.state ≠ .tagOpen := by simpa [and_assoc] using hprops
  obtain ⟨name, hraw, -, hname⟩ := (bracket_isText_iff hsees hdata hchar).mp hstate
  exact ⟨g, hsees, hdata, hread, hchar, hnames, hstate, name, hraw,
    hname.resolve_left (by simp [hnames])⟩

namespace Html

def Event.EndsMarkup (e : Event) : Prop :=
  ∃ p, e = .finishTag p ∨ e = .finishComment p

theorem Tokenizer.step_ne_beforeData {t : Tokenizer} (htag : t.state.isTag = false)
    (hcomment : t.state.isComment = false) {c : Char} {rest : List Char}
    (hname : (t.step c rest).now.tagName ≠ []) (hfaults : Faultless (t.step c rest).events) :
    (t.step c rest).now.state ≠ .beforeData := by
  have hdata {s : Step} (hstate : s.now.state = .data) :
      (s.data c rest).now.state ≠ .beforeData := by
    rw [Step.state_data hstate]
    split <;> exact State.noConfusion
  obtain ⟨mode, state, position, tagStart, tagName⟩ := t
  cases state with
  | beforeData =>
    revert hname
    show (Step.beforeData _ c rest).now.tagName ≠ [] → (Step.beforeData _ c rest).now.state ≠ _
    unfold Step.beforeData
    split
    · exact fun _ => State.noConfusion
    · split
      · exact fun hname => absurd rfl hname
      · exact fun _ => hdata rfl
  | data => exact hdata rfl
  | tagOpen =>
    show (Step.tagOpen _ c).now.state ≠ _
    unfold Step.tagOpen
    dsimp only
    repeat' split
    all_goals exact State.noConfusion
  | endTagOpen =>
    revert hfaults
    show Faultless (Step.endTagOpen _ c).events → (Step.endTagOpen _ c).now.state ≠ _
    unfold Step.endTagOpen
    dsimp only
    split
    · exact fun _ => State.noConfusion
    · exact fun hfaults => Bool.noConfusion (hfaults _ (List.mem_singleton_self _))
  | markupDeclarationOpen =>
    revert hfaults
    show Faultless (Step.markupDeclarationOpen _ c rest).events
      → (Step.markupDeclarationOpen _ c rest).now.state ≠ _
    unfold Step.markupDeclarationOpen
    dsimp only
    split
    · exact fun _ => State.noConfusion
    · exact fun hfaults => Bool.noConfusion (hfaults _ (List.mem_singleton_self _))
  | _ => first | exact Bool.noConfusion htag | exact Bool.noConfusion hcomment

theorem Tokenizer.step_beforeData {t : Tokenizer} {c : Char} {rest : List Char}
    (h : (t.step c rest).now.state = .beforeData) (hname : (t.step c rest).now.tagName ≠ [])
    (hfaults : Faultless (t.step c rest).events) :
    c = '>' ∧ (t.step c rest).ahead = 0
      ∧ ∃ before last, (t.step c rest).events = before ++ [last] ∧ last.EndsMarkup := by
  cases htag : t.state.isTag with
  | true =>
    cases t.step_tagStep c rest with
    | outside ht | begins _ ht => simp [htag] at ht
    | grows k _ hs => cases k <;> simp [hs, TagKind.naming] at h
    | goes _ hgoes =>
      cases hgoes with
      | within hs => simp [h, State.isInTag] at hs
      | ends hc hahead _ _ hevents _ => exact ⟨hc, hahead, _, _, hevents, _, .inl rfl⟩
  | false =>
    cases hcomment : t.state.isComment with
    | true =>
      cases t.step_comment hcomment c rest with
      | grows hgrows =>
        have hgrown := hgrows.isComment
        simp [h, State.isComment] at hgrown
      | loses _ _ _ hs => simp [hs] at h
      | closes hc _ hs =>
        rw [hs]
        exact ⟨hc, rfl, [], _, rfl, _, .inr rfl⟩
    | false => exact absurd h (Tokenizer.step_ne_beforeData htag hcomment hname hfaults)

theorem Tokenizer.step_newline {t : Tokenizer} (hdata : t.state.isData = true) {rest : List Char}
    (hdropped : ∀ chars, .data chars ∉ (t.step '\n' rest).events) :
    t.state = .beforeData ∧ t.tagName ∈ preformattedElements := by
  have hread (s : Step) : ∃ chars, .data chars ∈ (s.data '\n' rest).events := by
    unfold Step.data
    rw [if_neg (by simp)]
    split
    · exact ⟨['\n'], by simp [Step.events_emit]⟩
    · exact ⟨((s.read '\n').decode '\n' rest).1, by simp [Step.events_emit]⟩
  obtain ⟨mode, state, position, tagStart, tagName⟩ := t
  cases state with
  | data => exact absurd (hread _).choose_spec (hdropped _)
  | beforeData =>
    refine ⟨rfl, ?_⟩
    revert hdropped
    show (∀ chars, .data chars ∉ (Step.beforeData _ '\n' rest).events) → _
    unfold Step.beforeData
    rw [if_neg (by simp)]
    split
    · rename_i hdrops
      intro _
      simp only [Bool.and_eq_true, List.contains_iff_mem] at hdrops
      exact hdrops.2
    · exact fun hdropped => absurd (hread _).choose_spec (hdropped _)
  | _ => exact Bool.noConfusion hdata

theorem Tokenizer.step_drops {t : Tokenizer} (hmode : t.mode = .precompile)
    (hstate : t.state = .beforeData) (hname : t.tagName ∈ preformattedElements)
    (rest : List Char) : (t.step '\n' rest).events = [] := by
  obtain ⟨mode, state, position, tagStart, tagName⟩ := t
  obtain rfl : mode = .precompile := hmode
  obtain rfl : state = .beforeData := hstate
  have hdrops : tagName ∈ preformattedElements := hname
  show (Step.beforeData _ '\n' rest).events = []
  simp [Step.beforeData, hdrops, Step.forgetName, Step.read, Step.events]

end Html

private theorem drops_first {g₀ : Glance} (h : Sees text options g₀)
    (hnext : g₀.next? ⟨text, options.moduleName⟩ = some g) (hmode : g.tokenizer.mode = .precompile)
    (hchar : g.char = '\n') {p : Position} (hends : g₀.step.events.getLast? = some (.finishTag p))
    {name : List Char} {b : Bool} (hname : name ∈ preformattedElements)
    (hlast : lastTag? (tokens g.heard) = some ⟨.start, name, b⟩) : g.step.events = [] := by
  obtain ⟨-, -, htokenizer, hheard, -⟩ := Glance.next?_eq_some hnext
  rw [hheard, tokens, List.foldl_append] at hlast
  obtain ⟨hstate, hkept⟩ := h.attuned.name.finished hends hlast
  rw [Glance.step, hchar]
  refine Html.Tokenizer.step_drops hmode ?_ ?_ _
  · rw [htokenizer]
    exact hstate
  · rw [htokenizer]
    exact hkept ▸ hname

/-- A newline is dropped where text is read only if the last tag is the start tag of certain
elements. Either it comes right after that tag, where it is dropped, or after an HTML comment, or
first in a text between mustaches. -/
theorem newline_dropped (h : Sees text options g) (hdata : g.tokenizer.state.isData = true)
    (hchar : g.char = '\n') :
    ((∀ chars, .data chars ∉ g.step.events) → ∃ name ∈ preformattedElements,
      (∃ b, lastTag? (tokens g.heard) = some ⟨.start, name, b⟩)
        ∧ (g.read = [] ∨ ∃ before p, g.read = before ++ ['>']
          ∧ (g.heard.getLast? = some (.finishTag p)
            ∨ g.heard.getLast? = some (.finishComment p))))
      ∧ ∀ g₀ p, Sees text options g₀ → g₀.next? ⟨text, options.moduleName⟩ = some g →
        g₀.step.events.getLast? = some (.finishTag p) → g.tokenizer.mode = .precompile →
        ∀ name ∈ preformattedElements,
          (∃ b, lastTag? (tokens g.heard) = some ⟨.start, name, b⟩) → g.step.events = [] := by
  refine ⟨fun hdropped => ?_, fun g₀ p h₀ hnext hends hmode name hname hlast =>
    drops_first h₀ hnext hmode hchar hends hname hlast.choose_spec⟩
  rw [Glance.step, hchar] at hdropped
  obtain ⟨hstate, hname⟩ := Html.Tokenizer.step_newline hdata hdropped
  have hkept : g.tokenizer.tagName ≠ [] := by
    intro hnone
    rw [hnone] at hname
    exact absurd hname (by decide)
  refine ⟨_, hname, h.attuned.name.last_eq (by rw [hstate]; rfl) hkept, ?_⟩
  cases h with
  | first => exact .inl rfl
  | @next g₀ _ h₀ hnext =>
    obtain ⟨hm, -, htokenizer, hheard, hread⟩ := Glance.next?_eq_some hnext
    rw [htokenizer] at hstate hkept
    obtain ⟨hc, hahead, before, last, hevents, p, hlast⟩ :=
      Html.Tokenizer.step_beforeData hstate hkept (Tree.faultless_of_ok hm)
    refine .inr ⟨g₀.read, p, ?_, ?_⟩
    · rw [hread, hc, Glance.step, hahead]
      rfl
    · rw [hheard, Glance.step, hevents, ← List.append_assoc, List.getLast?_concat]
      exact hlast.imp (congrArg some) (congrArg some)

/-- A newline right after a `<pre>`, and one in another `<pre>` after an HTML comment. -/
def commentedPre : List Char :=
  ['<', 'p', 'r', 'e', '>', '\n', '<', '/', 'p', 'r', 'e', '>', '<', 'p', 'r', 'e', '>', '<', '!',
    '-', '-', '-', '-', '>', '\n', 'x', '<', '/', 'p', 'r', 'e', '>']

theorem newline_dropped_comment :
    (∃ g, Sees commentedPre {} g ∧ g.read = commentedPre.take 5 ∧ g.char = '\n'
      ∧ g.step.events = [])
    ∧ ∃ g, Sees commentedPre {} g
      ∧ g.tokenizer.state.isData = true ∧ g.read = commentedPre.take 24 ∧ g.char = '\n'
      ∧ (∀ chars, .data chars ∉ g.step.events) ∧ ¬ (∃ p, g.heard.getLast? = some (.finishTag p))
      ∧ ∃ name ∈ preformattedElements, (∃ b, lastTag? (tokens g.heard) = some ⟨.start, name, b⟩)
        ∧ ∃ p, g.heard.getLast? = some (.finishComment p) := by
  have hfirst := sees_first (by decide : ¬ ['{', '{'] <:+: '<' :: commentedPre.tail) {}
  constructor
  · have hafter : (Glance.after? ⟨commentedPre, none⟩
        ⟨{}, (Tree.Assembly.initial .precompile).markup, [], [], '<', commentedPre.tail⟩ 4).any
        (fun g₀ => g₀.step.events.getLast? == some (.finishTag ⟨1, 5⟩)
          && (g₀.next? ⟨commentedPre, none⟩).any fun g => g.tokenizer.state.isData
            && g.tokenizer.mode == .precompile && g.read == commentedPre.take 5 && g.char == '\n'
            && lastTag? (tokens g.heard) == some ⟨.start, ['p', 'r', 'e'], false⟩) = true := by
      decide +kernel
    obtain ⟨g₀, hg₀, hprops⟩ := (Option.any_eq_true _ _).mp hafter
    obtain ⟨hends, hnext⟩ := Bool.and_eq_true_iff.mp hprops
    obtain ⟨g, hg, hprops⟩ := (Option.any_eq_true _ _).mp hnext
    obtain ⟨hdata, hmode, hread, hchar, hlast⟩ : g.tokenizer.state.isData = true
        ∧ g.tokenizer.mode = .precompile ∧ g.read = commentedPre.take 5 ∧ g.char = '\n'
        ∧ lastTag? (tokens g.heard) = some ⟨.start, ['p', 'r', 'e'], false⟩ := by
      simpa [and_assoc] using hprops
    have hsees := (hfirst.after hg₀).next hg
    exact ⟨g, hsees, hread, hchar, (newline_dropped hsees hdata hchar).2 g₀ _ (hfirst.after hg₀) hg
      (eq_of_beq hends) hmode ['p', 'r', 'e'] (by decide) ⟨_, hlast⟩⟩
  · have hafter : (Glance.after? ⟨commentedPre, none⟩
        ⟨{}, (Tree.Assembly.initial .precompile).markup, [], [], '<', commentedPre.tail⟩ 23).any
        (fun g => g.tokenizer.state.isData && g.read == commentedPre.take 24 && g.char == '\n'
          && g.step.events == []
          && g.heard.getLast? == some (.finishComment ⟨2, 18⟩)) = true := by decide +kernel
    obtain ⟨g, hg, hprops⟩ := (Option.any_eq_true _ _).mp hafter
    have hsees := hfirst.after hg
    obtain ⟨hdata, hread, hchar, hevents, hlast⟩ : g.tokenizer.state.isData = true
        ∧ g.read = commentedPre.take 24 ∧ g.char = '\n' ∧ g.step.events = []
        ∧ g.heard.getLast? = some (.finishComment ⟨2, 18⟩) := by simpa [and_assoc] using hprops
    have hdropped : ∀ chars, .data chars ∉ g.step.events := by simp [hevents]
    obtain ⟨name, hname, htag, -⟩ := (newline_dropped hsees hdata hchar).1 hdropped
    exact ⟨g, hsees, hdata, hread, hchar, hdropped, by simp [hlast], name, hname, htag, _, hlast⟩

end HtmlTemplate
