import HtmlTemplate.Proofs.Chunks
import HtmlTemplate.Proofs.Linked

/-! Text that is read as it is written. In this mode the machine reports the characters of texts
and values one by one, each where it stands in the template. -/

namespace HtmlTemplate.Html

/-- The character that a value may begin and end with. -/
def isQuote (c : Char) : Bool :=
  c == '"' || c == '\''

/-- The text or the value under way: where it begins and how far it has been reported. -/
inductive Reading where
  | other
  | text (start now : Position)
  /-- A value without quotes of which nothing has been reported. -/
  | bare (start : Position)
  /-- A value that begins with a quote, or with none. -/
  | value (quote : List Char) (start now : Position)

def Event.isQuiet : Event → Bool
  | beginData _ | data _ | finishData _ => false
  | beginAttributeValue .. | attributeValue .. | finishAttributeValue _ => false
  | _ => true

/-- What is reported of text that is read as it is written: the text or the value under way
before a report, the report, and what is under way after it. -/
inductive Copies (src : Source) : Reading → Event → Reading → Prop
  | quiet {e : Event} : e.isQuiet = true → Copies src .other e .other
  | beginText {p : Position} : src.Covers p [] p → Copies src .other (.beginData p) (.text p p)
  | data {p q r : Position} {cs : List Char} : src.Covers q cs r →
      Copies src (.text p q) (.data cs) (.text p r)
  | finishText {p q : Position} : Copies src (.text p q) (.finishData q) .other
  | beginBare {p : Position} : Copies src .other (.beginAttributeValue false p) (.bare p)
  | finishBare {p : Position} : Copies src (.bare p) (.finishAttributeValue p) .other
  | bareText {p q : Position} {c : Char} : isQuote c = false → src.Covers p [c] q →
      Copies src (.bare p) (.attributeValue [c] ⟨p, q⟩) (.value [] p q)
  | beginQuoted {p q : Position} {c : Char} : isQuote c = true → src.Covers p [c] q →
      Copies src .other (.beginAttributeValue true p) (.value [c] p q)
  | valueText {quote cs : List Char} {p q r : Position} : src.Covers q cs r →
      Copies src (.value quote p q) (.attributeValue cs ⟨q, r⟩) (.value quote p r)
  | finishValue {quote : List Char} {p q r : Position} : src.Covers q quote r →
      Copies src (.value quote p q) (.finishAttributeValue r) .other

/-- Some reports one after the other. -/
inductive Copied (src : Source) : Reading → List Event → Reading → Prop
  | nil {r : Reading} : Copied src r [] r
  | cons {r r' r'' : Reading} {e : Event} {es : List Event} : Copies src r e r' →
      Copied src r' es r'' → Copied src r (e :: es) r''

section

variable {src : Source} {r r' r'' : Reading} {es fs : List Event}

theorem Copied.append (h : Copied src r es r') (h' : Copied src r' fs r'') :
    Copied src r (es ++ fs) r'' := by
  induction h with
  | nil => exact h'
  | cons he _ ih => exact .cons he (ih h')

theorem Copied.quiet (h : ∀ e ∈ es, e.isQuiet = true) : Copied src .other es .other := by
  induction es with
  | nil => exact .nil
  | cons e es ih =>
    exact .cons (.quiet (h e List.mem_cons_self)) (ih fun e he => h e (List.mem_cons_of_mem _ he))

end

def Tokenizer.Reads (src : Source) (t : Tokenizer) (r : Reading) : Prop :=
  match t.state with
  | .data => ∃ p, r = .text p t.position
  | .tagOpen => r = .other ∧ src.Covers t.tagStart ['<'] t.position
  | .attributeValueDoubleQuoted => ∃ p, r = .value ['"'] p t.position
  | .attributeValueSingleQuoted => ∃ p, r = .value ['\''] p t.position
  | .attributeValueUnquoted => ∃ p, r = .value [] p t.position
  | _ => r = .other

namespace Step

def Relays (src : Source) (r r' : Reading) (s : Step) : Prop :=
  Copied src r (s.emitted.map (·.event)) r'

def CopiesFrom (src : Source) (r : Reading) (s : Step) : Prop :=
  ∃ r', s.Relays src r r' ∧ s.now.Reads src r'

variable {src : Source} {r r' r'' : Reading} {s : Step}

theorem Relays.emit (h : s.Relays src r r') {e : Event} (he : Copies src r' e r'') :
    (s.emit e).Relays src r r'' := by
  unfold Relays Step.emit
  rw [List.map_append]
  exact h.append (.cons he .nil)

theorem Relays.read (h : s.Relays src r r') (c : Char) : (s.read c).Relays src r r' := h

theorem Relays.readAhead (h : s.Relays src r r') (cs : List Char) :
    (s.readAhead cs).Relays src r r' := h

theorem Relays.become (h : s.Relays src r r') (state : State) :
    (s.become state).Relays src r r' := h

theorem Relays.forgetName (h : s.Relays src r r') : s.forgetName.Relays src r r' := h

theorem Relays.quiet (h : s.Relays src r .other) {e : Event} (he : e.isQuiet = true) :
    (s.emit e).Relays src r .other :=
  h.emit (.quiet he)

theorem Relays.emptyValue (h : s.Relays src r .other) : s.emptyValue.Relays src r .other :=
  Relays.emit (s := s.emitHere (.beginAttributeValue false)) (h.emit .beginBare) .finishBare

theorem Relays.growName (h : s.Relays src r .other) (c : Char) :
    (s.growName c).Relays src r .other :=
  Relays.quiet (s := { s with now := { s.now with tagName := s.now.tagName ++ [c] } }) h rfl

theorem Relays.closeTag (h : s.Relays src r .other) : s.closeTag.CopiesFrom src r :=
  ⟨.other, (h.quiet rfl).become .beforeData, rfl⟩

theorem Relays.closeComment (h : s.Relays src r .other) : s.closeComment.CopiesFrom src r :=
  ⟨.other, (h.quiet rfl).become .beforeData, rfl⟩

section

variable {position : Position} {c : Char} {rest : List Char}

theorem data_copies {p : Position} (h : s.Relays src r (.text p s.now.position))
    (hmode : s.now.mode = .codemod) (hstate : s.now.state = .data)
    (hc : src.Covers s.now.position [c] (s.now.position.next c)) :
    (s.data c rest).CopiesFrom src r := by
  have hreads : (s.read c).now.Reads src (.text p (s.now.position.next c)) := by
    simp [Tokenizer.Reads, read, hstate]
  unfold data
  split
  · rename_i hopens
    obtain rfl : c = '<' := by simpa using (Bool.and_eq_true_iff.mp hopens).1
    exact ⟨.other, h.emit .finishText, rfl, hc⟩
  · split
    · exact ⟨_, (h.read c).emit (.data hc), hreads⟩
    · rw [decode_codemod (s := s.read c) hmode]
      exact ⟨_, (h.read c).emit (.data hc), hreads⟩

theorem beforeData_copies (h : s.Relays src r .other) (hmode : s.now.mode = .codemod)
    (hstate : s.now.state = .beforeData)
    (hc : src.Covers s.now.position [c] (s.now.position.next c)) :
    (s.beforeData c rest).CopiesFrom src r := by
  unfold beforeData
  split
  · rename_i hopens
    obtain rfl : c = '<' := by simpa using (Bool.and_eq_true_iff.mp hopens).1
    exact ⟨.other, h, rfl, hc⟩
  · split
    · exact ⟨.other, h, by simp [Tokenizer.Reads, read, forgetName, hstate]⟩
    · obtain ⟨_, _, hstands, -⟩ := id hc
      have hbegin : ((s.become .data).emitHere .beginData).Relays src r
          (.text s.now.position s.now.position) :=
        (h.become .data).emit (.beginText (.refl hstands))
      exact data_copies hbegin hmode rfl hc

theorem tagOpen_copies (h : s.Relays src r .other)
    (hlt : src.Covers s.now.tagStart ['<'] s.now.position)
    (hc : src.Covers s.now.position [c] (s.now.position.next c)) :
    (s.tagOpen c).CopiesFrom src r := by
  unfold tagOpen
  dsimp only
  split
  · exact ⟨.other, h, rfl⟩
  · split
    · exact ⟨.other, h, rfl⟩
    · split
      · exact ⟨.other, ((((h.read c).become .tagName).forgetName).quiet rfl).growName c, rfl⟩
      · obtain ⟨_, _, hstands, -⟩ := id hlt
        have hbegin : (((s.read c).become .data).emit (.beginData s.now.tagStart)).Relays src r
            (.text s.now.tagStart s.now.tagStart) :=
          ((h.read c).become .data).emit (.beginText (.refl hstands))
        exact ⟨_, (hbegin.emit (.data hlt)).emit (.data hc), _, rfl⟩

theorem endTagOpen_copies (h : s.Relays src r .other) : (s.endTagOpen c).CopiesFrom src r := by
  unfold endTagOpen
  dsimp only
  split
  · exact ⟨.other, ((((h.read c).become .endTagName).forgetName).quiet rfl).growName c, rfl⟩
  · exact ⟨.other, ((h.read c).quiet rfl).become .beforeData, rfl⟩

theorem markupDeclarationOpen_copies (h : s.Relays src r .other) :
    (s.markupDeclarationOpen c rest).CopiesFrom src r := by
  unfold markupDeclarationOpen
  dsimp only
  split
  · exact ⟨.other, (((h.read c).readAhead ['-']).become .commentStart).quiet rfl, rfl⟩
  · exact ⟨.other, ((h.read c).quiet rfl).become .beforeData, rfl⟩

theorem commentText_copies (h : s.Relays src r .other) (dashes : List Char) :
    (s.commentText dashes c).CopiesFrom src r := by
  unfold commentText
  dsimp only
  split
  · exact ⟨.other, (h.quiet rfl).become .comment, rfl⟩
  · exact ⟨.other, ((h.quiet rfl).quiet rfl).become .comment, rfl⟩

theorem commentStart_copies (h : s.Relays src r .other) :
    (s.commentStart c).CopiesFrom src r := by
  unfold commentStart
  dsimp only
  split
  · exact ⟨.other, h, rfl⟩
  · split
    · exact (h.read c).closeComment
    · exact commentText_copies (h.read c) []

theorem commentStartDash_copies (h : s.Relays src r .other) :
    (s.commentStartDash c).CopiesFrom src r := by
  unfold commentStartDash
  dsimp only
  split
  · exact ⟨.other, h, rfl⟩
  · split
    · exact (h.read c).closeComment
    · exact ⟨.other, ((h.read c).quiet rfl).become .comment, rfl⟩

theorem comment_copies (h : s.Relays src r .other) (hstate : s.now.state = .comment) :
    (s.comment c).CopiesFrom src r := by
  unfold comment
  dsimp only
  split
  · exact ⟨.other, h, rfl⟩
  · exact ⟨.other, (h.read c).quiet rfl,
      by simp [Tokenizer.Reads, emit, read, hstate]⟩

theorem commentEndDash_copies (h : s.Relays src r .other) :
    (s.commentEndDash c).CopiesFrom src r := by
  unfold commentEndDash
  dsimp only
  split
  · exact ⟨.other, h, rfl⟩
  · exact commentText_copies (h.read c) ['-']

theorem commentEnd_copies (h : s.Relays src r .other) : (s.commentEnd c).CopiesFrom src r := by
  unfold commentEnd
  dsimp only
  split
  · exact (h.read c).closeComment
  · exact commentText_copies (h.read c) ['-', '-']

theorem tagName_copies (h : s.Relays src r .other) (hstate : s.now.state = .tagName) :
    (s.tagName c).CopiesFrom src r := by
  unfold tagName
  dsimp only
  split
  · exact ⟨.other, h, rfl⟩
  · split
    · exact ⟨.other, h, rfl⟩
    · split
      · exact (h.read c).closeTag
      · exact ⟨.other, (h.read c).growName c,
          by simp [Tokenizer.Reads, growName, emit, read, hstate]⟩

theorem endTagName_copies (h : s.Relays src r .other) (hstate : s.now.state = .endTagName) :
    (s.endTagName c).CopiesFrom src r := by
  unfold endTagName
  dsimp only
  split
  · exact ⟨.other, h, rfl⟩
  · split
    · exact ⟨.other, h, rfl⟩
    · split
      · exact ⟨.other, (((h.read c).quiet rfl).become .beforeData).forgetName, rfl⟩
      · exact ⟨.other, (h.read c).growName c,
          by simp [Tokenizer.Reads, growName, emit, read, hstate]⟩

theorem attributeName_copies (h : s.Relays src r .other) (hstate : s.now.state = .attributeName) :
    (s.attributeName c).CopiesFrom src r := by
  have hreads {e e' : Event} : ((((s.emit e).read c).emit e').now).Reads src .other := by
    simp [Tokenizer.Reads, emit, read, hstate]
  unfold attributeName
  split
  · exact ⟨.other, h, rfl⟩
  · split
    · exact ⟨.other, h.emptyValue, rfl⟩
    · split
      · exact ⟨.other, h, rfl⟩
      · split
        · exact (h.emptyValue.read c).closeTag
        · split
          · exact ⟨.other, ((h.quiet rfl).read c).quiet rfl, hreads⟩
          · exact ⟨.other, (h.read c).quiet rfl,
              by simp [Tokenizer.Reads, emit, read, hstate]⟩

theorem beforeAttributeName_copies (h : s.Relays src r .other)
    (hstate : s.now.state = .beforeAttributeName) :
    (s.beforeAttributeName c).CopiesFrom src r := by
  unfold beforeAttributeName
  split
  · exact ⟨.other, h, by simp [Tokenizer.Reads, read, hstate]⟩
  · split
    · exact ⟨.other, h, rfl⟩
    · split
      · exact (h.read c).closeTag
      · split
        · have hfault : ((s.emitHere (.syntaxError .equalsBeforeName)).become
              .attributeName).Relays src r .other := (h.quiet rfl).become .attributeName
          exact ⟨.other, ((hfault.quiet rfl).read c).quiet rfl, rfl⟩
        · have hbegin : ((s.become .attributeName).emitHere .beginAttribute).Relays src r .other :=
            (h.become .attributeName).quiet rfl
          exact attributeName_copies hbegin rfl

theorem afterAttributeName_copies (h : s.Relays src r .other)
    (hstate : s.now.state = .afterAttributeName) :
    (s.afterAttributeName c).CopiesFrom src r := by
  unfold afterAttributeName
  split
  · exact ⟨.other, h, by simp [Tokenizer.Reads, read, hstate]⟩
  · split
    · exact ⟨.other, h.emptyValue, rfl⟩
    · split
      · exact ⟨.other, h, rfl⟩
      · split
        · exact (h.emptyValue.read c).closeTag
        · have hbegin : ((s.emptyValue.become .attributeName).emitHere .beginAttribute).Relays src
              r .other := (h.emptyValue.become .attributeName).quiet rfl
          exact ⟨.other, (hbegin.read c).quiet rfl, rfl⟩

theorem valueText_copies {quote : List Char} {p : Position}
    (h : s.Relays src r (.value quote p s.now.position)) (hmode : s.now.mode = .codemod)
    (hreads : ∀ q, ({ s.now with position := q } : Tokenizer).Reads src (.value quote p q))
    (hc : src.Covers s.now.position [c] (s.now.position.next c)) :
    (s.valueText c rest).CopiesFrom src r := by
  unfold valueText
  dsimp only
  rw [decode_codemod (s := s.read c) hmode]
  exact ⟨_, (h.read c).emit (.valueText hc), hreads _⟩

theorem beforeAttributeValue_copies (h : s.Relays src r .other) (hmode : s.now.mode = .codemod)
    (hstate : s.now.state = .beforeAttributeValue)
    (hc : src.Covers s.now.position [c] (s.now.position.next c)) :
    (s.beforeAttributeValue c rest).CopiesFrom src r := by
  have hquoted (hquote : isQuote c = true) (state : State) :
      ((s.become state).emitHere (.beginAttributeValue true)).Relays src r
        (.value [c] s.now.position (s.now.position.next c)) :=
    (h.become state).emit (.beginQuoted hquote hc)
  unfold beforeAttributeValue
  split
  · exact ⟨.other, h, by simp [Tokenizer.Reads, read, hstate]⟩
  · split
    · rename_i hdouble
      subst hdouble
      exact ⟨_, (hquoted rfl _).read _, _, rfl⟩
    · split
      · rename_i hsingle
        subst hsingle
        exact ⟨_, (hquoted rfl _).read _, _, rfl⟩
      · rename_i hdouble hsingle
        split
        · exact (h.emptyValue.read c).closeTag
        · have hbare : isQuote c = false := by simp [isQuote, hdouble, hsingle]
          have hbegin : ((s.become .attributeValueUnquoted).emitHere
              (.beginAttributeValue false)).Relays src r (.bare s.now.position) :=
            (h.become _).emit .beginBare
          unfold valueText
          dsimp only
          rw [decode_codemod (s := (((s.become .attributeValueUnquoted).emitHere
            (.beginAttributeValue false)).read c)) hmode]
          exact ⟨_, (hbegin.read c).emit (.bareText hbare hc), _, rfl⟩

theorem quotedValue_copies {quote : Char} {p : Position}
    (h : s.Relays src r (.value [quote] p s.now.position)) (hmode : s.now.mode = .codemod)
    (hreads : ∀ q, ({ s.now with position := q } : Tokenizer).Reads src (.value [quote] p q))
    (hc : src.Covers s.now.position [c] (s.now.position.next c)) :
    (s.quotedValue quote c rest).CopiesFrom src r := by
  unfold quotedValue
  split
  · rename_i hquote
    subst hquote
    exact ⟨.other, ((h.read c).emit (.finishValue hc)).become _, rfl⟩
  · exact valueText_copies h hmode hreads hc

theorem unquotedValue_copies {p : Position}
    (h : s.Relays src r (.value [] p s.now.position)) (hmode : s.now.mode = .codemod)
    (hreads : ∀ q, ({ s.now with position := q } : Tokenizer).Reads src (.value [] p q))
    (hc : src.Covers s.now.position [c] (s.now.position.next c)) :
    (s.unquotedValue c rest).CopiesFrom src r := by
  obtain ⟨_, _, hstands, -⟩ := id hc
  have hfinish : (s.emitHere .finishAttributeValue).Relays src r .other :=
    h.emit (.finishValue (.refl hstands))
  unfold unquotedValue
  split
  · exact ⟨.other, hfinish, rfl⟩
  · split
    · exact ⟨.other, hfinish, rfl⟩
    · split
      · exact (hfinish.read c).closeTag
      · exact valueText_copies h hmode hreads hc

theorem afterAttributeValueQuoted_copies (h : s.Relays src r .other) :
    (s.afterAttributeValueQuoted c).CopiesFrom src r := by
  unfold afterAttributeValueQuoted
  split
  · exact ⟨.other, h, rfl⟩
  · split
    · exact ⟨.other, h, rfl⟩
    · split
      · exact (h.read c).closeTag
      · exact beforeAttributeName_copies (h.become .beforeAttributeName) rfl

theorem selfClosingStartTag_copies (h : s.Relays src r .other) :
    (s.selfClosingStartTag c).CopiesFrom src r := by
  unfold selfClosingStartTag
  split
  · have hclosing : ((s.read c).emit .selfClosing).Relays src r .other := (h.read c).quiet rfl
    exact hclosing.closeTag
  · exact beforeAttributeName_copies (h.become .beforeAttributeName) rfl

end

end Step

namespace Tokenizer

variable {src : Source} {t : Tokenizer} {r : Reading}

private theorem step_copies (hmode : t.mode = .codemod) (h : t.Reads src r) {c : Char}
    (hc : src.Covers t.position [c] (t.position.next c)) (rest : List Char) :
    (t.step c rest).CopiesFrom src r := by
  have hnone : Step.Relays src r r { now := t } := .nil
  unfold Reads at h
  unfold step
  dsimp only
  cases hstate : t.state
  all_goals
    simp only [hstate] at h ⊢
    try subst h
  · exact Step.beforeData_copies hnone hmode hstate hc
  · obtain ⟨p, rfl⟩ := h
    exact Step.data_copies hnone hmode hstate hc
  · obtain ⟨rfl, hlt⟩ := h
    exact Step.tagOpen_copies hnone hlt hc
  · exact Step.markupDeclarationOpen_copies hnone
  · exact Step.commentStart_copies hnone
  · exact Step.commentStartDash_copies hnone
  · exact Step.comment_copies hnone hstate
  · exact Step.commentEndDash_copies hnone
  · exact Step.commentEnd_copies hnone
  · exact Step.tagName_copies hnone hstate
  · exact Step.endTagOpen_copies hnone
  · exact Step.endTagName_copies hnone hstate
  · exact Step.beforeAttributeName_copies hnone hstate
  · exact Step.attributeName_copies hnone hstate
  · exact Step.afterAttributeName_copies hnone hstate
  · exact Step.beforeAttributeValue_copies hnone hmode hstate hc
  · obtain ⟨p, rfl⟩ := h
    exact Step.quotedValue_copies hnone hmode (fun q => by simp [Reads, hstate]) hc
  · obtain ⟨p, rfl⟩ := h
    exact Step.quotedValue_copies hnone hmode (fun q => by simp [Reads, hstate]) hc
  · obtain ⟨p, rfl⟩ := h
    exact Step.unquotedValue_copies hnone hmode (fun q => by simp [Reads, hstate]) hc
  · exact Step.afterAttributeValueQuoted_copies hnone
  · exact Step.selfClosingStartTag_copies hnone

theorem feed_copies (hmode : t.mode = .codemod) (h : t.Reads src r) {cs : List Char}
    {q : Position} (hcs : src.Covers t.position cs q) :
    (t.feed cs).2.mode = .codemod
      ∧ ∃ r', Copied src r ((t.feed cs).1.map (·.event)) r' ∧ (t.feed cs).2.Reads src r' := by
  induction hlength : cs.length using Nat.strongRecOn generalizing t r cs q with
  | _ length ih =>
    cases cs with
    | nil => exact ⟨hmode, r, .nil, h⟩
    | cons c cs =>
      obtain ⟨start, rest, hstands, -⟩ := hcs
      have hc : src.Covers t.position [c] (t.position.next c) := ⟨start, _, hstands, rfl⟩
      obtain ⟨r', hstep, hreads⟩ := step_copies hmode h hc cs
      obtain ⟨k, hk, hahead, hposition⟩ := t.step_consumes c cs
      obtain rfl : (t.step c cs).ahead = k := by simpa using hahead
      have hrest := hstands
      rw [← List.take_append_drop (t.step c cs).ahead cs, ← List.cons_append,
        List.append_assoc] at hrest
      have hafter := hrest.after.covers
      rw [← show (t.step c cs).now.position = _ from hposition] at hafter
      obtain ⟨hmode', r'', hfed, hreads'⟩ := ih (cs.drop (t.step c cs).ahead).length
        (by rw [← hlength, List.length_drop, List.length_cons]; omega)
        ((t.step_traced c cs).mode.trans hmode) hreads hafter rfl
      rw [feed_cons]
      refine ⟨hmode', r'', ?_, hreads'⟩
      simp only [List.map_append]
      exact hstep.append hfed

theorem finishData_copies (h : t.Reads src r) :
    ∃ r', Copied src r (t.finishData.1.map (·.event)) r' ∧ t.finishData.2.Reads src r' := by
  unfold finishData
  split
  · rename_i hdata
    unfold Reads at h
    simp only [hdata] at h
    obtain ⟨p, rfl⟩ := h
    exact ⟨.other, .cons .finishText .nil, rfl⟩
  · exact ⟨r, .nil, h⟩

theorem mode_finishData (t : Tokenizer) : t.finishData.2.mode = t.mode := by
  unfold finishData
  split <;> rfl

end Tokenizer

end HtmlTemplate.Html
