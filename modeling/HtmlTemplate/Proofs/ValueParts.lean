import HtmlTemplate.Proofs.AttributeEnds
import HtmlTemplate.Proofs.Threads
import HtmlTemplate.Proofs.Verbatim

/-! The parts of an attribute value, while text is read. Text comes in chunks and mustaches
between them, so that the text under way is finished by what comes next: the parts and the text
after them are in order, no two texts follow each other, and behind a quote the parts begin after
it. A value is plain text just if no mustache begins while the attribute is read. -/

namespace HtmlTemplate

open Html (isQuote)

namespace Source

/-- The text of a span stands between two quotes of a kind. -/
def Quoted (src : Source) (span : Span) : Prop :=
  ∃ q, isQuote q = true ∧ src.Delimits [q] [q] span

variable {src : Source} {x y : Nat} {c : Char} {p q : Position} {cs : List Char}

theorem Begins.delimits (h : src.Begins x c) (h' : src.Begins y c)
    (hle : x + byteLength [c] ≤ y) : src.Delimits [c] [c] ⟨x, y + byteLength [c]⟩ := by
  obtain ⟨before, after, htext, rfl⟩ := h
  obtain ⟨before', after', htext', rfl⟩ := h'
  rw [← byteLength_append] at hle
  obtain ⟨inner, rfl⟩ := prefix_of_byteLength_le ⟨after, by rw [htext]; simp⟩
    ⟨c :: after', htext'.symm⟩ hle
  have hlies : src.Lies (byteLength before) ([c] ++ (inner ++ [c]))
      (byteLength (before ++ [c] ++ inner) + byteLength [c]) := by
    refine ⟨before, after', by simp [htext'], rfl, ?_⟩
    simp only [byteLength_append]
    omega
  exact ⟨inner, hlies.slice⟩

end Source

namespace Html

def State.quote? : State → Option Char
  | attributeValueDoubleQuoted => some '"'
  | attributeValueSingleQuoted => some '\''
  | _ => none

theorem State.isQuote_of_quote? {s : State} {c : Char} (h : s.quote? = some c) :
    isQuote c = true := by
  cases s <;> simp only [quote?, Option.some.injEq, reduceCtorEq] at h <;> subst h <;> rfl

theorem byteLength_of_isQuote {c : Char} (h : isQuote c = true) : byteLength [c] = 1 := by
  rcases Bool.or_eq_true_iff.mp h with h | h <;> rw [eq_of_beq h] <;> rfl

namespace Tokenizer

theorem step_beforeValue (t : Tokenizer) (c : Char) (rest : List Char)
    (h : t.state = .beforeAttributeValue) :
    (t.step c rest).now.state.quote? = some c
      ∨ ((t.step c rest).now.state = .attributeValueUnquoted ∧ ∃ text, text ≠ []
        ∧ (t.step c rest).events = [.beginAttributeValue false t.position,
          .attributeValue text ⟨t.position, (t.step c rest).now.position⟩])
      ∨ (t.step c rest).now.state.isAttributeValue = false := by
  unfold step
  rw [h]
  dsimp only
  unfold Step.beforeAttributeValue
  split
  · exact .inr (.inr (by simp [Step.read, h, State.isAttributeValue]))
  · split
    · rename_i hc
      exact .inl (by rw [hc]; rfl)
    · split
      · rename_i hc
        exact .inl (by rw [hc]; rfl)
      · split
        · exact .inr (.inr rfl)
        · exact .inr (.inl ⟨Step.valueText_state _ _ _, Step.events_valueText _ c rest⟩)

theorem step_value (t : Tokenizer) (c : Char) (rest : List Char)
    (h : t.state.isAttributeValue = true) :
    ((t.step c rest).now.state = t.state ∧ ∃ text, text ≠ []
        ∧ (t.step c rest).events
          = [.attributeValue text ⟨t.position, (t.step c rest).now.position⟩])
      ∨ (t.state.quote? = some c
        ∧ (t.step c rest).events = [.finishAttributeValue (t.position.next c)]
        ∧ (t.step c rest).now.position = t.position.next c)
      ∨ (t.state = .attributeValueUnquoted
        ∧ ∃ after, (t.step c rest).events = .finishAttributeValue t.position :: after) := by
  have htext : (Step.valueText { now := t } c rest).now.state = t.state :=
    Step.valueText_state _ _ _
  unfold step
  cases hstate : t.state with
  | attributeValueDoubleQuoted | attributeValueSingleQuoted =>
    dsimp only
    unfold Step.quotedValue
    split
    · rename_i hc
      exact .inr (.inl ⟨by rw [hc]; rfl, rfl, rfl⟩)
    · exact .inl ⟨htext.trans hstate, Step.events_valueText _ c rest⟩
  | attributeValueUnquoted =>
    dsimp only
    unfold Step.unquotedValue
    split
    · exact .inr (.inr ⟨rfl, [], rfl⟩)
    · split
      · exact .inr (.inr ⟨rfl, [], rfl⟩)
      · split
        · exact .inr (.inr ⟨rfl, _, rfl⟩)
        · exact .inl ⟨htext.trans hstate, Step.events_valueText _ c rest⟩
  | _ => simp [hstate, State.isAttributeValue] at h

variable {t : Tokenizer} {c : Char} {rest : List Char}

theorem quote?_of_begins (h : t.state = .beforeAttributeValue)
    (hvalue : (t.step c rest).now.state.isAttributeValue = true)
    (hne : (t.step c rest).now.state ≠ .attributeValueUnquoted) :
    (t.step c rest).now.state.quote? = some c := by
  rcases t.step_beforeValue c rest h with hquote | ⟨htext, -⟩ | hnot
  · exact hquote
  · exact absurd htext hne
  · rw [hvalue] at hnot
    cases hnot

theorem events_of_beginsText (h : t.state = .beforeAttributeValue)
    (hstate : (t.step c rest).now.state = .attributeValueUnquoted) :
    ∃ text, text ≠ [] ∧ (t.step c rest).events = [.beginAttributeValue false t.position,
      .attributeValue text ⟨t.position, (t.step c rest).now.position⟩] := by
  rcases t.step_beforeValue c rest h with hquote | ⟨-, htext⟩ | hnot
  · rw [hstate] at hquote
    cases hquote
  · exact htext
  · rw [hstate] at hnot
    cases hnot

theorem events_of_reads {text : List Char} {l : Location}
    (h : t.state.isAttributeValue = true)
    (hread : (t.step c rest).events = [.attributeValue text l]) :
    ∃ text, text ≠ [] ∧ (t.step c rest).events
      = [.attributeValue text ⟨t.position, (t.step c rest).now.position⟩] := by
  rcases t.step_value c rest h with ⟨-, htext⟩ | ⟨-, hends, -⟩ | ⟨-, after, hends⟩
  · exact htext
  · rw [hread] at hends
    cases hends
  · rw [hread] at hends
    cases hends

theorem quote?_of_ends (h : t.state.isAttributeValue = true)
    (hne : t.state ≠ .attributeValueUnquoted)
    (hstate : (t.step c rest).now.state.isInAttribute = false) :
    t.state.quote? = some c ∧ (t.step c rest).events = [.finishAttributeValue (t.position.next c)]
      ∧ (t.step c rest).now.position = t.position.next c := by
  rcases t.step_value c rest h with ⟨hsame, -⟩ | hends | ⟨hnone, -⟩
  · rw [hsame, State.isInAttribute, h, Bool.or_true] at hstate
    cases hstate
  · exact hends
  · exact absurd hnone hne

end Tokenizer

end Html

/-- No mustache begins between two offsets. -/
def Unbroken (src : Source) (ts : List Mustache.Token) (start stop : Nat) : Prop :=
  ∀ t ∈ ts, t.symbol.opensMustache = true →
    src.offsetFor t.loc.start < start ∨ stop ≤ src.offsetFor t.loc.start

namespace Unbroken

variable {src : Source} {ts : List Mustache.Token} {start mid stop start' stop' : Nat}

theorem join (h : Unbroken src ts start mid) (h' : Unbroken src ts mid stop) :
    Unbroken src ts start stop := by
  intro t ht hopens
  rcases h t ht hopens with hbefore | hmid
  · exact .inl hbefore
  · exact .inr ((h' t ht hopens).resolve_left (by omega))

theorem mono (h : Unbroken src ts start stop) (hstart : start ≤ start') (hstop : stop' ≤ stop) :
    Unbroken src ts start' stop' := fun t ht hopens =>
  (h t ht hopens).imp (fun hlt => hlt.trans_le hstart) fun hle => hstop.trans hle

end Unbroken

theorem Mustache.Quiet.unbroken {src : Source} {ts : List Mustache.Token} {lo hi : Position}
    (h : Mustache.Quiet ts lo hi) (hscan : Mustache.scan src.text = .ok ts)
    (hhi : 1 ≤ hi.line) : Unbroken src ts (src.offsetFor lo) (src.offsetFor hi) := by
  intro t ht hopens
  obtain ⟨cs, hcovers, hwritten⟩ := Mustache.scan_written hscan t ht
  have hsorted := (Mustache.scan_sorted hscan).le_of_mem ht
  rcases h t ht hopens with hstop | hstart
  · left
    have hne : cs ≠ [] := by
      rintro rfl
      cases hsymbol : t.symbol with
      | opener o => simp [hsymbol, Mustache.Symbol.Written] at hwritten
      | _ => simp [hsymbol, Mustache.Symbol.opensMustache] at hopens
    have hline : 1 ≤ t.loc.stop.line := by
      obtain ⟨start, rest, hstands, hstop⟩ := hcovers
      exact hstop ▸ hstands.after.line
    have hlength := byteLength_pos hne
    have hle := src.offsetFor_mono hline hstop
    rw [hcovers.offset] at hle
    omega
  · exact .inr (src.offsetFor_mono hhi hstart)

namespace Tree

def Part.isText : Part → Bool
  | text _ => true
  | dynamic _ => false

/-- Parts between two offsets, in order and apart. No text is empty, and none follows another. -/
structure Parted (lo hi : Nat) (parts : List Part) : Prop where
  within : ∀ x ∈ parts, lo ≤ x.span.start ∧ x.span.start ≤ x.span.stop ∧ x.span.stop ≤ hi
  ordered : parts.Pairwise fun x y => x.span.stop ≤ y.span.start
  apart : parts.IsChain fun x y => ¬ (x.isText = true ∧ y.isText = true)
  filled : ∀ t, .text t ∈ parts → t.chars ≠ []

namespace Parted

variable {lo hi hi' : Nat} {parts : List Part} {x : Part}

theorem nil (lo hi : Nat) : Parted lo hi [] :=
  ⟨List.forall_mem_nil _, .nil, .nil, fun _ h => by cases h⟩

theorem mono (h : Parted lo hi parts) (hle : hi ≤ hi') : Parted lo hi' parts :=
  ⟨fun x hx => ⟨(h.within x hx).1, (h.within x hx).2.1, (h.within x hx).2.2.trans hle⟩,
    h.ordered, h.apart, h.filled⟩

theorem concat (h : Parted lo hi parts) (hlo : lo ≤ x.span.start) (hhi : hi ≤ x.span.start)
    (hle : x.span.start ≤ x.span.stop) (hstop : x.span.stop ≤ hi')
    (hapart : ∀ y ∈ parts.getLast?, ¬ (y.isText = true ∧ x.isText = true))
    (hfilled : ∀ t, x = .text t → t.chars ≠ []) : Parted lo hi' (parts ++ [x]) where
  within := List.forall_mem_append.mpr
    ⟨(h.mono (hhi.trans (hle.trans hstop))).within, List.forall_mem_singleton.mpr ⟨hlo, hle, hstop⟩⟩
  ordered := List.pairwise_append.mpr ⟨h.ordered, List.pairwise_singleton _ _,
    fun y hy z hz => List.mem_singleton.mp hz ▸ (h.within y hy).2.2.trans hhi⟩
  apart := List.isChain_append.mpr ⟨h.apart, List.isChain_singleton x,
    fun y hy z hz => Option.some.inj hz ▸ hapart y hy⟩
  filled t ht := by
    rcases List.mem_append.mp ht with ht | ht
    · exact h.filled t ht
    · exact hfilled t (List.mem_singleton.mp ht).symm

end Parted

namespace PendingAttribute

variable {src : Source} {D : Dynamic → Prop} {quote : Option Char} {now now' : Nat}
  {p : PendingAttribute} {d : Dynamic}

def floor (p : PendingAttribute) : Nat :=
  p.valueStart + if p.quoted then 1 else 0

/-- What is known of a value with this quote of which everything up to an offset has been read.
The mustaches in it are some of those given. -/
structure Filled (src : Source) (D : Dynamic → Prop) (quote : Option Char) (now : Nat)
    (p : PendingAttribute) : Prop where
  quoted : p.quoted = quote.isSome
  begins : ∀ c ∈ quote, src.Begins p.valueStart c
  start : p.start ≤ p.valueStart
  floor : p.floor ≤ now
  parts : Parted p.floor (p.text.elim now (·.span.start)) p.parts
  /-- The text under way follows no other. -/
  last : ∀ x ∈ p.parts.getLast?, x.isText = false
  text : ∀ t ∈ p.text, t.chars ≠ [] ∧ p.floor ≤ t.span.start ∧ t.span.start ≤ t.span.stop
    ∧ t.span.stop ≤ now
  sources : ∀ d, .dynamic d ∈ p.parts → D d
  counts : p.Counts

theorem Untouched.filled (h : p.Untouched) (hquote : ∀ c ∈ quote, src.Begins now c)
    (hstart : p.start ≤ now) (hnow : now + (if quote.isSome then 1 else 0) ≤ now') :
    Filled src D quote now'
      { p with quoted := quote.isSome, valueStart := now, text := none } where
  quoted := rfl
  begins := hquote
  start := hstart
  floor := hnow
  parts := by
    simp only [h.parts]
    exact .nil _ _
  last := by simp [h.parts]
  text := by simp
  sources := by simp [h.parts]
  counts hdynamic := by simp [h.dynamic] at hdynamic

namespace Filled

variable (h : p.Filled src D quote now)
include h

theorem later (hnow : now ≤ now') : p.Filled src D quote now' where
  quoted := h.quoted
  begins := h.begins
  start := h.start
  floor := h.floor.trans hnow
  parts := by
    have hparts := h.parts
    cases htext : p.text with
    | none =>
      rw [htext] at hparts
      exact hparts.mono hnow
    | some t =>
      rw [htext] at hparts
      exact hparts
  last := h.last
  text t ht := by
    obtain ⟨hne, hfloor, hle, hstop⟩ := h.text t ht
    exact ⟨hne, hfloor, hle, hstop.trans hnow⟩
  sources := h.sources
  counts := h.counts

theorem addText {chars : List Char} (hchars : chars ≠ []) (hnow : now ≤ now') :
    (p.addText chars ⟨now, now'⟩).Filled src D quote now' where
  quoted := h.quoted
  begins := h.begins
  start := h.start
  floor := h.floor.trans hnow
  parts := by
    have hparts := h.parts
    cases htext : p.text <;> rw [htext] at hparts <;>
      simp only [PendingAttribute.addText, htext, Option.elim_some] <;> exact hparts
  last := h.last
  text t ht := by
    cases htext : p.text with
    | none =>
      simp only [PendingAttribute.addText, htext, Option.mem_def, Option.some.injEq] at ht
      subst ht
      exact ⟨hchars, h.floor, hnow, le_refl _⟩
    | some t' =>
      obtain ⟨-, hfloor, hle, hstop⟩ := h.text t' htext
      simp only [PendingAttribute.addText, htext, Option.mem_def, Option.some.injEq] at ht
      subst ht
      exact ⟨List.append_ne_nil_of_right_ne_nil _ hchars, hfloor, hle.trans (hstop.trans hnow),
        le_refl _⟩
  sources := h.sources
  counts := h.counts.addText _ _

theorem finishText : Parted p.floor now p.finishText.parts
    ∧ (∀ d, .dynamic d ∈ p.finishText.parts → D d) := by
  have hparts := h.parts
  cases htext : p.text with
  | none =>
    rw [htext] at hparts
    simp only [PendingAttribute.finishText, htext]
    exact ⟨hparts, h.sources⟩
  | some t =>
    rw [htext] at hparts
    obtain ⟨hne, hfloor, hle, hstop⟩ := h.text t htext
    simp only [PendingAttribute.finishText, htext]
    refine ⟨hparts.concat hfloor (le_refl _) hle hstop (fun y hy => ?_) fun t' ht' => ?_,
      fun d hd => ?_⟩
    · simp [h.last y hy]
    · rwa [← Part.text.inj ht']
    · rcases List.mem_append.mp hd with hd | hd
      · exact h.sources d hd
      · cases List.mem_singleton.mp hd

theorem addDynamic (hd : D d) (hstart : now ≤ d.span.start) (hle : d.span.start ≤ d.span.stop)
    (hstop : d.span.stop ≤ now') : (p.addDynamic d).Filled src D quote now' := by
  obtain ⟨hparts, hsources⟩ := h.finishText
  have hsame : p.finishText.quoted = p.quoted ∧ p.finishText.valueStart = p.valueStart
      ∧ p.finishText.start = p.start ∧ p.finishText.text = none := by
    unfold PendingAttribute.finishText
    cases htext : p.text <;> simp [htext]
  obtain ⟨hquoted, hvalue, hpstart, htext⟩ := hsame
  have hfloor : (p.addDynamic d).floor = p.floor := by
    simp only [PendingAttribute.addDynamic, PendingAttribute.floor, hquoted, hvalue]
  refine ⟨hquoted.trans h.quoted, ?_, ?_, ?_, ?_, ?_, ?_, ?_, p.counts_addDynamic d⟩
  · simp only [PendingAttribute.addDynamic, hvalue]
    exact h.begins
  · simp only [PendingAttribute.addDynamic, hvalue, hpstart]
    exact h.start
  · rw [hfloor]
    exact h.floor.trans (hstart.trans (hle.trans hstop))
  · rw [hfloor]
    simp only [PendingAttribute.addDynamic, htext, Option.elim_none]
    exact hparts.concat (h.floor.trans hstart) hstart hle hstop (fun y _ => by simp [Part.isText])
      fun t ht => by cases ht
  · simp [PendingAttribute.addDynamic, Part.isText]
  · simp [PendingAttribute.addDynamic, htext]
  · intro d' hd'
    rcases List.mem_append.mp hd' with hd' | hd'
    · exact hsources d' hd'
    · rwa [Part.dynamic.inj (List.mem_singleton.mp hd')]

end Filled

end PendingAttribute

/-- Text and mustaches between two quotes. -/
structure WellParted (src : Source) (D : Dynamic → Prop) (parts : List Part) (span : Span) :
    Prop where
  quoted : src.Quoted span
  parted : Parted (span.start + 1) (span.stop - 1) parts
  mixed : ∃ d, .dynamic d ∈ parts
  sources : ∀ d, .dynamic d ∈ parts → D d

def AttributeValue.Formed (src : Source) (ts : List Mustache.Token) (D : Dynamic → Prop)
    (whole : Span) : AttributeValue → Prop
  | .text _ => Unbroken src ts whole.start whole.stop
  | .dynamic d => D d ∧ whole.start ≤ d.span.start ∧ d.span.stop ≤ whole.stop
  | .concat parts span =>
    WellParted src D parts span ∧ whole.start ≤ span.start ∧ span.stop = whole.stop

theorem PendingAttribute.Filled.value {src : Source} {ts : List Mustache.Token}
    {D : Dynamic → Prop} {quote : Option Char} {now stop : Nat} {p : PendingAttribute}
    {value : AttributeValue} (h : p.Filled src D quote now)
    (hunbroken : p.dynamic = false → Unbroken src ts p.start stop) (hnow : now ≤ stop)
    (hquote : ∀ c ∈ quote, isQuote c = true ∧ src.Begins now c ∧ stop = now + 1)
    (hvalue : p.finishText.value? ⟨p.valueStart, stop⟩ = .ok value) :
    value.Formed src ts D ⟨p.start, stop⟩ := by
  obtain ⟨hparts, hsources⟩ := h.finishText
  have hsame : p.finishText.dynamic = p.dynamic ∧ p.finishText.quoted = p.quoted := by
    unfold PendingAttribute.finishText
    split <;> exact ⟨rfl, rfl⟩
  rw [PendingAttribute.value?, hsame.1, hsame.2] at hvalue
  split at hvalue
  · rename_i hstatic
    cases hvalue
    exact hunbroken (by simpa using hstatic)
  · rename_i hdynamic
    obtain ⟨d, hd⟩ := h.counts (by simpa using hdynamic)
    have hmem := PendingAttribute.finishText_of_dynamic hd
    split at hvalue
    · rename_i hquoted
      cases hvalue
      have hsome : quote.isSome = true := h.quoted.symm.trans hquoted
      obtain ⟨c, hc⟩ := Option.isSome_iff_exists.mp hsome
      obtain ⟨hisquote, hend, rfl⟩ := hquote c hc
      have hfloor : p.floor = p.valueStart + 1 := by
        rw [PendingAttribute.floor, hquoted, if_pos rfl]
      have hsize := Html.byteLength_of_isQuote hisquote
      have hdelimits := (h.begins c hc).delimits hend (by rw [hsize, ← hfloor]; exact h.floor)
      rw [hsize] at hdelimits
      rw [hfloor] at hparts
      exact ⟨⟨⟨c, hisquote, hdelimits⟩, hparts, ⟨d, hmem⟩, hsources⟩, h.start, rfl⟩
    · split at hvalue
      · rename_i part hpart
        cases hvalue
        obtain ⟨hstart, -, hstop⟩ := hparts.within _ hmem
        have hd' := hsources d hmem
        rw [hpart, List.mem_singleton] at hmem
        subst hmem
        have hle : p.start ≤ p.floor := h.start.trans (Nat.le_add_right _ _)
        exact ⟨hd', hle.trans hstart, hstop.trans hnow⟩
      · cases hvalue

end Tree

end HtmlTemplate
