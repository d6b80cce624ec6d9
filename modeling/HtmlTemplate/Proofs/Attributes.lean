import HtmlTemplate.Proofs.Modes
import HtmlTemplate.Proofs.Tags
import Mathlib.Data.List.TakeWhile

/-! Attributes as they are written and as they are read. A slash ends a value without quotes
wherever it stands but at its start; what is written between such slashes is read as attributes
without a value. -/

namespace HtmlTemplate.Html

/-- How the value of an attribute is written. -/
inductive WrittenValue where
  | none
  | double (chars : List Char)
  | single (chars : List Char)
  | unquoted (chars : List Char)
deriving DecidableEq

namespace WrittenValue

/-- The value that is meant. An attribute without one has the empty value. -/
def chars : WrittenValue → List Char
  | none => []
  | double v | single v | unquoted v => v

def text : WrittenValue → List Char
  | none => []
  | double v => '=' :: '"' :: v ++ ['"']
  | single v => '=' :: '\'' :: v ++ ['\'']
  | unquoted v => '=' :: v

/-- Characters that end a value without quotes, or that do not belong into one. -/
def isReserved (c : Char) : Bool :=
  isSpace c || ['"', '\'', '=', '<', '>', '`'].contains c

def WellFormed : WrittenValue → Prop
  | none => True
  | double v => '"' ∉ v
  | single v => '\'' ∉ v
  | unquoted v => v ≠ [] ∧ (∀ c ∈ v, isReserved c = false) ∧ v.getLast? ≠ some '/'

instance : DecidablePred WellFormed
  | none => inferInstanceAs (Decidable True)
  | double v => inferInstanceAs (Decidable ('"' ∉ v))
  | single v => inferInstanceAs (Decidable ('\'' ∉ v))
  | unquoted v => decidable_of_iff
      (v ≠ [] ∧ v.all (!isReserved ·) = true ∧ v.getLast? ≠ some '/') (by simp [WellFormed])

/-- No slash ends the value early. -/
def Whole : WrittenValue → Prop
  | unquoted v => '/' ∉ v.tail
  | _ => True

instance : DecidablePred Whole
  | none | double _ | single _ => inferInstanceAs (Decidable True)
  | unquoted v => inferInstanceAs (Decidable ('/' ∉ v.tail))

end WrittenValue

structure WrittenAttribute where
  name : List Char
  value : WrittenValue
deriving DecidableEq

namespace WrittenAttribute

def isNameChar (c : Char) : Bool :=
  c.isAlphanum || c == '-'

structure WellFormed (a : WrittenAttribute) : Prop where
  nonempty : a.name ≠ []
  name : ∀ c ∈ a.name, isNameChar c = true
  value : a.value.WellFormed

instance : DecidablePred WellFormed := fun a =>
  decidable_of_iff (a.name ≠ [] ∧ a.name.all isNameChar = true ∧ a.value.WellFormed)
    ⟨fun ⟨hne, hname, hvalue⟩ => ⟨hne, List.all_eq_true.mp hname, hvalue⟩,
      fun h => ⟨h.nonempty, List.all_eq_true.mpr h.name, h.value⟩⟩

def text (a : WrittenAttribute) : List Char :=
  a.name ++ a.value.text

def meant (a : WrittenAttribute) : List Char × List Char :=
  (a.name, a.value.chars)

def betweenSlashes (cs : List Char) : List (List Char × List Char) :=
  ((cs.splitOn '/').filter (!·.isEmpty)).map fun name => (name, [])

def read (a : WrittenAttribute) : List (List Char × List Char) :=
  match a.value with
  | .unquoted (c :: cs) =>
    (a.name, c :: cs.takeWhile (· != '/')) :: betweenSlashes (cs.dropWhile (· != '/'))
  | value => [(a.name, value.chars)]

end WrittenAttribute

/-- A start tag with some attributes, each after a space. -/
def writtenTag (as : List WrittenAttribute) : List Char :=
  "<t".toList ++ as.flatMap (fun a => ' ' :: a.text) ++ ['>']

def Event.isOrderly : Event → Bool
  | .syntaxError .. | .selfClosing => false
  | _ => true

/-- Every machine that reads references as they are written comes from one state over some
characters to another, and what it reports on the way takes the one record to the other. -/
def Comes (q : State) (s : Scribe) (cs : List Char) (q' : State) (s' : Scribe) : Prop :=
  ∀ t : Tokenizer, t.mode = .codemod → t.state = q → ∃ (t' : Tokenizer) (es : List Event),
    t'.mode = .codemod ∧ t'.state = q' ∧ (∀ e ∈ es, e.isOrderly = true)
      ∧ es.foldl Scribe.record s = s'
      ∧ ∀ more, (t.feed (cs ++ more)).1.map (·.event) = es ++ (t'.feed more).1.map (·.event)
        ∧ (t.feed (cs ++ more)).2 = (t'.feed more).2

namespace Comes

variable {q q' q'' : State} {s s' s'' : Scribe} {cs ds : List Char}

theorem refl (q : State) (s : Scribe) : Comes q s [] q s :=
  fun t hmode hstate => ⟨t, [], hmode, hstate, List.forall_mem_nil _, rfl, fun _ => ⟨rfl, rfl⟩⟩

theorem trans (h : Comes q s cs q' s') (h' : Comes q' s' ds q'' s'') :
    Comes q s (cs ++ ds) q'' s'' := by
  intro t hmode hstate
  obtain ⟨t', es, hmode', hstate', hes, hs', hfeed⟩ := h t hmode hstate
  obtain ⟨t'', fs, hmode'', hstate'', hfs, hs'', hfeed'⟩ := h' t' hmode' hstate'
  refine ⟨t'', es ++ fs, hmode'', hstate'', List.forall_mem_append.mpr ⟨hes, hfs⟩,
    by rw [List.foldl_append, hs', hs''], fun more => ?_⟩
  obtain ⟨hevents, hlast⟩ := hfeed (ds ++ more)
  obtain ⟨hevents', hlast'⟩ := hfeed' more
  rw [List.append_assoc]
  exact ⟨by rw [hevents, hevents', List.append_assoc], hlast.trans hlast'⟩

theorem one {c : Char}
    (h : ∀ (t : Tokenizer) (rest : List Char), t.mode = .codemod → t.state = q →
      (t.step c rest).ahead = 0 ∧ (t.step c rest).now.mode = .codemod
        ∧ (t.step c rest).now.state = q'
        ∧ (∀ e ∈ (t.step c rest).emitted, e.event.isOrderly = true)
        ∧ (t.step c rest).emitted.foldl (fun s e => s.record e.event) s = s')
    (hrest : ∀ (t : Tokenizer) (rest : List Char), t.mode = .codemod → t.state = q →
      t.step c rest = t.step c []) : Comes q s [c] q' s' := by
  intro t hmode hstate
  obtain ⟨hahead, hmode', hstate', hes, hs'⟩ := h t [] hmode hstate
  refine ⟨(t.step c []).now, (t.step c []).emitted.map (·.event), hmode', hstate', ?_, ?_,
    fun more => ?_⟩
  · exact List.forall_mem_map.mpr hes
  · rw [List.foldl_map, hs']
  · have hfeed := t.events_feed_cons c more
    rw [hrest t more hmode hstate, hahead, List.drop_zero] at hfeed
    exact hfeed

theorem many {f : List Char → Scribe}
    (h : ∀ c ∈ cs, ∀ read, Comes q (f read) [c] q (f (read ++ [c]))) (read : List Char) :
    Comes q (f read) cs q (f (read ++ cs)) := by
  induction cs generalizing read with
  | nil => simpa using refl q (f read)
  | cons c cs ih =>
    have hfirst := h c List.mem_cons_self read
    have hmore := ih (fun c hc => h c (List.mem_cons_of_mem _ hc)) (read ++ [c])
    simpa using hfirst.trans hmore

end Comes

def inTag (t : Tag) (pending : Option (List Char × List Char)) : Scribe :=
  { current := some (.startTag t), pending }

def Tag.withAttributes (t : Tag) (as : List (List Char × List Char)) : Tag :=
  { t with attributes := t.attributes ++ as }

theorem Tag.withAttributes_append (t : Tag) (as bs : List (List Char × List Char)) :
    (t.withAttributes as).withAttributes bs = t.withAttributes (as ++ bs) := by
  simp [withAttributes]

open WrittenValue (isReserved)

theorem isReserved_eq_false {c : Char} :
    isReserved c = false ↔ isSpace c = false ∧ c ≠ '"' ∧ c ≠ '\'' ∧ c ≠ '=' ∧ c ≠ '<' ∧ c ≠ '>'
      ∧ c ≠ '`' := by
  simp [isReserved]

theorem isReserved_of_isNameChar {c : Char} (h : WrittenAttribute.isNameChar c = true) :
    isReserved c = false ∧ c ≠ '/' := by
  have hother : ['/', '"', '\'', '=', '<', '>', '`', ' ', '\t', '\n', '\r', '\x0c'].all
      (!WrittenAttribute.isNameChar ·) = true := by decide
  have hne : c ∉ ['/', '"', '\'', '=', '<', '>', '`', ' ', '\t', '\n', '\r', '\x0c'] :=
    fun hc => by simpa [h] using List.all_eq_true.mp hother c hc
  simp only [List.mem_cons, not_or] at hne
  simp [isReserved, isSpace, hne]

section
variable {t : Tag} {name value : List Char} {c : Char} {cs : List Char}

theorem comes_nameChar (hc : isReserved c = false) (hslash : c ≠ '/') :
    Comes .attributeName (inTag t (some (name, []))) [c]
      .attributeName (inTag t (some (name ++ [c], []))) := by
  obtain ⟨hspace, hquote, hquote', hequals, hlt, hgt, -⟩ := isReserved_eq_false.mp hc
  refine .one (fun t rest hmode hstate => ?_) fun t rest hmode hstate => ?_
  all_goals
    simp [Tokenizer.step, hstate, hmode, Step.attributeName, hspace, hslash, hquote, hquote',
      hequals, hlt, hgt, Step.read, Step.emit, Event.isOrderly, Scribe.record, inTag]

theorem comes_name (h : ∀ c ∈ cs, isReserved c = false ∧ c ≠ '/') :
    Comes .attributeName (inTag t (some (name, []))) cs
      .attributeName (inTag t (some (name ++ cs, []))) :=
  .many (f := fun name => inTag t (some (name, [])))
    (fun c hc _ => comes_nameChar (h c hc).1 (h c hc).2) name

theorem comes_equals :
    Comes .attributeName (inTag t (some (name, []))) ['=']
      .beforeAttributeValue (inTag t (some (name, []))) := by
  refine .one (fun t rest hmode hstate => ?_) fun t rest hmode hstate => ?_
  all_goals
    simp [Tokenizer.step, hstate, hmode, Step.attributeName, isSpace, Step.read, Step.become]

inductive Quotes : Char → State → Prop
  | double : Quotes '"' .attributeValueDoubleQuoted
  | single : Quotes '\'' .attributeValueSingleQuoted

theorem Quotes.step {quote : Char} {q : State} (h : Quotes quote q) {t : Tokenizer}
    (ht : t.state = q) (c : Char) (rest : List Char) :
    t.step c rest = Step.quotedValue { now := t } quote c rest := by
  cases h <;> simp [Tokenizer.step, ht]

theorem comes_quoted {quote : Char} {q : State} (h : Quotes quote q) (hcs : quote ∉ cs) :
    Comes .attributeName (inTag t (some (name, []))) ('=' :: quote :: cs ++ [quote])
      .afterAttributeValueQuoted (inTag (t.withAttributes [(name, cs)]) none) := by
  have hopen : Comes .beforeAttributeValue (inTag t (some (name, []))) [quote]
      q (inTag t (some (name, []))) := by
    refine .one (fun t rest hmode hstate => ?_) fun t rest hmode hstate => ?_
    all_goals
      cases h
      all_goals
        simp [Tokenizer.step, hstate, hmode, Step.beforeAttributeValue, isSpace, Step.read,
          Step.emitHere, Step.emit, Step.become, Event.isOrderly, Scribe.record]
  have hgrow : Comes q (inTag t (some (name, []))) cs q (inTag t (some (name, [] ++ cs))) := by
    refine .many (f := fun value => inTag t (some (name, value))) (fun c hc value => ?_) []
    have hne : c ≠ quote := fun hc' => hcs (hc' ▸ hc)
    refine .one (fun t rest hmode hstate => ?_) fun t rest hmode hstate => ?_
    all_goals
      simp [h.step hstate, hstate, hne, Step.quotedValue, Step.valueText, Step.decode_codemod,
        hmode, Step.read, Step.emit, Event.isOrderly, Scribe.record, inTag]
  have hclose : Comes q (inTag t (some (name, [] ++ cs))) [quote]
      .afterAttributeValueQuoted (inTag (t.withAttributes [(name, cs)]) none) := by
    refine .one (fun t rest hmode hstate => ?_) fun t rest hmode hstate => ?_
    all_goals
      simp [h.step hstate, hstate, hmode, Step.quotedValue, Step.read, Step.emitHere, Step.emit,
        Step.become, Event.isOrderly, Scribe.record, Scribe.mapTag, inTag, Tag.withAttributes]
  exact ((comes_equals.trans hopen).trans hgrow).trans hclose

theorem comes_unquoted_first (hc : isReserved c = false) :
    Comes .beforeAttributeValue (inTag t (some (name, []))) [c]
      .attributeValueUnquoted (inTag t (some (name, [c]))) := by
  obtain ⟨hspace, hquote, hquote', -, -, hgt, -⟩ := isReserved_eq_false.mp hc
  refine .one (fun t rest hmode hstate => ?_) fun t rest hmode hstate => ?_
  all_goals
    simp [Tokenizer.step, hstate, hmode, Step.beforeAttributeValue, Step.valueText,
      Step.decode_codemod, hspace, hquote, hquote', hgt, Step.read, Step.emitHere, Step.emit,
      Step.become, Event.isOrderly, Scribe.record, inTag]

theorem comes_unquoted_char (hc : isReserved c = false) (hslash : c ≠ '/') :
    Comes .attributeValueUnquoted (inTag t (some (name, value))) [c]
      .attributeValueUnquoted (inTag t (some (name, value ++ [c]))) := by
  obtain ⟨hspace, -, -, -, -, hgt, -⟩ := isReserved_eq_false.mp hc
  refine .one (fun t rest hmode hstate => ?_) fun t rest hmode hstate => ?_
  all_goals
    simp [Tokenizer.step, hstate, hmode, Step.unquotedValue, Step.valueText, Step.decode_codemod,
      hspace, hslash, hgt, Step.read, Step.emit, Event.isOrderly, Scribe.record, inTag]

end

inductive Resting : Tag → State → Scribe → Prop
  | name (t : Tag) : Resting t .tagName (inTag t none)
  | bare (t : Tag) (name : List Char) :
      Resting (t.withAttributes [(name, [])]) .attributeName (inTag t (some (name, [])))
  | quoted (t : Tag) : Resting t .afterAttributeValueQuoted (inTag t none)
  | unquoted (t : Tag) (name value : List Char) :
      Resting (t.withAttributes [(name, value)]) .attributeValueUnquoted
        (inTag t (some (name, value)))

section
variable {t : Tag} {q : State} {s : Scribe} {c : Char} {cs : List Char}

namespace Resting

theorem close (h : Resting t q s) : Comes q s ['>'] .beforeData { done := [.startTag t] } := by
  cases h
  all_goals
    refine .one (fun t rest hmode hstate => ?_) fun t rest hmode hstate => ?_
    all_goals
      simp [Tokenizer.step, hstate, hmode, Step.tagName, Step.attributeName,
        Step.afterAttributeValueQuoted, Step.unquotedValue, isSpace, Step.closeTag,
        Step.emptyValue, Step.read, Step.emitHere, Step.emit, Step.become, Event.isOrderly,
        Scribe.record, Scribe.mapTag, Scribe.finish, inTag, Tag.withAttributes]

theorem slash (h : Resting t q s) : Comes q s ['/'] .selfClosingStartTag (inTag t none) := by
  cases h
  all_goals
    refine .one (fun t rest hmode hstate => ?_) fun t rest hmode hstate => ?_
    all_goals
      simp [Tokenizer.step, hstate, hmode, Step.tagName, Step.attributeName,
        Step.afterAttributeValueQuoted, Step.unquotedValue, isSpace,
        Step.emptyValue, Step.read, Step.emitHere, Step.emit, Step.become, Event.isOrderly,
        Scribe.record, Scribe.mapTag, inTag, Tag.withAttributes]

theorem next (h : Resting t q s) (hc : isReserved c = false) (hslash : c ≠ '/') :
    Comes q s [' ', c] .attributeName (inTag t (some ([c], []))) := by
  obtain ⟨hspace, hquote, hquote', hequals, hlt, hgt, -⟩ := isReserved_eq_false.mp hc
  have hfirst : Comes .beforeAttributeName (inTag t none) [c]
      .attributeName (inTag t (some ([c], []))) := by
    refine .one (fun t rest hmode hstate => ?_) fun t rest hmode hstate => ?_
    all_goals
      simp [Tokenizer.step, hstate, hmode, Step.beforeAttributeName, Step.attributeName, hspace,
        hslash, hquote, hquote', hequals, hlt, hgt, Step.read, Step.emitHere, Step.emit,
        Step.become, Event.isOrderly, Scribe.record, inTag]
  have hgo {s : Scribe} (hspace : Comes q s [' '] .beforeAttributeName (inTag t none)) :
      Comes q s [' ', c] .attributeName (inTag t (some ([c], []))) := hspace.trans hfirst
  cases h with
  | bare t name =>
    have hwait : Comes .attributeName (inTag t (some (name, []))) [' ']
        .afterAttributeName (inTag t (some (name, []))) := by
      refine .one (fun t rest hmode hstate => ?_) fun t rest hmode hstate => ?_
      all_goals
        simp [Tokenizer.step, hstate, hmode, Step.attributeName, isSpace, Step.read, Step.become]
    have hempty : Comes .afterAttributeName (inTag t (some (name, []))) [c]
        .attributeName (inTag (t.withAttributes [(name, [])]) (some ([c], []))) := by
      refine .one (fun t rest hmode hstate => ?_) fun t rest hmode hstate => ?_
      all_goals
        simp [Tokenizer.step, hstate, hmode, Step.afterAttributeName, Step.emptyValue, hspace,
          hslash, hequals, hgt, Step.read, Step.emitHere, Step.emit, Step.become,
          Event.isOrderly, Scribe.record, Scribe.mapTag, inTag, Tag.withAttributes]
    exact hwait.trans hempty
  | _ =>
    refine hgo (.one (fun t rest hmode hstate => ?_) fun t rest hmode hstate => ?_)
    all_goals
      simp [Tokenizer.step, hstate, hmode, Step.tagName, Step.afterAttributeValueQuoted,
        Step.unquotedValue, isSpace, Step.read, Step.emitHere, Step.emit, Step.become,
        Event.isOrderly, Scribe.record, Scribe.mapTag, inTag, Tag.withAttributes]

end Resting

open WrittenAttribute (betweenSlashes)

private theorem splitOn_eq (cs : List Char) :
    cs.splitOn '/'
      = cs.takeWhile (· != '/') :: ((cs.dropWhile (· != '/')).splitOn '/').tail := by
  induction cs with
  | nil => rfl
  | cons c cs ih =>
    by_cases hc : c = '/'
    · simp [hc, List.splitOn, List.splitOnP_cons_eq_if_modifyHead]
    · rw [List.takeWhile_cons_of_pos (by simpa using hc),
        List.dropWhile_cons_of_pos (by simpa using hc)]
      simpa [hc, List.splitOn, List.splitOnP_cons_eq_if_modifyHead] using
        congrArg (List.modifyHead (List.cons c)) ih

theorem betweenSlashes_slash (cs : List Char) :
    betweenSlashes ('/' :: cs) = betweenSlashes cs := by
  simp [betweenSlashes, List.splitOn, List.splitOnP_cons_eq_if_modifyHead]

private theorem betweenSlashes_word (hc : c ≠ '/') (cs : List Char) :
    betweenSlashes (c :: cs)
      = (c :: cs.takeWhile (· != '/'), []) :: betweenSlashes (cs.dropWhile (· != '/')) := by
  have hrest : betweenSlashes (cs.dropWhile (· != '/'))
      = ((((cs.dropWhile (· != '/')).splitOn '/').tail.filter (!·.isEmpty)).map
          fun name => (name, [])) := by
    cases hdrop : cs.dropWhile (· != '/') with
    | nil => rfl
    | cons d ds =>
      obtain rfl : d = '/' := by
        have hnot := List.head_dropWhile_not (· != '/') (by rw [hdrop]; exact List.cons_ne_nil d ds)
        simpa [hdrop] using hnot
      rw [betweenSlashes_slash]
      simp [betweenSlashes, List.splitOn, List.splitOnP_cons_eq_if_modifyHead]
  rw [hrest, betweenSlashes, splitOn_eq, List.takeWhile_cons_of_pos (by simpa using hc),
    List.dropWhile_cons_of_pos (by simpa using hc)]
  simp

private theorem comes_slashes (h : ∀ c ∈ cs, isReserved c = false) (hlast : cs.getLast? ≠ some '/')
    (t : Tag) :
    (cs ≠ [] → ∃ q s, Comes .selfClosingStartTag (inTag t none) cs q s
        ∧ Resting (t.withAttributes (betweenSlashes cs)) q s)
      ∧ ∀ name, ∃ q s, Comes .attributeName (inTag t (some (name, []))) cs q s
        ∧ Resting (t.withAttributes ((name ++ cs.takeWhile (· != '/'), [])
            :: betweenSlashes (cs.dropWhile (· != '/')))) q s := by
  induction cs generalizing t with
  | nil =>
    refine ⟨fun hne => absurd rfl hne, fun name => ⟨_, _, .refl _ _, ?_⟩⟩
    simpa [betweenSlashes] using Resting.bare t name
  | cons c cs ih =>
    obtain ⟨hc, hcs⟩ := List.forall_mem_cons.mp h
    have hmore : cs.getLast? ≠ some '/' := fun hmore => hlast (by simp [List.getLast?_cons, hmore])
    by_cases hslash : c = '/'
    · subst hslash
      have hne : cs ≠ [] := fun hnil => hlast (by simp [hnil])
      refine ⟨fun _ => ?_, fun name => ?_⟩
      · obtain ⟨q, s, hcomes, hrest⟩ := (ih hcs hmore t).1 hne
        have hagain : Comes .selfClosingStartTag (inTag t none) ['/']
            .selfClosingStartTag (inTag t none) := by
          refine .one (fun t rest hmode hstate => ?_) fun t rest hmode hstate => ?_
          all_goals
            simp [Tokenizer.step, hstate, hmode, Step.selfClosingStartTag,
              Step.beforeAttributeName, isSpace, Step.read, Step.become]
        rw [betweenSlashes_slash]
        exact ⟨q, s, hagain.trans hcomes, hrest⟩
      · obtain ⟨q, s, hcomes, hrest⟩ := (ih hcs hmore (t.withAttributes [(name, [])])).1 hne
        refine ⟨q, s, (Resting.bare t name).slash.trans hcomes, ?_⟩
        rw [Tag.withAttributes_append] at hrest
        simpa [betweenSlashes_slash] using hrest
    · refine ⟨fun _ => ?_, fun name => ?_⟩
      · obtain ⟨q, s, hcomes, hrest⟩ := (ih hcs hmore t).2 [c]
        have hfirst : Comes .selfClosingStartTag (inTag t none) [c]
            .attributeName (inTag t (some ([c], []))) := by
          obtain ⟨hspace, hquote, hquote', hequals, hlt, hgt, -⟩ := isReserved_eq_false.mp hc
          refine .one (fun t rest hmode hstate => ?_) fun t rest hmode hstate => ?_
          all_goals
            simp [Tokenizer.step, hstate, hmode, Step.selfClosingStartTag,
              Step.beforeAttributeName, Step.attributeName, hspace, hslash, hquote, hquote',
              hequals, hlt, hgt, Step.read, Step.emitHere, Step.emit, Step.become,
              Event.isOrderly, Scribe.record, inTag]
        rw [betweenSlashes_word hslash]
        exact ⟨q, s, hfirst.trans hcomes, hrest⟩
      · obtain ⟨q, s, hcomes, hrest⟩ := (ih hcs hmore t).2 (name ++ [c])
        refine ⟨q, s, (comes_nameChar hc hslash).trans hcomes, ?_⟩
        simpa [hslash] using hrest

private theorem comes_unquoted (h : ∀ c ∈ cs, isReserved c = false) (hlast : cs.getLast? ≠ some '/')
    (t : Tag) (name value : List Char) :
    ∃ q s, Comes .attributeValueUnquoted (inTag t (some (name, value))) cs q s
      ∧ Resting (t.withAttributes ((name, value ++ cs.takeWhile (· != '/'))
          :: betweenSlashes (cs.dropWhile (· != '/')))) q s := by
  induction cs generalizing value with
  | nil =>
    refine ⟨_, _, .refl _ _, ?_⟩
    simpa [betweenSlashes] using Resting.unquoted t name value
  | cons c cs ih =>
    obtain ⟨hc, hcs⟩ := List.forall_mem_cons.mp h
    have hmore : cs.getLast? ≠ some '/' := fun hmore => hlast (by simp [List.getLast?_cons, hmore])
    by_cases hslash : c = '/'
    · subst hslash
      have hne : cs ≠ [] := fun hnil => hlast (by simp [hnil])
      obtain ⟨q, s, hcomes, hrest⟩ :=
        (comes_slashes hcs hmore (t.withAttributes [(name, value)])).1 hne
      refine ⟨q, s, (Resting.unquoted t name value).slash.trans hcomes, ?_⟩
      rw [Tag.withAttributes_append] at hrest
      simpa [betweenSlashes_slash] using hrest
    · obtain ⟨q, s, hcomes, hrest⟩ := ih hcs hmore (value ++ [c])
      refine ⟨q, s, (comes_unquoted_char hc hslash).trans hcomes, ?_⟩
      simpa [hslash] using hrest

theorem Resting.attribute (h : Resting t q s) {a : WrittenAttribute} (ha : a.WellFormed) :
    ∃ q' s', Comes q s (' ' :: a.text) q' s' ∧ Resting (t.withAttributes a.read) q' s' := by
  obtain ⟨name, value⟩ := a
  obtain ⟨hne, hname, hvalue⟩ := ha
  obtain ⟨c, cs, rfl⟩ := List.exists_cons_of_ne_nil hne
  have hchars : ∀ d ∈ c :: cs, isReserved d = false ∧ d ≠ '/' :=
    fun d hd => isReserved_of_isNameChar (hname d hd)
  obtain ⟨⟨hc, hslash⟩, hcs⟩ := List.forall_mem_cons.mp hchars
  have hread : Comes q s (' ' :: c :: cs) .attributeName (inTag t (some (c :: cs, []))) :=
    (h.next hc hslash).trans (comes_name hcs)
  cases value with
  | none => exact ⟨_, _, by simpa [WrittenAttribute.text, WrittenValue.text] using hread, .bare _ _⟩
  | double v => exact ⟨_, _, hread.trans (comes_quoted .double hvalue), .quoted _⟩
  | single v => exact ⟨_, _, hread.trans (comes_quoted .single hvalue), .quoted _⟩
  | unquoted v =>
    obtain ⟨hv, hreserved, hlast⟩ := hvalue
    obtain ⟨d, ds, rfl⟩ := List.exists_cons_of_ne_nil hv
    obtain ⟨hd, hds⟩ := List.forall_mem_cons.mp hreserved
    have hmore : ds.getLast? ≠ some '/' :=
      fun hmore => hlast (by simp [List.getLast?_cons, hmore])
    obtain ⟨q', s', hcomes, hrest⟩ := comes_unquoted hds hmore t (c :: cs) [d]
    have hall := ((hread.trans comes_equals).trans (comes_unquoted_first hd)).trans hcomes
    exact ⟨q', s', by simpa [WrittenAttribute.text, WrittenValue.text] using hall, hrest⟩

theorem Resting.attributes {as : List WrittenAttribute} (has : ∀ a ∈ as, a.WellFormed)
    (h : Resting t q s) :
    ∃ q' s', Comes q s (as.flatMap fun a => ' ' :: a.text) q' s'
      ∧ Resting (t.withAttributes (as.flatMap (·.read))) q' s' := by
  induction as generalizing t q s with
  | nil => exact ⟨q, s, .refl q s, by simpa [Tag.withAttributes] using h⟩
  | cons a as ih =>
    obtain ⟨ha, has⟩ := List.forall_mem_cons.mp has
    obtain ⟨q', s', hcomes, hrest⟩ := h.attribute ha
    obtain ⟨q'', s'', hcomes', hrest'⟩ := ih has hrest
    rw [Tag.withAttributes_append] at hrest'
    exact ⟨q'', s'', hcomes.trans hcomes', hrest'⟩

end

def tagBegun : Tokenizer where
  mode := .codemod
  state := .tagName
  position := Position.first.after ['<', 't']
  tagName := ['t']

private theorem feed_tagBegun (more : List Char) :
    ((Tokenizer.feed { mode := .codemod } ('<' :: 't' :: more)).1.map (·.event)
        = .beginStartTag .first :: .tagName 't' :: (tagBegun.feed more).1.map (·.event))
      ∧ (Tokenizer.feed { mode := .codemod } ('<' :: 't' :: more)).2 = (tagBegun.feed more).2 := by
  have hfirst := Tokenizer.events_feed_cons { mode := .codemod } '<' ('t' :: more)
  have hsecond := Tokenizer.events_feed_cons
    { mode := .codemod, state := .tagOpen, position := Position.first.after ['<'] } 't' more
  exact ⟨hfirst.1.trans hsecond.1, hfirst.2.trans hsecond.2⟩

/-- What is reported of a tag, and the machine behind it. -/
def reportsOf (as : List WrittenAttribute) : List Event × Tokenizer :=
  let (reported, last) := Tokenizer.feed { mode := .codemod } (writtenTag as)
  (reported.map (·.event), last)

private theorem reportsOf_reads {as : List WrittenAttribute} (has : ∀ a ∈ as, a.WellFormed) :
    (reportsOf as).2.state = .beforeData ∧ (∀ e ∈ (reportsOf as).1, e.isOrderly = true)
      ∧ tokens (reportsOf as).1
        = [.startTag { name := ['t'], attributes := as.flatMap (·.read) }] := by
  obtain ⟨q, s, hattributes, hrest⟩ := (Resting.name { name := ['t'] }).attributes has
  obtain ⟨t, es, -, hstate, hes, htokens, hfeed⟩ :=
    (hattributes.trans hrest.close) tagBegun rfl rfl
  obtain ⟨hevents, hlast⟩ := hfeed []
  simp only [List.append_nil, Tokenizer.feed_nil, List.map_nil] at hevents hlast
  obtain ⟨hnamed, hlast'⟩ := feed_tagBegun (as.flatMap (fun a => ' ' :: a.text) ++ ['>'])
  rw [hevents] at hnamed
  rw [show (reportsOf as).1 = _ from hnamed]
  refine ⟨(congrArg Tokenizer.state (hlast'.trans hlast)).trans hstate, ?_, ?_⟩
  · exact List.forall_mem_cons.mpr ⟨rfl, List.forall_mem_cons.mpr ⟨rfl, hes⟩⟩
  · exact congrArg Scribe.done htokens

theorem WrittenAttribute.read_of_whole {a : WrittenAttribute} (h : a.value.Whole) :
    a.read = [a.meant] := by
  obtain ⟨name, value⟩ := a
  unfold read
  split
  · rename_i c cs hvalue
    obtain rfl : value = _ := hvalue
    have hcs : ∀ d ∈ cs, (d != '/') = true := fun d hd => bne_iff_ne.mpr fun hslash =>
      h (show '/' ∈ cs from hslash ▸ hd)
    rw [List.takeWhile_eq_self_iff.mpr hcs, List.dropWhile_eq_nil_iff.mpr hcs]
    rfl
  · rfl

theorem WrittenAttribute.whole_of_read {a : WrittenAttribute}
    {as bs : List (List Char × List Char)} (h : a.read ++ as = a.meant :: bs) :
    a.value.Whole := by
  obtain ⟨name, value⟩ := a
  cases value with
  | unquoted v =>
    cases v with
    | nil => exact List.not_mem_nil
    | cons c cs =>
      have hvalue : (name, c :: cs.takeWhile (· != '/')) = (name, c :: cs) :=
        (List.cons.inj h).1
      have htake : cs.takeWhile (· != '/') = cs := (List.cons.inj (Prod.mk.inj hvalue).2).2
      intro hslash
      exact bne_iff_ne.mp (List.takeWhile_eq_self_iff.mp htake '/' hslash) rfl
  | _ => trivial

private theorem flatMap_read_eq_iff {as : List WrittenAttribute} :
    as.flatMap (·.read) = as.map (·.meant) ↔ ∀ a ∈ as, a.value.Whole := by
  induction as with
  | nil => simp
  | cons a as ih =>
    rw [List.flatMap_cons, List.map_cons, List.forall_mem_cons, ← ih]
    constructor
    · intro h
      have hwhole := WrittenAttribute.whole_of_read h
      rw [WrittenAttribute.read_of_whole hwhole] at h
      exact ⟨hwhole, (List.cons.inj h).2⟩
    · rintro ⟨hwhole, h⟩
      rw [WrittenAttribute.read_of_whole hwhole, h, List.singleton_append]

/-- Attributes are read as they are written, in their order and in one tag that does not close
itself, except that a slash ends a value without quotes unless the value starts with it. -/
theorem reads_attributes_iff {as : List WrittenAttribute} (has : ∀ a ∈ as, a.WellFormed) :
    Faultless (reportsOf as).1 ∧ .selfClosing ∉ (reportsOf as).1
      ∧ (reportsOf as).2.state = .beforeData
      ∧ (tokens (reportsOf as).1 = [.startTag { name := ['t'], attributes := as.map (·.meant) }]
        ↔ ∀ a ∈ as, a.value.Whole) := by
  obtain ⟨hstate, horderly, htokens⟩ := reportsOf_reads has
  refine ⟨fun e he => ?_, fun hclosing => Bool.false_ne_true (horderly _ hclosing), hstate, ?_⟩
  · have hquiet := horderly e he
    cases e with
    | syntaxError => cases hquiet
    | _ => rfl
  · rw [htokens, ← flatMap_read_eq_iff]
    simp

/-- The slashes of `b="/x/y" c=/z d` end nothing; that of `a=x/y` ends the value. -/
theorem reads_attributes_slashes :
    tokens (reportsOf [⟨['b'], .double "/x/y".toList⟩, ⟨['c'], .unquoted "/z".toList⟩,
        ⟨['d'], .none⟩]).1
        = [.startTag { name := ['t'], attributes := [(['b'], "/x/y".toList), (['c'], "/z".toList),
            (['d'], [])] }]
      ∧ tokens (reportsOf [⟨['a'], .unquoted "x/y".toList⟩]).1
        ≠ [.startTag { name := ['t'], attributes := [(['a'], "x/y".toList)] }]
      ∧ tokens (reportsOf [⟨['a'], .unquoted "x/y".toList⟩]).1
        = [.startTag { name := ['t'], attributes := [(['a'], ['x']), (['y'], [])] }] := by
  refine ⟨(reads_attributes_iff (by decide)).2.2.2.mpr (by decide), fun hmeant => ?_, by decide⟩
  exact absurd ((reads_attributes_iff (by decide)).2.2.2.mp hmeant) (by decide)

end HtmlTemplate.Html
