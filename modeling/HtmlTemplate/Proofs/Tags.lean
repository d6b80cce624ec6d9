import HtmlTemplate.Html.Event
import HtmlTemplate.Html.State

/-! HTML text as a sequence of tags, texts and comments, put together from what the machine
reports, and when the tags of such a sequence are balanced. -/

namespace HtmlTemplate.Html

structure Tag where
  name : List Char := []
  /-- Names and values, in the order in which they are written. -/
  attributes : List (List Char × List Char) := []
  selfClosing : Bool := false
deriving DecidableEq, Repr

inductive Token where
  | startTag (t : Tag)
  | endTag (t : Tag)
  | text (chars : List Char)
  | comment (value : List Char)
deriving DecidableEq, Repr

/-- What has been written down of the reports so far. -/
structure Scribe where
  done : List Token := []
  /-- The token under way. -/
  current : Option Token := none
  /-- The attribute under way. -/
  pending : Option (List Char × List Char) := none
deriving DecidableEq, Repr

namespace Scribe

def mapTag (f : Tag → Tag) (s : Scribe) : Scribe :=
  { s with
    current := s.current.map fun
      | .startTag t => .startTag (f t)
      | .endTag t => .endTag (f t)
      | token => token }

theorem current_mapTag_endTag {s : Scribe} {t : Tag} (h : s.current = some (.endTag t))
    (f : Tag → Tag) : (s.mapTag f).current = some (.endTag (f t)) := by
  simp [mapTag, h]

def grow (s : Scribe) (chars : List Char) : Scribe :=
  { s with
    current := s.current.map fun
      | .text before => .text (before ++ chars)
      | .comment before => .comment (before ++ chars)
      | token => token }

def finish (s : Scribe) : Scribe :=
  { s with done := s.done ++ s.current.toList, current := none }

/-- Takes down a report. Faults are passed over. -/
def record (s : Scribe) : Event → Scribe
  | .reset => {}
  | .beginStartTag _ => { s with current := some (.startTag {}) }
  | .beginEndTag _ => { s with current := some (.endTag {}) }
  | .beginData _ => { s with current := some (.text []) }
  | .beginComment _ => { s with current := some (.comment []) }
  | .tagName c => s.mapTag fun t => { t with name := t.name ++ [c] }
  | .selfClosing => s.mapTag fun t => { t with selfClosing := true }
  | .beginAttribute _ => { s with pending := some ([], []) }
  | .attributeName c => { s with pending := s.pending.map fun (n, v) => (n ++ [c], v) }
  | .attributeValue text _ => { s with pending := s.pending.map fun (n, v) => (n, v ++ text) }
  | .finishAttributeValue _ =>
    { s.mapTag fun t => { t with attributes := t.attributes ++ s.pending.toList } with
      pending := none }
  | .data text | .commentData text => s.grow text
  | .finishTag _ | .finishData _ | .finishComment _ => s.finish
  | .beginAttributeValue .. | .syntaxError .. => s

theorem done_isPrefix (s : Scribe) (e : Event) (he : e ≠ .reset) :
    s.done <+: (s.record e).done := by
  cases e with
  | reset => exact absurd rfl he
  | finishTag | finishData | finishComment => exact List.prefix_append _ _
  | _ => exact List.prefix_refl _

theorem done_isPrefix_foldl (s : Scribe) {es : List Event} (hes : .reset ∉ es) :
    s.done <+: (es.foldl record s).done := by
  induction es generalizing s with
  | nil => exact List.prefix_refl _
  | cons e es ih =>
    rw [List.mem_cons, not_or] at hes
    obtain ⟨he, hes⟩ := hes
    exact (s.done_isPrefix e (Ne.symm he)).trans (ih (s.record e) hes)

end Scribe

/-- The tags, texts and comments that are complete after some reports. -/
def tokens (es : List Event) : List Token :=
  (es.foldl Scribe.record {}).done

def Event.isFault : Event → Bool
  | .syntaxError .. => true
  | _ => false

/-- None of the reports is a fault. -/
def Faultless (es : List Event) : Prop :=
  ∀ e ∈ es, e.isFault = false

instance : DecidablePred Faultless := fun es =>
  inferInstanceAs (Decidable (∀ e ∈ es, e.isFault = false))

theorem faultless_reset {es : List Event} : Faultless (.reset :: es) ↔ Faultless es :=
  List.forall_mem_cons.trans (and_iff_right rfl)

/-- The tag of an element without children and without an end tag. -/
def Tag.isChildless (t : Tag) : Bool :=
  t.selfClosing || isVoid t.name

/-- Every start tag of an element with children is matched by an end tag of its name. -/
inductive Balanced : List Token → Prop
  | nil : Balanced []
  | text {chars : List Char} {ts : List Token} : Balanced ts → Balanced (.text chars :: ts)
  | comment {value : List Char} {ts : List Token} : Balanced ts → Balanced (.comment value :: ts)
  | childless {t : Tag} {ts : List Token} :
      t.isChildless = true → Balanced ts → Balanced (.startTag t :: ts)
  | element {t t' : Tag} {inside after : List Token} :
      t.isChildless = false → Balanced inside → t'.name = t.name → Balanced after →
      Balanced (.startTag t :: inside ++ .endTag t' :: after)

/-- The names of the elements that are open after some tokens, innermost first, given those
before. There are none if an end tag is not that of the innermost element. -/
def openAfter (opened : List (List Char)) : List Token → Option (List (List Char))
  | [] => some opened
  | .startTag t :: ts =>
    if t.isChildless then openAfter opened ts else openAfter (t.name :: opened) ts
  | .endTag t :: ts =>
    match opened with
    | name :: opened => if name = t.name then openAfter opened ts else none
    | [] => none
  | .text _ :: ts | .comment _ :: ts => openAfter opened ts

theorem openAfter_append (opened : List (List Char)) (ts ts' : List Token) :
    openAfter opened (ts ++ ts') = (openAfter opened ts).bind (openAfter · ts') := by
  induction ts generalizing opened with
  | nil => rfl
  | cons t ts ih =>
    cases t with
    | text | comment => exact ih opened
    | startTag t =>
      simp only [List.cons_append, openAfter]
      split
      · exact ih opened
      · exact ih (t.name :: opened)
    | endTag t =>
      cases opened with
      | nil => rfl
      | cons name opened =>
        simp only [List.cons_append, openAfter]
        split
        · exact ih opened
        · rfl

theorem Balanced.openAfter {ts : List Token} (h : Balanced ts) (opened : List (List Char)) :
    openAfter opened ts = some opened := by
  induction h generalizing opened with
  | nil => rfl
  | text _ ih => exact ih opened
  | comment _ ih => exact ih opened
  | childless hchildless _ ih =>
    rw [Html.openAfter, if_pos hchildless]
    exact ih opened
  | element hchildless _ hname _ ihinside ihafter =>
    rw [List.cons_append, Html.openAfter, hchildless, if_neg Bool.false_ne_true, openAfter_append,
      ihinside, Option.bind_some, Html.openAfter, if_pos hname.symm]
    exact ihafter opened

/-- Balanced tags end no element without children. -/
theorem Balanced.not_isVoid {ts : List Token} (h : Balanced ts) {t : Tag} (ht : .endTag t ∈ ts) :
    isVoid t.name = false := by
  induction h with
  | nil => cases ht
  | text _ ih => exact ih (by simpa using ht)
  | comment _ ih => exact ih (by simpa using ht)
  | childless _ _ ih => exact ih (by simpa using ht)
  | element hchildless _ hname _ ihinside ihafter =>
    simp only [List.cons_append, List.mem_cons, List.mem_append, reduceCtorEq, false_or,
      Token.endTag.injEq] at ht
    obtain hinside | rfl | hafter := ht
    · exact ihinside hinside
    · rw [hname]
      exact (Bool.or_eq_false_iff.mp hchildless).2
    · exact ihafter hafter

def Ends : List (List Char) → List Token → Prop
  | [], ts => Balanced ts
  | name :: opened, ts => ∃ inside t after, ts = inside ++ .endTag t :: after ∧ t.name = name
      ∧ Balanced inside ∧ Ends opened after

theorem Ends.after {opened : List (List Char)} {ts : List Token} (h : Ends opened ts)
    (front : List Token) (hfront : ∀ {ts}, Balanced ts → Balanced (front ++ ts)) :
    Ends opened (front ++ ts) := by
  cases opened with
  | nil => exact hfront h
  | cons name opened =>
    obtain ⟨inside, t, after, rfl, hname, hinside, hafter⟩ := h
    exact ⟨front ++ inside, t, after, by simp, hname, hfront hinside, hafter⟩

private theorem ends_of_openAfter {opened : List (List Char)} {ts : List Token}
    (h : openAfter opened ts = some []) : Ends opened ts := by
  induction ts generalizing opened with
  | nil =>
    obtain rfl := Option.some.inj h
    exact .nil
  | cons t ts ih =>
    cases t with
    | text chars => exact (ih h).after [.text chars] .text
    | comment value => exact (ih h).after [.comment value] .comment
    | startTag t =>
      rw [openAfter] at h
      split at h
      · rename_i hchildless
        exact (ih h).after [.startTag t] (.childless hchildless)
      · rename_i hchildless
        obtain ⟨inside, t', after, rfl, hname, hinside, hafter⟩ := ih h
        have helement := hafter.after (.startTag t :: inside ++ [.endTag t']) fun hts =>
          by simpa using .element (by simpa using hchildless) hinside hname hts
        simpa using helement
    | endTag t =>
      cases opened with
      | nil => cases h
      | cons name opened =>
        rw [openAfter] at h
        split at h
        · rename_i hname
          exact ⟨[], t, ts, rfl, hname.symm, .nil, ih h⟩
        · cases h

theorem balanced_iff {ts : List Token} : Balanced ts ↔ openAfter [] ts = some [] :=
  ⟨fun h => h.openAfter [], ends_of_openAfter⟩

instance : DecidablePred Balanced := fun _ =>
  decidable_of_iff _ balanced_iff.symm

end HtmlTemplate.Html
