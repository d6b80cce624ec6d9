import HtmlTemplate.Proofs.AttributeSteps
import HtmlTemplate.Proofs.Elements
import HtmlTemplate.Proofs.Structure
import HtmlTemplate.Proofs.Written

/-! The attributes of a start tag and the one that is under way, while text is read. The name is
what has been read from where the attribute starts, and the attribute ends where its value does.
Only of a mustache without quotes around it the end is not known before the next character is
looked at: where that may be is left open here. -/

namespace HtmlTemplate

open Html (endsName isFaultyInName)

/-- A character of the template begins at an offset. -/
def Source.Begins (src : Source) (start : Nat) (c : Char) : Prop :=
  ∃ before after, src.text = before ++ c :: after ∧ start = byteLength before

namespace Source

variable {src : Source} {c : Char}

theorem Covers.begins {p q : Position} {cs : List Char} (h : src.Covers p (c :: cs) q) :
    src.Begins (src.offsetFor p) c := by
  obtain ⟨start, rest, hstands, -⟩ := h
  obtain ⟨before, htext, -, hstart⟩ := id hstands
  exact ⟨before, cs ++ rest, htext, hstands.offsetFor.trans hstart⟩

end Source

theorem Html.Tokenizer.isAttributePart_appendComment (t : Tokenizer) (text : List Char) :
    ∀ e ∈ (t.appendComment text).1.map (·.event), e.isAttributePart = false := by
  intro e he
  obtain ⟨emission, hemission, rfl⟩ := List.mem_map.mp he
  obtain ⟨data, hdata⟩ := events_appendComment hemission
  rw [hdata]
  rfl

theorem Html.Tokenizer.step_covers {src : Source} {t : Tokenizer} {c : Char} {cs : List Char}
    {q : Position} (hc : src.Covers t.position (c :: cs) q) :
    src.Covers (t.step c cs).now.position (cs.drop (t.step c cs).ahead) q
      ∧ src.offsetFor t.position + byteLength [c] ≤ src.offsetFor (t.step c cs).now.position
      ∧ src.offsetFor (t.step c cs).now.position ≤ src.offsetFor q := by
  obtain ⟨j, hj, hahead, hposition⟩ := t.step_consumes c cs
  obtain rfl : (t.step c cs).ahead = j := by simpa using hahead
  rw [← List.take_append_drop (t.step c cs).ahead cs, ← List.cons_append] at hc
  have hread := hc.left.1
  have hrest := hc.right.1
  rw [← show (t.step c cs).now.position = _ from hposition] at hread hrest
  refine ⟨hrest, ?_, ?_⟩
  · rw [hread.offset]
    simp
  · rw [hrest.offset]
    exact Nat.le_add_right _ _

namespace Tree

/-- An attribute without a value. -/
def Attribute.IsBare (a : Attribute) : Prop :=
  a.value = .text ⟨[], .empty a.span.stop⟩

/-- What has been read as a name from where an attribute starts, given the attributes before it.
The first character may be one that is at fault in a name only if the attribute before ends right
there without a value. -/
inductive Named (src : Source) (before : List Attribute) (start : Nat) : List Char → Prop
  | mk {c : Char} {cs : List Char} : src.Begins start c → endsName c = false →
      (∀ d ∈ cs, endsName d = false ∧ isFaultyInName d = false) →
      (isFaultyInName c = true → ∃ b, before.getLast? = some b ∧ b.IsBare ∧ b.span.stop = start) →
      Named src before start (c :: cs)

def Dynamic.strip : Dynamic → Strip
  | .call m => m.strip
  | .literal m => m.strip

/-- Where attributes may end whose value is a mustache. -/
abbrev Ends : Type :=
  Dynamic → Nat → Prop

def AttributeValue.EndsAt (E : Ends) (stop : Nat) : AttributeValue → Prop
  | .text t => t.span.stop = stop
  | .concat _ span => span.stop = stop
  | .dynamic d => E d stop

/-- An attribute as it is read after others. -/
structure Attribute.Fits (src : Source) (E : Ends) (before : List Attribute) (a : Attribute) :
    Prop where
  name : Named src before a.span.start a.name
  value : a.value.EndsAt E a.span.stop

def EachFits (src : Source) (E : Ends) (as : List Attribute) : Prop :=
  ∀ before a after, as = before ++ a :: after → a.Fits src E before

variable {src : Source} {E : Ends} {as before : List Attribute} {a : Attribute} {start stop : Nat}

theorem Named.concat {name : List Char} {c : Char} (h : Named src before start name)
    (hends : endsName c = false) (hfault : isFaultyInName c = false) :
    Named src before start (name ++ [c]) := by
  cases h with
  | mk hbegins hfirst hmore hbare =>
    refine .mk hbegins hfirst (fun d hd => ?_) hbare
    rcases List.mem_append.mp hd with hd | hd
    · exact hmore d hd
    · rw [List.mem_singleton.mp hd]
      exact ⟨hends, hfault⟩

theorem eachFits_nil (src : Source) (E : Ends) : EachFits src E [] := by
  intro before a after heq
  simp at heq

theorem EachFits.concat (h : EachFits src E as) (ha : a.Fits src E as) :
    EachFits src E (as ++ [a]) := by
  intro before b after heq
  rcases List.eq_nil_or_concat after with rfl | ⟨after, last, rfl⟩
  · obtain ⟨rfl, hab⟩ := List.append_inj' heq rfl
    obtain rfl := List.singleton_inj.mp hab
    exact ha
  · rw [List.concat_eq_append, ← List.cons_append, ← List.append_assoc] at heq
    exact h before b after (List.append_inj' heq rfl).1

theorem EachFits.take (h : EachFits src E as) (n : Nat) : EachFits src E (as.take n) := by
  intro before a after heq
  refine h before a (after ++ as.drop n) ?_
  rw [← List.cons_append, ← List.append_assoc, ← heq, List.take_append_drop]

namespace PendingAttribute

variable {p : PendingAttribute} {d : Dynamic}

/-- Nothing of the value has been read. -/
structure Untouched (p : PendingAttribute) : Prop where
  parts : p.parts = []
  text : p.text = none
  dynamic : p.dynamic = false

structure Dangles (p : PendingAttribute) (d : Dynamic) : Prop where
  quoted : p.quoted = false
  parts : p.parts = [.dynamic d]
  text : p.text = none

def Counts (p : PendingAttribute) : Prop :=
  p.dynamic = true → ∃ d, .dynamic d ∈ p.parts

theorem Counts.addText (h : p.Counts) (chars : List Char) (span : Span) :
    (p.addText chars span).Counts := h

theorem counts_addDynamic (p : PendingAttribute) (d : Dynamic) : (p.addDynamic d).Counts :=
  fun _ => ⟨d, List.mem_append_right _ (List.mem_singleton.mpr rfl)⟩

theorem not_dangles_addText (chars : List Char) (span : Span) :
    ¬ (p.addText chars span).Dangles d := fun h => by
  have htext := h.text
  simp [addText] at htext

theorem eq_of_dangles {d' : Dynamic} (h : (p.addDynamic d).Dangles d') : d' = d := by
  obtain ⟨-, hparts, -⟩ := h
  have hlast : (p.addDynamic d).parts.getLast? = some (.dynamic d) := List.getLast?_concat
  rw [hparts] at hlast
  exact (Part.dynamic.inj (Option.some.inj hlast))

theorem endsAt_of_value? {value : AttributeValue} (hcounts : p.Counts)
    (hdangles : ∀ d, p.Dangles d → E d stop)
    (h : p.finishText.value? ⟨p.valueStart, stop⟩ = .ok value) : value.EndsAt E stop := by
  have hdynamic : p.finishText.dynamic = p.dynamic := by
    unfold finishText
    split <;> rfl
  have hquoted : p.finishText.quoted = p.quoted := by
    unfold finishText
    split <;> rfl
  unfold value? at h
  rw [hdynamic, hquoted] at h
  split at h
  · cases h
    rfl
  · rename_i hmixed
    obtain ⟨d, hd⟩ := hcounts (by simpa using hmixed)
    split at h
    · cases h
      rfl
    · rename_i hbare
      split at h
      · rename_i part hparts
        cases h
        cases htext : p.text with
        | none =>
          have hparts : p.parts = [part] := by simpa [finishText, htext] using hparts
          rw [hparts, List.mem_singleton] at hd
          subst hd
          exact hdangles d ⟨by simpa using hbare, hparts, htext⟩
        | some t =>
          have hnil : p.parts = [] := by
            have hlength := congrArg List.length hparts
            simpa [finishText, htext] using hlength
          rw [hnil] at hd
          cases hd
      · cases h

end PendingAttribute

namespace Markup

variable {m n : Markup} {p : PendingAttribute}

/-- The attributes of the start tag under way. -/
def attributes (m : Markup) : List Attribute :=
  match m.current with
  | some (.startTag t) => t.attributes
  | _ => []

/-- What is known of the attribute under way in a state. A mustache that dangles is one of those
that may. -/
inductive Underway (src : Source) (may : Dynamic → Prop) (m : Markup) (state : Html.State) : Prop
  | none : state.isInAttribute = false → m.pending = none → Underway src may m state
  | naming {p : PendingAttribute} : state.isNaming = true → m.pending = some p →
      Named src m.attributes p.start p.name → p.Untouched → Underway src may m state
  | valuing {p : PendingAttribute} : state.isAttributeValue = true → m.pending = some p →
      Named src m.attributes p.start p.name → p.Counts →
      (state ≠ .attributeValueUnquoted → p.quoted = true) → (∀ d, p.Dangles d → may d) →
      Underway src may m state

structure Tracks (src : Source) (E : Ends) (may : Dynamic → Prop) (m : Markup)
    (state : Html.State) : Prop where
  attributes : EachFits src E m.attributes
  underway : m.Underway src may state

variable {may may' : Dynamic → Prop} {state : Html.State}

theorem Underway.pending_none (h : m.Underway src may state)
    (hstate : state.isInAttribute = false) : m.pending = .none := by
  cases h with
  | none _ hpending => exact hpending
  | naming hnaming =>
    rw [Html.State.isInAttribute, hnaming] at hstate
    cases hstate
  | valuing hvaluing =>
    rw [Html.State.isInAttribute, hvaluing, Bool.or_true] at hstate
    cases hstate

theorem Underway.pending_naming (h : m.Underway src may state) (hstate : state.isNaming = true) :
    ∃ p, m.pending = some p ∧ Named src m.attributes p.start p.name ∧ p.Untouched := by
  cases h with
  | none hnot =>
    rw [Html.State.isInAttribute, hstate] at hnot
    cases hnot
  | naming _ hpending hname huntouched => exact ⟨_, hpending, hname, huntouched⟩
  | valuing hvaluing =>
    revert hstate hvaluing
    cases state <;> simp [Html.State.isNaming, Html.State.isAttributeValue]

theorem Underway.pending_valuing (h : m.Underway src may state)
    (hstate : state.isAttributeValue = true) :
    ∃ p, m.pending = some p ∧ Named src m.attributes p.start p.name ∧ p.Counts
      ∧ (state ≠ .attributeValueUnquoted → p.quoted = true) ∧ ∀ d, p.Dangles d → may d := by
  cases h with
  | none hnot =>
    rw [Html.State.isInAttribute, hstate, Bool.or_true] at hnot
    cases hnot
  | naming hnaming =>
    revert hstate hnaming
    cases state <;> simp [Html.State.isNaming, Html.State.isAttributeValue]
  | valuing _ hpending hname hcounts hquoted hdangles =>
    exact ⟨_, hpending, hname, hcounts, hquoted, hdangles⟩

theorem Tracks.imp (h : m.Tracks src E may state) (hmay : ∀ d, may d → may' d) :
    m.Tracks src E may' state := by
  refine ⟨h.attributes, ?_⟩
  cases h.underway with
  | none hstate hpending => exact .none hstate hpending
  | naming hstate hpending hname huntouched => exact .naming hstate hpending hname huntouched
  | valuing hstate hpending hname hcounts hquoted hdangles =>
    exact .valuing hstate hpending hname hcounts hquoted fun d hd => hmay d (hdangles d hd)

theorem Tracks.congr (h : m.Tracks src E may state) (hattributes : n.attributes = m.attributes)
    (hpending : n.pending = m.pending) : n.Tracks src E may state := by
  refine ⟨hattributes ▸ h.attributes, ?_⟩
  cases h.underway with
  | none hstate hnone => exact .none hstate (hpending.trans hnone)
  | naming hstate hsome hname huntouched =>
    exact .naming hstate (hpending.trans hsome) (hattributes ▸ hname) huntouched
  | valuing hstate hsome hname hcounts hquoted hdangles =>
    exact .valuing hstate (hpending.trans hsome) (hattributes ▸ hname) hcounts hquoted hdangles

private theorem receive_apart {e : Html.Event} (he : e.isAttributePart = false)
    (h : m.receive src e = .ok n) :
    (n.pending = m.pending ∨ n.pending = none)
      ∧ (n.attributes = m.attributes ∨ n.attributes = []) := by
  cases e with
  | beginAttribute | attributeName | beginAttributeValue | attributeValue | finishAttributeValue =>
    cases he
  | reset =>
    cases h
    exact ⟨.inr rfl, .inr rfl⟩
  | beginStartTag | beginEndTag | beginData | beginComment =>
    cases h
    exact ⟨.inl rfl, .inr rfl⟩
  | tagName c =>
    cases h
    unfold growTagName
    split
    · rename_i hcurrent
      rw [attributes, attributes, hcurrent]
      exact ⟨.inl rfl, .inl rfl⟩
    · rename_i hcurrent
      rw [attributes, attributes, hcurrent]
      exact ⟨.inl rfl, .inl rfl⟩
    · exact ⟨.inl rfl, .inl rfl⟩
  | selfClosing =>
    simp only [receive, markSelfClosing] at h
    split at h
    · rename_i hcurrent
      cases h
      rw [attributes, attributes, hcurrent]
      exact ⟨.inl rfl, .inl rfl⟩
    · cases h
    · cases h
      exact ⟨.inl rfl, .inl rfl⟩
  | data text | commentData text =>
    simp only [receive] at h
    split at h
    · rename_i hcurrent
      cases h
      rw [attributes, attributes, hcurrent]
      exact ⟨.inl rfl, .inl rfl⟩
    · cases h
      exact ⟨.inl rfl, .inl rfl⟩
  | finishData p | finishComment p =>
    simp only [receive] at h
    split at h
    · cases h
      exact ⟨.inl rfl, .inr rfl⟩
    · cases h
      exact ⟨.inl rfl, .inl rfl⟩
  | finishTag p =>
    simp only [receive, finishTag] at h
    split at h
    · obtain ⟨kept, params, -, rfl | rfl⟩ := openElement_ok h <;> exact ⟨.inl rfl, .inr rfl⟩
    · obtain ⟨e, stack, -, -, rfl⟩ := closeElement_ok h
      exact ⟨.inl rfl, .inr rfl⟩
    · cases h
      exact ⟨.inl rfl, .inl rfl⟩
  | syntaxError f p => simp [receive, fault] at h

private theorem attributes_of_mem_ended {e : Html.Event} {t : StartTag} (h : t ∈ m.ended e) :
    t.attributes = m.attributes := by
  unfold ended at h
  split at h
  · split at h
    · rename_i hcurrent
      rw [attributes, hcurrent, List.mem_singleton.mp h]
    · cases h
  · cases h

variable {es fs : List Html.Event}

theorem endedIn_append {k : Markup} (hk : es.foldlM (receive src) m = .ok k) :
    m.endedIn src (es ++ fs) = m.endedIn src es ++ k.endedIn src fs := by
  induction es generalizing m with
  | nil =>
    obtain rfl := pure_eq_ok.mp hk
    rfl
  | cons e es ih =>
    simp only [List.foldlM_cons, bind_eq_ok] at hk
    obtain ⟨n, hn, hk⟩ := hk
    simp only [List.cons_append, endedIn, hn, ih hk, List.append_assoc]

theorem endedIn_attribute (hes : ∀ e ∈ es, e.isAttributePart = true) : m.endedIn src es = [] := by
  induction es generalizing m with
  | nil => rfl
  | cons e es ih =>
    obtain ⟨he, hes⟩ := List.forall_mem_cons.mp hes
    have hended : m.ended e = [] := by cases e <;> first | rfl | cases he
    rw [endedIn, hended, List.nil_append]
    split
    · exact ih hes
    · rfl

/-- What is known of the attributes of a tag, and of no attributes, is kept by reports of other
things, and it is known where the tag ends. -/
theorem reports_apart {A : List Attribute → Prop} (hnil : A [])
    (hes : ∀ e ∈ es, e.isAttributePart = false) (hattributes : A m.attributes)
    (hpending : m.pending = none) (h : es.foldlM (receive src) m = .ok n) :
    A n.attributes ∧ n.pending = none ∧ ∀ t ∈ m.endedIn src es, A t.attributes := by
  induction es generalizing m with
  | nil =>
    obtain rfl := pure_eq_ok.mp h
    exact ⟨hattributes, hpending, List.forall_mem_nil _⟩
  | cons e es ih =>
    simp only [List.foldlM_cons, bind_eq_ok] at h
    obtain ⟨k, hk, h⟩ := h
    obtain ⟨he, hes⟩ := List.forall_mem_cons.mp hes
    obtain ⟨hkpending, hkattributes⟩ := receive_apart he hk
    obtain ⟨hn, hnone, hfit⟩ := ih hes
      (by rcases hkattributes with h | h
          · exact h ▸ hattributes
          · exact h ▸ hnil)
      (by rcases hkpending with h | h
          · exact h.trans hpending
          · exact h) h
    refine ⟨hn, hnone, fun t ht => ?_⟩
    simp only [endedIn, hk, List.mem_append] at ht
    rcases ht with ht | ht
    · rw [attributes_of_mem_ended ht]
      exact hattributes
    · exact hfit t ht

def EndsFit (src : Source) (E : Ends) (m : Markup) (es : List Html.Event) : Prop :=
  ∀ t ∈ m.endedIn src es, EachFits src E t.attributes

theorem endsFit_append {k : Markup} (hk : es.foldlM (receive src) m = .ok k)
    (h : m.EndsFit src E es) (h' : k.EndsFit src E fs) : m.EndsFit src E (es ++ fs) := by
  rw [EndsFit, endedIn_append hk]
  exact List.forall_mem_append.mpr ⟨h, h'⟩

theorem endsFit_attribute (hes : ∀ e ∈ es, e.isAttributePart = true) : m.EndsFit src E es := by
  rw [EndsFit, endedIn_attribute hes]
  exact List.forall_mem_nil _

theorem pending_mapAttribute (hpending : m.pending = some p)
    (f : PendingAttribute → PendingAttribute) : (m.mapAttribute f).pending = some (f p) := by
  rw [mapAttribute, hpending, Option.map_some]

theorem finishValue_fits (hattributes : EachFits src E m.attributes) (hpending : m.pending = some p)
    (hname : Named src m.attributes p.start p.name) (hcounts : p.Counts)
    (hdangles : ∀ d, p.Dangles d → E d stop) (h : m.finishValue src stop = .ok n) :
    EachFits src E n.attributes ∧ n.pending = none := by
  obtain ⟨t, value, hcurrent, hvalue, rfl⟩ := finishValue_ok hpending h
  have htag : m.attributes = t.attributes := by rw [attributes, hcurrent]
  rw [htag] at hattributes hname
  exact ⟨hattributes.concat
    ⟨hname, PendingAttribute.endsAt_of_value? hcounts hdangles hvalue⟩, rfl⟩

theorem finishBare_fits (hattributes : EachFits src E m.attributes) (hpending : m.pending = some p)
    (hname : Named src m.attributes p.start p.name) (huntouched : p.Untouched)
    (h : (m.beginValue false stop).finishValue src stop = .ok n) :
    EachFits src E n.attributes ∧ n.pending = none
      ∧ ∃ b, n.attributes.getLast? = some b ∧ b.IsBare ∧ b.span.stop = stop := by
  have hbegun : (m.beginValue false stop).pending
      = some { p with quoted := false, valueStart := stop, text := none } :=
    pending_mapAttribute hpending _
  have hnot : ∀ d, ¬ PendingAttribute.Dangles
      { p with quoted := false, valueStart := stop, text := none } d := by
    intro d hd
    have hparts := hd.parts
    simp [huntouched.parts] at hparts
  obtain ⟨hfits, hnone⟩ := finishValue_fits (m := m.beginValue false stop) hattributes hbegun hname
    (fun hdynamic => by simp [huntouched.dynamic] at hdynamic)
    (fun d hd => absurd hd (hnot d)) h
  refine ⟨hfits, hnone, ?_⟩
  obtain ⟨t, value, hcurrent, hvalue, rfl⟩ := finishValue_ok hbegun h
  refine ⟨_, List.getLast?_concat, ?_, rfl⟩
  simp only [PendingAttribute.value?, PendingAttribute.finishText, huntouched.dynamic,
    Bool.not_false, ↓reduceIte, Except.ok.injEq] at hvalue
  subst hvalue
  simp [Attribute.IsBare, PendingAttribute.staticChars, huntouched.parts, Span.empty]

theorem receive_one {e : Html.Event} :
    [e].foldlM (receive src) m = .ok n ↔ m.receive src e = .ok n := by
  simp [List.foldlM_cons, List.foldlM_nil]

theorem receive_finishValue {q : Position} {after : List Html.Event}
    (h : (.finishAttributeValue q :: after).foldlM (receive src) m = .ok n) :
    ∃ k, m.finishValue src (src.offsetFor q) = .ok k ∧ after.foldlM (receive src) k = .ok n :=
  bind_eq_ok.mp h

theorem receive_emptyValue {q : Position}
    (h : (Html.emptyValueEvents q).foldlM (receive src) m = .ok n) :
    (m.beginValue false (src.offsetFor q)).finishValue src (src.offsetFor q) = .ok n := by
  obtain ⟨k, hk, h⟩ := bind_eq_ok.mp h
  obtain rfl := Except.ok.inj hk
  exact receive_one.mp h

theorem receive_begin {q : Position} {c : Char}
    (h : [.beginAttribute q, .attributeName c].foldlM (receive src) m = .ok n) :
    n = { m with
      pending := some {
        name := [c]
        start := src.offsetFor q
        valueStart := src.offsetFor q } } := by
  obtain ⟨k, hk, h⟩ := bind_eq_ok.mp h
  obtain rfl := Except.ok.inj hk
  exact (Except.ok.inj (receive_one.mp h)).symm

theorem receive_beginText {q : Position} {text : List Char} {l : Location}
    (h : [.beginAttributeValue false q, .attributeValue text l].foldlM (receive src) m = .ok n) :
    n = (m.beginValue false (src.offsetFor q)).mapAttribute
      (·.addText text ⟨src.offsetFor l.start, src.offsetFor l.stop⟩) := by
  obtain ⟨k, hk, h⟩ := bind_eq_ok.mp h
  obtain rfl := Except.ok.inj hk
  exact (Except.ok.inj (receive_one.mp h)).symm

theorem begin_tracks {q q' : Position} {c : Char} {cs : List Char}
    (hattributes : EachFits src E m.attributes) (hc : src.Covers q (c :: cs) q')
    (hends : endsName c = false)
    (hfaulty : isFaultyInName c = true → ∃ b, m.attributes.getLast? = some b ∧ b.IsBare
      ∧ b.span.stop = src.offsetFor q)
    (h : [.beginAttribute q, .attributeName c].foldlM (receive src) m = .ok n) :
    n.Tracks src E may .attributeName := by
  obtain rfl := receive_begin h
  exact ⟨hattributes, .naming rfl rfl
    (.mk hc.begins hends (List.forall_mem_nil _) hfaulty) ⟨rfl, rfl, rfl⟩⟩

def Undangling : Dynamic → Prop :=
  fun _ => False

theorem naming_tracks {state : Html.State} (hattributes : EachFits src E m.attributes)
    (hstate : state.isNaming = true) (hpending : m.pending = some p)
    (hname : Named src m.attributes p.start p.name) (huntouched : p.Untouched) :
    m.Tracks src E Undangling state :=
  ⟨hattributes, .naming hstate hpending hname huntouched⟩

theorem value_tracks {state : Html.State} (hattributes : EachFits src E m.attributes)
    (hstate : state.isAttributeValue = true) (hpending : m.pending = some p)
    (hname : Named src m.attributes p.start p.name) (hcounts : p.Counts)
    (hquoted : state ≠ .attributeValueUnquoted → p.quoted = true) (hdangles : ∀ d, ¬ p.Dangles d) :
    m.Tracks src E Undangling state :=
  ⟨hattributes, .valuing hstate hpending hname hcounts hquoted hdangles⟩

theorem endsBare_tracks {q : Position} {state : Html.State} {after : List Html.Event}
    (hattributes : EachFits src E m.attributes) (hpending : m.pending = some p)
    (hname : Named src m.attributes p.start p.name) (huntouched : p.Untouched)
    (hstate : state.isInAttribute = false) (hafter : ∀ e ∈ after, e.isAttributePart = false)
    (h : (Html.emptyValueEvents q ++ after).foldlM (receive src) m = .ok n) :
    n.Tracks src E Undangling state ∧ m.EndsFit src E (Html.emptyValueEvents q ++ after) := by
  rw [List.foldlM_append, bind_eq_ok] at h
  obtain ⟨k, hk, h⟩ := h
  obtain ⟨hfits, hnone, -⟩ :=
    finishBare_fits hattributes hpending hname huntouched (receive_emptyValue hk)
  obtain ⟨hn, hnone', hends⟩ := reports_apart (eachFits_nil src E) hafter hfits hnone h
  refine ⟨⟨hn, .none hstate hnone'⟩, endsFit_append hk (endsFit_attribute ?_) hends⟩
  simp [Html.emptyValueEvents, Html.Event.isAttributePart]

theorem ends_tracks {q : Position} {state : Html.State} {after : List Html.Event}
    (hattributes : EachFits src E m.attributes) (hpending : m.pending = some p)
    (hname : Named src m.attributes p.start p.name) (hcounts : p.Counts)
    (hdangles : ∀ d, p.Dangles d → E d (src.offsetFor q))
    (hstate : state.isInAttribute = false) (hafter : ∀ e ∈ after, e.isAttributePart = false)
    (h : (.finishAttributeValue q :: after).foldlM (receive src) m = .ok n) :
    n.Tracks src E Undangling state ∧ m.EndsFit src E (.finishAttributeValue q :: after) := by
  obtain ⟨k, hfinish, h⟩ := receive_finishValue h
  obtain ⟨hfits, hnone⟩ := finishValue_fits hattributes hpending hname hcounts hdangles hfinish
  obtain ⟨hn, hnone', hends⟩ := reports_apart (eachFits_nil src E) hafter hfits hnone h
  rw [← List.singleton_append]
  exact ⟨⟨hn, .none hstate hnone'⟩, endsFit_append (receive_one.mpr hfinish)
    (endsFit_attribute (List.forall_mem_singleton.mpr rfl)) hends⟩

theorem beginsNext_tracks {q q' : Position} {c : Char} {cs : List Char}
    (hattributes : EachFits src E m.attributes) (hpending : m.pending = some p)
    (hname : Named src m.attributes p.start p.name) (huntouched : p.Untouched)
    (hc : src.Covers q (c :: cs) q') (hends : endsName c = false)
    (h : (Html.emptyValueEvents q ++
        [Html.Event.beginAttribute q, Html.Event.attributeName c]).foldlM (receive src) m = .ok n) :
    n.Tracks src E Undangling .attributeName
      ∧ m.EndsFit src E (Html.emptyValueEvents q ++
        [Html.Event.beginAttribute q, Html.Event.attributeName c]) := by
  rw [List.foldlM_append, bind_eq_ok] at h
  obtain ⟨k, hk, h⟩ := h
  obtain ⟨hfits, -, hbare⟩ :=
    finishBare_fits hattributes hpending hname huntouched (receive_emptyValue hk)
  refine ⟨begin_tracks hfits hc hends (fun _ => hbare) h, endsFit_attribute ?_⟩
  simp [Html.emptyValueEvents, Html.Event.isAttributePart]

private theorem grows_tracks {c : Char} (hattributes : EachFits src E m.attributes)
    (hpending : m.pending = some p) (hname : Named src m.attributes p.start p.name)
    (huntouched : p.Untouched) (hends : endsName c = false) (hfaulty : isFaultyInName c = false)
    (h : [.attributeName c].foldlM (receive src) m = .ok n) :
    n.Tracks src E Undangling .attributeName ∧ m.EndsFit src E [.attributeName c] := by
  obtain rfl := Except.ok.inj (receive_one.mp h)
  exact ⟨naming_tracks hattributes rfl (pending_mapAttribute hpending _)
    (hname.concat hends hfaulty) ⟨huntouched.parts, huntouched.text, huntouched.dynamic⟩,
    endsFit_attribute (List.forall_mem_singleton.mpr rfl)⟩

private theorem beginsQuoted_tracks {q : Position} {state : Html.State}
    (hattributes : EachFits src E m.attributes) (hpending : m.pending = some p)
    (hname : Named src m.attributes p.start p.name) (huntouched : p.Untouched)
    (hstate : state.isAttributeValue = true)
    (h : [.beginAttributeValue true q].foldlM (receive src) m = .ok n) :
    n.Tracks src E Undangling state ∧ m.EndsFit src E [.beginAttributeValue true q] := by
  obtain rfl := Except.ok.inj (receive_one.mp h)
  refine ⟨value_tracks hattributes hstate (pending_mapAttribute hpending _) hname
    (fun hdynamic => ?_) (fun _ => rfl) (fun d hd => ?_),
    endsFit_attribute (List.forall_mem_singleton.mpr rfl)⟩
  · simp [huntouched.dynamic] at hdynamic
  · cases hd.quoted

private theorem beginsUnquoted_tracks {q : Position} {text : List Char} {l : Location}
    (hattributes : EachFits src E m.attributes) (hpending : m.pending = some p)
    (hname : Named src m.attributes p.start p.name) (huntouched : p.Untouched)
    (h : [.beginAttributeValue false q, .attributeValue text l].foldlM (receive src) m = .ok n) :
    n.Tracks src E Undangling .attributeValueUnquoted
      ∧ m.EndsFit src E [.beginAttributeValue false q, .attributeValue text l] := by
  obtain rfl := receive_beginText h
  refine ⟨value_tracks hattributes rfl (pending_mapAttribute (pending_mapAttribute hpending _) _)
    hname (fun hdynamic => ?_) (fun hne => absurd rfl hne)
    (fun _ => PendingAttribute.not_dangles_addText _ _), endsFit_attribute ?_⟩
  · simp [PendingAttribute.addText, huntouched.dynamic] at hdynamic
  · simp [Html.Event.isAttributePart]

private theorem reads_tracks {text : List Char} {l : Location} {state : Html.State}
    (hattributes : EachFits src E m.attributes) (hstate : state.isAttributeValue = true)
    (hpending : m.pending = some p) (hname : Named src m.attributes p.start p.name)
    (hcounts : p.Counts) (hquoted : state ≠ .attributeValueUnquoted → p.quoted = true)
    (h : [.attributeValue text l].foldlM (receive src) m = .ok n) :
    n.Tracks src E Undangling state ∧ m.EndsFit src E [.attributeValue text l] := by
  obtain rfl := Except.ok.inj (receive_one.mp h)
  exact ⟨value_tracks hattributes hstate (pending_mapAttribute hpending _) hname
    (hcounts.addText _ _) hquoted (fun _ => PendingAttribute.not_dangles_addText _ _),
    endsFit_attribute (List.forall_mem_singleton.mpr rfl)⟩

theorem Tracks.step {t : Html.Tokenizer} {c : Char} {cs rest : List Char} {q : Position}
    (h : m.Tracks src E may t.state) (hc : src.Covers t.position (c :: cs) q)
    (hmay : ∀ d, may d → endsName c = true → E d (src.offsetFor t.position))
    (hn : (t.step c rest).events.foldlM (receive src) m = .ok n) :
    n.Tracks src E Undangling (t.step c rest).now.state
      ∧ m.EndsFit src E (t.step c rest).events := by
  obtain ⟨hattributes, hunderway⟩ := h
  have hstep := t.step_attributeStep c rest (faultless_of_ok hn)
  generalize t.step c rest = s at *
  cases hstep with
  | apart hbefore hafter hevents =>
    obtain ⟨hfits, hnone, hends⟩ :=
      reports_apart (eachFits_nil src E) hevents hattributes (hunderway.pending_none hbefore) hn
    exact ⟨⟨hfits, .none hafter hnone⟩, hends⟩
  | begins hbefore hstate hends hfaulty hevents =>
    rw [hevents] at hn ⊢
    rw [hstate]
    refine ⟨begin_tracks hattributes hc hends (fun hfault => ?_) hn, endsFit_attribute ?_⟩
    · rw [hfaulty] at hfault
      cases hfault
    · simp [Html.Event.isAttributePart]
  | beginsNext hbefore hstate hends hevents =>
    obtain ⟨p, hpending, hname, huntouched⟩ := hunderway.pending_naming (by rw [hbefore]; rfl)
    rw [hevents] at hn ⊢
    rw [hstate]
    exact beginsNext_tracks hattributes hpending hname huntouched hc hends hn
  | grows hbefore hstate hends hfaulty hevents =>
    obtain ⟨p, hpending, hname, huntouched⟩ := hunderway.pending_naming (by rw [hbefore]; rfl)
    rw [hevents] at hn ⊢
    rw [hstate]
    exact grows_tracks hattributes hpending hname huntouched hends hfaulty hn
  | waits hbefore hstate _ hevents =>
    obtain ⟨p, hpending, hname, huntouched⟩ := hunderway.pending_naming hbefore
    rw [hevents] at hn ⊢
    obtain rfl := pure_eq_ok.mp hn
    exact ⟨naming_tracks hattributes hstate hpending hname huntouched, List.forall_mem_nil _⟩
  | endsBare after hbefore hstate hevents hafter =>
    obtain ⟨p, hpending, hname, huntouched⟩ := hunderway.pending_naming hbefore
    rw [hevents] at hn ⊢
    exact endsBare_tracks hattributes hpending hname huntouched hstate hafter hn
  | beginsQuoted hbefore hstate hne hevents =>
    obtain ⟨p, hpending, hname, huntouched⟩ := hunderway.pending_naming (by rw [hbefore]; rfl)
    rw [hevents] at hn ⊢
    exact beginsQuoted_tracks hattributes hpending hname huntouched hstate hn
  | beginsUnquoted hbefore hstate hevents =>
    obtain ⟨p, hpending, hname, huntouched⟩ := hunderway.pending_naming (by rw [hbefore]; rfl)
    rw [hevents] at hn ⊢
    rw [hstate]
    exact beginsUnquoted_tracks hattributes hpending hname huntouched hn
  | reads hbefore hstate hevents =>
    obtain ⟨p, hpending, hname, hcounts, hquoted, -⟩ := hunderway.pending_valuing hbefore
    rw [hevents] at hn ⊢
    rw [hstate]
    exact reads_tracks hattributes hbefore hpending hname hcounts hquoted hn
  | endsQuoted hbefore hne hstate hevents =>
    obtain ⟨p, hpending, hname, hcounts, hquoted, -⟩ := hunderway.pending_valuing hbefore
    rw [hevents] at hn ⊢
    refine ends_tracks hattributes hpending hname hcounts (fun d hd => ?_) hstate
      (List.forall_mem_nil _) hn
    have hbare := hd.quoted
    rw [hquoted hne] at hbare
    cases hbare
  | endsUnquoted after hbefore hstate hends hevents hafter =>
    obtain ⟨p, hpending, hname, hcounts, -, hdangles⟩ :=
      hunderway.pending_valuing (by rw [hbefore]; rfl)
    rw [hevents] at hn ⊢
    exact ends_tracks hattributes hpending hname hcounts
      (fun d hd => hmay d (hdangles d hd) hends) hstate hafter hn

theorem Tracks.feed {t : Html.Tokenizer} {cs : List Char} {q : Position}
    (h : m.Tracks src E may t.state) (hcs : cs ≠ [] → src.Covers t.position cs q)
    (hmay : ∀ d, may d → ∀ c ∈ cs.head?, endsName c = true → E d (src.offsetFor t.position))
    (hn : ((t.feed cs).1.map (·.event)).foldlM (receive src) m = .ok n) :
    n.Tracks src E (fun d => cs = [] ∧ may d) (t.feed cs).2.state
      ∧ m.EndsFit src E ((t.feed cs).1.map (·.event)) := by
  induction hlength : cs.length using Nat.strongRecOn generalizing t m cs may with
  | _ length ih =>
    cases cs with
    | nil =>
      obtain rfl := pure_eq_ok.mp hn
      exact ⟨h.imp fun d hd => ⟨rfl, hd⟩, List.forall_mem_nil _⟩
    | cons c cs =>
      have hc := hcs (List.cons_ne_nil _ _)
      have hfeed := t.events_feed_cons c cs
      rw [hfeed.1, List.foldlM_append, bind_eq_ok] at hn
      obtain ⟨k, hk, hn⟩ := hn
      obtain ⟨hstep, hends⟩ := h.step hc (fun d hd => hmay d hd c rfl) hk
      have hrest := (Html.Tokenizer.step_covers hc).1
      have hlt : (cs.drop (t.step c cs).ahead).length < length := by
        rw [← hlength, List.length_drop, List.length_cons]
        omega
      obtain ⟨hfed, hends'⟩ := ih _ hlt hstep (fun _ => hrest) (fun _ hd => hd.elim) hn rfl
      rw [hfeed.1, hfeed.2]
      exact ⟨hfed.imp fun _ hd => hd.2.elim, endsFit_append hk hends hends'⟩

theorem Tracks.finishData {t : Html.Tokenizer} (h : m.Tracks src E may t.state)
    (hn : (t.finishData.1.map (·.event)).foldlM (receive src) m = .ok n) :
    n.Tracks src E may t.finishData.2.state
      ∧ m.EndsFit src E (t.finishData.1.map (·.event)) := by
  unfold Html.Tokenizer.finishData at hn ⊢
  split at hn
  · rename_i hstate
    rw [if_pos hstate]
    have hpending := h.underway.pending_none (by rw [hstate]; rfl)
    obtain ⟨hfits, hnone, hends⟩ :=
      reports_apart (eachFits_nil src E) (List.forall_mem_singleton.mpr rfl) h.attributes hpending
        hn
    exact ⟨⟨hfits, .none rfl hnone⟩, hends⟩
  · rename_i hstate
    rw [if_neg hstate]
    obtain rfl := pure_eq_ok.mp hn
    exact ⟨h, List.forall_mem_nil _⟩

end Markup

end Tree

end HtmlTemplate
