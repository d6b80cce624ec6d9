import HtmlTemplate.Proofs.ValueParts

/-! The values of the attributes of a start tag, while text is read character by character. What
is known of the value under way is known up to the offset that has been reached, and each
attribute that ends has a formed value. -/

namespace HtmlTemplate.Tree

open Html (endsName)

variable {src : Source} {ts : List Mustache.Token} {D : Dynamic → Prop}

def AllFormed (src : Source) (ts : List Mustache.Token) (D : Dynamic → Prop)
    (as : List Attribute) : Prop :=
  ∀ a ∈ as, a.value.Formed src ts D a.span

theorem allFormed_nil (src : Source) (ts : List Mustache.Token) (D : Dynamic → Prop) :
    AllFormed src ts D [] :=
  List.forall_mem_nil _

theorem AllFormed.concat {as : List Attribute} (h : AllFormed src ts D as) {a : Attribute}
    (ha : a.value.Formed src ts D a.span) : AllFormed src ts D (as ++ [a]) :=
  List.forall_mem_append.mpr ⟨h, List.forall_mem_singleton.mpr ha⟩

namespace Markup

/-- What is known of the attribute under way where the machine stands, with everything read up to
an offset. -/
inductive Gathers (src : Source) (ts : List Mustache.Token) (D : Dynamic → Prop) (m : Markup)
    (t : Html.Tokenizer) (now : Nat) : Prop
  | none : t.state.isInAttribute = false → m.pending = none → Gathers src ts D m t now
  | naming {p : PendingAttribute} : t.state.isNaming = true → m.pending = some p → p.Untouched →
      p.start ≤ src.offsetFor t.position → src.offsetFor t.position ≤ now →
      Unbroken src ts p.start now → Gathers src ts D m t now
  | valuing {p : PendingAttribute} : t.state.isAttributeValue = true → m.pending = some p →
      p.Filled src D t.state.quote? now → (p.dynamic = false → Unbroken src ts p.start now) →
      Gathers src ts D m t now

structure Forms (src : Source) (ts : List Mustache.Token) (D : Dynamic → Prop) (m : Markup)
    (t : Html.Tokenizer) (now : Nat) : Prop where
  attributes : AllFormed src ts D m.attributes
  gathers : m.Gathers src ts D t now

variable {m n : Markup} {t t' : Html.Tokenizer} {p : PendingAttribute} {now now' stop : Nat}

namespace Gathers

theorem pending_none (h : m.Gathers src ts D t now) (hstate : t.state.isInAttribute = false) :
    m.pending = .none := by
  cases h with
  | none _ hpending => exact hpending
  | naming hnaming =>
    rw [Html.State.isInAttribute, hnaming] at hstate
    cases hstate
  | valuing hvaluing =>
    rw [Html.State.isInAttribute, hvaluing, Bool.or_true] at hstate
    cases hstate

theorem pending_naming (h : m.Gathers src ts D t now) (hstate : t.state.isNaming = true) :
    ∃ p, m.pending = some p ∧ p.Untouched ∧ p.start ≤ src.offsetFor t.position
      ∧ src.offsetFor t.position ≤ now ∧ Unbroken src ts p.start now := by
  cases h with
  | none hnot =>
    rw [Html.State.isInAttribute, hstate] at hnot
    cases hnot
  | naming _ hpending huntouched hstart hnow hunbroken =>
    exact ⟨_, hpending, huntouched, hstart, hnow, hunbroken⟩
  | valuing hvaluing =>
    revert hstate hvaluing
    cases t.state <;> simp [Html.State.isNaming, Html.State.isAttributeValue]

theorem pending_valuing (h : m.Gathers src ts D t now)
    (hstate : t.state.isAttributeValue = true) :
    ∃ p, m.pending = some p ∧ p.Filled src D t.state.quote? now
      ∧ (p.dynamic = false → Unbroken src ts p.start now) := by
  cases h with
  | none hnot =>
    rw [Html.State.isInAttribute, hstate, Bool.or_true] at hnot
    cases hnot
  | naming hnaming =>
    revert hstate hnaming
    cases t.state <;> simp [Html.State.isNaming, Html.State.isAttributeValue]
  | valuing _ hpending hfilled hunbroken => exact ⟨_, hpending, hfilled, hunbroken⟩

end Gathers

namespace Forms

theorem settled (hattributes : AllFormed src ts D m.attributes) (hpending : m.pending = none)
    (hstate : t.state.isInAttribute = false) : m.Forms src ts D t now :=
  ⟨hattributes, .none hstate hpending⟩

theorem later (h : m.Forms src ts D t now) (hnow : now ≤ now')
    (hunbroken : Unbroken src ts now now') : m.Forms src ts D t now' := by
  refine ⟨h.attributes, ?_⟩
  cases h.gathers with
  | none hstate hpending => exact .none hstate hpending
  | naming hstate hpending huntouched hstart hle hclear =>
    exact .naming hstate hpending huntouched hstart (hle.trans hnow) (hclear.join hunbroken)
  | valuing hstate hpending hfilled hclear =>
    exact .valuing hstate hpending (hfilled.later hnow)
      fun hstatic => (hclear hstatic).join hunbroken

theorem moveTo (h : m.Forms src ts D t now) {q : Position} (hnow : now ≤ src.offsetFor q)
    (hunbroken : Unbroken src ts now (src.offsetFor q)) :
    m.Forms src ts D (t.moveTo q) (src.offsetFor q) := by
  refine ⟨h.attributes, ?_⟩
  cases (h.later hnow hunbroken).gathers with
  | none hstate hpending => exact .none hstate hpending
  | naming hstate hpending huntouched hstart hle hclear =>
    exact .naming hstate hpending huntouched (hstart.trans hle) (le_refl _) hclear
  | valuing hstate hpending hfilled hclear => exact .valuing hstate hpending hfilled hclear

theorem congr (h : m.Forms src ts D t now) (hattributes : n.attributes = m.attributes)
    (hpending : n.pending = m.pending) : n.Forms src ts D t now := by
  refine ⟨hattributes ▸ h.attributes, ?_⟩
  cases h.gathers with
  | none hstate hnone => exact .none hstate (hpending.trans hnone)
  | naming hstate hsome huntouched hstart hle hclear =>
    exact .naming hstate (hpending.trans hsome) huntouched hstart hle hclear
  | valuing hstate hsome hfilled hclear =>
    exact .valuing hstate (hpending.trans hsome) hfilled hclear

end Forms

theorem finishValue_forms (hattributes : AllFormed src ts D m.attributes)
    (hpending : m.pending = some p)
    (hvalue : ∀ value, p.finishText.value? ⟨p.valueStart, stop⟩ = .ok value →
      value.Formed src ts D ⟨p.start, stop⟩)
    (h : m.finishValue src stop = .ok n) :
    AllFormed src ts D n.attributes ∧ n.pending = none := by
  obtain ⟨tag, value, hcurrent, hok, rfl⟩ := finishValue_ok hpending h
  have htag : m.attributes = tag.attributes := by rw [attributes, hcurrent]
  rw [htag] at hattributes
  exact ⟨hattributes.concat (hvalue value hok), rfl⟩

theorem finishBare_forms (hattributes : AllFormed src ts D m.attributes)
    (hpending : m.pending = some p) (huntouched : p.Untouched)
    (hunbroken : Unbroken src ts p.start stop)
    (h : (m.beginValue false stop).finishValue src stop = .ok n) :
    AllFormed src ts D n.attributes ∧ n.pending = none := by
  have hbegun : (m.beginValue false stop).pending
      = some { p with quoted := false, valueStart := stop, text := none } :=
    pending_mapAttribute hpending _
  refine finishValue_forms (m := m.beginValue false stop) hattributes hbegun (fun value hok => ?_) h
  simp only [PendingAttribute.value?, PendingAttribute.finishText, huntouched.dynamic,
    Bool.not_false, ↓reduceIte, Except.ok.injEq] at hok
  subst hok
  exact hunbroken

theorem begin_forms {q : Position} {c : Char} (hattributes : AllFormed src ts D m.attributes)
    (hstate : t.state = .attributeName) (hnow : src.offsetFor q ≤ src.offsetFor t.position)
    (hunbroken : Unbroken src ts (src.offsetFor q) (src.offsetFor t.position))
    (h : [.beginAttribute q, .attributeName c].foldlM (receive src) m = .ok n) :
    n.Forms src ts D t (src.offsetFor t.position) := by
  obtain rfl := receive_begin h
  exact ⟨hattributes, .naming (by rw [hstate]; rfl) rfl ⟨rfl, rfl, rfl⟩ hnow (le_refl _) hunbroken⟩

theorem after_forms {k : Markup} {before after : List Html.Event}
    (hbefore : ∀ e ∈ before, e.isAttributePart = true)
    (hafter : ∀ e ∈ after, e.isAttributePart = false) (hstate : t.state.isInAttribute = false)
    (hk : before.foldlM (receive src) m = .ok k)
    (hattributes : AllFormed src ts D k.attributes) (hpending : k.pending = none)
    (h : after.foldlM (receive src) k = .ok n) :
    n.Forms src ts D t now
      ∧ ∀ tag ∈ m.endedIn src (before ++ after), AllFormed src ts D tag.attributes := by
  obtain ⟨hn, hnone, hends⟩ :=
    reports_apart (allFormed_nil src ts D) hafter hattributes hpending h
  rw [endedIn_append hk, endedIn_attribute hbefore, List.nil_append]
  exact ⟨.settled hn hnone hstate, hends⟩

theorem ends_forms {q : Position} {after : List Html.Event}
    (hattributes : AllFormed src ts D m.attributes) (hpending : m.pending = some p)
    (hvalue : ∀ value, p.finishText.value? ⟨p.valueStart, src.offsetFor q⟩ = .ok value →
      value.Formed src ts D ⟨p.start, src.offsetFor q⟩)
    (hstate : t.state.isInAttribute = false) (hafter : ∀ e ∈ after, e.isAttributePart = false)
    (h : (.finishAttributeValue q :: after).foldlM (receive src) m = .ok n) :
    n.Forms src ts D t now
      ∧ ∀ tag ∈ m.endedIn src (.finishAttributeValue q :: after),
        AllFormed src ts D tag.attributes := by
  obtain ⟨k, hfinish, h⟩ := receive_finishValue h
  obtain ⟨hformed, hnone⟩ := finishValue_forms hattributes hpending hvalue hfinish
  exact after_forms (List.forall_mem_singleton.mpr rfl) hafter hstate (receive_one.mpr hfinish)
    hformed hnone h

theorem reads_forms {q : Position} {text : List Char}
    (hattributes : AllFormed src ts D m.attributes) (hpending : m.pending = some p)
    (hfilled : p.Filled src D t.state.quote? (src.offsetFor q))
    (hunbroken : p.dynamic = false → Unbroken src ts p.start (src.offsetFor t.position))
    (hstate : t.state.isAttributeValue = true) (hne : text ≠ [])
    (hnow : src.offsetFor q ≤ src.offsetFor t.position)
    (h : [.attributeValue text ⟨q, t.position⟩].foldlM (receive src) m = .ok n) :
    n.Forms src ts D t (src.offsetFor t.position) := by
  obtain rfl := Except.ok.inj (receive_one.mp h)
  exact ⟨hattributes, .valuing hstate (pending_mapAttribute hpending _) (hfilled.addText hne hnow)
    hunbroken⟩

namespace Forms

section
variable {c : Char} {after : List Html.Event}
variable (h : m.Forms src ts D t (src.offsetFor t.position))
  (hnow : src.offsetFor t.position ≤ src.offsetFor t'.position)
  (hclear : Unbroken src ts (src.offsetFor t.position) (src.offsetFor t'.position))
include h

theorem emptyValue (hstate : t.state.isNaming = true)
    (hn : (Html.emptyValueEvents t.position).foldlM (receive src) m = .ok n) :
    AllFormed src ts D n.attributes ∧ n.pending = none := by
  obtain ⟨p, hpending, huntouched, -, -, hbroken⟩ := h.gathers.pending_naming hstate
  exact finishBare_forms h.attributes hpending huntouched hbroken (receive_emptyValue hn)

theorem endsBare (hstate : t.state.isNaming = true) (hstate' : t'.state.isInAttribute = false)
    (hafter : ∀ e ∈ after, e.isAttributePart = false)
    (hn : (Html.emptyValueEvents t.position ++ after).foldlM (receive src) m = .ok n) :
    n.Forms src ts D t' (src.offsetFor t'.position)
      ∧ ∀ tag ∈ m.endedIn src (Html.emptyValueEvents t.position ++ after),
        AllFormed src ts D tag.attributes := by
  rw [List.foldlM_append, bind_eq_ok] at hn
  obtain ⟨k, hk, hn⟩ := hn
  obtain ⟨hformed, hnone⟩ := h.emptyValue hstate hk
  exact after_forms (by simp [Html.emptyValueEvents, Html.Event.isAttributePart]) hafter hstate'
    hk hformed hnone hn

include hnow hclear

theorem beginsNext (hstate : t.state.isNaming = true) (hstate' : t'.state = .attributeName)
    (hn : (Html.emptyValueEvents t.position
      ++ [Html.Event.beginAttribute t.position, .attributeName c]).foldlM (receive src) m = .ok n) :
    n.Forms src ts D t' (src.offsetFor t'.position) := by
  rw [List.foldlM_append, bind_eq_ok] at hn
  obtain ⟨k, hk, hn⟩ := hn
  exact begin_forms (h.emptyValue hstate hk).1 hstate' hnow hclear hn

theorem waits (hstate : t.state.isNaming = true) (hstate' : t'.state.isNaming = true) :
    m.Forms src ts D t' (src.offsetFor t'.position) := by
  obtain ⟨p, hpending, huntouched, hstart, -, hbroken⟩ := h.gathers.pending_naming hstate
  exact ⟨h.attributes, .naming hstate' hpending huntouched (hstart.trans hnow) (le_refl _)
    (hbroken.join hclear)⟩

theorem grows (hstate : t.state.isNaming = true) (hstate' : t'.state.isNaming = true)
    (hn : [.attributeName c].foldlM (receive src) m = .ok n) :
    n.Forms src ts D t' (src.offsetFor t'.position) := by
  obtain ⟨p, hpending, huntouched, hstart, -, hbroken⟩ := h.gathers.pending_naming hstate
  obtain rfl := Except.ok.inj (receive_one.mp hn)
  exact ⟨h.attributes, .naming hstate' (pending_mapAttribute hpending _)
    ⟨huntouched.parts, huntouched.text, huntouched.dynamic⟩ (hstart.trans hnow) (le_refl _)
    (hbroken.join hclear)⟩

omit hnow in
theorem beginsQuoted (hstate : t.state.isNaming = true) (hquote : t'.state.quote? = some c)
    (hc : src.Begins (src.offsetFor t.position) c)
    (hread : src.offsetFor t.position + 1 ≤ src.offsetFor t'.position)
    (hn : [.beginAttributeValue true t.position].foldlM (receive src) m = .ok n) :
    n.Forms src ts D t' (src.offsetFor t'.position) := by
  obtain ⟨p, hpending, huntouched, hstart, -, hbroken⟩ := h.gathers.pending_naming hstate
  obtain rfl := Except.ok.inj (receive_one.mp hn)
  have hstate' : t'.state.isAttributeValue = true := by
    revert hquote
    cases t'.state <;> simp [Html.State.quote?, Html.State.isAttributeValue]
  refine ⟨h.attributes, .valuing hstate' (pending_mapAttribute hpending _) ?_
    fun _ => hbroken.join hclear⟩
  rw [hquote]
  exact huntouched.filled (by simpa using hc) hstart hread

theorem beginsUnquoted {text : List Char} (hstate : t.state.isNaming = true)
    (hstate' : t'.state = .attributeValueUnquoted) (hne : text ≠ [])
    (hn : [.beginAttributeValue false t.position,
      .attributeValue text ⟨t.position, t'.position⟩].foldlM (receive src) m = .ok n) :
    n.Forms src ts D t' (src.offsetFor t'.position) := by
  obtain ⟨p, hpending, huntouched, hstart, -, hbroken⟩ := h.gathers.pending_naming hstate
  obtain ⟨k, hk, hn⟩ := bind_eq_ok.mp hn
  obtain rfl := Except.ok.inj hk
  have hbegun : (m.beginValue false (src.offsetFor t.position)).pending
      = some { p with quoted := false, valueStart := src.offsetFor t.position, text := none } :=
    pending_mapAttribute hpending _
  refine reads_forms (m := m.beginValue false (src.offsetFor t.position)) h.attributes hbegun ?_
    (fun _ => hbroken.join hclear) (by rw [hstate']; rfl) hne hnow hn
  rw [hstate']
  exact huntouched.filled (fun _ hc => by cases hc) hstart (le_refl _)

theorem reads {text : List Char} (hstate : t.state.isAttributeValue = true)
    (hsame : t'.state = t.state) (hne : text ≠ [])
    (hn : [.attributeValue text ⟨t.position, t'.position⟩].foldlM (receive src) m = .ok n) :
    n.Forms src ts D t' (src.offsetFor t'.position) := by
  obtain ⟨p, hpending, hfilled, hbroken⟩ := h.gathers.pending_valuing hstate
  rw [← hsame] at hfilled hstate
  exact reads_forms h.attributes hpending hfilled (fun hstatic => (hbroken hstatic).join hclear)
    hstate hne hnow hn

theorem endsQuoted (hstate : t.state.isAttributeValue = true)
    (hquote : t.state.quote? = some c) (hc : src.Begins (src.offsetFor t.position) c)
    (hread : src.offsetFor t'.position = src.offsetFor t.position + 1)
    (hstate' : t'.state.isInAttribute = false)
    (hn : [.finishAttributeValue t'.position].foldlM (receive src) m = .ok n) :
    n.Forms src ts D t' (src.offsetFor t'.position)
      ∧ ∀ tag ∈ m.endedIn src [.finishAttributeValue t'.position],
        AllFormed src ts D tag.attributes := by
  obtain ⟨p, hpending, hfilled, hbroken⟩ := h.gathers.pending_valuing hstate
  refine ends_forms h.attributes hpending (fun value hok => ?_) hstate' (List.forall_mem_nil _) hn
  refine hfilled.value (fun hstatic => (hbroken hstatic).join hclear) hnow (fun d hd => ?_) hok
  obtain rfl : c = d := Option.some.inj (hquote.symm.trans hd)
  exact ⟨Html.State.isQuote_of_quote? hquote, hc, hread⟩

omit hnow hclear in
theorem endsUnquoted (hstate : t.state = .attributeValueUnquoted)
    (hstate' : t'.state.isInAttribute = false) (hafter : ∀ e ∈ after, e.isAttributePart = false)
    (hn : (.finishAttributeValue t.position :: after).foldlM (receive src) m = .ok n) :
    n.Forms src ts D t' (src.offsetFor t'.position)
      ∧ ∀ tag ∈ m.endedIn src (.finishAttributeValue t.position :: after),
        AllFormed src ts D tag.attributes := by
  obtain ⟨p, hpending, hfilled, hbroken⟩ := h.gathers.pending_valuing (by rw [hstate]; rfl)
  refine ends_forms h.attributes hpending (fun value hok => ?_) hstate' hafter hn
  refine hfilled.value hbroken (le_refl _) (fun d hd => ?_) hok
  rw [hstate] at hd
  cases hd

end

end Forms

theorem Forms.step {c : Char} {cs : List Char} {q : Position}
    (h : m.Forms src ts D t (src.offsetFor t.position)) (hc : src.Covers t.position (c :: cs) q)
    (hunbroken : Unbroken src ts (src.offsetFor t.position) (src.offsetFor q))
    (hn : (t.step c cs).events.foldlM (receive src) m = .ok n) :
    n.Forms src ts D (t.step c cs).now (src.offsetFor (t.step c cs).now.position)
      ∧ ∀ tag ∈ m.endedIn src (t.step c cs).events, AllFormed src ts D tag.attributes := by
  have hstep := t.step_attributeStep c cs (faultless_of_ok hn)
  obtain ⟨-, hread, hle⟩ := Html.Tokenizer.step_covers hc
  have hnow := (Nat.le_add_right _ _).trans hread
  have hclear := hunbroken.mono (le_refl _) hle
  have hquiet {es : List Html.Event} (hes : ∀ e ∈ es, e.isAttributePart = true) :
      ∀ tag ∈ m.endedIn src es, AllFormed src ts D tag.attributes := by
    rw [endedIn_attribute hes]
    exact List.forall_mem_nil _
  cases hstep with
  | apart hbefore hafter hevents =>
    obtain ⟨hn, hnone, hends⟩ := reports_apart (allFormed_nil src ts D) hevents h.attributes
      (h.gathers.pending_none hbefore) hn
    exact ⟨.settled hn hnone hafter, hends⟩
  | begins hbefore hstate _ _ hevents =>
    rw [hevents] at hn ⊢
    exact ⟨begin_forms h.attributes hstate hnow hclear hn,
      hquiet (by simp [Html.Event.isAttributePart])⟩
  | beginsNext hbefore hstate _ hevents =>
    rw [hevents] at hn ⊢
    exact ⟨h.beginsNext hnow hclear (by rw [hbefore]; rfl) hstate hn,
      hquiet (by simp [Html.emptyValueEvents, Html.Event.isAttributePart])⟩
  | grows hbefore hstate _ _ hevents =>
    rw [hevents] at hn ⊢
    exact ⟨h.grows hnow hclear (by rw [hbefore]; rfl) (by rw [hstate]; rfl) hn,
      hquiet (by simp [Html.Event.isAttributePart])⟩
  | waits hbefore hstate _ hevents =>
    rw [hevents] at hn ⊢
    obtain rfl := pure_eq_ok.mp hn
    exact ⟨h.waits hnow hclear hbefore hstate, List.forall_mem_nil _⟩
  | endsBare after hbefore hstate hevents hafter =>
    rw [hevents] at hn ⊢
    exact h.endsBare hbefore hstate hafter hn
  | beginsQuoted hbefore hstate hne hevents =>
    have hquote := Html.Tokenizer.quote?_of_begins hbefore hstate hne
    rw [Html.byteLength_of_isQuote (Html.State.isQuote_of_quote? hquote)] at hread
    rw [hevents] at hn ⊢
    exact ⟨h.beginsQuoted hclear (by rw [hbefore]; rfl) hquote hc.begins hread hn,
      hquiet (by simp [Html.Event.isAttributePart])⟩
  | beginsUnquoted hbefore hstate _ =>
    obtain ⟨text, hne, hevents⟩ := Html.Tokenizer.events_of_beginsText hbefore hstate
    rw [hevents] at hn ⊢
    exact ⟨h.beginsUnquoted hnow hclear (by rw [hbefore]; rfl) hstate hne hn,
      hquiet (by simp [Html.Event.isAttributePart])⟩
  | reads hbefore hstate htold =>
    obtain ⟨text, hne, hevents⟩ := Html.Tokenizer.events_of_reads hbefore htold
    rw [hevents] at hn ⊢
    exact ⟨h.reads hnow hclear hbefore hstate hne hn,
      hquiet (by simp [Html.Event.isAttributePart])⟩
  | endsQuoted hbefore hne hstate hevents =>
    obtain ⟨hquote, hends, hposition⟩ := Html.Tokenizer.quote?_of_ends hbefore hne hstate
    have hstop : src.offsetFor (t.step c cs).now.position = src.offsetFor t.position + 1 := by
      have hsingle : src.Covers t.position [c] (t.position.next c) :=
        (List.singleton_append (l := cs) ▸ hc).left.1
      rw [hposition, hsingle.offset,
        Html.byteLength_of_isQuote (Html.State.isQuote_of_quote? hquote)]
    rw [hends, ← hposition] at hn ⊢
    exact h.endsQuoted hnow hclear hbefore hquote hc.begins hstop hstate hn
  | endsUnquoted after hbefore hstate _ hevents hafter =>
    rw [hevents] at hn ⊢
    exact h.endsUnquoted hbefore hstate hafter hn

theorem Forms.feed {cs : List Char} {q : Position}
    (h : m.Forms src ts D t (src.offsetFor t.position))
    (hcs : cs ≠ [] → src.Covers t.position cs q)
    (hunbroken : cs ≠ [] → Unbroken src ts (src.offsetFor t.position) (src.offsetFor q))
    (hn : ((t.feed cs).1.map (·.event)).foldlM (receive src) m = .ok n) :
    n.Forms src ts D (t.feed cs).2 (src.offsetFor (t.feed cs).2.position)
      ∧ ∀ tag ∈ m.endedIn src ((t.feed cs).1.map (·.event)), AllFormed src ts D tag.attributes := by
  induction hlength : cs.length using Nat.strongRecOn generalizing t m cs with
  | _ length ih =>
    cases cs with
    | nil =>
      obtain rfl := pure_eq_ok.mp hn
      exact ⟨h, List.forall_mem_nil _⟩
    | cons c cs =>
      have hc := hcs (List.cons_ne_nil _ _)
      have hclear := hunbroken (List.cons_ne_nil _ _)
      have hfeed := t.events_feed_cons c cs
      rw [hfeed.1, List.foldlM_append, bind_eq_ok] at hn
      obtain ⟨k, hk, hn⟩ := hn
      obtain ⟨hstep, hends⟩ := h.step hc hclear hk
      obtain ⟨hrest, hread, -⟩ := Html.Tokenizer.step_covers hc
      have hlt : (cs.drop (t.step c cs).ahead).length < length := by
        rw [← hlength, List.length_drop, List.length_cons]
        omega
      obtain ⟨hfed, hends'⟩ := ih _ hlt hstep (fun _ => hrest)
        (fun _ => hclear.mono ((Nat.le_add_right _ _).trans hread) (le_refl _)) hn rfl
      rw [hfeed.1, hfeed.2, endedIn_append hk]
      exact ⟨hfed, List.forall_mem_append.mpr ⟨hends, hends'⟩⟩

theorem Forms.finishData (h : m.Forms src ts D t now)
    (hn : (t.finishData.1.map (·.event)).foldlM (receive src) m = .ok n) :
    n.Forms src ts D t.finishData.2 now
      ∧ ∀ tag ∈ m.endedIn src (t.finishData.1.map (·.event)),
        AllFormed src ts D tag.attributes := by
  unfold Html.Tokenizer.finishData at hn ⊢
  split at hn
  · rename_i hstate
    rw [if_pos hstate]
    have hpending := h.gathers.pending_none (by rw [hstate]; rfl)
    obtain ⟨hformed, hnone, hends⟩ := reports_apart (allFormed_nil src ts D)
      (List.forall_mem_singleton.mpr rfl) h.attributes hpending hn
    exact ⟨.settled hformed hnone rfl, hends⟩
  · rename_i hstate
    rw [if_neg hstate]
    obtain rfl := pure_eq_ok.mp hn
    exact ⟨h, List.forall_mem_nil _⟩

end Markup

end HtmlTemplate.Tree
