import HtmlTemplate.Proofs.TagSteps
import HtmlTemplate.Proofs.Tags

/-! The tag that was reported last, and the name that the machine keeps. Once a start tag has
ended its name is kept until another tag begins or the name is forgotten; the name of an end tag
is not kept. -/

namespace HtmlTemplate.Html

/-- A tag apart from its attributes. -/
structure TagHead where
  kind : TagKind
  name : List Char := []
  selfClosing : Bool := false
deriving DecidableEq

def Tag.head (t : Tag) (kind : TagKind) : TagHead :=
  ⟨kind, t.name, t.selfClosing⟩

def Token.head? : Token → Option TagHead
  | .startTag t => some (t.head .start)
  | .endTag t => some (t.head .stop)
  | .text _ | .comment _ => none

/-- The last tag among some tokens. -/
def lastTag? (ts : List Token) : Option TagHead :=
  (ts.filterMap Token.head?).getLast?

theorem lastTag?_concat (ts : List Token) (t : Token) :
    lastTag? (ts ++ [t]) = t.head?.or (lastTag? ts) := by
  cases hhead : t.head? <;> simp [lastTag?, hhead]

theorem startTag_of_lastTag? {ts : List Token} {name : List Char} {b : Bool}
    (h : lastTag? ts = some ⟨.start, name, b⟩) :
    ∃ t, .startTag t ∈ ts ∧ t.name = name ∧ t.selfClosing = b := by
  obtain ⟨token, hmem, hhead⟩ := List.mem_filterMap.mp (List.mem_of_getLast? h)
  cases token with
  | startTag t =>
    simp only [Token.head?, Tag.head, Option.some.injEq, TagHead.mk.injEq, true_and] at hhead
    exact ⟨t, hmem, hhead⟩
  | endTag | text | comment => simp [Token.head?, Tag.head] at hhead

def TagHead.after (h : TagHead) (parts : List Event) : TagHead :=
  { h with selfClosing := h.selfClosing || parts.contains .selfClosing }

theorem TagHead.after_after (h : TagHead) (es fs : List Event) :
    (h.after es).after fs = h.after (es ++ fs) := by
  simp [after, Bool.or_assoc]

namespace Scribe

variable {s : Scribe} {e : Event} {es : List Event}

/-- The tag under way. -/
def head? (s : Scribe) : Option TagHead :=
  s.current.bind Token.head?

/-- The last tag that is complete. -/
def last? (s : Scribe) : Option TagHead :=
  lastTag? s.done

private theorem head?_grow (s : Scribe) (chars : List Char) : (s.grow chars).head? = s.head? := by
  obtain ⟨done, _ | (_ | _ | _ | _), pending⟩ := s <;> rfl

private theorem record_tagless (h : s.head? = none) (he : e.isTagless = true) :
    (s.record e).head? = none ∧ (s.record e).last? = s.last? := by
  cases e with
  | beginData | beginComment => exact ⟨rfl, rfl⟩
  | data | commentData => exact ⟨(head?_grow s _).trans h, rfl⟩
  | finishData | finishComment =>
    obtain ⟨done, _ | t, pending⟩ := s
    · exact ⟨rfl, congrArg lastTag? (List.append_nil done)⟩
    · refine ⟨rfl, (lastTag?_concat done t).trans ?_⟩
      rw [show t.head? = none from h, Option.none_or]
      rfl
  | syntaxError => exact ⟨h, rfl⟩
  | _ => cases he

theorem records_tagless (h : s.head? = none) (hes : ∀ e ∈ es, e.isTagless = true) :
    (es.foldl record s).head? = none ∧ (es.foldl record s).last? = s.last? := by
  induction es generalizing s with
  | nil => exact ⟨h, rfl⟩
  | cons e es ih =>
    obtain ⟨he, hes⟩ := List.forall_mem_cons.mp hes
    obtain ⟨hhead, hlast⟩ := record_tagless h he
    obtain ⟨ihhead, ihlast⟩ := ih hhead hes
    exact ⟨ihhead, ihlast.trans hlast⟩

private theorem record_part (he : e.isTagPart = true) :
    (s.record e).head? = s.head?.map (·.after [e]) ∧ (s.record e).done = s.done := by
  cases e with
  | selfClosing | finishAttributeValue | beginAttribute | attributeName | beginAttributeValue
  | attributeValue | syntaxError =>
    obtain ⟨done, _ | (_ | _ | _ | _), pending⟩ := s
    all_goals simp [record, mapTag, head?, Token.head?, Tag.head, TagHead.after]
  | _ => cases he

theorem records_parts (hes : ∀ e ∈ es, e.isTagPart = true) :
    (es.foldl record s).head? = s.head?.map (·.after es)
      ∧ (es.foldl record s).done = s.done := by
  induction es generalizing s with
  | nil => simp [TagHead.after]
  | cons e es ih =>
    obtain ⟨he, hes⟩ := List.forall_mem_cons.mp hes
    obtain ⟨hhead, hdone⟩ := record_part (s := s) he
    obtain ⟨ihhead, ihdone⟩ := ih (s := s.record e) hes
    refine ⟨?_, ihdone.trans hdone⟩
    rw [List.foldl_cons, ihhead, hhead, Option.map_map]
    exact congrArg (s.head?.map ·) (funext fun h => TagHead.after_after h [e] es)

theorem head?_beginTag (k : TagKind) (p : Position) (s : Scribe) :
    (s.record (.beginTag k p)).head? = some { kind := k } := by
  cases k <;> rfl

theorem last?_beginTag (k : TagKind) (p : Position) (s : Scribe) :
    (s.record (.beginTag k p)).last? = s.last? := by
  cases k <;> rfl

theorem head?_tagName (c : Char) (s : Scribe) :
    (s.record (.tagName c)).head? = s.head?.map fun h => { h with name := h.name ++ [c] } := by
  obtain ⟨done, _ | (_ | _ | _ | _), pending⟩ := s <;> rfl

private theorem record_finishTag {h : TagHead} (hs : s.head? = some h) (p : Position) :
    (s.record (.finishTag p)).head? = none ∧ (s.record (.finishTag p)).last? = some h := by
  obtain ⟨done, _ | t, pending⟩ := s
  · cases hs
  · refine ⟨rfl, (lastTag?_concat done t).trans ?_⟩
    rw [show t.head? = some h from hs, Option.some_or]

theorem records_tag {h : TagHead} (hs : s.head? = some h) (hes : ∀ e ∈ es, e.isTagPart = true)
    (p : Position) :
    ((es ++ [Event.finishTag p]).foldl record s).head? = none
      ∧ ((es ++ [Event.finishTag p]).foldl record s).last? = some (h.after es) := by
  rw [List.foldl_append]
  refine record_finishTag ?_ p
  rw [(records_parts hes).1, hs, Option.map_some]

end Scribe

/-- The machine keeps the name of the start tag under way, and outside of tags that of the last
tag, which is a start tag, or no name. -/
inductive NameKept (t : Tokenizer) : Option TagHead → Option TagHead → Prop
  | outside {last : Option TagHead} : t.state.isTag = false →
      (t.tagName ≠ [] → ∃ b, last = some ⟨.start, t.tagName, b⟩) → NameKept t none last
  | naming {k : TagKind} {b : Bool} {last : Option TagHead} : t.state = k.naming →
      NameKept t (some ⟨k, t.tagName, b⟩) last
  | start {b : Bool} {last : Option TagHead} : t.state.isInTag = true →
      NameKept t (some ⟨.start, t.tagName, b⟩) last
  | stop {name : List Char} {b : Bool} {last : Option TagHead} : t.state.isInTag = true →
      t.tagName = [] → NameKept t (some ⟨.stop, name, b⟩) last

namespace NameKept

variable {t : Tokenizer} {head last : Option TagHead} {s : Scribe}

theorem head_eq_none (h : NameKept t head last) (ht : t.state.isTag = false) : head = none := by
  cases h with
  | outside => rfl
  | naming hstate =>
    rename_i k _
    rw [hstate] at ht
    cases k <;> cases ht
  | start hstate | stop hstate => simp [State.isTag, hstate] at ht

theorem congr {t' : Tokenizer} (h : NameKept t head last) (hstate : t'.state = t.state)
    (hname : t'.tagName = t.tagName) : NameKept t' head last := by
  cases h with
  | outside ht hlast => exact .outside (hstate ▸ ht) (hname ▸ hlast)
  | naming ht => exact hname ▸ .naming (hstate.trans ht)
  | start ht => exact hname ▸ .start (hstate ▸ ht)
  | stop ht hnone => exact .stop (hstate ▸ ht) (hname.trans hnone)

theorem of_isInTag {t' : Tokenizer} (h : NameKept t head last) (ht : t.state.isInTag = true)
    (ht' : t'.state.isInTag = true) (hname : t'.tagName = t.tagName) : NameKept t' head last := by
  cases h with
  | outside hstate => simp [State.isTag, ht] at hstate
  | @naming k _ _ hstate =>
    rw [hstate] at ht
    cases k <;> cases ht
  | start => exact hname ▸ .start ht'
  | stop _ hnone => exact .stop ht' (hname.trans hnone)

/-- Outside of tags a name that is kept is that of the last tag. -/
theorem last_eq (h : NameKept t head last) (ht : t.state.isTag = false) (hname : t.tagName ≠ []) :
    ∃ b, last = some ⟨.start, t.tagName, b⟩ := by
  have hhead := h.head_eq_none ht
  subst hhead
  cases h with
  | outside _ hlast => exact hlast hname

theorem kept (h : NameKept t head last) (ht : t.state.isTag = true) :
    ∃ h, head = some h ∧ (h.kind = .start → t.keptName = h.name)
      ∧ (h.kind = .stop → t.keptName = []) := by
  have hin (hstate : t.state.isInTag = true) : t.keptName = t.tagName := by
    refine if_neg fun hend => ?_
    simp [hend, State.isInTag] at hstate
  cases h with
  | outside hstate => simp [hstate] at ht
  | @naming k b _ hstate =>
    refine ⟨_, rfl, ?_, ?_⟩
    · rintro rfl
      exact if_neg (by simp [hstate, TagKind.naming])
    · rintro rfl
      exact if_pos hstate
  | start hstate => exact ⟨_, rfl, fun _ => hin hstate, TagKind.noConfusion⟩
  | stop hstate hname => exact ⟨_, rfl, TagKind.noConfusion, fun _ => (hin hstate).trans hname⟩

theorem head_eq_naming (h : NameKept t head last) {k : TagKind} (ht : t.state = k.naming) :
    ∃ b, head = some ⟨k, t.tagName, b⟩ := by
  have hin : t.state.isInTag = false := by
    rw [ht]
    cases k <;> rfl
  cases h with
  | outside hstate =>
    rw [ht] at hstate
    cases k <;> cases hstate
  | @naming k' b _ hstate =>
    obtain rfl : k' = k := by
      rw [ht] at hstate
      revert hstate
      cases k <;> cases k' <;> simp [TagKind.naming]
    exact ⟨b, rfl⟩
  | start hstate | stop hstate => simp [hin] at hstate

theorem within {h : TagHead} (hstate : t.state.isInTag = true)
    (hstart : h.kind = .start → t.tagName = h.name) (hstop : h.kind = .stop → t.tagName = []) :
    NameKept t (some h) last := by
  obtain ⟨kind, name, b⟩ := h
  cases kind with
  | start =>
    obtain rfl : t.tagName = name := hstart rfl
    exact .start hstate
  | stop => exact .stop hstate (hstop rfl)

theorem step (h : NameKept t s.head? s.last?) (c : Char) (rest : List Char) :
    NameKept (t.step c rest).now ((t.step c rest).events.foldl Scribe.record s).head?
      ((t.step c rest).events.foldl Scribe.record s).last? := by
  generalize hs : t.step c rest = r
  cases hs ▸ t.step_tagStep c rest with
  | outside ht hr hevents hname =>
    obtain ⟨hhead, hlast⟩ := Scribe.records_tagless (h.head_eq_none ht) hevents
    rw [hhead, hlast]
    refine .outside hr fun hne => ?_
    rcases hname with hsame | hnone
    · rw [hsame] at hne ⊢
      exact h.last_eq ht hne
    · exact absurd hnone hne
  | begins k ht hr hevents hname =>
    rw [hevents, List.foldl_cons, List.foldl_cons, List.foldl_nil, Scribe.head?_tagName,
      Scribe.head?_beginTag, Option.map_some, List.nil_append, ← hname]
    exact .naming hr
  | grows k ht hr hevents hname =>
    obtain ⟨b, hhead⟩ := h.head_eq_naming ht
    rw [hevents, List.foldl_cons, List.foldl_nil, Scribe.head?_tagName, hhead, Option.map_some,
      ← hname]
    exact .naming hr
  | goes ht hgoes =>
    obtain ⟨head, hhead, hstart, hstop⟩ := h.kept ht
    cases hgoes with
    | within hr htag =>
      rw [(Scribe.records_parts htag.parts).1, hhead, Option.map_some]
      exact .within hr (fun hk => htag.name.trans (hstart hk)) fun hk => htag.name.trans (hstop hk)
    | ends _ _ hr hname hevents hparts =>
      obtain ⟨hnone, hlast⟩ := Scribe.records_tag hhead hparts _
      rw [hevents, hnone, hlast]
      refine .outside (by rw [hr]; rfl) fun hne => ?_
      rw [hname] at hne ⊢
      cases hkind : head.kind with
      | start =>
        rw [hstart hkind, TagHead.after, hkind]
        exact ⟨_, rfl⟩
      | stop => exact absurd (hstop hkind) hne

theorem finished (h : NameKept t s.head? s.last?) {c : Char} {rest : List Char} {p : Position}
    (hends : (t.step c rest).events.getLast? = some (.finishTag p)) {name : List Char} {b : Bool}
    (hlast : ((t.step c rest).events.foldl Scribe.record s).last? = some ⟨.start, name, b⟩) :
    (t.step c rest).now.state = .beforeData ∧ (t.step c rest).now.tagName = name := by
  have hmem := List.mem_of_getLast? hends
  generalize hs : t.step c rest = r at *
  cases hs ▸ t.step_tagStep c rest with
  | outside _ _ hevents => exact Bool.noConfusion (hevents _ hmem)
  | begins k _ _ hevents =>
    rw [hevents] at hends
    cases hends
  | grows k _ _ hevents =>
    rw [hevents] at hends
    cases hends
  | goes ht hgoes =>
    obtain ⟨head, hhead, hstart, -⟩ := h.kept ht
    cases hgoes with
    | within _ htag => exact Bool.noConfusion (htag.parts _ hmem)
    | ends _ _ hr hname hevents hparts =>
      rw [hevents, (Scribe.records_tag hhead hparts _).2, Option.some.injEq] at hlast
      have hkind : head.kind = .start := congrArg TagHead.kind hlast
      exact ⟨hr, (hname.trans (hstart hkind)).trans (congrArg TagHead.name hlast)⟩

end NameKept

end HtmlTemplate.Html
