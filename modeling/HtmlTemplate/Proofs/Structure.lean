import HtmlTemplate.Proofs.Moves
import HtmlTemplate.Proofs.Walk

/-! What is reported of HTML text makes up a tree as long as the tags, texts and comments put
together from the same reports can make one. -/

namespace HtmlTemplate.Tree

open Html (Construct Event Move Moves Scribe TagKind Token)

def Current.token : Current → Token
  | .text chars _ => .text chars
  | .comment value _ => .comment value
  | .startTag t => .startTag t.tag
  | .endTag name _ => .endTag { name }

inductive Current.InTag : Current → TagKind → Prop
  | start {t : StartTag} : t.Static → InTag (.startTag t) .start
  | stop {name : List Char} {start : Nat} : InTag (.endTag name start) .stop

def PendingAttribute.written (a : PendingAttribute) : List Char × List Char :=
  (a.name, a.text.elim [] TextNode.chars)

structure PendingAttribute.Static (a : PendingAttribute) : Prop where
  dynamic : a.dynamic = false
  parts : a.parts = []

inductive Underway : Construct → Option Current → Option PendingAttribute → Prop
  | none : Underway .none none none
  | opening {l : Position} : Underway (.opening l) none none
  | ending {l : Position} : Underway (.ending l) none none
  | text {blank : Bool} {chars : List Char} {start : Nat} :
      Underway (.text blank) (some (.text chars start)) none
  | comment {value : List Char} {start : Nat} :
      Underway .comment (some (.comment value start)) none
  | tagName {k : TagKind} {blank : Bool} {c : Current} : c.InTag k →
      Underway (.tagName k blank) (some c) none
  | tag {k : TagKind} {closing : Bool} {c : Current} : c.InTag k →
      Underway (.tag k closing) (some c) none
  | naming {k : TagKind} {blank : Bool} {c : Current} {a : PendingAttribute} :
      c.InTag k → a.Static → a.text = none →
      Underway (.attribute k blank) (some c) (some a)
  | valuing {k : TagKind} {c : Current} {a : PendingAttribute} : c.InTag k → a.Static →
      Underway (.value k) (some c) (some a)

structure Mirrors (x : Construct) (s : Scribe) (m : Markup) : Prop where
  underway : Underway x m.current m.pending
  current : s.current = m.current.map Current.token
  pending : s.pending = m.pending.map PendingAttribute.written
  stacked : Stacked s.done m.stack

def tagKind? : Construct → Option TagKind
  | .tagName k _ | .tag k _ | .attribute k _ | .value k => some k
  | _ => none

def Doomed (x : Construct) (s : Scribe) : Prop :=
  ¬ Sound s.done
    ∨ tagKind? x = some .stop ∧ ∃ t, s.current = some (.endTag t) ∧ ¬ Allowed (.endTag t)

section
variable {x y : Construct} {p q : Position} {s : Scribe} {e : Event}

theorem Doomed.silent (h : Doomed x s) (hm : Move x p none y q) : Doomed y s := by
  refine h.imp_right fun ⟨hkind, ht⟩ => ⟨?_, ht⟩
  cases hm with
  | wait | endName => exact hkind
  | openTag | turn => cases hkind

theorem Doomed.report (h : Doomed x s) (hm : Move x p (some e) y q) : Doomed y (s.record e) := by
  have hreset : e ≠ .reset := by
    rintro rfl
    cases hm
  obtain hdone | ⟨hkind, t, ht, hallowed⟩ := h
  · exact .inl fun hsound => hdone (hsound.of_isPrefix (s.done_isPrefix e hreset))
  cases hm with
  | finishTag =>
    left
    intro hsound
    refine hallowed (hsound.allowed _ ?_)
    simp [Scribe.record, Scribe.finish, ht]
  | fault | beginAttribute | growAttribute | beginValue | valueText =>
    exact .inr ⟨hkind, t, ht, hallowed⟩
  | growName => exact .inr ⟨hkind, _, Scribe.current_mapTag_endTag ht _, hallowed⟩
  | selfClosing =>
    exact .inr ⟨hkind, _, Scribe.current_mapTag_endTag ht _, fun h => Bool.noConfusion h.2⟩
  | finishValue =>
    exact .inr ⟨hkind, _, Scribe.current_mapTag_endTag ht _, fun h =>
      hallowed ⟨(List.append_eq_nil_iff.mp h.1).1, h.2⟩⟩
  | _ => cases hkind

end

theorem written_addText (a : PendingAttribute) (chars : List Char) (span : Span) :
    (a.addText chars span).written = (a.written.1, a.written.2 ++ chars) := by
  unfold PendingAttribute.addText PendingAttribute.written
  cases a.text <;> rfl

private theorem value?_static {a : PendingAttribute} (h : a.Static) (span : Span) :
    a.finishText.value? span = .ok (.text ⟨a.written.2, span⟩) := by
  obtain ⟨name, start, valueStart, quoted, dynamic, parts, text⟩ := a
  obtain rfl : dynamic = false := h.dynamic
  obtain rfl : parts = [] := h.parts
  cases text <;> rfl

private theorem name_finishText (a : PendingAttribute) : a.finishText.name = a.name := by
  unfold PendingAttribute.finishText
  split <;> rfl

private theorem finishValue_startTag (src : Source) (stack : OpenElements) (t : StartTag)
    {a : PendingAttribute} (h : a.Static) (stop : Nat) :
    ∃ attr : Attribute, attr.name = a.written.1 ∧ attr.value.text? = some a.written.2
      ∧ Markup.finishValue src ⟨stack, some (.startTag t), some a⟩ stop
        = .ok ⟨stack, some (.startTag { t with attributes := t.attributes ++ [attr] }), none⟩ := by
  refine ⟨⟨a.name, .text ⟨a.written.2, ⟨a.finishText.valueStart, stop⟩⟩,
    ⟨a.finishText.start, stop⟩⟩, rfl, rfl, ?_⟩
  simp only [Markup.finishValue, value?_static h, name_finishText]
  rfl

def Follows (x : Construct) (s : Scribe) : Except SyntaxError Markup → Prop
  | .ok m => Mirrors x s m
  | .error _ => Doomed x s

section
variable {src : Source} {x y : Construct} {p q : Position} {s : Scribe} {m : Markup} {e : Event}

theorem Mirrors.silent (h : Mirrors x s m) (hm : Move x p none y q) : Mirrors y s m := by
  obtain ⟨hunder, hcurrent, hpending, hstacked⟩ := h
  refine ⟨?_, hcurrent, hpending, hstacked⟩
  generalize m.current = current at hunder
  generalize m.pending = pending at hunder
  cases hm with
  | wait => exact hunder
  | openTag =>
    cases hunder
    exact .opening
  | turn =>
    cases hunder
    exact .ending
  | endName =>
    cases hunder with
    | tagName hc => exact .tag hc

private theorem follows_of_stacked {ts : List Token} {r : Except SyntaxError Markup}
    (h : (∃ n, r = .ok n ∧ Stacked ts n.stack ∧ n.current = none ∧ n.pending = none)
      ∨ ∃ f, r = .error f ∧ ¬ Sound ts) : Follows .none ⟨ts, none, none⟩ r := by
  obtain ⟨⟨stack, current, pending⟩, rfl, hstacked, rfl, rfl⟩ | ⟨f, rfl, hsound⟩ := h
  · exact ⟨.none, rfl, rfl, hstacked⟩
  · exact .inl hsound

theorem Mirrors.report (h : Mirrors x s m) (hm : Move x p (some e) y q)
    (hfault : e.isFault = false) : Follows y (s.record e) (m.receive src e) := by
  obtain ⟨done, current, pending⟩ := s
  obtain ⟨stack, current', pending'⟩ := m
  obtain ⟨hunder, hcurrent, hpending, hstacked⟩ := h
  dsimp only at hunder hcurrent hpending hstacked
  subst hcurrent hpending
  cases hm with
  | fault | refuse | refuseEnd => cases hfault
  | beginText | beginBracket | data =>
    cases hunder
    exact ⟨.text, rfl, rfl, hstacked⟩
  | beginComment | commentData =>
    cases hunder
    exact ⟨.comment, rfl, rfl, hstacked⟩
  | finishText | finishComment =>
    cases hunder
    exact ⟨.none, rfl, rfl, hstacked.append trivial (fun _ => rfl) rfl rfl⟩
  | beginStartTag =>
    cases hunder
    exact ⟨.tagName (.start ⟨by simp, rfl, rfl⟩), rfl, rfl, hstacked⟩
  | beginEndTag =>
    cases hunder
    exact ⟨.tagName .stop, rfl, rfl, hstacked⟩
  | growName =>
    cases hunder with
    | tagName hc =>
      cases hc with
      | start h =>
        exact ⟨.tagName (.start ⟨h.values, h.modifiers, h.comments⟩), rfl, rfl, hstacked⟩
      | stop => exact ⟨.tagName .stop, rfl, rfl, hstacked⟩
  | selfClosing =>
    cases hunder with
    | tag hc =>
      cases hc with
      | start h =>
        exact ⟨.tag (.start ⟨h.values, h.modifiers, h.comments⟩), rfl, rfl, hstacked⟩
      -- the tree refuses it at once, the tokens are not sound as soon as the tag ends
      | stop => exact .inr ⟨rfl, _, rfl, fun h => Bool.noConfusion h.2⟩
  | finishTag =>
    cases hunder with
    | tag hc =>
      cases hc with
      | start hstatic =>
        exact follows_of_stacked (hstacked.openElement hstatic (src.offsetFor p))
      | @stop name start =>
        exact follows_of_stacked (hstacked.closeElement name ⟨start, src.offsetFor p⟩)
  | beginAttribute =>
    cases hunder with
    | tag hc => exact ⟨.naming hc ⟨rfl, rfl⟩ rfl, rfl, rfl, hstacked⟩
  | growAttribute =>
    cases hunder with
    | naming hc hstatic htext =>
      exact ⟨.naming hc ⟨hstatic.dynamic, hstatic.parts⟩ htext, rfl, rfl, hstacked⟩
  | beginValue =>
    cases hunder with
    | naming hc hstatic htext =>
      refine ⟨.valuing hc ⟨hstatic.dynamic, hstatic.parts⟩, rfl, ?_, hstacked⟩
      simp [Scribe.record, Markup.beginValue, Markup.mapAttribute, PendingAttribute.written, htext]
  | valueText =>
    cases hunder with
    | valuing hc hstatic =>
      refine ⟨.valuing hc ⟨hstatic.dynamic, hstatic.parts⟩, rfl, ?_, hstacked⟩
      exact congrArg some (written_addText _ _ _).symm
  | finishValue =>
    cases hunder with
    | valuing hc hstatic =>
      cases hc with
      | stop => exact .inr ⟨rfl, _, rfl, fun h => List.cons_ne_nil _ _ h.1⟩
      | @start t htag =>
        obtain ⟨attr, hname, hvalue, hfinish⟩ :=
          finishValue_startTag src stack t hstatic (src.offsetFor p)
        simp only [Markup.receive, hfinish]
        have hvalues : ∀ a ∈ t.attributes ++ [attr], a.value.text?.isSome = true :=
          List.forall_mem_append.mpr ⟨htag.values, by simp [hvalue]⟩
        refine ⟨.tag (.start ⟨hvalues, htag.modifiers, htag.comments⟩), ?_, rfl, hstacked⟩
        simp [Scribe.record, Scribe.mapTag, Current.token, StartTag.tag, hname, hvalue]

theorem follows_of_moves {es : List Event} (h : Moves x p es y q) (hes : Html.Faultless es)
    (hm : Mirrors x s m) :
    Follows y (es.foldl Scribe.record s) (es.foldlM (Markup.receive src) m) := by
  induction h with
  | refl => exact hm
  | @move _ _ _ _ _ es e _ hmove ih =>
    obtain ⟨hbefore, he⟩ := List.forall_mem_append.mp hes
    have hfollows := ih hbefore
    rw [List.foldl_append, List.foldlM_append]
    cases hresult : es.foldlM (Markup.receive src) m with
    | error f =>
      rw [hresult] at hfollows
      cases e with
      | none => exact Doomed.silent hfollows hmove
      | some e => exact Doomed.report hfollows hmove
    | ok n =>
      rw [hresult] at hfollows
      cases e with
      | none => exact Mirrors.silent hfollows hmove
      | some e =>
        show Follows _ _ ([e].foldlM (Markup.receive src) n)
        simp only [List.foldlM_cons, List.foldlM_nil, bind_pure]
        exact Mirrors.report hfollows hmove (he e List.mem_cons_self)

/-- Faults cannot be put into the tree. -/
theorem faultless_of_ok {es : List Event} {n : Markup}
    (h : es.foldlM (Markup.receive src) m = .ok n) : Html.Faultless es := by
  induction es generalizing m with
  | nil => simp [Html.Faultless]
  | cons e es ih =>
    rw [List.foldlM_cons, bind_eq_ok] at h
    obtain ⟨k, hk, h⟩ := h
    refine List.forall_mem_cons.mpr ⟨?_, ih h⟩
    cases e with
    | syntaxError => cases hk
    | _ => rfl

end

end HtmlTemplate.Tree
