import HtmlTemplate.Html.Delivery
import HtmlTemplate.Proofs.Moves
import Mathlib.Computability.Language
import Mathlib.Order.CompletePartialOrder

/-! What is reported as a word. A document is reported as texts, comments and tags one after
the other, each of them from its beginning to its end. What is reported of any part of a
document begins such a word, and the state of the machine says where it breaks off. -/

namespace HtmlTemplate.Html

open scoped Computability

/-- An event without what it says. -/
inductive Shape where
  | reset
  | beginTag (k : TagKind)
  | tagName
  | selfClosing
  | finishTag
  | beginAttribute
  | attributeName
  | beginAttributeValue
  | attributeValue
  | finishAttributeValue
  | beginData
  | data
  | finishData
  | beginComment
  | commentData
  | finishComment
deriving DecidableEq

/-- Faults of the text are no part of a document. -/
def Event.shape? : Event → Option Shape
  | reset => some .reset
  | beginStartTag _ => some (.beginTag .start)
  | beginEndTag _ => some (.beginTag .stop)
  | tagName _ => some .tagName
  | selfClosing => some .selfClosing
  | finishTag _ => some .finishTag
  | beginAttribute _ => some .beginAttribute
  | attributeName _ => some .attributeName
  | beginAttributeValue .. => some .beginAttributeValue
  | attributeValue .. => some .attributeValue
  | finishAttributeValue _ => some .finishAttributeValue
  | beginData _ => some .beginData
  | data _ => some .data
  | finishData _ => some .finishData
  | beginComment _ => some .beginComment
  | commentData _ => some .commentData
  | finishComment _ => some .finishComment
  | syntaxError .. => none

def word (es : List Event) : List Shape :=
  es.filterMap Event.shape?

namespace Grammar

def one (s : Shape) : Language Shape :=
  {[s]}

def many (s : Shape) : Language Shape :=
  one s * (one s)∗

def text : Language Shape :=
  one .beginData * many .data * one .finishData

def comment : Language Shape :=
  one .beginComment * (one .commentData)∗ * one .finishComment

def named : Language Shape :=
  one .beginAttribute * many .attributeName

def attr : Language Shape :=
  named * one .beginAttributeValue * (one .attributeValue)∗ * one .finishAttributeValue

def tagBefore (k : TagKind) : Language Shape :=
  one (.beginTag k) * many .tagName * attr∗

def tag (k : TagKind) : Language Shape :=
  tagBefore k * (1 + one .selfClosing) * one .finishTag

def whole : Language Shape :=
  text + tag .start + tag .stop + comment

def document : Language Shape :=
  whole∗

theorem le_mul_kstar (l m : Language Shape) : l ≤ l * m∗ :=
  calc l = l * 1 := (mul_one l).symm
    _ ≤ l * m∗ := by
      gcongr
      exact one_le_kstar

theorem mul_kstar_mul (l m : Language Shape) : l * m∗ * m ≤ l * m∗ := by
  rw [mul_assoc]
  gcongr
  exact kstar_mul_le_kstar

theorem mul_one_le_many (l : Language Shape) (s : Shape) : l * one s ≤ l * many s := by
  gcongr
  exact le_mul_kstar (one s) (one s)

theorem mul_many_mul (l : Language Shape) (s : Shape) : l * many s * one s ≤ l * many s := by
  unfold many
  rw [← mul_assoc]
  exact mul_kstar_mul (l * one s) (one s)

theorem tagBefore_mul (k : TagKind) : tagBefore k * attr ≤ tagBefore k :=
  mul_kstar_mul (one (.beginTag k) * many .tagName) attr

theorem text_le_whole : text ≤ whole :=
  le_sup_of_le_left (le_sup_of_le_left le_sup_left)

theorem tag_le_whole (k : TagKind) : tag k ≤ whole := by
  cases k with
  | start => exact le_sup_of_le_left (le_sup_of_le_left le_sup_right)
  | stop => exact le_sup_of_le_left le_sup_right

theorem comment_le_whole : comment ≤ whole :=
  le_sup_right

end Grammar

open Grammar

/-- What has been reported of the construct under way. -/
def Construct.reported : Construct → Language Shape
  | .none | .opening _ | .ending _ => 1
  | .text true => one .beginData
  | .text false => one .beginData * many .data
  | .comment => one .beginComment * (one .commentData)∗
  | .tagName k true => one (.beginTag k)
  | .tagName k false => one (.beginTag k) * many .tagName
  | .tag k false => tagBefore k
  | .tag k true => tagBefore k * one .selfClosing
  | .attribute k true => tagBefore k * one .beginAttribute
  | .attribute k false => tagBefore k * named
  | .value k => tagBefore k * (named * one .beginAttributeValue * (one .attributeValue)∗)

section
variable {x y : Construct} {p q : Position} {e : Event} {s : Shape} {es : List Event}

theorem Move.reported_silent (h : Move x p none y q) : x.reported ≤ y.reported := by
  cases h with
  | wait | openTag | turn => exact le_refl _
  | @endName k => exact le_mul_kstar (one (.beginTag k) * many .tagName) attr

theorem Construct.reported_text (b : Bool) :
    (Construct.text b).reported * one .data ≤ (Construct.text false).reported := by
  cases b with
  | true => exact mul_one_le_many (one .beginData) .data
  | false => exact mul_many_mul (one .beginData) .data

theorem Construct.reported_tagName (k : TagKind) (b : Bool) :
    (Construct.tagName k b).reported * one .tagName ≤ (Construct.tagName k false).reported := by
  cases b with
  | true => exact mul_one_le_many (one (.beginTag k)) .tagName
  | false => exact mul_many_mul (one (.beginTag k)) .tagName

theorem Construct.reported_attribute (k : TagKind) (b : Bool) :
    (Construct.attribute k b).reported * one .attributeName ≤
      (Construct.attribute k false).reported := by
  cases b with
  | true =>
    exact (mul_one_le_many (tagBefore k * one .beginAttribute) .attributeName).trans_eq
      (mul_assoc _ _ _)
  | false =>
    simp only [Construct.reported, named, ← mul_assoc]
    exact mul_many_mul (tagBefore k * one .beginAttribute) .attributeName

theorem Construct.reported_value (k : TagKind) :
    (Construct.value k).reported =
      tagBefore k * named * one .beginAttributeValue * (one .attributeValue)∗ := by
  simp only [Construct.reported, mul_assoc]

theorem Construct.reported_value_finish (k : TagKind) :
    (Construct.value k).reported * one .finishAttributeValue ≤ tagBefore k :=
  calc (Construct.value k).reported * one .finishAttributeValue
      = tagBefore k * attr := mul_assoc _ _ _
    _ ≤ tagBefore k := tagBefore_mul k

theorem Construct.reported_tag (k : TagKind) (b : Bool) :
    (Construct.tag k b).reported * one .finishTag ≤ whole := by
  refine le_trans ?_ (tag_le_whole k)
  unfold Grammar.tag
  cases b with
  | true =>
    simp only [Construct.reported]
    gcongr
    exact le_sup_right
  | false =>
    calc tagBefore k * one .finishTag = tagBefore k * 1 * one .finishTag := by rw [mul_one]
      _ ≤ tagBefore k * (1 + one .selfClosing) * one .finishTag := by
        gcongr
        exact le_sup_left

theorem Move.reported (h : Move x p (some e) y q) (hs : e.shape? = some s) :
    x.reported * one s ≤ y.reported ∨ y = .none ∧ x.reported * one s ≤ whole := by
  cases h with
  | fault | refuse | refuseEnd => cases hs
  | beginText | beginBracket | beginStartTag | beginEndTag =>
    cases hs
    exact .inl (one_mul _).le
  | @data b =>
    cases hs
    exact .inl (Construct.reported_text b)
  | finishText =>
    cases hs
    exact .inr ⟨rfl, text_le_whole⟩
  | beginComment =>
    cases hs
    exact .inl ((one_mul _).trans_le (le_mul_kstar (one .beginComment) (one .commentData)))
  | commentData =>
    cases hs
    exact .inl (mul_kstar_mul (one .beginComment) (one .commentData))
  | finishComment =>
    cases hs
    exact .inr ⟨rfl, comment_le_whole⟩
  | @growName k b =>
    cases hs
    exact .inl (Construct.reported_tagName k b)
  | selfClosing | beginAttribute =>
    cases hs
    exact .inl (le_refl _)
  | @finishTag k b =>
    cases hs
    exact .inr ⟨rfl, Construct.reported_tag k b⟩
  | @growAttribute k b =>
    cases hs
    exact .inl (Construct.reported_attribute k b)
  | @beginValue k =>
    cases hs
    rw [Construct.reported_value]
    exact .inl (le_mul_kstar (tagBefore k * named * one .beginAttributeValue) (one .attributeValue))
  | @valueText k =>
    cases hs
    rw [Construct.reported_value]
    exact .inl
      (mul_kstar_mul (tagBefore k * named * one .beginAttributeValue) (one .attributeValue))
  | @finishValue k =>
    cases hs
    exact .inl (Construct.reported_value_finish k)

def Construct.upTo (x : Construct) : Language Shape :=
  document * x.reported

theorem Construct.upTo_none : Construct.none.upTo = document :=
  mul_one _

theorem Move.upTo_silent (h : Move x p none y q) : x.upTo ≤ y.upTo := by
  unfold Construct.upTo
  gcongr
  exact h.reported_silent

theorem Move.upTo (h : Move x p (some e) y q) (hs : e.shape? = some s) :
    x.upTo * one s ≤ y.upTo := by
  unfold Construct.upTo
  rw [mul_assoc]
  rcases h.reported hs with hle | ⟨rfl, hle⟩
  · gcongr
  · calc document * (x.reported * one s) ≤ document * whole := by gcongr
      _ ≤ document := kstar_mul_le_kstar
      _ = document * Construct.none.reported := (mul_one _).symm

theorem Move.upTo_fault (h : Move x p (some e) y q) (hs : e.shape? = none) :
    x.upTo ≤ y.upTo := by
  cases h with
  | fault | refuse | refuseEnd => exact le_refl _
  | _ => cases hs

theorem word_append (es fs : List Event) : word (es ++ fs) = word es ++ word fs :=
  List.filterMap_append

theorem word_shaped (hs : e.shape? = some s) (es : List Event) :
    word (es ++ [e]) = word es ++ [s] := by
  rw [word_append]
  simp [word, hs]

theorem word_fault (hs : e.shape? = none) (es : List Event) : word (es ++ [e]) = word es := by
  rw [word_append]
  simp [word, hs]

theorem Moves.word {before : List Shape} (hbefore : before ∈ x.upTo) (h : Moves x p es y q) :
    before ++ word es ∈ y.upTo := by
  induction h with
  | refl => simpa [Html.word] using hbefore
  | @move _ _ _ _ _ _ e _ hm ih =>
    cases e with
    | none =>
      rw [Option.toList_none, List.append_nil]
      exact hm.upTo_silent ih
    | some e =>
      rw [Option.toList_some]
      cases hs : e.shape? with
      | none =>
        rw [word_fault hs]
        exact hm.upTo_fault hs ih
      | some s =>
        rw [word_shaped hs, ← List.append_assoc]
        exact hm.upTo hs (Language.append_mem_mul ih (Set.mem_singleton [s]))

theorem Construct.completes (x : Construct) (p : Position) : ∃ es, Moves x p es .none p := by
  have htag (k : TagKind) (b : Bool) : Moves (.tag k b) p [.finishTag p] .none p :=
    Moves.refl.move .finishTag
  have hvalue (k : TagKind) :
      Moves (.value k) p [.finishAttributeValue p, .finishTag p] .none p :=
    (Moves.refl.move .finishValue).trans (htag k false)
  have hname (k : TagKind) (b : Bool) : Moves (.attribute k b) p
      [.attributeName 'a', .beginAttributeValue false p, .finishAttributeValue p, .finishTag p]
      .none p :=
    ((Moves.refl.move .growAttribute).move .beginValue).trans (hvalue k)
  have htagName (k : TagKind) (b : Bool) :
      Moves (.tagName k b) p [.tagName 'a', .finishTag p] .none p :=
    ((Moves.refl.move .growName).silent .endName).trans (htag k false)
  have htext (b : Bool) : Moves (.text b) p [.data ['a'], .finishData p] .none p :=
    (Moves.refl.move (.data (List.cons_ne_nil _ _))).move .finishText
  match x with
  | .none => exact ⟨_, .refl⟩
  | .opening l => exact ⟨_, (Moves.refl.move .beginBracket).trans (htext true)⟩
  | .ending l => exact ⟨_, (Moves.refl.move .beginEndTag).trans (htagName .stop true)⟩
  | .text b => exact ⟨_, htext b⟩
  | .comment => exact ⟨_, Moves.refl.move .finishComment⟩
  | .tagName k b => exact ⟨_, htagName k b⟩
  | .tag k b => exact ⟨_, htag k b⟩
  | .attribute k b => exact ⟨_, hname k b⟩
  | .value k => exact ⟨_, hvalue k⟩

/-- A text or an attribute name ends right after it has begun. -/
def HasBlank (w : List Shape) : Prop :=
  [.beginData, .finishData] <:+: w ∨ [.beginAttribute, .beginAttributeValue] <:+: w

def Construct.blank? : Construct → Option Shape
  | .text true => some .beginData
  | .attribute _ true => some .beginAttribute
  | _ => Option.none

theorem Move.blank?_silent (h : Move x p none y q) : y.blank? = x.blank? := by
  cases h <;> rfl

theorem Move.blank?_fault (h : Move x p (some e) y q) (hs : e.shape? = none) :
    y.blank? = x.blank? := by
  cases h with
  | fault | refuse | refuseEnd => rfl
  | _ => cases hs

theorem Move.blank?_begins (h : Move x p (some e) y q) (hs : e.shape? = some s)
    (hbegins : s = .beginData ∨ s = .beginAttribute) : y.blank? = some s := by
  cases h <;> cases hs <;> simp [Construct.blank?] at hbegins ⊢

theorem Move.blank?_ends (h : Move x p (some e) y q) (hs : e.shape? = some s)
    (hends : s = .finishData ∨ s = .beginAttributeValue) : x.blank? = none := by
  cases h <;> cases hs <;> simp [Construct.blank?] at hends ⊢

private theorem pair_infix_concat {a b s : Shape} {w : List Shape} (h : [a, b] <:+: w ++ [s]) :
    [a, b] <:+: w ∨ s = b ∧ w.getLast? = some a := by
  rcases List.infix_concat_iff.mp h with ⟨before, hbefore⟩ | h
  · have hlast : (before ++ [a]) ++ [b] = w ++ [s] := by simpa using hbefore
    obtain ⟨rfl, hs⟩ := List.append_inj' hlast rfl
    exact .inr ⟨(List.singleton_inj.mp hs).symm, List.getLast?_concat⟩
  · exact .inl h

theorem Moves.not_hasBlank (h : Moves .none p es y q) :
    ¬ HasBlank (Html.word es)
      ∧ ∀ s, s = .beginData ∨ s = .beginAttribute → (Html.word es).getLast? = some s →
        y.blank? = some s := by
  induction h with
  | refl => simp [HasBlank, Html.word]
  | @move _ _ _ _ _ _ e _ hm ih =>
    obtain ⟨hblank, hlast⟩ := ih
    cases e with
    | none =>
      rw [Option.toList_none, List.append_nil, hm.blank?_silent]
      exact ⟨hblank, hlast⟩
    | some e =>
      rw [Option.toList_some]
      cases hs : e.shape? with
      | none =>
        rw [word_fault hs, hm.blank?_fault hs]
        exact ⟨hblank, hlast⟩
      | some s =>
        rw [word_shaped hs]
        refine ⟨?_, fun s' hbegins hs' => ?_⟩
        · rintro (hends | hends)
          · rcases pair_infix_concat hends with hends | ⟨rfl, hbegun⟩
            · exact hblank (.inl hends)
            · simpa [hm.blank?_ends hs (.inl rfl)] using hlast _ (.inl rfl) hbegun
          · rcases pair_infix_concat hends with hends | ⟨rfl, hbegun⟩
            · exact hblank (.inr hends)
            · simpa [hm.blank?_ends hs (.inr rfl)] using hlast _ (.inr rfl) hbegun
        · rw [List.getLast?_concat, Option.some.injEq] at hs'
          subst hs'
          exact hm.blank?_begins hs hbegins

theorem Moves.data_ne_nil (h : Moves x p es y q) : .data [] ∉ es := by
  intro hmem
  obtain ⟨before, after, rfl⟩ := List.append_of_mem hmem
  obtain ⟨_, _, _, _, -, hm⟩ := h.split
  cases hm with
  | data hne => exact hne rfl

end

def Action.isReading : Action → Bool
  | feed _ | finishData | finish => true
  | _ => false

theorem Action.moves {a : Action} (h : a.isReading = true) (t : Tokenizer) (k : TagKind) :
    ∃ k', Moves (t.construct k) t.position ((a.perform t).1.map (·.event))
      ((a.perform t).2.construct k') (a.perform t).2.position := by
  cases a with
  | feed chunk => exact t.feed_moves k chunk
  | finishData => exact ⟨k, t.finishData_moves k⟩
  | finish => exact ⟨k, t.finishData_moves k⟩
  | _ => cases h

def Recorder.Accepts (r : Recorder) : Prop :=
  r.lenient = true ∧ r.refuseAt = none

theorem Recorder.Accepts.deliver {r : Recorder} (h : r.Accepts) (es : List Emission) :
    ∃ r' : Recorder, r'.Accepts ∧ r'.events = r.events ++ es.map (·.event)
      ∧ Html.deliver Recorder.listen r es = (r', none) := by
  induction es generalizing r with
  | nil => exact ⟨r, h, by simp, rfl⟩
  | cons e es ih =>
    obtain ⟨r', hr', hevents, hlisten⟩ : ∃ r' : Recorder, r'.Accepts
        ∧ r'.events = r.events ++ [e.event] ∧ r.listen e.event = (r', none) := by
      obtain ⟨hlenient, hrefuse⟩ := h
      cases e.event <;> simp [Recorder.listen, Recorder.Accepts, hlenient, hrefuse]
    obtain ⟨r'', hr'', hevents', hrest⟩ := ih hr'
    refine ⟨r'', hr'', by simp [hevents', hevents], ?_⟩
    rw [Html.deliver, hlisten]
    exact hrest

theorem Session.perform_accepted {s : Session} (h : s.recorder.Accepts) (a : Action) :
    ∃ r : Recorder, r.Accepts ∧ s.perform a =
      (⟨(a.perform s.tokenizer).1.map (·.event), (a.perform s.tokenizer).2, none⟩,
        ⟨(a.perform s.tokenizer).2, r⟩) := by
  obtain ⟨r, hr, hevents, hdeliver⟩ := Recorder.Accepts.deliver
    (r := { s.recorder with events := [] }) h (a.perform s.tokenizer).1
  dsimp only at hdeliver
  refine ⟨r, hr, ?_⟩
  simp only [Session.perform, hdeliver, hevents]
  rfl

def lastOf (t : Tokenizer) : List Outcome → Tokenizer
  | [] => t
  | o :: os => lastOf o.tokenizer os

theorem Session.run_moves (s : Session) (hs : s.recorder.Accepts) (actions : List Action)
    (h : ∀ a ∈ actions, a.isReading = true) (k : TagKind) :
    (∀ o ∈ s.run actions, o.refusal = none)
      ∧ ∃ k', Moves (s.tokenizer.construct k) s.tokenizer.position
          ((s.run actions).flatMap (·.events))
          ((lastOf s.tokenizer (s.run actions)).construct k')
          (lastOf s.tokenizer (s.run actions)).position := by
  induction actions generalizing s k with
  | nil => exact ⟨by simp [Session.run], k, .refl⟩
  | cons a actions ih =>
    obtain ⟨r, hr, hperform⟩ := Session.perform_accepted hs a
    obtain ⟨k', hmoves⟩ := Action.moves (h a List.mem_cons_self) s.tokenizer k
    obtain ⟨hrefusals, k'', hrest⟩ := ih ⟨(a.perform s.tokenizer).2, r⟩ hr
      (fun b hb => h b (List.mem_cons_of_mem _ hb)) k'
    simp only [Session.run, hperform]
    refine ⟨fun o ho => ?_, k'', ?_⟩
    · rcases List.mem_cons.mp ho with rfl | ho
      · rfl
      · exact hrefusals o ho
    · rw [List.flatMap_cons]
      exact hmoves.trans hrest

/-- What has been heard of a machine that started afresh: whole parts of a document and the
beginning of the one that the state tells, so that it can be gone on with to a document. -/
structure Heard (events : List Event) (t : Tokenizer) : Prop where
  breaksOff : ∃ done begun k, word events = done ++ begun ∧ done ∈ document
    ∧ begun ∈ (t.construct k).reported
  completes : ∃ rest, word events ++ rest ∈ document
  noBlank : ¬ HasBlank (word events)
  noEmptyData : .data [] ∉ events

/-- Whatever is read in whatever chunks, a listener that refuses nothing hears the beginning
of a document. -/
theorem run_heard (mode : Mode) (actions : List Action)
    (h : ∀ a ∈ actions, a.isReading = true) :
    let outcomes := Session.run ⟨{ mode }, { lenient := true }⟩ actions
    (∀ o ∈ outcomes, o.refusal = none)
      ∧ Heard (outcomes.flatMap (·.events)) (lastOf { mode } outcomes) := by
  intro outcomes
  obtain ⟨hrefusals, k, hmoves⟩ := Session.run_moves ⟨{ mode }, { lenient := true }⟩ ⟨rfl, rfl⟩
    actions h .start
  have hnone : ([] : List Shape) ∈ Construct.none.upTo := by
    rw [Construct.upTo_none]
    exact Language.nil_mem_kstar whole
  obtain ⟨done, hdone, begun, hbegun, hword⟩ := Language.mem_mul.mp (hmoves.word hnone)
  obtain ⟨rest, hrest⟩ := Construct.completes _ (lastOf { mode } outcomes).position
  refine ⟨hrefusals, ⟨done, begun, k, hword.symm, hdone, hbegun⟩, ⟨word rest, ?_⟩,
    hmoves.not_hasBlank.1, hmoves.data_ne_nil⟩
  rw [← word_append, ← Construct.upTo_none]
  exact (hmoves.trans hrest).word hnone

/-- A start tag that is broken off in an attribute, with a flush in between. -/
theorem run_heard_attribute :
    (∀ a ∈ [Action.feed "x<a b".toList, .finishData], a.isReading = true)
      ∧ Heard ((Session.run ⟨{ mode := .codemod }, { lenient := true }⟩
          [.feed "x<a b".toList, .finishData]).flatMap (·.events))
        (lastOf { mode := .codemod } (Session.run ⟨{ mode := .codemod }, { lenient := true }⟩
          [.feed "x<a b".toList, .finishData])) :=
  have hreading : ∀ a ∈ [Action.feed "x<a b".toList, .finishData], a.isReading = true := by
    simp [Action.isReading]
  ⟨hreading, (run_heard .codemod _ hreading).2⟩

end HtmlTemplate.Html
