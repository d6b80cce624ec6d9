import HtmlTemplate.Proofs.Copies
import HtmlTemplate.Proofs.Report

/-! Nodes whose characters are those that stand at their place in the template. When text is
read as it is written, every report keeps them so. -/

namespace HtmlTemplate.Tree

open Html (Copied Copies Event Reading isQuote)

mutual

/-- Every text among the children has one property, and every attribute another. -/
def Statement.All (P : TextNode → Prop) (Q : Attribute → Prop) : Statement → Prop
  | .text t => P t
  | .element ⟨_, _, attributes, _, _, _, children, _⟩ =>
    (∀ a ∈ attributes, Q a) ∧ statementsAll P Q children
  | .block ⟨_, program, inverse, _, _, _, _⟩ => Section.All P Q program ∧ sectionAll P Q inverse
  | .decoratorBlock ⟨_, program, inverse, _, _, _, _⟩ =>
    Section.All P Q program ∧ sectionAll P Q inverse
  | .partialBlock ⟨_, program, _, _, _⟩ => Section.All P Q program
  | .dynamic _ | .decorator _ | .partialCall _ | .mustacheComment _ | .comment _ => True

def Section.All (P : TextNode → Prop) (Q : Attribute → Prop) : Section Statement → Prop
  | ⟨body, _, _, _⟩ => statementsAll P Q body

def sectionAll (P : TextNode → Prop) (Q : Attribute → Prop) : Option (Section Statement) → Prop
  | none => True
  | some s => Section.All P Q s

def statementsAll (P : TextNode → Prop) (Q : Attribute → Prop) : List Statement → Prop
  | [] => True
  | s :: ss => s.All P Q ∧ statementsAll P Q ss

end

def Template.All (P : TextNode → Prop) (Q : Attribute → Prop) (t : Template) : Prop :=
  statementsAll P Q t.body

theorem statementsAll_iff {P : TextNode → Prop} {Q : Attribute → Prop} {ss : List Statement} :
    statementsAll P Q ss ↔ ∀ s ∈ ss, s.All P Q := by
  induction ss with
  | nil => simp [statementsAll]
  | cons s ss ih => simp [statementsAll, ih]

/-- The text between two quotes, if it is between two of them. -/
def unquoted : List Char → List Char
  | [] => []
  | c :: cs => if isQuote c && cs.getLast? == some c then cs.dropLast else c :: cs

def TextNode.Verbatim (src : Source) (t : TextNode) : Prop :=
  src.slice t.span = t.chars

/-- The text of a value, or each of the texts in it, is what is written. -/
def AttributeValue.Verbatim (src : Source) : AttributeValue → Prop
  | .text t => unquoted (src.slice t.span) = t.chars
  | .dynamic _ => True
  | .concat parts _ => ∀ t, .text t ∈ parts → t.Verbatim src

def Attribute.Verbatim (src : Source) (a : Attribute) : Prop :=
  a.value.Verbatim src

def Quoted (quote chars : List Char) : Prop :=
  (∃ c, quote = [c] ∧ isQuote c = true)
    ∨ (quote = [] ∧ ∃ c cs, chars = c :: cs ∧ isQuote c = false)

theorem Quoted.append {quote chars : List Char} (h : Quoted quote chars) (more : List Char) :
    Quoted quote (chars ++ more) := by
  obtain h | ⟨rfl, c, cs, rfl, hc⟩ := h
  · exact .inl h
  · exact .inr ⟨rfl, c, cs ++ more, rfl, hc⟩

theorem Quoted.unquoted_eq {quote chars : List Char} (h : Quoted quote chars) :
    unquoted (quote ++ chars ++ quote) = chars := by
  obtain ⟨c, rfl, hc⟩ | ⟨rfl, c, cs, rfl, hc⟩ := h
  · simp [unquoted, hc]
  · simp [unquoted, hc]

theorem slice_empty (src : Source) (offset : Nat) : src.slice ⟨offset, offset⟩ = [] := by
  unfold Source.slice
  cases h : dropBytes offset src.text with
  | none => simp
  | some rest => cases rest <;> simp [takeBytes]

namespace PendingAttribute

variable {src : Source} {quote : List Char} {p q r : Position} {a : PendingAttribute}

def textChars (a : PendingAttribute) : List Char :=
  a.text.elim [] (·.chars)

structure Fresh (a : PendingAttribute) : Prop where
  parts : a.parts = []
  static : a.dynamic = false

structure InValue (src : Source) (quote : List Char) (p q : Position) (a : PendingAttribute) :
    Prop where
  static : a.dynamic = false → a.parts = [] ∧ a.valueStart = src.offsetFor p
    ∧ src.Covers p (quote ++ a.textChars) q ∧ Quoted quote a.textChars
  text : ∀ t ∈ a.text, ∃ start, t.span = ⟨src.offsetFor start, src.offsetFor q⟩
    ∧ src.Covers start t.chars q
  parts : ∀ t, .text t ∈ a.parts → t.Verbatim src
  dynamic : a.dynamic = true → ∃ d, .dynamic d ∈ a.parts

def Holds (src : Source) (r : Reading) (a : PendingAttribute) : Prop :=
  match r with
  | .other | .text .. => a.Fresh
  | .bare p => a.Fresh ∧ a.text = none ∧ a.valueStart = src.offsetFor p
  | .value quote p q => a.InValue src quote p q

private theorem textChars_addText (a : PendingAttribute) (cs : List Char) (span : Span) :
    (a.addText cs span).textChars = a.textChars ++ cs := by
  cases htext : a.text <;> simp [addText, textChars, htext]

theorem InValue.addText (h : a.InValue src quote p q) {cs : List Char} (hcs : src.Covers q cs r) :
    (a.addText cs ⟨src.offsetFor q, src.offsetFor r⟩).InValue src quote p r where
  static hstatic := by
    obtain ⟨hparts, hstart, hcovers, hquoted⟩ := h.static hstatic
    rw [textChars_addText, ← List.append_assoc]
    exact ⟨hparts, hstart, hcovers.trans hcs, hquoted.append cs⟩
  text t ht := by
    obtain rfl := Option.some.inj ht
    split
    · rename_i t htext
      obtain ⟨start, hspan, hcovers⟩ := h.text t htext
      exact ⟨start, by simp [hspan], hcovers.trans hcs⟩
    · exact ⟨q, rfl, hcs⟩
  parts := h.parts
  dynamic := h.dynamic

theorem InValue.finishText_parts (h : a.InValue src quote p q) (t : TextNode)
    (ht : .text t ∈ a.finishText.parts) : t.Verbatim src := by
  unfold finishText at ht
  split at ht
  · rename_i t' ht'
    rcases List.mem_append.mp ht with ht | ht
    · exact h.parts t ht
    · obtain rfl := Part.text.inj (List.mem_singleton.mp ht)
      obtain ⟨start, hspan, hcovers⟩ := h.text t ht'
      rw [TextNode.Verbatim, hspan]
      exact hcovers.slice
  · exact h.parts t ht

theorem InValue.addDynamic (h : a.InValue src quote p q) (d : Dynamic) (r : Position) :
    (a.addDynamic d).InValue src quote p r where
  static hstatic := by cases hstatic
  text t ht := by
    have hnone : a.finishText.text = none := by
      unfold finishText
      split
      · rfl
      · assumption
    exact absurd (hnone ▸ ht : t ∈ (none : Option TextNode)) (by simp)
  parts t ht := by
    rcases List.mem_append.mp ht with ht | ht
    · exact h.finishText_parts t ht
    · cases List.mem_singleton.mp ht
  dynamic _ := ⟨d, List.mem_append_right _ (List.mem_singleton.mpr rfl)⟩

theorem Fresh.addDynamic (h : a.Fresh) (htext : a.text = none) (d : Dynamic) (p q : Position) :
    (a.addDynamic d).InValue src quote p q where
  static hstatic := by cases hstatic
  text t ht := by simp [PendingAttribute.addDynamic, finishText, htext] at ht
  parts t ht := by simp [PendingAttribute.addDynamic, finishText, htext, h.parts] at ht
  dynamic _ := ⟨d, List.mem_append_right _ (List.mem_singleton.mpr rfl)⟩

theorem finishText_of_dynamic {d : Dynamic} (h : .dynamic d ∈ a.parts) :
    .dynamic d ∈ a.finishText.parts := by
  unfold finishText
  split
  · exact List.mem_append_left _ h
  · exact h

theorem InValue.value (h : a.InValue src quote p q) (hquote : src.Covers q quote r)
    {value : AttributeValue}
    (hvalue : a.finishText.value? ⟨a.valueStart, src.offsetFor r⟩ = .ok value) :
    value.Verbatim src := by
  have hsame : a.finishText.dynamic = a.dynamic := by
    unfold finishText
    split <;> rfl
  unfold value? at hvalue
  rw [hsame] at hvalue
  split at hvalue
  · rename_i hstatic
    obtain ⟨hparts, hstart, hcovers, hquoted⟩ := h.static (by simpa using hstatic)
    have hchars : a.finishText.staticChars = a.textChars := by
      cases htext : a.text <;> simp [staticChars, finishText, textChars, htext, hparts]
    cases hvalue
    show unquoted (src.slice _) = _
    rw [hstart, (hcovers.trans hquote).slice, hquoted.unquoted_eq, hchars]
  · rename_i hdynamic
    split at hvalue
    · cases hvalue
      exact h.finishText_parts
    · split at hvalue
      · rename_i part hpart
        obtain ⟨d, hd⟩ := h.dynamic (by simpa using hdynamic)
        have hmem := finishText_of_dynamic hd
        rw [hpart, List.mem_singleton] at hmem
        cases hvalue
        rw [← hmem]
        trivial
      · cases hvalue

theorem Fresh.value (h : a.Fresh) (htext : a.text = none) {stop : Nat} {value : AttributeValue}
    (hstart : a.valueStart = stop)
    (hvalue : a.finishText.value? ⟨a.valueStart, stop⟩ = .ok value) : value.Verbatim src := by
  simp only [finishText, htext, value?, h.static, Bool.not_false, ↓reduceIte, staticChars, h.parts,
    hstart, Except.ok.injEq] at hvalue
  subst hvalue
  show unquoted (src.slice _) = _
  rw [slice_empty]
  rfl

end PendingAttribute

def Statement.Verbatim (src : Source) (values : Prop) : Statement → Prop :=
  Statement.All (·.Verbatim src) fun a => values → a.Verbatim src

structure Frame.Verbatim (src : Source) (values : Prop) (f : Frame) : Prop where
  children : ∀ s ∈ f.children, s.Verbatim src values
  attributes : ∀ e, f = .element e → ∀ a ∈ e.attributes, values → a.Verbatim src

structure Markup.Holds (src : Source) (values : Prop) (r : Reading) (m : Markup) : Prop where
  frames : ∀ f ∈ m.stack.frames, f.2.Verbatim src values
  startTag : ∀ t, m.current = some (.startTag t) → ∀ a ∈ t.attributes, values → a.Verbatim src
  text : ∀ p q, r = .text p q →
    ∃ chars, m.current = some (.text chars (src.offsetFor p)) ∧ src.Covers p chars q
  pending : values → ∀ a ∈ m.pending, a.Holds src r

section

variable {src : Source} {values : Prop} {r r' : Reading} {m n : Markup}

theorem OpenElements.verbatim_append {s : OpenElements}
    (h : ∀ f ∈ s.frames, f.2.Verbatim src values) {node : Statement}
    (hnode : node.Verbatim src values) :
    ∀ f ∈ (s.append node).frames, f.2.Verbatim src values := by
  obtain ⟨_ | ⟨⟨id, top⟩, frames⟩, nextId⟩ := s
  · exact h
  · obtain ⟨htop, hframes⟩ := List.forall_mem_cons.mp h
    refine List.forall_mem_cons.mpr ⟨⟨fun s hs => ?_, fun e he => ?_⟩, hframes⟩
    · rw [Frame.children_mapChildren] at hs
      rcases List.mem_append.mp hs with hs | hs
      · exact htop.children s hs
      · rwa [List.mem_singleton.mp hs]
    · cases top with
      | body children => cases he
      | element e' =>
        cases he
        exact htop.attributes e' rfl

theorem OpenElement.verbatim_finish {e : OpenElement}
    (h : (Frame.element e).Verbatim src values) (stop : Nat) :
    Statement.Verbatim src values (.element (e.finish stop)) :=
  ⟨h.attributes e rfl, statementsAll_iff.mpr h.children⟩

namespace Markup

theorem Holds.append (h : m.Holds src values r) {node : Statement}
    (hnode : node.Verbatim src values) : (m.append node).Holds src values r :=
  ⟨OpenElements.verbatim_append h.frames hnode, h.startTag, h.text, h.pending⟩

theorem Holds.closeElement (h : m.Holds src values .other) {name : List Char} {tagSpan : Span}
    {implicit : Bool} (hn : m.closeElement src name tagSpan implicit = .ok n) :
    n.Holds src values .other := by
  obtain ⟨e, stack, hpop, -, rfl⟩ := closeElement_ok hn
  unfold OpenElements.popElement? at hpop
  split at hpop
  · rename_i id e' frames hframes
    obtain ⟨rfl, rfl⟩ := Prod.mk.inj (Option.some.inj hpop)
    have hall := h.frames
    rw [hframes] at hall
    obtain ⟨htop, hrest⟩ := List.forall_mem_cons.mp hall
    exact ⟨OpenElements.verbatim_append (s := { m.stack with frames }) hrest
      (OpenElement.verbatim_finish htop _), h.startTag, nofun, h.pending⟩
  · cases hpop

theorem Holds.openElement (h : m.Holds src values .other) {t : StartTag} {stop : Nat}
    (ht : ∀ a ∈ t.attributes, values → a.Verbatim src)
    (hn : m.openElement src t stop = .ok n) : n.Holds src values .other := by
  obtain ⟨kept, params, -, hn⟩ := openElement_ok hn
  have htop : (Frame.element (opened t kept params stop)).Verbatim src values := by
    refine ⟨fun s hs => (nomatch hs), fun e he a ha => ?_⟩
    cases he
    exact ht a (List.mem_of_mem_take ha)
  rcases hn with rfl | rfl
  · have hframes : ∀ f ∈ (m.stack.push (.element (opened t kept params stop))).2.frames,
        f.2.Verbatim src values := List.forall_mem_cons.mpr ⟨htop, h.frames⟩
    exact ⟨hframes, h.startTag, nofun, h.pending⟩
  · exact ⟨OpenElements.verbatim_append (s := { m.stack with nextId := m.stack.nextId + 1 })
      h.frames (OpenElement.verbatim_finish htop _), h.startTag, nofun, h.pending⟩

theorem Holds.finishTag (h : m.Holds src values .other) {stop : Nat}
    (hn : m.finishTag src stop = .ok n) : n.Holds src values .other := by
  have hnone : Holds src values .other { m with current := none } :=
    ⟨h.frames, nofun, nofun, h.pending⟩
  unfold Markup.finishTag at hn
  split at hn
  · rename_i t ht
    exact hnone.openElement (h.startTag t ht) hn
  · exact hnone.closeElement hn
  · exact Except.ok.inj hn ▸ h

theorem Holds.withStartTag (h : m.Holds src values .other) {span : Span} {f : StartTag → StartTag}
    (hf : ∀ t, (f t).attributes = t.attributes) (hn : m.withStartTag src span f = .ok n) :
    n.Holds src values .other := by
  obtain ⟨t, ht, rfl⟩ := withStartTag_ok hn
  refine ⟨h.frames, fun t' ht' => ?_, nofun, h.pending⟩
  cases ht'
  rw [hf]
  exact h.startTag t ht

theorem Holds.finishValue (h : m.Holds src values r) {stop : Nat}
    (hvalue : values → ∀ a ∈ m.pending, ∀ value,
      a.finishText.value? ⟨a.valueStart, stop⟩ = .ok value → value.Verbatim src)
    (hn : m.finishValue src stop = .ok n) : n.Holds src values .other := by
  cases hpending : m.pending with
  | none =>
    rw [finishValue_none hpending, Except.ok.injEq] at hn
    subst hn
    exact ⟨h.frames, h.startTag, nofun, fun _ a ha => by simp [hpending] at ha⟩
  | some a =>
    obtain ⟨t, value, ht, hval, rfl⟩ := finishValue_ok hpending hn
    refine ⟨h.frames, fun t' ht' a' ha' hvalues => ?_, nofun, fun _ a ha => nomatch ha⟩
    cases ht'
    rcases List.mem_append.mp ha' with ha' | ha'
    · exact h.startTag t ht a' ha' hvalues
    · rw [List.mem_singleton.mp ha']
      exact hvalue hvalues a hpending value hval

theorem Holds.quiet (h : m.Holds src values .other) {e : Event} (he : e.isQuiet = true)
    (hn : m.receive src e = .ok n) : n.Holds src values .other := by
  have hset {c : Current} (hc : ∀ t, c = .startTag t → t.attributes = []) :
      Holds src values .other { m with current := some c } := by
    refine ⟨h.frames, fun t ht a ha => ?_, by rintro _ _ ⟨⟩, h.pending⟩
    rw [hc t (Option.some.inj ht)] at ha
    cases ha
  cases e with
  | beginData | data | finishData | beginAttributeValue | attributeValue | finishAttributeValue =>
    cases he
  | reset =>
    cases hn
    exact ⟨h.frames, by rintro _ ⟨⟩, by rintro _ _ ⟨⟩, by rintro _ _ ⟨⟩⟩
  | beginStartTag p =>
    cases hn
    exact hset fun t ht => by cases ht; rfl
  | beginEndTag p =>
    cases hn
    exact hset (by rintro _ ⟨⟩)
  | tagName c =>
    cases hn
    unfold growTagName
    split
    · rename_i t ht
      refine ⟨h.frames, fun t' ht' => ?_, by rintro _ _ ⟨⟩, h.pending⟩
      cases ht'
      exact h.startTag t ht
    · exact hset (by rintro _ ⟨⟩)
    · exact h
  | selfClosing =>
    simp only [receive, markSelfClosing] at hn
    split at hn
    · rename_i t ht
      cases hn
      refine ⟨h.frames, fun t' ht' => ?_, by rintro _ _ ⟨⟩, h.pending⟩
      cases ht'
      exact h.startTag t ht
    · simp [fault] at hn
    · cases hn
      exact h
  | finishTag p => exact h.finishTag hn
  | beginAttribute p =>
    cases hn
    refine ⟨h.frames, h.startTag, by rintro _ _ ⟨⟩, fun _ a ha => ?_⟩
    cases ha
    exact ⟨rfl, rfl⟩
  | attributeName c =>
    cases hn
    refine ⟨h.frames, h.startTag, by rintro _ _ ⟨⟩, fun hvalues a ha => ?_⟩
    obtain ⟨a', ha', rfl⟩ := Option.map_eq_some_iff.mp ha
    exact ⟨(h.pending hvalues a' ha').parts, (h.pending hvalues a' ha').static⟩
  | beginComment p =>
    cases hn
    exact hset (by rintro _ ⟨⟩)
  | commentData text =>
    simp only [receive] at hn
    split at hn
    · cases hn
      exact hset (by rintro _ ⟨⟩)
    · cases hn
      exact h
  | finishComment p =>
    simp only [receive] at hn
    split at hn
    · cases hn
      have hnone : Holds src values .other { m with current := none } :=
        ⟨h.frames, by rintro _ ⟨⟩, by rintro _ _ ⟨⟩, h.pending⟩
      exact hnone.append trivial
    · cases hn
      exact h
  | syntaxError f p => simp [receive, fault] at hn

theorem Holds.receive (h : m.Holds src values r) {e : Event} (he : Copies src r e r')
    (hn : m.receive src e = .ok n) : n.Holds src values r' := by
  cases he with
  | quiet he => exact h.quiet he hn
  | beginText hp =>
    cases hn
    refine ⟨h.frames, nofun, fun p q hpq => ?_, h.pending⟩
    cases hpq
    exact ⟨[], rfl, hp⟩
  | @data p q r' cs hcs =>
    obtain ⟨chars, hcurrent, hcovers⟩ := h.text p q rfl
    simp only [Markup.receive, hcurrent] at hn
    cases hn
    refine ⟨h.frames, nofun, fun p' q' hpq => ?_, h.pending⟩
    cases hpq
    exact ⟨chars ++ cs, rfl, hcovers.trans hcs⟩
  | @finishText p q =>
    obtain ⟨chars, hcurrent, hcovers⟩ := h.text p q rfl
    simp only [Markup.receive, hcurrent] at hn
    cases hn
    have hnone : Holds src values .other { m with current := none } :=
      ⟨h.frames, nofun, nofun, h.pending⟩
    exact hnone.append hcovers.slice
  | @beginBare p =>
    cases hn
    refine ⟨h.frames, h.startTag, nofun, fun hvalues a ha => ?_⟩
    obtain ⟨a', ha', rfl⟩ := Option.map_eq_some_iff.mp ha
    obtain ⟨hparts, hstatic⟩ : a'.Fresh := h.pending hvalues a' ha'
    exact ⟨⟨hparts, hstatic⟩, rfl, rfl⟩
  | @finishBare p =>
    refine h.finishValue (fun hvalues a ha value hvalue => ?_) hn
    obtain ⟨hfresh, htext, hstart⟩ := h.pending hvalues a ha
    exact hfresh.value htext hstart hvalue
  | @bareText p q c hc hcovers =>
    cases hn
    refine ⟨h.frames, h.startTag, nofun, fun hvalues a ha => ?_⟩
    obtain ⟨a', ha', rfl⟩ := Option.map_eq_some_iff.mp ha
    obtain ⟨⟨hparts, hstatic⟩, htext, hstart⟩ := h.pending hvalues a' ha'
    refine ⟨fun _ => ⟨hparts, hstart, ?_, ?_⟩, fun t ht => ?_, fun t ht => ?_, fun hdynamic => ?_⟩
    · simpa [PendingAttribute.textChars, PendingAttribute.addText, htext] using hcovers
    · right
      simp [PendingAttribute.textChars, PendingAttribute.addText, htext, hc]
    · simp only [PendingAttribute.addText, htext, Option.mem_def, Option.some.injEq] at ht
      subst ht
      exact ⟨p, rfl, hcovers⟩
    · rw [show (a'.addText _ _).parts = a'.parts from rfl, hparts] at ht
      cases ht
    · exact absurd (hstatic.symm.trans hdynamic) Bool.false_ne_true
  | @beginQuoted p q c hc hcovers =>
    cases hn
    refine ⟨h.frames, h.startTag, nofun, fun hvalues a ha => ?_⟩
    obtain ⟨a', ha', rfl⟩ := Option.map_eq_some_iff.mp ha
    obtain ⟨hparts, hstatic⟩ : a'.Fresh := h.pending hvalues a' ha'
    refine ⟨fun _ => ⟨hparts, rfl, hcovers, .inl ⟨c, rfl, hc⟩⟩, nofun, fun t ht => ?_,
      fun hdynamic => ?_⟩
    · rw [hparts] at ht
      cases ht
    · exact absurd (hstatic.symm.trans hdynamic) Bool.false_ne_true
  | @valueText quote cs p q r' hcs =>
    cases hn
    refine ⟨h.frames, h.startTag, nofun, fun hvalues a ha => ?_⟩
    obtain ⟨a', ha', rfl⟩ := Option.map_eq_some_iff.mp ha
    have hvalue : a'.InValue src quote p q := h.pending hvalues a' ha'
    exact hvalue.addText hcs
  | @finishValue quote p q r' hquote =>
    refine h.finishValue (fun hvalues a ha value hvalue => ?_) hn
    have hin : a.InValue src quote p q := h.pending hvalues a ha
    exact hin.value hquote hvalue

theorem Holds.receiveAll {es : List Event} (h : m.Holds src values r) (hes : Copied src r es r')
    (hn : es.foldlM (Markup.receive src) m = .ok n) : n.Holds src values r' := by
  induction hes generalizing m with
  | nil => exact pure_eq_ok.mp hn ▸ h
  | cons he _ ih =>
    rw [List.foldlM_cons, bind_eq_ok] at hn
    obtain ⟨k, hk, hn⟩ := hn
    exact ih (h.receive he hk) hn

end Markup

end

end HtmlTemplate.Tree
