import HtmlTemplate.Proofs.Boundaries
import HtmlTemplate.Proofs.Siblings

/-! What every call and every HTML comment of a template has. The nodes around them are put
together without a look into them, so each has it in the template if it has it when it is read. -/

namespace HtmlTemplate.Tree

open Html (Event)

/-- What is to be shown of calls, each with the span of the node that it is part of, and of
comments. -/
structure Checks where
  call : Span → Call Expression → Prop := fun _ _ => True
  /-- Of the calls of partials, whose names may be literals. -/
  name : Span → Call Expression → Prop := fun _ _ => True
  comment : Comment → Prop := fun _ => True

def Dynamic.Satisfies (K : Checks) : Dynamic → Prop
  | .call m => K.call m.span m.call
  | .literal _ => True

def Part.Satisfies (K : Checks) : Part → Prop
  | .text _ => True
  | .dynamic d => d.Satisfies K

def AttributeValue.Satisfies (K : Checks) : AttributeValue → Prop
  | .text _ => True
  | .dynamic d => d.Satisfies K
  | .concat parts _ => ∀ p ∈ parts, p.Satisfies K

def tagSatisfies (K : Checks) (attributes : List Attribute) (modifiers : List Modifier) : Prop :=
  (∀ a ∈ attributes, a.value.Satisfies K) ∧ ∀ m ∈ modifiers, K.call m.span m.call

mutual

def Statement.Satisfies (K : Checks) : Statement → Prop
  | .dynamic d => d.Satisfies K
  | .block b => Block.Satisfies K b
  | .decorator m => K.call m.span m.call
  | .decoratorBlock b => Block.Satisfies K b
  | .partialCall p => K.name p.span p.call
  | .partialBlock ⟨call, program, _, _, span⟩ => K.name span call ∧ Section.Satisfies K program
  | .mustacheComment _ => True
  | .comment c => K.comment c
  | .element ⟨_, _, attributes, _, modifiers, _, children, _⟩ =>
    tagSatisfies K attributes modifiers ∧ statementsSatisfy K children
  | .text _ => True

def Block.Satisfies (K : Checks) : Block Statement → Prop
  | ⟨call, program, inverse, _, _, _, span⟩ =>
    K.call span call ∧ Section.Satisfies K program ∧ sectionSatisfies K inverse

def Section.Satisfies (K : Checks) : Section Statement → Prop
  | ⟨body, _, _, _⟩ => statementsSatisfy K body

def sectionSatisfies (K : Checks) : Option (Section Statement) → Prop
  | none => True
  | some s => Section.Satisfies K s

def statementsSatisfy (K : Checks) : List Statement → Prop
  | [] => True
  | s :: ss => s.Satisfies K ∧ statementsSatisfy K ss

end

def Template.Satisfies (K : Checks) (t : Template) : Prop :=
  statementsSatisfy K t.body

variable {K : Checks} {src : Source}

theorem statementsSatisfy_iff {ss : List Statement} :
    statementsSatisfy K ss ↔ ∀ s ∈ ss, s.Satisfies K := by
  induction ss with
  | nil => simp [statementsSatisfy]
  | cons s ss ih => simp [statementsSatisfy, ih]

theorem sectionSatisfies_getD {program : Option (Section Statement)} {span : Span}
    (h : sectionSatisfies K program) :
    (program.getD ⟨[], [], false, span⟩).Satisfies K := by
  cases program with
  | none => trivial
  | some _ => exact h

def Frame.Satisfies (K : Checks) : Frame → Prop
  | .body children => statementsSatisfy K children
  | .element e => tagSatisfies K e.attributes e.modifiers ∧ statementsSatisfy K e.children

theorem Frame.Satisfies.children {f : Frame} (h : f.Satisfies K) :
    statementsSatisfy K f.children := by
  cases f with
  | body children => exact h
  | element e => exact h.2

namespace OpenElements

variable {s t : OpenElements}

def Satisfies (K : Checks) (s : OpenElements) : Prop :=
  ∀ f ∈ s.frames, f.2.Satisfies K

theorem Satisfies.append (h : s.Satisfies K) {node : Statement} (hnode : node.Satisfies K) :
    (s.append node).Satisfies K := by
  obtain ⟨_ | ⟨⟨id, top⟩, frames⟩, nextId⟩ := s
  · exact h
  · obtain ⟨htop, hframes⟩ := List.forall_mem_cons.mp h
    refine List.forall_mem_cons.mpr ⟨?_, hframes⟩
    have hconcat {ss : List Statement} (hss : statementsSatisfy K ss) :
        statementsSatisfy K (ss ++ [node]) := by
      rw [statementsSatisfy_iff] at hss ⊢
      exact List.forall_mem_append.mpr ⟨hss, List.forall_mem_singleton.mpr hnode⟩
    cases top with
    | body children => exact hconcat htop
    | element e => exact ⟨htop.1, hconcat htop.2⟩

theorem Satisfies.popElement {e : OpenElement} (h : s.Satisfies K)
    (hpop : s.popElement? = some (e, t)) : (Frame.element e).Satisfies K ∧ t.Satisfies K := by
  unfold popElement? at hpop
  split at hpop
  · rename_i hframes
    cases hpop
    unfold Satisfies at h
    rw [hframes] at h
    exact List.forall_mem_cons.mp h
  · cases hpop

theorem Satisfies.popExpecting {id : Nat} {frame : Frame} (h : s.Satisfies K)
    (hpop : s.popExpecting src id = .ok (frame, t)) : frame.Satisfies K ∧ t.Satisfies K := by
  unfold OpenElements.popExpecting at hpop
  split at hpop
  · rename_i hframes
    split at hpop
    · cases hpop
      unfold Satisfies at h
      rw [hframes] at h
      exact List.forall_mem_cons.mp h
    · split at hpop <;> simp [fault] at hpop
  · simp [fault] at hpop

end OpenElements

def PendingAttribute.Satisfies (K : Checks) (a : PendingAttribute) : Prop :=
  ∀ p ∈ a.parts, p.Satisfies K

namespace PendingAttribute.Satisfies

variable {a : PendingAttribute}

theorem finishText (h : a.Satisfies K) : a.finishText.Satisfies K := by
  unfold PendingAttribute.finishText
  split
  · exact List.forall_mem_append.mpr ⟨h, List.forall_mem_singleton.mpr trivial⟩
  · exact h

theorem addDynamic (h : a.Satisfies K) {d : Dynamic} (hd : d.Satisfies K) :
    (a.addDynamic d).Satisfies K :=
  List.forall_mem_append.mpr ⟨h.finishText, List.forall_mem_singleton.mpr hd⟩

theorem value (h : a.Satisfies K) {span : Span} {value : AttributeValue}
    (hvalue : a.value? span = .ok value) : value.Satisfies K := by
  unfold PendingAttribute.value? at hvalue
  split at hvalue
  · cases hvalue
    trivial
  · split at hvalue
    · cases hvalue
      exact h
    · split at hvalue
      · rename_i part hparts
        cases hvalue
        have hpart : part.Satisfies K := h part (by rw [hparts]; exact List.mem_cons_self)
        cases part <;> exact hpart
      · cases hvalue

end PendingAttribute.Satisfies

namespace Markup

/-- All that has been put together so far. -/
structure Satisfies (K : Checks) (m : Markup) : Prop where
  stack : m.stack.Satisfies K
  startTag : ∀ t, m.current = some (.startTag t) → tagSatisfies K t.attributes t.modifiers
  pending : ∀ a, m.pending = some a → a.Satisfies K

namespace Satisfies

variable {m n : Markup}

theorem append (h : m.Satisfies K) {node : Statement} (hnode : node.Satisfies K) :
    (m.append node).Satisfies K :=
  ⟨h.stack.append hnode, h.startTag, h.pending⟩

theorem withCurrent (h : m.Satisfies K) {current : Option Current}
    (hc : ∀ t, current = some (.startTag t) → tagSatisfies K t.attributes t.modifiers) :
    { m with current }.Satisfies K :=
  ⟨h.stack, hc, h.pending⟩

theorem mapAttribute (h : m.Satisfies K) {f : PendingAttribute → PendingAttribute}
    (hf : ∀ a : PendingAttribute, a.Satisfies K → (f a).Satisfies K) :
    (m.mapAttribute f).Satisfies K := by
  refine ⟨h.stack, h.startTag, fun a ha => ?_⟩
  obtain ⟨p, hp, rfl⟩ := Option.map_eq_some_iff.mp ha
  exact hf p (h.pending p hp)

theorem withStartTag {span : Span} {f : StartTag → StartTag} (h : m.Satisfies K)
    (hf : ∀ t : StartTag, tagSatisfies K t.attributes t.modifiers →
      tagSatisfies K (f t).attributes (f t).modifiers)
    (hn : m.withStartTag src span f = .ok n) : n.Satisfies K := by
  obtain ⟨t, ht, rfl⟩ := withStartTag_ok hn
  refine h.withCurrent ?_
  rintro _ ⟨⟩
  exact hf t (h.startTag t ht)

theorem finishValue {stop : Nat} (h : m.Satisfies K) (hn : m.finishValue src stop = .ok n) :
    n.Satisfies K := by
  cases ha : m.pending with
  | none =>
    rw [finishValue_none ha, Except.ok.injEq] at hn
    exact hn ▸ h
  | some a =>
    obtain ⟨t, value, ht, hvalue, rfl⟩ := finishValue_ok ha hn
    obtain ⟨hattributes, hmodifiers⟩ := h.startTag t ht
    have hvalue := (h.pending a ha).finishText.value hvalue
    refine ⟨h.stack, ?_, by rintro _ ⟨⟩⟩
    rintro _ ⟨⟩
    exact ⟨List.forall_mem_append.mpr ⟨hattributes, List.forall_mem_singleton.mpr hvalue⟩,
      hmodifiers⟩

theorem closeElement {name : List Char} {tagSpan : Span} {implicit : Bool} (h : m.Satisfies K)
    (hn : m.closeElement src name tagSpan implicit = .ok n) : n.Satisfies K := by
  obtain ⟨e, stack, hpop, -, rfl⟩ := closeElement_ok hn
  obtain ⟨he, hstack⟩ := h.stack.popElement hpop
  exact ⟨hstack.append he, h.startTag, h.pending⟩

theorem openElement {t : StartTag} {stop : Nat} (h : m.Satisfies K)
    (ht : tagSatisfies K t.attributes t.modifiers) (hn : m.openElement src t stop = .ok n) :
    n.Satisfies K := by
  obtain ⟨kept, params, -, hn⟩ := openElement_ok hn
  have hopened : (Frame.element (opened t kept params stop)).Satisfies K :=
    ⟨⟨fun a ha => ht.1 a (List.mem_of_mem_take ha), ht.2⟩, trivial⟩
  rcases hn with rfl | rfl
  · exact ⟨List.forall_mem_cons.mpr ⟨hopened, h.stack⟩, h.startTag, h.pending⟩
  · have hstack : OpenElements.Satisfies K { m.stack with nextId := m.stack.nextId + 1 } := h.stack
    exact ⟨hstack.append hopened, h.startTag, h.pending⟩

theorem finishTag {stop : Nat} (h : m.Satisfies K) (hn : m.finishTag src stop = .ok n) :
    n.Satisfies K := by
  have hnone : { m with current := none }.Satisfies K := h.withCurrent (by rintro _ ⟨⟩)
  unfold Markup.finishTag at hn
  split at hn
  · rename_i t ht
    exact hnone.openElement (h.startTag t ht) hn
  · exact hnone.closeElement hn
  · cases hn
    exact h

theorem receive {e : Event} (h : m.Satisfies K) (hn : m.receive src e = .ok n)
    (hcomment : ∀ p, e = .finishComment p → ∀ value start,
      m.current = some (.comment value start) → K.comment ⟨value, ⟨start, src.offsetFor p⟩⟩) :
    n.Satisfies K := by
  cases e with
  | reset =>
    cases hn
    exact ⟨h.stack, by rintro _ ⟨⟩, by rintro _ ⟨⟩⟩
  | beginStartTag p =>
    cases hn
    refine h.withCurrent ?_
    rintro _ ⟨⟩
    exact ⟨List.forall_mem_nil _, List.forall_mem_nil _⟩
  | beginEndTag p | beginData p | beginComment p =>
    cases hn
    exact h.withCurrent (by rintro _ ⟨⟩)
  | tagName c =>
    cases hn
    unfold growTagName
    split
    · rename_i t ht
      refine h.withCurrent ?_
      rintro _ ⟨⟩
      exact h.startTag t ht
    · exact h.withCurrent (by rintro _ ⟨⟩)
    · exact h
  | selfClosing =>
    simp only [Markup.receive, markSelfClosing] at hn
    split at hn
    · rename_i t ht
      cases hn
      refine h.withCurrent ?_
      rintro _ ⟨⟩
      exact h.startTag t ht
    · simp [fault] at hn
    · cases hn
      exact h
  | finishTag p => exact h.finishTag hn
  | beginAttribute p =>
    cases hn
    refine ⟨h.stack, h.startTag, ?_⟩
    rintro _ ⟨⟩
    exact List.forall_mem_nil _
  | attributeName c | attributeValue text l | beginAttributeValue quoted p =>
    cases hn
    exact h.mapAttribute fun _ ha => ha
  | finishAttributeValue p => exact h.finishValue hn
  | data text | commentData text =>
    simp only [Markup.receive] at hn
    split at hn
    · cases hn
      exact h.withCurrent (by rintro _ ⟨⟩)
    · cases hn
      exact h
  | finishData p =>
    simp only [Markup.receive] at hn
    split at hn
    · cases hn
      exact (h.withCurrent (by rintro _ ⟨⟩)).append trivial
    · cases hn
      exact h
  | finishComment p =>
    simp only [Markup.receive] at hn
    split at hn
    · rename_i value start hcurrent
      cases hn
      exact (h.withCurrent (by rintro _ ⟨⟩)).append (hcomment p rfl value start hcurrent)
    · cases hn
      exact h
  | syntaxError f p => simp [Markup.receive, fault] at hn

theorem reports {reports : List Html.Emission} (h : m.Satisfies K)
    (hquiet : ∀ e ∈ reports, ∀ p, e.event ≠ .finishComment p)
    (hn : reports.foldlM (fun m e => m.receive src e.event) m = .ok n) : n.Satisfies K :=
  reports_keep (P := Markup.Satisfies K)
    (fun e he _ _ hm hn => hm.receive hn fun p hp => absurd hp (hquiet e he p)) hn h

end Satisfies

end Markup

end HtmlTemplate.Tree

namespace HtmlTemplate.Mustache

def Statement.call? : Statement → Option (Location × Call Expression)
  | .mustache m | .decorator m => some (m.loc, m.call)
  | .block b | .decoratorBlock b => some (b.loc, b.call)
  | .partialCall p => some (p.loc, p.call)
  | .partialBlock p => some (p.loc, p.call)
  | .content _ | .comment _ => none

end HtmlTemplate.Mustache

namespace HtmlTemplate.Tree.Assembly

variable {K : Checks} {src : Source} {a b : Assembly}

theorem satisfies_endAttribute (h : a.markup.Satisfies K) (hb : a.endAttribute src = .ok b) :
    b.markup.Satisfies K := by
  simp only [endAttribute, withMarkup, bind_eq_ok, pure_eq_ok] at hb
  obtain ⟨m, hm, rfl⟩ := hb
  have hbegun : (a.markup.beginValue false (a.offset src)).Satisfies K :=
    h.mapAttribute fun _ ha => ha
  exact hbegun.finishValue hm

private theorem satisfies_addModifier {d : Dynamic} (h : a.markup.Satisfies K) (hd : d.Satisfies K)
    (hb : a.addModifier src d = .ok b) : b.markup.Satisfies K := by
  cases d with
  | call m =>
    simp only [addModifier, withMarkup, bind_eq_ok, pure_eq_ok] at hb
    obtain ⟨n, hn, rfl⟩ := hb
    unfold Markup.addModifier at hn
    refine h.withStartTag (fun t ht => ?_) hn
    exact ⟨ht.1, List.forall_mem_append.mpr ⟨ht.2, List.forall_mem_singleton.mpr hd⟩⟩
  | literal m => simp [addModifier, fault] at hb

private theorem satisfies_addTagComment {c : Comment} (h : a.markup.Satisfies K)
    (hb : a.withMarkup (·.addTagComment src c) = .ok b) : b.markup.Satisfies K := by
  simp only [withMarkup, bind_eq_ok, pure_eq_ok] at hb
  obtain ⟨n, hn, rfl⟩ := hb
  unfold Markup.addTagComment at hn
  refine h.withStartTag (fun t ht => ?_) hn
  exact ht

theorem satisfies_place {d : Dynamic} (h : a.markup.Satisfies K) (hd : d.Satisfies K)
    (hb : a.place src d = .ok b) : b.markup.Satisfies K := by
  have hafter (hb : (do
      let b ← a.endAttribute src
      let b ← b.addModifier src d
      return b.become .beforeAttributeName) = Except.ok b) : b.markup.Satisfies K := by
    simp only [bind_eq_ok, pure_eq_ok] at hb
    obtain ⟨a₁, h₁, a₂, h₂, rfl⟩ := hb
    have hmarkup := satisfies_addModifier (satisfies_endAttribute h h₁) hd h₂
    exact hmarkup
  have hpart {m : Markup} (hm : m.Satisfies K) : (m.addValuePart d).Satisfies K :=
    hm.mapAttribute fun _ ha => ha.addDynamic hd
  unfold Assembly.place at hb
  split at hb
  · simp [fault] at hb
  · simp [fault] at hb
  · exact satisfies_addModifier h hd hb
  · exact hafter hb
  · exact hafter hb
  · simp only [bind_eq_ok, pure_eq_ok] at hb
    obtain ⟨a₁, h₁, rfl⟩ := hb
    have hmarkup := satisfies_addModifier h hd h₁
    exact hmarkup
  · cases hb
    refine hpart (m := a.markup.beginValue false (a.offset src)) ?_
    exact h.mapAttribute fun _ ha => ha
  iterate 3
    cases hb
    exact hpart h
  · cases hb
    exact h.append hd

theorem satisfies_placeComment {c : Comment} (h : a.markup.Satisfies K)
    (hb : a.placeComment src c = .ok b) : b.markup.Satisfies K := by
  unfold Assembly.placeComment at hb
  split at hb
  · exact satisfies_addTagComment h hb
  · simp only [bind_eq_ok, pure_eq_ok] at hb
    obtain ⟨a₁, h₁, a₂, h₂, rfl⟩ := hb
    have hmarkup := satisfies_addTagComment (satisfies_endAttribute h h₁) h₂
    exact hmarkup
  · cases hb
    exact h.append trivial
  · cases hb
    exact h.append trivial
  · simp [fault] at hb

theorem satisfies_commentText {loc : Location} (h : a.markup.Satisfies K)
    (hb : a.commentText src loc = .ok b) : b.markup.Satisfies K := by
  refine h.reports (fun e he p hp => ?_) (follow_ok hb).1
  obtain ⟨data, hdata⟩ := Html.Tokenizer.events_appendComment he
  cases hdata.symm.trans hp

theorem satisfies_content {c : Mustache.Content} (hcomment : ∀ c, K.comment c)
    (h : a.markup.Satisfies K) (hb : a.content src c = .ok b) : b.markup.Satisfies K := by
  obtain ⟨hreports, -⟩ := content_ok hb
  rw [List.foldlM_map] at hreports
  exact Markup.reports_keep (P := Markup.Satisfies K)
    (fun _ _ _ _ hm hn => hm.receive hn fun _ _ _ _ _ => hcomment _) hreports h

theorem satisfies_dynamic {m : Mustache.Interpolation} {d : Dynamic}
    (hcall : ∀ c, call src m.call = .ok c → K.call (src.spanFor m.loc) c)
    (h : dynamic src m = .ok d) :
    d.Satisfies K := by
  obtain ⟨_, _, -, rfl⟩ | ⟨c, hc, rfl⟩ := dynamic_ok h
  · trivial
  · exact hcall c hc

/-- What is known before statements are read, and what it says: whatever they call and every
comment that ends in them has what is to be shown. It is known of the bodies that are entered,
and of what comes after each statement. -/
structure Guides (src : Source) (K : Checks)
    (I : Assembly → List Mustache.Statement → Prop) : Prop where
  call {a : Assembly} {s : Mustache.Statement} {ss : List Mustache.Statement}
    {loc : Location} {m : Mustache.Call Mustache.Expression} {c : Call Expression} :
    I a (s :: ss) → s.call? = some (loc, m) → Tree.call src m = .ok c →
    K.call (src.spanFor loc) c
  name {a : Assembly} {s : Mustache.Statement} {ss : List Mustache.Statement}
    {loc : Location} {m : Mustache.Call Mustache.Expression} {c : Call Expression} :
    I a (s :: ss) → s.call? = some (loc, m) → partialName src m = .ok c →
    K.name (src.spanFor loc) c
  content {a b : Assembly} {c : Mustache.Content} {ss : List Mustache.Statement} :
    I a (.content c :: ss) → a.content src c = .ok b → a.markup.Satisfies K →
    b.markup.Satisfies K
  inside {a b : Assembly} {s : Mustache.Statement} {ss : List Mustache.Statement} {fallback : Nat}
    {p : Mustache.Program Mustache.Statement} :
    I a (s :: ss) → Enters src a s fallback p b → I b.pushBody.2 p.body
  later {a b : Assembly} {s : Mustache.Statement} {ss : List Mustache.Statement} :
    I a (s :: ss) → a.markup.Satisfies K → statement src a s = .ok b → I b ss

variable {I : Assembly → List Mustache.Statement → Prop}

def StaysChecked (K : Checks) (I : Assembly → List Mustache.Statement → Prop) : RunProperty :=
  fun a ss b => I a ss → a.markup.Satisfies K → b.markup.Satisfies K

theorem Inside.satisfies {fallback : Nat} {p : Mustache.Program Mustache.Statement}
    {nodes : Section Statement} (h : Inside src (StaysChecked K I) a fallback p nodes b)
    (hI : I a.pushBody.2 p.body) (ha : a.markup.Satisfies K) :
    nodes.Satisfies K ∧ b.markup.Satisfies K := by
  obtain ⟨hsection, hinside⟩ := h
  obtain ⟨inside, frame, stack, hstatements, -, hpop, rfl, rfl⟩ := sectionOf_ok hsection
  have hbody : a.pushBody.2.markup.Satisfies K :=
    ⟨List.forall_mem_cons.mpr ⟨trivial, ha.stack⟩, ha.startTag, ha.pending⟩
  have hend := hinside inside hstatements hI hbody
  obtain ⟨hframe, hstack⟩ := hend.stack.popExpecting hpop
  exact ⟨hframe.children, hstack, hend.startTag, hend.pending⟩

theorem Inside?.satisfies {fallback : Nat} {p : Option (Mustache.Program Mustache.Statement)}
    {nodes : Option (Section Statement)}
    (h : Inside? src (StaysChecked K I) a fallback p nodes b)
    (hI : ∀ q, p = some q → I a.pushBody.2 q.body) (ha : a.markup.Satisfies K) :
    sectionSatisfies K nodes ∧ b.markup.Satisfies K := by
  cases p with
  | none =>
    obtain ⟨rfl, rfl⟩ := h
    exact ⟨trivial, ha⟩
  | some p =>
    obtain ⟨s, rfl, hs⟩ := h
    exact hs.satisfies (hI p rfl) ha

namespace Guides

theorem flat (h : Guides src K I) {s : Mustache.Statement} {ss : List Mustache.Statement}
    (hI : I a (s :: ss)) (hs : isSectioned s = false ∨ a.tokenizer.state.isComment = true)
    (hb : statement src a s = .ok b) (ha : a.markup.Satisfies K) : b.markup.Satisfies K := by
  cases statement_ok hb with
  | content hb => exact h.content hI hb ha
  | commented _ _ hb => exact satisfies_commentText ha hb
  | mustache _ hd hb => exact satisfies_place ha (satisfies_dynamic (fun _ => h.call hI rfl) hd) hb
  | decorator _ hc =>
    have hcall := h.call hI rfl hc
    exact ha.append hcall
  | comment _ hb => exact satisfies_placeComment ha hb
  | partialCall _ hc =>
    have hname := h.name hI rfl hc
    exact ha.append hname
  | block hblock | decoratorBlock hblock =>
    have hcomment := Html.State.isComment_of_isData (block_ok hblock).1
    simp [isSectioned, hcomment] at hs
  | partialBlock hcomment => simp [isSectioned, hcomment] at hs

theorem staysChecked (h : Guides src K I) : Follows src (StaysChecked K I) where
  nil _ _ ha := ha
  flat hs hb ih hI ha := ih (h.later hI ha hb) (h.flat hI hs hb ha)
  block {a mid b c s child m node ss program inverse} hs hdata hcall hprogram hinverse hp hi hblock
      hb ih hI ha := by
    have hs' : s = .block m ∨ s = .decoratorBlock m := hs.imp And.left And.left
    have hm : s.call? = some (m.loc, m.call) := by rcases hs' with rfl | rfl <;> rfl
    obtain ⟨hprogram', hmid⟩ := hprogram.satisfies
      (fun q hq => h.inside hI (.program hs' hdata hcall hq)) ha
    obtain ⟨hinverse', hafter⟩ := hinverse.satisfies
      (fun q hq => h.inside hI (.inverse hs' hdata hcall hprogram.read hq)) hmid
    have hspan : node.span = src.spanFor m.loc := block_span hblock
    have hnode : node.Satisfies K := by
      obtain ⟨call, program', inverse', openStrip, inverseStrip, closeStrip, span⟩ := node
      obtain rfl : program' = _ := hp
      obtain rfl : inverse' = _ := hi
      obtain rfl : span = _ := hspan
      exact ⟨h.call hI hm hcall, sectionSatisfies_getD hprogram', hinverse'⟩
    have hchild : child.Satisfies K := by rcases hs with ⟨-, rfl⟩ | ⟨-, rfl⟩ <;> exact hnode
    exact ih (h.later hI ha hb) (hafter.append hchild)
  partialBlock {a b c m callee nodes ss} hcomment hcallee hinside hb ih hI ha := by
    obtain ⟨hnodes, hafter⟩ := hinside.satisfies
      (h.inside hI (.partialBlock hcomment hcallee)) ha
    have hname := h.name hI rfl hcallee
    exact ih (h.later hI ha hb) (hafter.append ⟨hname, hnodes⟩)

end Guides

end HtmlTemplate.Tree.Assembly

namespace HtmlTemplate

open HtmlTemplate.Tree (Assembly)

theorem Tree.Assembly.Guides.template {text : List Char} {options : Options} {t : Tree.Template}
    {K : Tree.Checks} {I : Assembly → List Mustache.Statement → Prop}
    (h : Assembly.Guides ⟨text, options.moduleName⟩ K I)
    (hstart : ∀ program, Mustache.parse text options.keepLines = .ok program →
      I (.initial options.mode) program.body)
    (ht : preprocess text options = .ok t) : t.Satisfies K := by
  obtain ⟨program, a, stack, hparse, ha, -, hpop, -⟩ := preprocess_ok ht
  have hinitial : (Assembly.initial options.mode).markup.Satisfies K :=
    ⟨List.forall_mem_singleton.mpr trivial, by rintro _ ⟨⟩, by rintro _ ⟨⟩⟩
  have hend := h.staysChecked.statements program.body ha (hstart program hparse) hinitial
  exact (hend.stack.popExpecting hpop).1

end HtmlTemplate
