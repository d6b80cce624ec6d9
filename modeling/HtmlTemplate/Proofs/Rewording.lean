import HtmlTemplate.Proofs.Walk

/-! Templates with other words. The characters of texts play no part in how a tree is put
together, except that they come bit by bit: of everything else that is reported it makes no
difference whether the texts are changed before it or after it. -/

namespace HtmlTemplate

/-- Something is reported of the characters of a text or a value. -/
def Html.Event.isText : Event → Bool
  | data _ | attributeValue .. => true
  | _ => false

namespace Tree

/-- How the characters of texts are changed: those of a text by the name of the element around
it, and those in the values of attributes. -/
structure Rewording where
  text : Option (List Char) → List Char → List Char
  value : List Char → List Char
  text_nil (parent : Option (List Char)) : text parent [] = []
  value_nil : value [] = []

section Definitions

variable (w : Rewording)

def TextNode.reword (f : List Char → List Char) (t : TextNode) : TextNode :=
  { t with chars := f t.chars }

def Part.reword : Part → Part
  | text t => text (t.reword w.value)
  | dynamic d => dynamic d

def AttributeValue.reword : AttributeValue → AttributeValue
  | text t => text (t.reword w.value)
  | dynamic d => dynamic d
  | concat parts span => concat (parts.map (Part.reword w)) span

def Attribute.reword (a : Attribute) : Attribute :=
  { a with value := a.value.reword w }

mutual

/-- The statement in an element of some name, the sections of blocks passed over. -/
def Statement.reword (parent : Option (List Char)) : Statement → Statement
  | .dynamic d => .dynamic d
  | .block ⟨call, program, inverse, openStrip, inverseStrip, closeStrip, span⟩ =>
    .block ⟨call, rewordSection parent program, rewordSection? parent inverse, openStrip,
      inverseStrip, closeStrip, span⟩
  | .decorator m => .decorator m
  | .decoratorBlock ⟨call, program, inverse, openStrip, inverseStrip, closeStrip, span⟩ =>
    .decoratorBlock ⟨call, rewordSection parent program, rewordSection? parent inverse, openStrip,
      inverseStrip, closeStrip, span⟩
  | .partialCall p => .partialCall p
  | .partialBlock ⟨call, program, openStrip, closeStrip, span⟩ =>
    .partialBlock ⟨call, rewordSection parent program, openStrip, closeStrip, span⟩
  | .mustacheComment c => .mustacheComment c
  | .comment c => .comment c
  | .element ⟨tag, selfClosing, attributes, params, modifiers, comments, children, span⟩ =>
    .element ⟨tag, selfClosing, attributes.map (Attribute.reword w), params, modifiers, comments,
      rewordAll (some tag) children, span⟩
  | .text t => .text (t.reword (w.text parent))

def rewordAll (parent : Option (List Char)) : List Statement → List Statement
  | [] => []
  | s :: ss => s.reword parent :: rewordAll parent ss

def rewordSection (parent : Option (List Char)) : Section Statement → Section Statement
  | ⟨body, params, chained, span⟩ => ⟨rewordAll parent body, params, chained, span⟩

def rewordSection? (parent : Option (List Char)) :
    Option (Section Statement) → Option (Section Statement)
  | none => none
  | some s => some (rewordSection parent s)

end

def Template.reword (t : Template) : Template :=
  { t with body := rewordAll w none t.body }

def OpenElement.reword (e : OpenElement) : OpenElement :=
  { e with
    attributes := e.attributes.map (Attribute.reword w)
    children := rewordAll w (some e.tag) e.children }

def Frame.reword (parent : Option (List Char)) : Frame → Frame
  | body children => body (rewordAll w parent children)
  | element e => element (e.reword w)

def rewordFrames : List (Nat × Frame) → List (Nat × Frame)
  | [] => []
  | (id, frame) :: frames =>
    (id, frame.reword w (openNames ((id, frame) :: frames)).head?) :: rewordFrames frames

def OpenElements.reword (s : OpenElements) : OpenElements :=
  { s with frames := rewordFrames w s.frames }

def StartTag.reword (t : StartTag) : StartTag :=
  { t with attributes := t.attributes.map (Attribute.reword w) }

def Current.reword (parent : Option (List Char)) : Current → Current
  | text chars start => text (w.text parent chars) start
  | comment value start => comment value start
  | startTag t => startTag (t.reword w)
  | endTag name start => endTag name start

def PendingAttribute.reword (a : PendingAttribute) : PendingAttribute :=
  { a with parts := a.parts.map (Part.reword w), text := a.text.map (TextNode.reword w.value) }

def Markup.reword (m : Markup) : Markup where
  stack := m.stack.reword w
  current := m.current.map (Current.reword w (openNames m.stack.frames).head?)
  pending := m.pending.map (PendingAttribute.reword w)

end Definitions

variable {w : Rewording}

private theorem rewordAll_eq_map (parent : Option (List Char)) (ss : List Statement) :
    rewordAll w parent ss = ss.map (Statement.reword w parent) := by
  induction ss with
  | nil => rfl
  | cons s ss ih => rw [rewordAll, ih, List.map_cons]

@[simp] theorem rewordAll_append (parent : Option (List Char)) (ss ss' : List Statement) :
    rewordAll w parent (ss ++ ss') = rewordAll w parent ss ++ rewordAll w parent ss' := by
  simp only [rewordAll_eq_map, List.map_append]

theorem Part.toValue_reword (p : Part) : p.toValue.reword w = (p.reword w).toValue := by
  cases p <;> rfl

@[simp] theorem openNames_rewordFrames (frames : List (Nat × Frame)) :
    openNames (rewordFrames w frames) = openNames frames := by
  induction frames with
  | nil => rfl
  | cons top frames ih =>
    obtain ⟨id, _ | e⟩ := top
    · exact ih
    · exact congrArg (e.tag :: ·) ih

namespace OpenElements

variable (s : OpenElements)

theorem append_reword (node : Statement) :
    (s.append node).reword w
      = (s.reword w).append (node.reword w (openNames s.frames).head?) := by
  obtain ⟨_ | ⟨⟨id, _ | e⟩, frames⟩, nextId⟩ := s
  · rfl
  all_goals
    simp [append, mapTop, OpenElements.reword, rewordFrames, Frame.reword, Frame.mapChildren,
      OpenElement.reword, openNames, rewordAll]

theorem popElement?_reword :
    (s.reword w).popElement? = s.popElement?.map fun (e, s) => (e.reword w, s.reword w) := by
  obtain ⟨_ | ⟨⟨id, _ | e⟩, frames⟩, nextId⟩ := s
  all_goals rfl

theorem popExpecting_reword (src : Source) (id : Nat) :
    (s.reword w).popExpecting src id
      = (s.popExpecting src id).map fun (frame, s') =>
        (frame.reword w (openNames s.frames).head?, s'.reword w) := by
  obtain ⟨_ | ⟨⟨top, frame⟩, frames⟩, nextId⟩ := s
  · rfl
  · simp only [popExpecting, OpenElements.reword, rewordFrames]
    split
    · rfl
    · cases frame <;> rfl

end OpenElements

namespace PendingAttribute

variable (a : PendingAttribute)

theorem finishText_reword : a.finishText.reword w = (a.reword w).finishText := by
  obtain ⟨name, start, valueStart, quoted, dynamic, parts, _ | t⟩ := a
  · rfl
  · simp [finishText, PendingAttribute.reword, Part.reword]

theorem addDynamic_reword (d : Dynamic) :
    (a.addDynamic d).reword w = (a.reword w).addDynamic d := by
  simp only [addDynamic, ← finishText_reword]
  simp [PendingAttribute.reword, Part.reword]

theorem staticChars_reword : (a.reword w).staticChars = w.value a.staticChars := by
  obtain ⟨name, start, valueStart, quoted, dynamic, _ | ⟨_ | _, parts⟩, text⟩ := a
  · exact w.value_nil.symm
  · rfl
  · exact w.value_nil.symm

theorem value?_reword (span : Span) :
    (a.reword w).value? span = (a.value? span).map (AttributeValue.reword w) := by
  have hstatic := a.staticChars_reword (w := w)
  obtain ⟨name, start, valueStart, quoted, dynamic, parts, text⟩ := a
  cases dynamic with
  | false => exact congrArg (fun chars => Except.ok (AttributeValue.text ⟨chars, span⟩)) hstatic
  | true =>
    cases quoted with
    | true => rfl
    | false =>
      rcases parts with _ | ⟨p, _ | ⟨q, parts⟩⟩
      · rfl
      · simp [value?, PendingAttribute.reword, Except.map, Part.toValue_reword]
      · rfl

end PendingAttribute

private theorem attributeNames_reword (attributes : List Attribute) :
    (attributes.map (Attribute.reword w)).map (·.name) = attributes.map (·.name) := by
  simp [Attribute.reword, Function.comp_def]

namespace Markup

variable (src : Source) (m : Markup)

theorem append_reword (node : Statement) :
    (m.append node).reword w
      = (m.reword w).append (node.reword w (openNames m.stack.frames).head?) := by
  obtain ⟨stack, current, pending⟩ := m
  simp [append, reword, OpenElements.append_reword, openNames_append]

theorem closeElement_reword (stack : OpenElements) (pending : Option PendingAttribute)
    (name : List Char) (span : Span) (implicit : Bool) :
    closeElement src (reword w ⟨stack, none, pending⟩) name span implicit
      = (closeElement src ⟨stack, none, pending⟩ name span implicit).map (reword w) := by
  simp only [closeElement]
  split
  · rfl
  · have hpop := stack.popElement?_reword (w := w)
    rw [show (reword w ⟨stack, none, pending⟩).stack = stack.reword w from rfl, hpop]
    cases stack.popElement? with
    | none => rfl
    | some popped =>
      obtain ⟨e, rest⟩ := popped
      show (if e.tag = name then _ else _) = _
      by_cases htag : e.tag = name
      · simp only [htag, ↓reduceIte, Except.map, reword, OpenElements.append_reword]
        rfl
      · simp only [htag, ↓reduceIte]
        rfl

theorem openElement_reword (stack : OpenElements) (pending : Option PendingAttribute)
    (t : StartTag) (stop : Nat) :
    openElement src (reword w ⟨stack, none, pending⟩) (t.reword w) stop
      = (openElement src ⟨stack, none, pending⟩ t stop).map (reword w) := by
  simp only [openElement, StartTag.reword, attributeNames_reword]
  split
  · rfl
  · cases blockParams? (t.attributes.map (·.name)) with
    | error f => rfl
    | ok kept =>
      obtain ⟨kept, params⟩ := kept
      let e : OpenElement :=
        { tag := t.name, selfClosing := t.selfClosing, attributes := t.attributes.take kept
          params, modifiers := t.modifiers, comments := t.comments, children := []
          startTag := ⟨t.start, stop⟩ }
      have hopened : (⟨(OpenElements.push (stack.reword w) (.element (e.reword w))).2, none,
          pending.map (PendingAttribute.reword w)⟩ : Markup)
            = reword w ⟨(stack.push (.element e)).2, none, pending⟩ := rfl
      simp only [← List.map_take]
      show (if _ then closeElement src ⟨(OpenElements.push (stack.reword w)
        (.element (e.reword w))).2, none, pending.map (PendingAttribute.reword w)⟩ _ _ _
          else .ok _) = _
      rw [hopened, closeElement_reword]
      split <;> rfl

theorem withStartTag_reword {f g : StartTag → StartTag}
    (h : ∀ t, (f t).reword w = g (t.reword w)) (span : Span) :
    (m.reword w).withStartTag src span g = (m.withStartTag src span f).map (reword w) := by
  obtain ⟨stack, _ | current, pending⟩ := m
  · rfl
  · cases current with
    | startTag t => simp [withStartTag, reword, Current.reword, Except.map, h]
    | _ => rfl

theorem addModifier_reword (x : Modifier) :
    (m.reword w).addModifier src x = (m.addModifier src x).map (reword w) :=
  m.withStartTag_reword src (f := fun t => { t with modifiers := t.modifiers ++ [x] })
    (fun _ => rfl) x.span

theorem addTagComment_reword (c : Comment) :
    (m.reword w).addTagComment src c = (m.addTagComment src c).map (reword w) :=
  m.withStartTag_reword src (f := fun t => { t with comments := t.comments ++ [c] })
    (fun _ => rfl) c.span

theorem mapAttribute_reword {f g : PendingAttribute → PendingAttribute}
    (h : ∀ a, (f a).reword w = g (a.reword w)) :
    (m.mapAttribute f).reword w = (m.reword w).mapAttribute g := by
  obtain ⟨stack, current, _ | a⟩ := m
  · rfl
  · simp [mapAttribute, reword, h]

theorem beginValue_reword (quoted : Bool) (offset : Nat) :
    (m.beginValue quoted offset).reword w = (m.reword w).beginValue quoted offset :=
  m.mapAttribute_reword fun _ => rfl

theorem addValuePart_reword (d : Dynamic) :
    (m.addValuePart d).reword w = (m.reword w).addValuePart d :=
  m.mapAttribute_reword fun a => a.addDynamic_reword d

theorem startTagName?_reword : (m.reword w).startTagName? = m.startTagName? := by
  obtain ⟨stack, _ | current, pending⟩ := m
  · rfl
  · cases current <;> rfl

theorem growTagName_reword (c : Char) :
    (m.growTagName c).reword w = (m.reword w).growTagName c := by
  obtain ⟨stack, _ | current, pending⟩ := m
  · rfl
  · cases current <;> rfl

theorem markSelfClosing_reword :
    (m.reword w).markSelfClosing src = (m.markSelfClosing src).map (reword w) := by
  obtain ⟨stack, _ | current, pending⟩ := m
  · rfl
  · cases current <;> rfl

private theorem giveValue_reword (a : PendingAttribute) (span valueSpan : Span) :
    (match (a.reword w).value? valueSpan with
      | .error f => fault src f span
      | .ok value => (m.reword w).withStartTag src span fun t =>
        { t with attributes := t.attributes ++ [⟨(a.reword w).name, value, span⟩] })
      = Except.map (reword w) (match a.value? valueSpan with
        | .error f => fault src f span
        | .ok value => m.withStartTag src span fun t =>
          { t with attributes := t.attributes ++ [⟨a.name, value, span⟩] }) := by
  rw [a.value?_reword]
  cases a.value? valueSpan with
  | error f => rfl
  | ok value =>
    refine m.withStartTag_reword src (fun t => ?_) span
    simp [StartTag.reword, Attribute.reword, PendingAttribute.reword]

theorem finishValue_reword (stop : Nat) :
    (m.reword w).finishValue src stop = (m.finishValue src stop).map (reword w) := by
  obtain ⟨stack, current, _ | a⟩ := m
  · rfl
  · have hgive (current : Option Current) := giveValue_reword (w := w) src ⟨stack, current, none⟩
      a.finishText ⟨a.finishText.start, stop⟩ ⟨a.finishText.valueStart, stop⟩
    simp only [finishValue, reword, Option.map_some, ← a.finishText_reword]
    rcases current with _ | (_ | _ | _ | _)
    · exact hgive none
    · exact hgive _
    · exact hgive _
    · exact hgive _
    · rfl

theorem finishTag_reword (stop : Nat) :
    (m.reword w).finishTag src stop = (m.finishTag src stop).map (reword w) := by
  obtain ⟨stack, _ | current, pending⟩ := m
  · rfl
  · cases current with
    | startTag t => exact openElement_reword src stack pending t stop
    | endTag name start => exact closeElement_reword src stack pending name _ false
    | _ => rfl

theorem receive_reword {e : Html.Event} (he : e.isText = false) :
    (m.reword w).receive src e = (m.receive src e).map (reword w) := by
  cases e with
  | data | attributeValue => cases he
  | selfClosing => exact m.markSelfClosing_reword src
  | finishTag p => exact m.finishTag_reword src _
  | finishAttributeValue p => exact m.finishValue_reword src _
  | tagName c => exact congrArg Except.ok (m.growTagName_reword c).symm
  | attributeName c =>
    have hname (a : PendingAttribute) : { a with name := a.name ++ [c] }.reword w
        = { a.reword w with name := (a.reword w).name ++ [c] } := rfl
    exact congrArg Except.ok (m.mapAttribute_reword hname).symm
  | beginAttributeValue quoted p => exact congrArg Except.ok (m.beginValue_reword quoted _).symm
  | beginData p => simp [receive, reword, Except.map, Current.reword, w.text_nil]
  | finishData | commentData | finishComment =>
    obtain ⟨stack, _ | current, pending⟩ := m
    · rfl
    · cases current with
      | text chars start =>
        simp [receive, reword, Current.reword, Except.map, append, OpenElements.append_reword,
          Statement.reword, TextNode.reword]
      | comment value start =>
        simp [receive, reword, Current.reword, Except.map, append, OpenElements.append_reword,
          Statement.reword]
      | _ => rfl
  | _ => rfl

theorem foldlM_receive_reword {es : List Html.Event} (hes : ∀ e ∈ es, e.isText = false) :
    es.foldlM (receive src) (m.reword w) = (es.foldlM (receive src) m).map (reword w) := by
  induction es generalizing m with
  | nil => rfl
  | cons e es ih =>
    obtain ⟨he, hes⟩ := List.forall_mem_cons.mp hes
    rw [List.foldlM_cons, List.foldlM_cons, m.receive_reword src he]
    cases m.receive src e with
    | error _ => rfl
    | ok n => exact ih n hes

theorem finish_reword (state : Html.State) (whole : Whole) (stop : Nat) :
    (m.reword w).finish src state whole stop = m.finish src state whole stop := by
  obtain ⟨stack, _ | current, pending⟩ := m
  · rfl
  · cases current <;> rfl

end Markup

end Tree
end HtmlTemplate
