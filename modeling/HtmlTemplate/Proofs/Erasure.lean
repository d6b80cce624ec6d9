import HtmlTemplate.Proofs.Rewording

/-! Templates but for the characters of their texts. What is put into a tree and when it is
refused does not depend on those characters: erasing them first makes no difference, and is one
of the ways to change them. -/

namespace HtmlTemplate

def Html.Event.erase : Event → Event
  | data _ => data []
  | attributeValue _ written => attributeValue [] written
  | e => e

theorem Html.Event.erase_of_not_isText {e : Event} (h : e.isText = false) : e.erase = e := by
  cases e with
  | data | attributeValue => cases h
  | _ => rfl

namespace Tree

def TextNode.erase (t : TextNode) : TextNode :=
  { t with chars := [] }

def Part.erase : Part → Part
  | text t => text t.erase
  | dynamic d => dynamic d

def AttributeValue.erase : AttributeValue → AttributeValue
  | text t => text t.erase
  | dynamic d => dynamic d
  | concat parts span => concat (parts.map Part.erase) span

def Attribute.erase (a : Attribute) : Attribute :=
  { a with value := a.value.erase }

mutual

def Statement.erase : Statement → Statement
  | .dynamic d => .dynamic d
  | .block ⟨call, program, inverse, openStrip, inverseStrip, closeStrip, span⟩ =>
    .block ⟨call, eraseSection program, eraseSection? inverse, openStrip, inverseStrip, closeStrip,
      span⟩
  | .decorator m => .decorator m
  | .decoratorBlock ⟨call, program, inverse, openStrip, inverseStrip, closeStrip, span⟩ =>
    .decoratorBlock ⟨call, eraseSection program, eraseSection? inverse, openStrip, inverseStrip,
      closeStrip, span⟩
  | .partialCall p => .partialCall p
  | .partialBlock ⟨call, program, openStrip, closeStrip, span⟩ =>
    .partialBlock ⟨call, eraseSection program, openStrip, closeStrip, span⟩
  | .mustacheComment c => .mustacheComment c
  | .comment c => .comment c
  | .element ⟨tag, selfClosing, attributes, params, modifiers, comments, children, span⟩ =>
    .element ⟨tag, selfClosing, attributes.map Attribute.erase, params, modifiers, comments,
      eraseAll children, span⟩
  | .text t => .text t.erase

def eraseAll : List Statement → List Statement
  | [] => []
  | s :: ss => s.erase :: eraseAll ss

def eraseSection : Section Statement → Section Statement
  | ⟨body, params, chained, span⟩ => ⟨eraseAll body, params, chained, span⟩

def eraseSection? : Option (Section Statement) → Option (Section Statement)
  | none => none
  | some s => some (eraseSection s)

end

def Template.erase (t : Template) : Template :=
  { t with body := eraseAll t.body }

def OpenElement.erase (e : OpenElement) : OpenElement :=
  { e with attributes := e.attributes.map Attribute.erase, children := eraseAll e.children }

def Frame.erase : Frame → Frame
  | body children => body (eraseAll children)
  | element e => element e.erase

def OpenElements.erase (s : OpenElements) : OpenElements :=
  { s with frames := s.frames.map fun (id, frame) => (id, frame.erase) }

def StartTag.erase (t : StartTag) : StartTag :=
  { t with attributes := t.attributes.map Attribute.erase }

def Current.erase : Current → Current
  | text _ start => text [] start
  | comment value start => comment value start
  | startTag t => startTag t.erase
  | endTag name start => endTag name start

def PendingAttribute.erase (a : PendingAttribute) : PendingAttribute :=
  { a with parts := a.parts.map Part.erase, text := a.text.map TextNode.erase }

def Markup.erase (m : Markup) : Markup where
  stack := m.stack.erase
  current := m.current.map Current.erase
  pending := m.pending.map PendingAttribute.erase

def erasing : Rewording where
  text _ _ := []
  value _ := []
  text_nil _ := rfl
  value_nil := rfl

theorem Part.erase_eq : Part.erase = Part.reword erasing := by
  funext p
  cases p <;> rfl

theorem AttributeValue.erase_eq : AttributeValue.erase = AttributeValue.reword erasing := by
  funext v
  cases v with
  | concat parts span => rw [AttributeValue.erase, Part.erase_eq, AttributeValue.reword]
  | _ => rfl

theorem Attribute.erase_eq : Attribute.erase = Attribute.reword erasing := by
  funext a
  rw [Attribute.erase, AttributeValue.erase_eq, Attribute.reword]

mutual

theorem Statement.erase_eq (parent : Option (List Char)) :
    (s : Statement) → s.erase = s.reword erasing parent
  | .block ⟨call, program, inverse, openStrip, inverseStrip, closeStrip, span⟩ => by
    rw [Statement.erase, Statement.reword, eraseSection_eq parent program,
      eraseSection?_eq parent inverse]
  | .decoratorBlock ⟨call, program, inverse, openStrip, inverseStrip, closeStrip, span⟩ => by
    rw [Statement.erase, Statement.reword, eraseSection_eq parent program,
      eraseSection?_eq parent inverse]
  | .partialBlock ⟨call, program, openStrip, closeStrip, span⟩ => by
    rw [Statement.erase, Statement.reword, eraseSection_eq parent program]
  | .element ⟨tag, selfClosing, attributes, params, modifiers, comments, children, span⟩ => by
    rw [Statement.erase, Statement.reword, eraseAll_eq (some tag) children, Attribute.erase_eq]
  | .dynamic _ | .decorator _ | .partialCall _ | .mustacheComment _ | .comment _ | .text _ => rfl

theorem eraseAll_eq (parent : Option (List Char)) :
    (ss : List Statement) → eraseAll ss = rewordAll erasing parent ss
  | [] => rfl
  | s :: ss => by rw [eraseAll, rewordAll, s.erase_eq parent, eraseAll_eq parent ss]

theorem eraseSection_eq (parent : Option (List Char)) :
    (s : Section Statement) → eraseSection s = rewordSection erasing parent s
  | ⟨body, params, chained, span⟩ => by rw [eraseSection, rewordSection, eraseAll_eq parent body]

theorem eraseSection?_eq (parent : Option (List Char)) :
    (s : Option (Section Statement)) → eraseSection? s = rewordSection? erasing parent s
  | none => rfl
  | some s => by rw [eraseSection?, rewordSection?, eraseSection_eq parent s]

end

theorem OpenElement.erase_eq : OpenElement.erase = OpenElement.reword erasing := by
  funext e
  rw [OpenElement.erase, Attribute.erase_eq, eraseAll_eq (some e.tag), OpenElement.reword]

theorem Frame.erase_eq (parent : Option (List Char)) :
    Frame.erase = Frame.reword erasing parent := by
  funext frame
  cases frame with
  | body children => rw [Frame.erase, eraseAll_eq parent, Frame.reword]
  | element e => rw [Frame.erase, OpenElement.erase_eq, Frame.reword]

theorem OpenElements.erase_eq : OpenElements.erase = OpenElements.reword erasing := by
  funext s
  obtain ⟨frames, nextId⟩ := s
  refine congrArg (OpenElements.mk · nextId) ?_
  induction frames with
  | nil => rfl
  | cons top frames ih =>
    rw [List.map_cons, ih, rewordFrames, Frame.erase_eq]

theorem StartTag.erase_eq : StartTag.erase = StartTag.reword erasing := by
  funext t
  rw [StartTag.erase, Attribute.erase_eq, StartTag.reword]

theorem Current.erase_eq (parent : Option (List Char)) :
    Current.erase = Current.reword erasing parent := by
  funext c
  cases c with
  | startTag t => rw [Current.erase, StartTag.erase_eq, Current.reword]
  | _ => rfl

theorem PendingAttribute.erase_eq : PendingAttribute.erase = PendingAttribute.reword erasing := by
  funext a
  rw [PendingAttribute.erase, Part.erase_eq, PendingAttribute.reword]
  rfl

theorem Markup.erase_eq : Markup.erase = Markup.reword erasing := by
  funext m
  rw [Markup.erase, OpenElements.erase_eq, PendingAttribute.erase_eq, Markup.reword,
    Current.erase_eq]

theorem OpenElements.popExpecting_erase (src : Source) (s : OpenElements) (id : Nat) :
    s.erase.popExpecting src id
      = (s.popExpecting src id).map fun (frame, s) => (frame.erase, s.erase) := by
  rw [OpenElements.erase_eq, s.popExpecting_reword, ← Frame.erase_eq]

namespace Markup

variable (src : Source) (m : Markup)

theorem append_erase (node : Statement) : (m.append node).erase = m.erase.append node.erase := by
  rw [erase_eq, append_reword, ← Statement.erase_eq]

theorem addModifier_erase (x : Modifier) :
    m.erase.addModifier src x = (m.addModifier src x).map erase := by
  rw [erase_eq, addModifier_reword]

theorem addTagComment_erase (c : Comment) :
    m.erase.addTagComment src c = (m.addTagComment src c).map erase := by
  rw [erase_eq, addTagComment_reword]

theorem addValuePart_erase (d : Dynamic) : (m.addValuePart d).erase = m.erase.addValuePart d := by
  rw [erase_eq, addValuePart_reword]

theorem beginValue_erase (quoted : Bool) (offset : Nat) :
    (m.beginValue quoted offset).erase = m.erase.beginValue quoted offset := by
  rw [erase_eq, beginValue_reword]

theorem startTagName?_erase : m.erase.startTagName? = m.startTagName? := by
  rw [erase_eq, startTagName?_reword]

theorem finishValue_erase (stop : Nat) :
    m.erase.finishValue src stop = (m.finishValue src stop).map erase := by
  rw [erase_eq, finishValue_reword]

theorem receive_erase (e : Html.Event) :
    m.erase.receive src e.erase = (m.receive src e).map erase := by
  cases htext : e.isText with
  | false => rw [Html.Event.erase_of_not_isText htext, erase_eq, m.receive_reword src htext]
  | true =>
    obtain ⟨stack, current, pending⟩ := m
    cases e with
    | data =>
      rcases current with _ | (_ | _ | _ | _)
      all_goals rfl
    | attributeValue =>
      rcases pending with _ | ⟨name, start, valueStart, quoted, dynamic, parts, _ | t⟩
      all_goals rfl
    | _ => cases htext

theorem foldlM_receive_erase (es : List Html.Event) :
    (es.map Html.Event.erase).foldlM (receive src) m.erase
      = (es.foldlM (receive src) m).map erase := by
  induction es generalizing m with
  | nil => rfl
  | cons e es ih =>
    rw [List.map_cons, List.foldlM_cons, List.foldlM_cons, receive_erase]
    cases m.receive src e with
    | error _ => rfl
    | ok n => exact ih n

theorem finish_erase (state : Html.State) (whole : Whole) (stop : Nat) :
    m.erase.finish src state whole stop = m.finish src state whole stop := by
  rw [erase_eq, finish_reword]

end Markup

end Tree
end HtmlTemplate
