import HtmlTemplate.Source.Error
import HtmlTemplate.Tree.Basic
import HtmlTemplate.Tree.Path

/-! The bodies and elements that are still being filled, innermost first. A frame is
known by the number under which it was pushed: whoever pushes a body asks for that
frame back, and does not get it while an element opened later is on top. -/

namespace HtmlTemplate.Tree

/-- An element whose start tag is complete and whose end tag is not. -/
structure OpenElement where
  tag : List Char
  selfClosing : Bool
  attributes : List Attribute
  params : List (List Char)
  modifiers : List Modifier
  comments : List Comment
  children : List Statement
  /-- From `<` to `>`. -/
  startTag : Span

def OpenElement.finish (e : OpenElement) (stop : Nat) : Element Statement where
  tag := e.tag
  selfClosing := e.selfClosing
  attributes := e.attributes
  params := e.params
  modifiers := e.modifiers
  comments := e.comments
  children := e.children
  span := ⟨e.startTag.start, stop⟩

inductive Frame where
  /-- The body of the template or of a block. -/
  | body (children : List Statement)
  | element (e : OpenElement)

namespace Frame

def children : Frame → List Statement
  | body children => children
  | element e => e.children

def mapChildren (f : List Statement → List Statement) : Frame → Frame
  | body children => body (f children)
  | element e => element { e with children := f e.children }

@[simp] theorem children_mapChildren (f : List Statement → List Statement) (frame : Frame) :
    (frame.mapChildren f).children = f frame.children := by
  cases frame <;> rfl

end Frame

structure OpenElements where
  frames : List (Nat × Frame) := []
  /-- The number of the next frame. -/
  nextId : Nat := 0

namespace OpenElements

def push (s : OpenElements) (frame : Frame) : Nat × OpenElements :=
  (s.nextId, ⟨(s.nextId, frame) :: s.frames, s.nextId + 1⟩)

def pop? (s : OpenElements) : Option ((Nat × Frame) × OpenElements) :=
  match s.frames with
  | [] => none
  | top :: frames => some (top, { s with frames })

def popElement? (s : OpenElements) : Option (OpenElement × OpenElements) :=
  match s.frames with
  | (_, .element e) :: frames => some (e, { s with frames })
  | _ => none

def top? (s : OpenElements) : Option Frame :=
  s.frames.head?.map (·.2)

def mapTop (f : Frame → Frame) (s : OpenElements) : OpenElements :=
  match s.frames with
  | [] => s
  | (id, frame) :: frames => { s with frames := (id, f frame) :: frames }

def append (s : OpenElements) (node : Statement) : OpenElements :=
  s.mapTop (Frame.mapChildren (· ++ [node]))

def size (s : OpenElements) : Nat := s.frames.length

@[simp] theorem top?_push (s : OpenElements) (frame : Frame) :
    (s.push frame).2.top? = some frame := rfl

@[simp] theorem size_push (s : OpenElements) (frame : Frame) :
    (s.push frame).2.size = s.size + 1 := rfl

/-- Numbers are not given out again, so popping does not undo a push entirely. -/
@[simp] theorem pop?_push (s : OpenElements) (frame : Frame) :
    (s.push frame).2.pop? = some ((s.nextId, frame), { s with nextId := s.nextId + 1 }) := rfl

@[simp] theorem size_append (s : OpenElements) (node : Statement) :
    (s.append node).size = s.size := by
  rcases s with ⟨_ | ⟨top, frames⟩, nextId⟩ <;> rfl

@[simp] theorem top?_append (s : OpenElements) (node : Statement) :
    (s.append node).top? = s.top?.map (Frame.mapChildren (· ++ [node])) := by
  rcases s with ⟨_ | ⟨top, frames⟩, nextId⟩ <;> rfl

def popExpecting (src : Source) (s : OpenElements) (id : Nat) :
    Except SyntaxError (Frame × OpenElements) :=
  match s.frames with
  | (top, frame) :: frames =>
    if top = id then .ok (frame, { s with frames })
    else
      match frame with
      | .element e => fault src (.unclosedElement e.tag) e.startTag
      | .body _ => fault src .unbalancedBody (.empty src.size)
  | [] => fault src .unbalancedBody (.empty src.size)

/-- Whoever has pushed a frame gets it back while it is on top. -/
theorem popExpecting_push (src : Source) (s : OpenElements) (frame : Frame) :
    (s.push frame).2.popExpecting src (s.push frame).1 =
      .ok (frame, { s with nextId := s.nextId + 1 }) := by
  simp [popExpecting, push]

end OpenElements

end HtmlTemplate.Tree
