import HtmlTemplate.Tree.OpenElements

/-! Runs of operations on a stack of open elements, each with its answer. -/

namespace HtmlTemplate.Tree

inductive StackAction where
  | push (frame : Frame)
  | append (node : Statement)
  /-- Puts a node in front of the children of the frame on top. -/
  | insertFirst (node : Statement)
  | pop
  /-- Ends the element on top and puts it into the frame below. -/
  | closeElement (stop : Nat)
  | popExpecting (id : Nat)

inductive StackAnswer where
  | pushed (id : Nat)
  | appended
  /-- Whether there was a frame to change. -/
  | inserted (changed : Bool)
  | popped (frame : Option (Nat × Frame))
  | closed (element : Option (Element Statement))
  | taken (frame : Except SyntaxError Frame)

namespace OpenElements

def perform (src : Source) (s : OpenElements) : StackAction → StackAnswer × OpenElements
  | .push frame =>
    let (id, s) := s.push frame
    (.pushed id, s)
  | .append node => (.appended, s.append node)
  | .insertFirst node =>
    (.inserted !s.frames.isEmpty, s.mapTop (Frame.mapChildren (node :: ·)))
  | .pop =>
    match s.pop? with
    | some (top, s) => (.popped (some top), s)
    | none => (.popped none, s)
  | .closeElement stop =>
    match s.popElement? with
    | some (e, s) => (.closed (some (e.finish stop)), s.append (.element (e.finish stop)))
    | none => (.closed none, s)
  | .popExpecting id =>
    match s.popExpecting src id with
    | .ok (frame, s) => (.taken (.ok frame), s)
    | .error e => (.taken (.error e), s)

def run (src : Source) (s : OpenElements) : List StackAction → List (StackAnswer × OpenElements)
  | [] => []
  | a :: as =>
    let step := s.perform src a
    step :: step.2.run src as

end OpenElements

end HtmlTemplate.Tree
