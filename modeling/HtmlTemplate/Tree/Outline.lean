import HtmlTemplate.Tree.Basic

/-! The nodes of a template in the order in which a reader meets them, each with its
depth: a node comes before what is inside it. -/

namespace HtmlTemplate.Tree

inductive Kind where
  | template
  | mustache
  | literalMustache
  | block
  | decorator
  | decoratorBlock
  | partialCall
  | partialBlock
  | mustacheComment
  | comment
  | element
  | text
  | program
  | inverse
  | attr
  | concat
  | modifier
  | tagComment
  | path
  | self
  | argument
  | plain
  | call
  | literal (l : Literal)
  | hash
  | pair
deriving DecidableEq, Repr

def Kind.name : Kind → String
  | template => "Template"
  | mustache => "Mustache"
  | literalMustache => "ContentMustache"
  | block => "Block"
  | decorator => "Decorator"
  | decoratorBlock => "DecoratorBlock"
  | partialCall => "Partial"
  | partialBlock => "PartialBlock"
  | mustacheComment => "MustacheComment"
  | comment => "Comment"
  | element => "Element"
  | text => "Text"
  | program => "Program"
  | inverse => "Inverse"
  | attr => "Attr"
  | concat => "Concat"
  | modifier => "Modifier"
  | tagComment => "TagComment"
  | path => "Path"
  | self => "This"
  | argument => "Arg"
  | plain => "Local"
  | call => "SubExpression"
  | literal l => l.typeName
  | hash => "Hash"
  | pair => "Pair"

structure Entry where
  depth : Nat
  kind : Kind
  span : Span
  /-- What else there is to say of the node. -/
  note : List Char := []
deriving DecidableEq, Repr

def PathHead.kind : PathHead → Kind
  | self _ => .self
  | argument .. => .argument
  | plain .. => .plain

def Path.entries (d : Nat) (p : Path) : List Entry :=
  [⟨d, .path, p.span, p.written⟩, ⟨d + 1, p.head.kind, p.head.span, p.head.name⟩]

mutual

def Expression.entries (d : Nat) : Expression → List Entry
  | .path p => p.entries d
  | .literal l span => [⟨d, .literal l, span, l.display⟩]
  | .call c span => ⟨d, .call, span, []⟩ :: callEntries (d + 1) c

/-- What is called, the parameters and the pairs, all at one depth. -/
def callEntries (d : Nat) : Call Expression → List Entry
  | ⟨callee, params, ⟨pairs, span⟩⟩ =>
    callee.entries d ++ paramEntries d params ++ ⟨d, .hash, span, []⟩ :: pairEntries (d + 1) pairs

def paramEntries (d : Nat) : List Expression → List Entry
  | [] => []
  | e :: es => e.entries d ++ paramEntries d es

def pairEntries (d : Nat) : List (Pair Expression) → List Entry
  | [] => []
  | ⟨key, value, span⟩ :: ps =>
    ⟨d, .pair, span, key⟩ :: value.entries (d + 1) ++ pairEntries d ps

end

def noteIf (p : Bool) (note : String) : List Char :=
  if p then note.toList else []

def Mustache.entries (d : Nat) (kind : Kind) (m : Mustache) : List Entry :=
  ⟨d, kind, m.span, noteIf m.trusting "trusting"⟩ :: callEntries (d + 1) m.call

def Dynamic.entries (d : Nat) : Dynamic → List Entry
  | .call m => m.entries d .mustache
  | .literal m => [⟨d, .literalMustache, m.span, m.value.display⟩]

def TextNode.entries (d : Nat) (t : TextNode) : List Entry :=
  [⟨d, .text, t.span, t.chars⟩]

def Part.entries (d : Nat) : Part → List Entry
  | .text t => t.entries d
  | .dynamic m => m.entries d

def AttributeValue.entries (d : Nat) : AttributeValue → List Entry
  | .text t => t.entries d
  | .dynamic m => m.entries d
  | .concat parts span => ⟨d, .concat, span, []⟩ :: parts.flatMap (Part.entries (d + 1))

def Attribute.entries (d : Nat) (a : Attribute) : List Entry :=
  ⟨d, .attr, a.span, a.name⟩ :: a.value.entries (d + 1)

def Modifier.entries (d : Nat) (m : Modifier) : List Entry :=
  ⟨d, .modifier, m.span, []⟩ :: callEntries (d + 1) m.call

mutual

def Statement.entries (d : Nat) : Statement → List Entry
  | .dynamic m => m.entries d
  | .decorator m => m.entries d .decorator
  | .block b => blockEntries d .block b
  | .decoratorBlock b => blockEntries d .decoratorBlock b
  | .partialCall p => ⟨d, .partialCall, p.span, p.indent⟩ :: callEntries (d + 1) p.call
  | .partialBlock ⟨call, program, _, _, span⟩ =>
    ⟨d, .partialBlock, span, []⟩ :: callEntries (d + 1) call
      ++ sectionEntries (d + 1) .program program
  | .mustacheComment c => [⟨d, .mustacheComment, c.span, c.value⟩]
  | .comment c => [⟨d, .comment, c.span, c.value⟩]
  | .text t => t.entries d
  | .element ⟨tag, _, attributes, _, modifiers, comments, children, span⟩ =>
    ⟨d, .element, span, tag⟩ :: attributes.flatMap (Attribute.entries (d + 1))
      ++ modifiers.flatMap (Modifier.entries (d + 1))
      ++ comments.map (fun c => ⟨d + 1, .tagComment, c.span, c.value⟩)
      ++ bodyEntries (d + 1) children

def blockEntries (d : Nat) (kind : Kind) : Block Statement → List Entry
  | ⟨call, program, inverse, _, _, _, span⟩ =>
    ⟨d, kind, span, []⟩ :: callEntries (d + 1) call ++ sectionEntries (d + 1) .program program
      ++ inverseEntries (d + 1) inverse

def inverseEntries (d : Nat) : Option (Section Statement) → List Entry
  | none => []
  | some s => sectionEntries d .inverse s

def sectionEntries (d : Nat) (kind : Kind) : Section Statement → List Entry
  | ⟨body, _, chained, span⟩ =>
    ⟨d, kind, span, noteIf chained "chained"⟩ :: bodyEntries (d + 1) body

def bodyEntries (d : Nat) : List Statement → List Entry
  | [] => []
  | s :: ss => s.entries d ++ bodyEntries d ss

end

def Template.entries (t : Template) : List Entry :=
  ⟨0, .template, t.span, []⟩ :: bodyEntries 1 t.body

end HtmlTemplate.Tree
