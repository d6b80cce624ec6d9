import HtmlTemplate.Literal
import HtmlTemplate.Source.Span
import HtmlTemplate.Strip

/-! The tree of a template: elements, text and HTML comments together with mustaches,
blocks and partials. Every node has the span of the text it was read from. -/

namespace HtmlTemplate.Tree

/-- What the first segment of a path refers to. -/
inductive PathHead where
  /-- `this` -/
  | self (span : Span)
  /-- `@name`; the name is without the `@`, the span with it. -/
  | argument (name : List Char) (span : Span)
  /-- A bare name. -/
  | plain (name : List Char) (span : Span)
deriving DecidableEq, Repr

namespace PathHead

def span : PathHead → Span
  | self span | argument _ span | plain _ span => span

def name : PathHead → List Char
  | self _ => []
  | argument name _ | plain name _ => name

end PathHead

structure Path where
  written : List Char
  head : PathHead
  /-- The segments after the head. -/
  tail : List (List Char)
  span : Span
deriving DecidableEq, Repr

/-- `key=value` -/
structure Pair (ε : Type) where
  key : List Char
  value : ε
  span : Span

/-- The pairs of a call; a key may come more than once. -/
structure Hash (ε : Type) where
  pairs : List (Pair ε)
  span : Span

def Hash.empty {ε : Type} (offset : Nat) : Hash ε := ⟨[], .empty offset⟩

structure Call (ε : Type) where
  callee : ε
  params : List ε
  hash : Hash ε

inductive Expression where
  | path (p : Path)
  | call (c : Call Expression) (span : Span)
  | literal (l : Literal) (span : Span)

def Expression.span : Expression → Span
  | path p => p.span
  | call _ span => span
  | literal _ span => span

/-- `{{name arg key=value}}` -/
structure Mustache where
  call : Call Expression
  /-- What it gives is taken as HTML: `{{{ }}}` or `{{& }}`. -/
  trusting : Bool
  strip : Strip
  span : Span

/-- `{{"text"}}`, which is printed and never called. -/
structure LiteralMustache where
  value : Literal
  valueSpan : Span
  trusting : Bool
  strip : Strip
  span : Span
deriving DecidableEq, Repr

/-- A literal takes no pairs. -/
def LiteralMustache.hash (m : LiteralMustache) : Hash Expression :=
  .empty m.valueSpan.stop

inductive Dynamic where
  | call (m : Mustache)
  | literal (m : LiteralMustache)

def Dynamic.span : Dynamic → Span
  | call m => m.span
  | literal m => m.span

structure TextNode where
  chars : List Char
  span : Span
deriving DecidableEq, Repr

/-- A comment of either kind. -/
structure Comment where
  value : List Char
  span : Span
deriving DecidableEq, Repr

/-- A part of a quoted attribute value. -/
inductive Part where
  | text (t : TextNode)
  | dynamic (d : Dynamic)

def Part.span : Part → Span
  | text t => t.span
  | dynamic d => d.span

inductive AttributeValue where
  | text (t : TextNode)
  | dynamic (d : Dynamic)
  /-- Text and mustaches between quotes. -/
  | concat (parts : List Part) (span : Span)

def AttributeValue.span : AttributeValue → Span
  | text t => t.span
  | dynamic d => d.span
  | concat _ span => span

def Part.toValue : Part → AttributeValue
  | text t => .text t
  | dynamic d => .dynamic d

structure Attribute where
  name : List Char
  value : AttributeValue
  span : Span

/-- A mustache among the attributes. -/
structure Modifier where
  call : Call Expression
  span : Span

structure Element (σ : Type) where
  tag : List Char
  /-- Written as `<tag />`. -/
  selfClosing : Bool
  attributes : List Attribute
  /-- The names of `as |a b|` in the start tag. -/
  params : List (List Char)
  modifiers : List Modifier
  /-- The mustache comments in the start tag. -/
  comments : List Comment
  children : List σ
  span : Span

/-- `{{> name}}` -/
structure PartialCall where
  /-- The callee is the name. -/
  call : Call Expression
  /-- Put before each line of the partial when it stands alone on its line. -/
  indent : List Char
  strip : Strip
  span : Span

/-- The body of a block or a partial block. -/
structure Section (σ : Type) where
  body : List σ
  params : List (List Char)
  /-- Whether it just holds the block of an `{{else if}}`. -/
  chained : Bool
  span : Span

structure Block (σ : Type) where
  call : Call Expression
  program : Section σ
  inverse : Option (Section σ)
  openStrip : Strip
  inverseStrip : Strip
  closeStrip : Strip
  span : Span

/-- `{{#> name}}` -/
structure PartialBlock (σ : Type) where
  call : Call Expression
  program : Section σ
  openStrip : Strip
  closeStrip : Strip
  span : Span

inductive Statement where
  | dynamic (d : Dynamic)
  | block (b : Block Statement)
  | decorator (m : Mustache)
  | decoratorBlock (b : Block Statement)
  | partialCall (p : PartialCall)
  | partialBlock (p : PartialBlock Statement)
  /-- `{{! }}` -/
  | mustacheComment (c : Comment)
  /-- `<!-- -->` -/
  | comment (c : Comment)
  | element (e : Element Statement)
  | text (t : TextNode)

def Statement.span : Statement → Span
  | dynamic d => d.span
  | block b | decoratorBlock b => b.span
  | decorator m => m.span
  | partialCall p => p.span
  | partialBlock p => p.span
  | mustacheComment c | comment c => c.span
  | element e => e.span
  | text t => t.span

structure Template where
  body : List Statement
  /-- The names in scope for the whole template. -/
  params : List (List Char)
  span : Span

end HtmlTemplate.Tree
