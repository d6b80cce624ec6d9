import HtmlTemplate.Html.State
import HtmlTemplate.Preprocess
import HtmlTemplate.Tree.Same

/-! Templates put together from their parts. A draft has a text, in which each part is
written in one way, and a tree, whose spans are where that text stands. Reading the
text of a draft gives its tree if the parts are well formed. -/

namespace HtmlTemplate.Draft

open HtmlTemplate.Tree (Statement)

inductive Constant where
  /-- Written between double quotes, as it is. -/
  | string (value : List Char)
  | number (value : Binary64)
  | boolean (value : Bool)
  | null
  | undefined
deriving DecidableEq, Repr

def Constant.literal : Constant → Literal
  | string value => .string value
  | number value => .number value value.text
  | boolean value => .boolean value
  | null => .null
  | undefined => .undefined

def Constant.text : Constant → List Char
  | string value => '"' :: value ++ ['"']
  | c => c.literal.text

/-- What a call is given, in the order in which it is written. -/
inductive Argument (ε : Type) where
  | param (e : ε)
  | pair (key : List Char) (e : ε)
  /-- `as |a b|` -/
  | params (names : List (List Char))

inductive Expression where
  | constant (c : Constant)
  | path (written : List Char)
  | call (path : List Char) (args : List (Argument Expression))

def splitDots : List Char → List (List Char)
  | [] => [[]]
  | c :: cs =>
    if c = '.' then [] :: splitDots cs
    else
      match splitDots cs with
      | [] => [[c]]
      | segment :: segments => (c :: segment) :: segments

def span (start : Nat) (text : List Char) : Span := ⟨start, start + byteLength text⟩

def pathAt (start : Nat) (written : List Char) : Tree.Path :=
  let segments := splitDots written
  let first := segments.headD []
  let headSpan := span start first
  let head : Tree.PathHead :=
    if first = "this".toList then .self headSpan
    else
      match first with
      | '@' :: name => .argument name headSpan
      | name => .plain name headSpan
  ⟨written, head, segments.tail, span start written⟩

mutual

def Expression.text : Expression → List Char
  | .constant c => c.text
  | .path written => written
  | .call path args => '(' :: path ++ argumentsText args ++ [')']

def argumentsText : List (Argument Expression) → List Char
  | [] => []
  | .param e :: args => ' ' :: e.text ++ argumentsText args
  | .pair key e :: args => ' ' :: key ++ '=' :: e.text ++ argumentsText args
  | .params names :: args =>
    " as |".toList ++ List.intercalate [' '] names ++ '|' :: argumentsText args

end

/-- The arguments of a call by kind. -/
structure Arguments where
  params : List Tree.Expression := []
  pairs : List (Tree.Pair Tree.Expression) := []
  names : List (List Char) := []

def Arguments.call (args : Arguments) (callee : Tree.Expression) : Tree.Call Tree.Expression where
  callee
  params := args.params
  hash :=
    match args.pairs.head?, args.pairs.getLast? with
    | some first, some last => ⟨args.pairs, first.span.merge last.span⟩
    | _, _ => .empty (args.params.getLast?.getD callee).span.stop

mutual

/-- The tree of an expression whose text starts at an offset. -/
def Expression.treeAt (start : Nat) : Expression → Tree.Expression
  | .constant c => .literal c.literal (span start c.text)
  | .path written => .path (pathAt start written)
  | .call path args =>
    let callee := Tree.Expression.path (pathAt (start + 1) path)
    let arguments := argumentsAt (callee.span.stop) args
    .call (arguments.call callee) (span start (Expression.call path args).text)

def argumentsAt (start : Nat) : List (Argument Expression) → Arguments
  | [] => {}
  | .param e :: args =>
    let more := argumentsAt (start + 1 + byteLength e.text) args
    { more with params := e.treeAt (start + 1) :: more.params }
  | .pair key e :: args =>
    let valueStart := start + 1 + byteLength key + 1
    let more := argumentsAt (valueStart + byteLength e.text) args
    let value := e.treeAt valueStart
    { more with pairs := ⟨key, value, ⟨start + 1, value.span.stop⟩⟩ :: more.pairs }
  | .params names :: args =>
    let more := argumentsAt (start + byteLength (argumentsText [.params names])) args
    { more with names := names ++ more.names }

end

/-- What is called and with what. -/
structure Call where
  path : List Char
  args : List (Argument Expression)

namespace Call

def text (c : Call) : List Char := c.path ++ argumentsText c.args

def callee (start : Nat) (c : Call) : Tree.Expression := .path (pathAt start c.path)

def arguments (start : Nat) (c : Call) : Arguments :=
  argumentsAt (c.callee start).span.stop c.args

def treeAt (start : Nat) (c : Call) : Tree.Call Tree.Expression :=
  (c.arguments start).call (c.callee start)

end Call

inductive Node where
  | text (chars : List Char)
  /-- Text that is no node. -/
  | raw (written : List Char)
  /-- Attributes are written between double quotes. -/
  | element (tag : List Char) (attributes : List (List Char × List Char)) (children : List Node)
  | mustache (trusting : Bool) (call : Call)
  | literal (c : Constant)
  | block (call : Call) (body : List Node) (inverse : Option (List Node))

def attributeText (a : List Char × List Char) : List Char :=
  ' ' :: a.1 ++ '=' :: '"' :: a.2 ++ ['"']

def attributesText (as : List (List Char × List Char)) : List Char :=
  as.flatMap attributeText

def attributesAt (start : Nat) : List (List Char × List Char) → List Tree.Attribute
  | [] => []
  | (name, value) :: as =>
    let nameSpan := span (start + 1) name
    let valueSpan := span (nameSpan.stop + 1) ('"' :: value ++ ['"'])
    ⟨name, .text ⟨value, valueSpan⟩, nameSpan.merge valueSpan⟩ :: attributesAt valueSpan.stop as

def openBraces (trusting : Bool) : List Char :=
  List.replicate (if trusting then 3 else 2) '{'

def closeBraces (trusting : Bool) : List Char :=
  List.replicate (if trusting then 3 else 2) '}'

def startTagText (tag : List Char) (attributes : List (List Char × List Char)) : List Char :=
  '<' :: tag ++ attributesText attributes ++ ['>']

def openText (call : Call) : List Char :=
  ['{', '{', '#'] ++ call.text ++ ['}', '}']

def elseText : List Char := ['{', '{', 'e', 'l', 's', 'e', '}', '}']

mutual

/-- Void elements have no children and no end tag. -/
def Node.written : Node → List Char
  | .text chars => chars
  | .raw written => written
  | .element tag attributes children =>
    startTagText tag attributes
      ++ if Html.isVoid tag then [] else nodesText children ++ '<' :: '/' :: tag ++ ['>']
  | .mustache trusting call => openBraces trusting ++ call.text ++ closeBraces trusting
  | .literal c => openBraces false ++ c.text ++ closeBraces false
  | .block call body inverse =>
    openText call ++ nodesText body ++ inverseText inverse
      ++ ['{', '{', '/'] ++ call.path ++ ['}', '}']

def inverseText : Option (List Node) → List Char
  | none => []
  | some body => elseText ++ nodesText body

def nodesText : List Node → List Char
  | [] => []
  | n :: ns => n.written ++ nodesText ns

end

/-- From the first statement to the last; without any, at the start of the block. -/
def sectionOf (blockStart : Nat) (params : List (List Char)) (body : List Statement) :
    Tree.Section Statement where
  body
  params
  chained := false
  span :=
    match body.head?, body.getLast? with
    | some first, some last => first.span.merge last.span
    | _, _ => .empty blockStart

mutual

/-- The statement of a node whose text starts at an offset, if it is one. -/
def Node.statementAt (start : Nat) : Node → Option Statement
  | .text chars => some (.text ⟨chars, span start chars⟩)
  | .raw _ => none
  | .element tag attributes children =>
    let inside := start + byteLength (startTagText tag attributes)
    some (.element
      { tag, selfClosing := false
        attributes := attributesAt (start + 1 + byteLength tag) attributes
        params := [], modifiers := [], comments := []
        children := if Html.isVoid tag then [] else nodesAt inside children
        span := span start (Node.element tag attributes children).written })
  | .mustache trusting call =>
    let callStart := start + byteLength (openBraces trusting)
    some (.dynamic (.call
      ⟨call.treeAt callStart, trusting, {}, span start (Node.mustache trusting call).written⟩))
  | .literal c =>
    some (.dynamic (.literal
      ⟨c.literal, span (start + 2) c.text, false, {}, span start (Node.literal c).written⟩))
  | .block call body inverse =>
    let bodyStart := start + byteLength (openText call)
    let params := (call.arguments (start + 3)).names
    some (.block
      { call := call.treeAt (start + 3)
        program := sectionOf start params (nodesAt bodyStart body)
        inverse := inverseAt start (bodyStart + byteLength (nodesText body)) inverse
        openStrip := {}, inverseStrip := {}, closeStrip := {}
        span := span start (Node.block call body inverse).written })

def inverseAt (blockStart start : Nat) :
    Option (List Node) → Option (Tree.Section Statement)
  | none => none
  | some body => some (sectionOf blockStart [] (nodesAt (start + byteLength elseText) body))

def nodesAt (start : Nat) : List Node → List Statement
  | [] => []
  | n :: ns => (n.statementAt start).toList ++ nodesAt (start + byteLength n.written) ns

end

def template (nodes : List Node) : Tree.Template :=
  ⟨nodesAt 0 nodes, [], span 0 (nodesText nodes)⟩

def readsBack (nodes : List Node) : Except SyntaxError Bool :=
  (preprocess (nodesText nodes) {}).map (·.same (template nodes))

end HtmlTemplate.Draft
