import HtmlTemplate.Html.Event
import HtmlTemplate.Html.State
import HtmlTemplate.Literal

/-! Why text whose mustaches can be read is still no template. -/

namespace HtmlTemplate.Tree

/-- What may end in the middle of a tag or a comment. -/
inductive Whole where
  | template
  | block
deriving DecidableEq, Repr

def Whole.name : Whole → String
  | template => "template"
  | block => "block"

inductive Fault where
  -- paths
  | attributesPath
  | currentSlash
  | parentSlash
  | mixedSeparators
  | lonelyDot
  | namelessArgument
  | namelessPath
  -- calls
  | notCallable (l : Literal)
  -- places of mustaches
  | blockPlace
  | decoratorPlace
  | mustacheInTagName
  | literalModifier (tag : List Char) (l : Literal)
  | commentPlace (state : Html.State)
  -- text
  | html (fault : Html.Fault)
  -- tags
  | namedBlock
  | endTagAttributes
  | endTagSelfClosing
  | voidEndTag (tag : List Char)
  | mismatchedEndTag (tag opened : List Char) (line : Nat)
  | endTagAlone (tag : List Char)
  | unclosedElement (tag : List Char)
  -- block parameters of an element
  | paramsWithoutAs
  | malformedParams (written : List Char)
  | invalidParam (name : List Char)
  | noParams
  -- attribute values
  | unquotedConcat
  -- ends
  | unclosedComment
  | unclosedStartTag (tag : List Char)
  | unclosedEndTag (tag : List Char)
  | unexpectedEnd (what : Whole) (state : Html.State)
  | unbalancedBody
deriving DecidableEq, Repr

namespace Fault

def message : Fault → String
  | attributesPath => "Illegal use of ...attributes"
  | currentSlash => "Using \"./\" is not supported and unnecessary"
  | parentSlash => "Changing context using \"../\" is not supported"
  | mixedSeparators =>
    "Mixing '.' and '/' in paths is not supported; use only '.' to separate property paths"
  | lonelyDot => "'.' is not a supported path; check for a path with a trailing '.'"
  | namelessArgument =>
    "Attempted to parse a path expression, but it was not valid. "
      ++ "Paths beginning with @ must start with a-z."
  | namelessPath =>
    "Attempted to parse a path expression, but it was not valid. "
      ++ "Paths must start with a-z or A-Z."
  | notCallable l =>
    let shown := String.ofList l.display
    l.typeName ++ " \"" ++ String.ofList l.text
      ++ "\" cannot be called as a sub-expression, replace (" ++ shown ++ ") with " ++ shown
  | blockPlace => "A block may only be used inside an HTML element or another block."
  | decoratorPlace => "A decorator may only be used inside an HTML element or another block."
  | mustacheInTagName => "Cannot use mustaches in an elements tagname"
  | literalModifier tag l =>
    let shown := "\x7b\x7b" ++ String.ofList l.display ++ "\x7d\x7d"
    "In <" ++ String.ofList tag ++ " ... " ++ shown ++ " ..., " ++ shown
      ++ " is not a valid modifier"
  | commentPlace state =>
    "Using a Handlebars comment when in the `" ++ state.name ++ "` state is not supported"
  | html fault => fault.message
  | namedBlock =>
    "Invalid named block: a named block needs a name that starts with a lower case letter"
  | endTagAttributes => "Invalid end tag: closing tag must not have attributes"
  | endTagSelfClosing => "Invalid end tag: closing tag must not be self-closing"
  | voidEndTag tag =>
    "<" ++ String.ofList tag ++ "> elements do not need end tags. You should remove it"
  | mismatchedEndTag tag opened line =>
    "Closing tag </" ++ String.ofList tag ++ "> did not match last open tag <"
      ++ String.ofList opened ++ "> (on line " ++ toString line ++ ")"
  | endTagAlone tag => "Closing tag </" ++ String.ofList tag ++ "> without an open tag"
  | unclosedElement tag => "Unclosed element `" ++ String.ofList tag ++ "`"
  | paramsWithoutAs =>
    "Block parameters must be preceded by the `as` keyword, "
      ++ "detected block parameters without `as`"
  | malformedParams written =>
    "Invalid block parameters syntax, '" ++ String.ofList written ++ "'"
  | invalidParam name =>
    "Invalid identifier for block parameters, '" ++ String.ofList name ++ "'"
  | noParams => "Cannot use zero block parameters"
  | unquotedConcat =>
    "An unquoted attribute value must be a string or a mustache, "
      ++ "preceded by whitespace or a '=' character, "
      ++ "and followed by whitespace, a '>' character, or '/>'"
  | unclosedComment => "Unclosed comment"
  | unclosedStartTag tag => "Unclosed element `" ++ String.ofList tag ++ "`"
  | unclosedEndTag tag => "Unclosed end tag `</" ++ String.ofList tag ++ "`"
  | unexpectedEnd what state =>
    "Unexpected end of " ++ what.name ++ " in the `" ++ state.name ++ "` state"
  | unbalancedBody => "Unbalanced template body"

end Fault

end HtmlTemplate.Tree
