/-! The lexical states of the HTML half of a template. They can be seen from outside,
because where a mustache belongs depends on the state around it. -/

namespace HtmlTemplate.Html

/-- How character references and the newline after certain start tags are read. -/
inductive Mode where
  /-- As a browser reads them: references are decoded and the newline is dropped. -/
  | precompile
  /-- As they are written, for tools that write templates back. -/
  | codemod
deriving DecidableEq, Repr, Inhabited

inductive State where
  | beforeData
  | data
  | tagOpen
  | markupDeclarationOpen
  | commentStart
  | commentStartDash
  | comment
  | commentEndDash
  | commentEnd
  | tagName
  | endTagOpen
  | endTagName
  | beforeAttributeName
  | attributeName
  | afterAttributeName
  | beforeAttributeValue
  | attributeValueDoubleQuoted
  | attributeValueSingleQuoted
  | attributeValueUnquoted
  | afterAttributeValueQuoted
  | selfClosingStartTag
deriving DecidableEq, Repr, Inhabited

namespace State

/-- The name used in diagnostics. -/
def name : State → String
  | beforeData => "beforeData"
  | data => "data"
  | tagOpen => "tagOpen"
  | markupDeclarationOpen => "markupDeclarationOpen"
  | commentStart => "commentStart"
  | commentStartDash => "commentStartDash"
  | comment => "comment"
  | commentEndDash => "commentEndDash"
  | commentEnd => "commentEnd"
  | tagName => "tagName"
  | endTagOpen => "endTagOpen"
  | endTagName => "endTagName"
  | beforeAttributeName => "beforeAttributeName"
  | attributeName => "attributeName"
  | afterAttributeName => "afterAttributeName"
  | beforeAttributeValue => "beforeAttributeValue"
  | attributeValueDoubleQuoted => "attributeValueDoubleQuoted"
  | attributeValueSingleQuoted => "attributeValueSingleQuoted"
  | attributeValueUnquoted => "attributeValueUnquoted"
  | afterAttributeValueQuoted => "afterAttributeValueQuoted"
  | selfClosingStartTag => "selfClosingStartTag"

def all : List State :=
  [beforeData, data, tagOpen, markupDeclarationOpen, commentStart, commentStartDash, comment,
    commentEndDash, commentEnd, tagName, endTagOpen, endTagName, beforeAttributeName,
    attributeName, afterAttributeName, beforeAttributeValue, attributeValueDoubleQuoted,
    attributeValueSingleQuoted, attributeValueUnquoted, afterAttributeValueQuoted,
    selfClosingStartTag]

def isComment : State → Bool
  | commentStart | commentStartDash | comment | commentEndDash | commentEnd => true
  | _ => false

def isData : State → Bool
  | beforeData | data => true
  | _ => false

theorem isComment_of_isData {s : State} (h : s.isData = true) : s.isComment = false := by
  revert h
  cases s <;> simp [isData, isComment]

def isAttributeValue : State → Bool
  | attributeValueDoubleQuoted | attributeValueSingleQuoted | attributeValueUnquoted => true
  | _ => false

end State

/-- The elements without an end tag and without children. -/
def voidElements : List (List Char) :=
  ["area", "base", "br", "col", "embed", "hr", "img", "input", "link", "meta", "param",
    "source", "track", "wbr"].map String.toList

def isVoid (tag : List Char) : Bool :=
  voidElements.contains tag

end HtmlTemplate.Html
