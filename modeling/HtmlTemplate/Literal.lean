import HtmlTemplate.Number.Decimal
import HtmlTemplate.Text.Quoted

/-! Literals, which both trees share, and how they are shown. -/

namespace HtmlTemplate

inductive Literal where
  | string (value : List Char)
  | number (value : Binary64) (written : List Char)
  | boolean (value : Bool)
  | null
  | undefined
deriving DecidableEq, Repr

namespace Literal

def typeName : Literal → String
  | string _ => "StringLiteral"
  | number .. => "NumberLiteral"
  | boolean _ => "BooleanLiteral"
  | null => "NullLiteral"
  | undefined => "UndefinedLiteral"

/-- The text of the literal, which of a string is its value. -/
def text : Literal → List Char
  | string value => value
  | number _ written => written
  | boolean true => "true".toList
  | boolean false => "false".toList
  | null => "null".toList
  | undefined => "undefined".toList

/-- The literal the way it would be written in a template. -/
def display : Literal → List Char
  | string value => Text.quote value
  | literal => literal.text

/-- Equality up to the numbers, which are compared as numbers. -/
def same : Literal → Literal → Bool
  | number x s, number y t => x.sameNumber y && s == t
  | l, m => l == m

end Literal

end HtmlTemplate
