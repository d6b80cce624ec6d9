import HtmlTemplate.Literal
import HtmlTemplate.Source.Position
import HtmlTemplate.Strip

/-! The tokens of the mustaches, with the text between them as tokens of its own, and
the faults that reading them can find. -/

namespace HtmlTemplate.Mustache

/-- What a mustache opens. -/
inductive Opener where
  | escaped
  /-- `{{{` -/
  | raw
  /-- `{{&` -/
  | ampersand
  | block
  | decorator
  | decoratorBlock
  | partialCall
  | partialBlock
  | endBlock
  /-- `{{^` that is not closed at once. -/
  | inverse
  /-- `{{else` that is not closed at once. -/
  | elseChain
deriving DecidableEq, Repr

inductive Symbol where
  | content (text : List Char)
  /-- The text with its delimiters. -/
  | comment (text : List Char)
  | opener (o : Opener)
  /-- A whole `{{else}}` or `{{^}}`. -/
  | elseTag
  | close
  /-- `}}}` -/
  | closeRaw
  | openCall
  | closeCall
  | equals
  /-- `@` -/
  | data
  | separator (slash : Bool)
  /-- A path segment; `[bracketed]` ones are never keywords. -/
  | name (text : List Char) (bracketed : Bool)
  /-- `as |` -/
  | openParams
  | closeParams
  | literal (l : Literal)
  | endOfInput
deriving DecidableEq, Repr

def Symbol.describe : Symbol → String
  | content _ => "content"
  | comment _ => "a comment"
  | opener .elseChain => "`\x7b\x7belse ...`"
  | opener _ => "an opening `\x7b\x7b`"
  | elseTag => "`\x7b\x7belse\x7d\x7d`"
  | close => "`\x7d\x7d`"
  | closeRaw => "`\x7d\x7d\x7d`"
  | openCall => "`(`"
  | closeCall => "`)`"
  | equals => "`=`"
  | data => "`@`"
  | separator _ => "a path separator"
  | name .. => "an identifier"
  | openParams => "`as |`"
  | closeParams => "`|`"
  | literal (.string _) => "a string"
  | literal (.number ..) => "a number"
  | literal (.boolean _) => "a boolean"
  | literal .undefined => "`undefined`"
  | literal .null => "`null`"
  | endOfInput => "end of input"

structure Token where
  symbol : Symbol
  loc : Location
  /-- The marker at this end of the mustache; only tags have any. -/
  strip : Strip := {}
deriving DecidableEq, Repr

/-- Why the mustaches of a template cannot be read. -/
inductive Fault where
  | unclosedComment
  | unclosedString
  | unclosedSegment
  | unclosedMustache
  | unexpectedCharacter (c : Char)
  | expected (what : String) (got : Symbol)
  | closeWithoutOpen
  | elseOutsideBlock
  | elseIfInInverse
  | inverseOfDecorator
  | unclosedBlock (name : List Char) (line : Nat) (got : Symbol)
  | mismatchedClose (opened closed : List Char)
  | invalidPath (written : List Char)
deriving DecidableEq, Repr

def Fault.message : Fault → String
  | unclosedComment => "Unterminated comment"
  | unclosedString => "Unterminated string"
  | unclosedSegment => "Unterminated `[` segment"
  | unclosedMustache => "Expected `\x7d\x7d` but the template ended"
  | unexpectedCharacter c => "Unexpected character `" ++ String.singleton c ++ "`"
  | expected what got => "Expected " ++ what ++ ", got " ++ got.describe
  | closeWithoutOpen => "Unexpected closing block without an open block"
  | elseOutsideBlock => "Unexpected `\x7b\x7belse\x7d\x7d` outside of a block"
  | elseIfInInverse => "Unexpected `\x7b\x7belse if\x7d\x7d` in an inverse section"
  | inverseOfDecorator => "Unexpected inverse block on decorator"
  | unclosedBlock name line got =>
    "Expected `\x7b\x7b/" ++ String.ofList name ++ "\x7d\x7d` to close the block opened on line "
      ++ toString line ++ ", got " ++ got.describe
  | mismatchedClose opened closed =>
    String.ofList opened ++ " doesn't match " ++ String.ofList closed
  | invalidPath written => "Invalid path: " ++ String.ofList written

structure ParseError where
  fault : Fault
  position : Position
deriving DecidableEq, Repr

namespace ParseError

def message (e : ParseError) : String := e.fault.message

/-- The line that is shown to the author of the template. -/
def display (e : ParseError) : String :=
  "Parse error at line " ++ toString e.position.line ++ ", column "
    ++ toString e.position.column ++ ": " ++ e.message

end ParseError

end HtmlTemplate.Mustache
