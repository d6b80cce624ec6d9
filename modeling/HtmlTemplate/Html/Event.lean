import HtmlTemplate.Source.Position

/-! What is found in HTML text, one event at a time. Tags, names and values are
reported as they begin, grow and end, so that other nodes can be placed between
two events. -/

namespace HtmlTemplate.Html

/-- Faults of the HTML text itself. -/
inductive Fault where
  | markupDeclaration
  | invalidEndTag
  | equalsBeforeName
  | characterInName (c : Char)
deriving DecidableEq, Repr

def Fault.message : Fault → String
  | markupDeclaration => "Markup declarations other than comments are not supported"
  | invalidEndTag => "Invalid end tag"
  | equalsBeforeName => "attribute name cannot start with equals sign"
  | characterInName c =>
    String.singleton c ++ " is not a valid character within attribute names"

inductive Event where
  | reset
  /-- The position is that of the `<`. -/
  | beginStartTag (p : Position)
  | beginEndTag (p : Position)
  | tagName (c : Char)
  | selfClosing
  /-- The position is just past the `>`. -/
  | finishTag (p : Position)
  | beginAttribute (p : Position)
  | attributeName (c : Char)
  | beginAttributeValue (quoted : Bool) (p : Position)
  /-- The location is that of the source text that stands for the value text. -/
  | attributeValue (text : List Char) (written : Location)
  | finishAttributeValue (p : Position)
  | beginData (p : Position)
  | data (text : List Char)
  | finishData (p : Position)
  | beginComment (p : Position)
  | commentData (text : List Char)
  | finishComment (p : Position)
  | syntaxError (fault : Fault) (p : Position)
deriving DecidableEq, Repr

end HtmlTemplate.Html
