import HtmlTemplate.Source.Position
import HtmlTemplate.Text.Blank

/-! How far whitespace control moves the start of a text. What is left of a text is
read from where it was written, so its first characters keep their place. -/

namespace HtmlTemplate

/-- The way from one position to a later one. -/
structure Shift where
  lines : Nat
  /-- Counted from the start of the last line crossed, if there is one. -/
  columns : Nat
deriving DecidableEq, Repr

namespace Shift

def across (cs : List Char) : Shift where
  lines := cs.count '\n'
  columns := (Text.takeEndWhile (· != '\n') cs).length

/-- The text before the first occurrence of another one. -/
def before? (part : List Char) : List Char → Option (List Char)
  | [] => if part.isEmpty then some [] else none
  | c :: cs =>
    if part.isPrefixOf (c :: cs) then some [] else (before? part cs).map (c :: ·)

/-- From the start of a text to what trimming its ends has left of it. Nothing left
stands on the last line. -/
def ofTrimmed (written value : List Char) : Shift :=
  if value.isEmpty then ⟨written.count '\n', 0⟩ else across ((before? value written).getD [])

end Shift

def Position.shift (p : Position) (s : Shift) : Position where
  line := p.line + s.lines
  column := if 0 < s.lines then s.columns else p.column + s.columns

end HtmlTemplate
