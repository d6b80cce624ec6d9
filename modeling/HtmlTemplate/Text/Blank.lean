/-! White space and trimming. Blank characters are those with the White_Space
property; a content line is indented by spaces and tabs only. -/

namespace HtmlTemplate.Text

def isBlank (c : Char) : Bool :=
  let n := c.toNat
  (9 ≤ n && n ≤ 13) || n == 32 || n == 0x85 || n == 0xA0 || n == 0x1680
    || (0x2000 ≤ n && n ≤ 0x200A) || n == 0x2028 || n == 0x2029 || n == 0x202F
    || n == 0x205F || n == 0x3000

def isIndent (c : Char) : Bool :=
  c == ' ' || c == '\t'

/-- The text without the characters of a class at its end. -/
def dropEndWhile (p : Char → Bool) (cs : List Char) : List Char :=
  (cs.reverse.dropWhile p).reverse

def takeEndWhile (p : Char → Bool) (cs : List Char) : List Char :=
  (cs.reverse.takeWhile p).reverse

theorem dropEndWhile_append_takeEndWhile (p : Char → Bool) (cs : List Char) :
    dropEndWhile p cs ++ takeEndWhile p cs = cs := by
  rw [dropEndWhile, takeEndWhile, ← List.reverse_append, List.takeWhile_append_dropWhile,
    List.reverse_reverse]

def trimStart (cs : List Char) : List Char :=
  cs.dropWhile isBlank

def trimEnd (cs : List Char) : List Char :=
  dropEndWhile isBlank cs

def dropIf (c : Char) : List Char → List Char
  | [] => []
  | d :: ds => if d = c then ds else d :: ds

/-- The text without the rest of a line that holds only an indent and its line end. -/
def dropBlankLine (cs : List Char) : List Char :=
  dropIf '\n' (dropIf '\r' (cs.dropWhile isIndent))

def endIndent (cs : List Char) : List Char :=
  takeEndWhile isIndent cs

/-- The text without the spaces and tabs that it ends with. -/
def dropEndIndent (cs : List Char) : List Char :=
  dropEndWhile isIndent cs

end HtmlTemplate.Text
