import HtmlTemplate.Source.Position
import HtmlTemplate.Source.Span

/-! Template text and the two coordinate systems on it. The grammars report positions
in lines and columns, the tree speaks of byte offsets in UTF-8; both readings walk
the characters, so a column past its line stops at the newline and an offset inside
a character counts that character. -/

namespace HtmlTemplate

def byteLength : List Char → Nat
  | [] => 0
  | c :: cs => c.utf8Size + byteLength cs

@[simp] theorem byteLength_nil : byteLength [] = 0 := rfl

@[simp] theorem byteLength_cons (c : Char) (cs : List Char) :
    byteLength (c :: cs) = c.utf8Size + byteLength cs := rfl

@[simp] theorem byteLength_append (cs ds : List Char) :
    byteLength (cs ++ ds) = byteLength cs + byteLength ds := by
  induction cs with
  | nil => simp
  | cons c cs ih => simp [ih, Nat.add_assoc]

/-- The characters after the first `n` bytes, if these end between two characters. -/
def dropBytes (n : Nat) : List Char → Option (List Char)
  | [] => if n = 0 then some [] else none
  | c :: cs =>
    if n = 0 then some (c :: cs)
    else if c.utf8Size ≤ n then dropBytes (n - c.utf8Size) cs
    else none

/-- The characters of the first `n` bytes, if these end between two characters. -/
def takeBytes (n : Nat) : List Char → Option (List Char)
  | [] => if n = 0 then some [] else none
  | c :: cs =>
    if n = 0 then some []
    else if c.utf8Size ≤ n then (takeBytes (n - c.utf8Size) cs).map (c :: ·)
    else none

/-- The bytes before a column of the first line, which ends at its newline. -/
def columnOffset (column : Nat) : List Char → Nat
  | [] => 0
  | c :: cs =>
    match column with
    | 0 => 0
    | column + 1 => if c = '\n' then 0 else c.utf8Size + columnOffset column cs

/-- The bytes before a column of the line that `lines` newlines precede. -/
def lineOffset (lines column : Nat) : List Char → Nat
  | [] => 0
  | c :: cs =>
    match lines with
    | 0 => columnOffset column (c :: cs)
    | lines + 1 =>
      c.utf8Size + lineOffset (if c = '\n' then lines else lines + 1) column cs

/-- The position reached by reading every character that starts before byte `n`. -/
def positionFrom (p : Position) (n : Nat) : List Char → Position
  | [] => p
  | c :: cs => if n = 0 then p else positionFrom (p.next c) (n - c.utf8Size) cs

/-- Template text, with the name that diagnostics give it. -/
structure Source where
  text : List Char
  name : Option String := none

namespace Source

def moduleName (s : Source) : String :=
  s.name.getD "an unknown module"

def size (s : Source) : Nat := byteLength s.text

def isEmpty (s : Source) : Bool := s.text.isEmpty

def fullSpan (s : Source) : Span := ⟨0, s.size⟩

/-- The byte offset of a position. A column past the end of its line stands for that
end and a line past the last one for the end of the text. -/
def offsetFor (s : Source) (p : Position) : Nat :=
  lineOffset (p.line - 1) p.column s.text

/-- A location that ends before it starts is empty at its start. -/
def spanFor (s : Source) (l : Location) : Span :=
  let start := s.offsetFor l.start
  ⟨start, max (s.offsetFor l.stop) start⟩

/-- The position of a byte offset; offsets past the end stand for the end. -/
def positionFor (s : Source) (offset : Nat) : Position :=
  positionFrom .first offset s.text

/-- The text of a span, nothing when the span does not lie between characters of
the text. -/
def slice (s : Source) (span : Span) : List Char :=
  if span.start ≤ span.stop then
    ((dropBytes span.start s.text).bind (takeBytes (span.stop - span.start))).getD []
  else []

end Source

end HtmlTemplate
