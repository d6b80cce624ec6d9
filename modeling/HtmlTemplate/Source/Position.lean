/-! Positions in template text: a line counted from one and a column counted in
characters from zero. Reading a character moves a position forward by one column,
or to the start of the next line. -/

namespace HtmlTemplate

structure Position where
  line : Nat := 1
  column : Nat := 0
deriving DecidableEq, Repr, Inhabited

namespace Position

def first : Position := {}

def next (p : Position) (c : Char) : Position :=
  if c = '\n' then ⟨p.line + 1, 0⟩ else ⟨p.line, p.column + 1⟩

def after (p : Position) (cs : List Char) : Position :=
  cs.foldl next p

@[simp] theorem after_nil (p : Position) : p.after [] = p := rfl

@[simp] theorem after_cons (p : Position) (c : Char) (cs : List Char) :
    p.after (c :: cs) = (p.next c).after cs := rfl

theorem after_append (p : Position) (cs ds : List Char) :
    p.after (cs ++ ds) = (p.after cs).after ds :=
  List.foldl_append

end Position

/-- A stretch of text between two positions. -/
structure Location where
  start : Position
  stop : Position
deriving DecidableEq, Repr, Inhabited

namespace Location

/-- Lines count from one, so a location on line zero stands for no text at all. -/
def isNowhere (l : Location) : Bool :=
  l.start.line == 0

end Location

end HtmlTemplate
