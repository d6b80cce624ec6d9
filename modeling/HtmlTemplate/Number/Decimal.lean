import HtmlTemplate.Number.Binary64
import HtmlTemplate.Text.Blank

/-! Numbers as decimal text, always positional. Reading takes the nearest number;
writing takes the fewest digits that are read back as the number, and of these the
ones nearest to it. -/

namespace HtmlTemplate.Binary64

def tenTo (n : Nat) : Nat := Nat.pow 10 n

def digitsValue (cs : List Char) : Nat :=
  cs.foldl (fun n c => 10 * n + (c.toNat - '0'.toNat)) 0

/-- The number that digits denote, with or without a sign and a fraction. -/
def ofText (cs : List Char) : Binary64 :=
  let negative := cs.head? == some '-'
  let digits := if negative then cs.drop 1 else cs
  let whole := digits.takeWhile Char.isDigit
  let fraction := (digits.dropWhile Char.isDigit).drop 1
  ofRatio negative (digitsValue (whole ++ fraction)) (tenTo fraction.length)

/-- Decimals are written in units of the last of so many places: the least positive
number starts at place 324 and seventeen digits tell any two numbers apart. -/
def places : Nat := 400

/-- The decimal of `count` digits nearest to a magnitude among those that are read
back as it. A magnitude midway between two takes the larger one. -/
def withDigits? (magnitude count : Nat) : Option Nat :=
  let value := unitsOf magnitude * tenTo places
  let length := (Nat.toDigits 10 (value / twoTo 1074)).length
  let grid := tenTo (length - count)
  let low := value / (twoTo 1074 * grid)
  let reads (digits : Nat) : Bool := magnitudeOf (digits * grid) (tenTo places) == magnitude
  let lowFirst : Bool := 2 * value < (2 * low + 1) * (twoTo 1074 * grid)
  if reads low && (lowFirst || !reads (low + 1)) then some (low * grid)
  else if reads (low + 1) then some ((low + 1) * grid)
  else none

/-- The shortest decimal of a finite magnitude, in units of the last place. -/
def shortest (magnitude : Nat) : Nat :=
  ((List.range 17).findSome? fun n => withDigits? magnitude (n + 1)).getD
    (unitsOf magnitude * tenTo places / twoTo 1074)

def padded (width n : Nat) : List Char :=
  let digits := Nat.toDigits 10 n
  List.replicate (width - digits.length) '0' ++ digits

/-- A decimal given in units of the last place, without needless zeros. -/
def decimalText (n : Nat) : List Char :=
  let whole := Nat.toDigits 10 (n / tenTo places)
  let fraction := n % tenTo places
  if fraction = 0 then whole
  else whole ++ '.' :: Text.dropEndWhile (· == '0') (padded places fraction)

def text (x : Binary64) : List Char :=
  if x.isNaN then ['N', 'a', 'N']
  else
    (if x.negative then ['-'] else [])
      ++ (if x.isFinite then decimalText (shortest x.magnitude) else ['i', 'n', 'f'])

end HtmlTemplate.Binary64
