/-! Binary floating point in 64 bits. A number is kept as its sign and the 63 bits
below it, which order the magnitudes; all arithmetic is exact on naturals, counting
in units of the least positive number. -/

namespace HtmlTemplate

def twoTo (n : Nat) : Nat := Nat.pow 2 n

@[simp] theorem twoTo_zero : twoTo 0 = 1 := rfl

theorem twoTo_succ (n : Nat) : twoTo (n + 1) = twoTo n * 2 := rfl

structure Binary64 where
  negative : Bool
  /-- The exponent and the fraction, as one word. -/
  magnitude : Nat
  bounded : magnitude < twoTo 63
deriving DecidableEq, Repr

/-- The quotient to the nearest integer, a half to the even neighbour. -/
def roundDiv (n d : Nat) : Nat :=
  let q := n / d
  let r := n % d
  if 2 * r < d then q else if d < 2 * r then q + 1 else q + q % 2

namespace Binary64

def ofBits (bits : Nat) : Binary64 where
  negative := bits / twoTo 63 % 2 = 1
  magnitude := bits % twoTo 63
  bounded := Nat.mod_lt _ (by decide)

def bits (x : Binary64) : Nat :=
  (if x.negative then twoTo 63 else 0) + x.magnitude

/-- The magnitude of the infinities; larger ones stand for no number. -/
def infinite : Nat := 2047 * twoTo 52

def isNaN (x : Binary64) : Bool := infinite < x.magnitude

def isFinite (x : Binary64) : Bool := x.magnitude < infinite

/-- How many times the least positive number a magnitude is. -/
def unitsOf (magnitude : Nat) : Nat :=
  let exponent := magnitude / twoTo 52
  let fraction := magnitude % twoTo 52
  if exponent = 0 then fraction else (twoTo 52 + fraction) * twoTo (exponent - 1)

/-- The magnitude nearest to a ratio, a half going to the even neighbour. A significand
that rounds up to two to the 53 carries into the exponent, and what is too large for every
finite number is infinite. -/
def magnitudeOf (num den : Nat) : Nat :=
  let units := num * twoTo 1074
  let shift := (units / den).log2 - 52
  min (shift * twoTo 52 + roundDiv units (den * twoTo shift)) infinite

def ofRatio (negative : Bool) (num den : Nat) : Binary64 where
  negative
  magnitude := magnitudeOf num den
  bounded := Nat.lt_of_le_of_lt (Nat.min_le_right _ _) (by decide)

/-- Equality of numbers: the zeros are equal and what is no number equals nothing. -/
def sameNumber (x y : Binary64) : Bool :=
  !x.isNaN && !y.isNaN && (x == y || (x.magnitude == 0 && y.magnitude == 0))

end Binary64

end HtmlTemplate
