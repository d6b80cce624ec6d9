/-! Character references: decimal and hexadecimal numbers, and the names that occur
in templates written by hand. Everything else stays as it is. -/

namespace HtmlTemplate.Html.Reference

def named : List (List Char × Char) :=
  [("amp", '&'), ("lt", '<'), ("gt", '>'), ("quot", '"'), ("apos", '\''), ("nbsp", '\u00a0'),
    ("copy", '\u00a9'), ("reg", '\u00ae'), ("trade", '\u2122'), ("hellip", '\u2026'),
    ("mdash", '\u2014'), ("ndash", '\u2013'), ("lsquo", '\u2018'), ("rsquo", '\u2019'),
    ("ldquo", '\u201c'), ("rdquo", '\u201d'), ("laquo", '\u00ab'), ("raquo", '\u00bb'),
    ("middot", '\u00b7'), ("bull", '\u2022'), ("times", '\u00d7'), ("divide", '\u00f7'),
    ("plusmn", '\u00b1'), ("deg", '\u00b0'), ("sect", '\u00a7'), ("para", '\u00b6'),
    ("cent", '\u00a2'), ("pound", '\u00a3'), ("yen", '\u00a5'), ("euro", '\u20ac')].map
    fun (name, c) => (name.toList, c)

/-- The value of a hexadecimal digit in either case, decimal digits included. -/
def digitValue (c : Char) : Nat :=
  if c.isDigit then c.toNat - '0'.toNat
  else if c.isLower then c.toNat - 'a'.toNat + 10
  else c.toNat - 'A'.toNat + 10

def isHexDigit (c : Char) : Bool :=
  c.isDigit || ('a' ≤ c && c ≤ 'f') || ('A' ≤ c && c ≤ 'F')

/-- The numbers below this one fit into 32 bits, in which code points are read. -/
def wordSize : Nat := 0x100000000

def appendDigit? (base n : Nat) (c : Char) : Option Nat :=
  let more := base * n + digitValue c
  if more < wordSize then some more else none

/-- The number that some digits are written for, if it fits. -/
def valueIn? (base : Nat) (digits : List Char) : Option Nat :=
  digits.foldlM (appendDigit? base) 0

/-- The character of a code point, none for surrogates and beyond the last plane. -/
def scalar? (n : Nat) : Option Char :=
  if h : n.isValidChar then some (Char.ofNatAux n h) else none

def numeric? (digits : List Char) : Option Char :=
  match digits with
  | [] => none
  | d :: ds =>
    if d = 'x' || d = 'X' then
      if !ds.isEmpty && ds.all isHexDigit then (valueIn? 16 ds).bind scalar? else none
    else if (d :: ds).all Char.isDigit then (valueIn? 10 (d :: ds)).bind scalar?
    else none

/-- The character that the text between `&` and `;` stands for. -/
def body? (body : List Char) : Option Char :=
  match body with
  | '#' :: digits => numeric? digits
  | _ => named.lookup body

/-- A reference ends within so many characters after its `&`. -/
def maxLength : Nat := 32

/-- Decodes the reference that follows a `&`: its character and how many characters
it takes, the `;` included. -/
def decode? (cs : List Char) : Option (Char × Nat) :=
  let body := (cs.take maxLength).takeWhile (· != ';')
  if body.length < min maxLength cs.length then
    (body? body).map fun c => (c, body.length + 1)
  else none

end HtmlTemplate.Html.Reference
