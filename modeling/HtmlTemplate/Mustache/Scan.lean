import HtmlTemplate.Mustache.Token
import HtmlTemplate.Text.Blank

/-! Template text into tokens. Outside a mustache everything up to the next one is a
single token of text; inside, blanks separate names, literals and punctuation up to
the closing braces. Each token is measured in characters, and positions follow from
the measures alone. -/

namespace HtmlTemplate.Mustache

open Text (isBlank)

/-- Where in the template reading stands. -/
inductive Mode where
  | text
  /-- Inside a mustache, one of three braces if `raw`. -/
  | tag (raw : Bool)
deriving DecidableEq, Repr

/-- A token without its place. -/
structure Lexeme where
  symbol : Symbol
  strip : Strip := {}
  /-- How many characters it takes. -/
  length : Nat
  /-- Where reading goes on. -/
  after : Mode
deriving DecidableEq, Repr

def opens (cs : List Char) : Bool :=
  ['{', '{'].isPrefixOf cs

def escapes (cs : List Char) : Bool :=
  ['\\', '{', '{'].isPrefixOf cs

/-- Two backslashes stand for one before a mustache. -/
def escapesBackslash (cs : List Char) : Bool :=
  ['\\', '\\', '{', '{'].isPrefixOf cs

/-- The text up to the next mustache or escape, and how many characters it takes. -/
def contentText : List Char → List Char × Nat
  | [] => ([], 0)
  | c :: cs =>
    if opens (c :: cs) || escapes (c :: cs) then ([], 0)
    else if escapesBackslash (c :: cs) then (['\\'], 2)
    else
      let (text, n) := contentText cs
      (c :: text, n + 1)

def plainText : List Char → List Char
  | [] => []
  | c :: cs =>
    if opens (c :: cs) || escapes (c :: cs) || escapesBackslash (c :: cs) then []
    else c :: plainText cs

def contentLexeme (cs : List Char) : Lexeme :=
  let (text, n) := contentText cs
  { symbol := .content text, length := n, after := .text }

/-- The braces that a backslash has escaped, and the text after them. -/
def escapedLexeme (cs : List Char) : Lexeme :=
  let text := cs.take 2 ++ plainText (cs.drop 2)
  { symbol := .content text, length := text.length, after := .text }

/-- How many characters there are up to the end of the first of some closing texts. -/
def throughFirst (ends : List (List Char)) : List Char → Option Nat
  | [] => none
  | c :: cs =>
    match ends.find? (·.isPrefixOf (c :: cs)) with
    | some e => some e.length
    | none => (throughFirst ends cs).map (· + 1)

/-- How many characters a comment takes from its `!` on. Between dashes it may hold
closing braces. -/
def commentLength? (cs : List Char) : Option Nat :=
  if ['!', '-', '-'].isPrefixOf cs then
    (throughFirst [['-', '-', '}', '}'], ['-', '-', '~', '}', '}']] (cs.drop 3)).map (· + 3)
  else throughFirst [['}', '}']] cs

/-- Closing braces, after blanks: whether they are marked and how many characters
they take. -/
def closing? (cs : List Char) : Option (Bool × Nat) :=
  let blanks := (cs.takeWhile isBlank).length
  let rest := cs.dropWhile isBlank
  if ['~', '}', '}'].isPrefixOf rest then some (true, blanks + 3)
  else if ['}', '}'].isPrefixOf rest then some (false, blanks + 2)
  else none

def startsElse (cs : List Char) : Bool :=
  "else".toList.isPrefixOf cs
    && (cs.drop 4).head?.all fun c => isBlank c || c == '~' || c == '}'

def openLexeme (cs : List Char) : Except Fault Lexeme :=
  let marked := (cs.drop 2).head? == some '~'
  let lead := if marked then 3 else 2
  let rest := cs.drop lead
  let opener (o : Opener) (n : Nat) : Lexeme :=
    { symbol := .opener o, strip := { opening := marked }, length := lead + n
      after := .tag (o == .raw) }
  let elseTag (n : Nat) (closing : Bool × Nat) : Lexeme :=
    { symbol := .elseTag, strip := ⟨marked, closing.1⟩, length := lead + n + closing.2
      after := .text }
  match rest with
  | '{' :: _ => .ok (opener .raw 1)
  | '&' :: _ => .ok (opener .ampersand 1)
  | '!' :: _ =>
    match commentLength? rest with
    | some n =>
      .ok { symbol := .comment (cs.take (lead + n)), length := lead + n, after := .text }
    | none => .error .unclosedComment
  | '#' :: '>' :: _ => .ok (opener .partialBlock 2)
  | '#' :: '*' :: _ => .ok (opener .decoratorBlock 2)
  | '#' :: _ => .ok (opener .block 1)
  | '/' :: _ => .ok (opener .endBlock 1)
  | '^' :: rest => .ok ((closing? rest).elim (opener .inverse 1) (elseTag 1))
  | '>' :: _ => .ok (opener .partialCall 1)
  | '*' :: _ => .ok (opener .decorator 1)
  | _ =>
    let blanks := (rest.takeWhile isBlank).length
    let word := rest.dropWhile isBlank
    if startsElse word then
      .ok ((closing? (word.drop 4)).elim (opener .elseChain (blanks + 4)) (elseTag (blanks + 4)))
    else .ok (opener .escaped 0)

def isNameChar (c : Char) : Bool :=
  !isBlank c && !"!\"#%&'()*+,./;<=>@[\\]^`\x7b|\x7d~".toList.contains c

/-- Whether a `.` may be a whole segment before the character. -/
def endsSegment (c : Char) : Bool :=
  isBlank c || ['=', '~', '}', '/', '.', ')', '|'].contains c

def endsLiteral (c : Char) : Bool :=
  isBlank c || ['~', '}', ')'].contains c

/-- The text up to a closing character, where a backslash keeps the characters of a
class from being read as what they are, and how many characters it takes. -/
def enclosedText? (close : Char) (escaped : Char → Bool) : List Char → Option (List Char × Nat)
  | [] => none
  | c :: cs =>
    if c = close then some ([], 1)
    else
      match cs with
      | d :: ds =>
        if c = '\\' && escaped d then
          (enclosedText? close escaped ds).map fun (text, n) => (d :: text, n + 2)
        else (enclosedText? close escaped (d :: ds)).map fun (text, n) => (c :: text, n + 1)
      | [] => none

/-- A number, if one stands in front and is not part of a name. -/
def numberText? (cs : List Char) : Option (List Char) :=
  let sign := if cs.head? == some '-' then ['-'] else []
  let digits := (cs.drop sign.length).takeWhile Char.isDigit
  let rest := (cs.drop sign.length).dropWhile Char.isDigit
  let decimals := (rest.drop 1).takeWhile Char.isDigit
  let fraction := if rest.head? == some '.' && !decimals.isEmpty then '.' :: decimals else []
  if !digits.isEmpty && (rest.drop fraction.length).head?.all endsLiteral then
    some (sign ++ digits ++ fraction)
  else none

/-- How many characters `as |` takes, if it stands in front. -/
def paramsLength? (cs : List Char) : Option Nat :=
  let rest := cs.drop 2
  let blanks := (rest.takeWhile isBlank).length
  if ['a', 's'].isPrefixOf cs && 0 < blanks && (rest.dropWhile isBlank).head? == some '|' then
    some (blanks + 3)
  else none

/-- What a word stands for that nothing but the end of a literal follows. -/
def keyword? (word : List Char) : Option Literal :=
  if word = "true".toList then some (.boolean true)
  else if word = "false".toList then some (.boolean false)
  else if word = "undefined".toList then some .undefined
  else if word = "null".toList then some .null
  else none

def wordSymbol (word rest : List Char) : Symbol :=
  match keyword? word with
  | some l => if rest.head?.all endsLiteral then .literal l else .name word false
  | none => .name word false

/-- A name, a keyword, a number or the start of block parameters. -/
def wordLexeme? (raw : Bool) (cs : List Char) : Option Lexeme :=
  match paramsLength? cs with
  | some n => some { symbol := .openParams, length := n, after := .tag raw }
  | none =>
    match numberText? cs with
    | some text =>
      some { symbol := .literal (.number (.ofText text) text), length := text.length
             after := .tag raw }
    | none =>
      let word := cs.takeWhile isNameChar
      if word.isEmpty then none
      else
        some { symbol := wordSymbol word (cs.dropWhile isNameChar), length := word.length
               after := .tag raw }

/-- Closing braces, three of them after three opening ones. -/
def closeLexeme? (raw : Bool) (cs : List Char) : Option Lexeme :=
  if raw && ['}', '~', '}', '}'].isPrefixOf cs then
    some { symbol := .closeRaw, strip := { closing := true }, length := 4, after := .text }
  else if raw && ['}', '}', '}'].isPrefixOf cs then
    some { symbol := .closeRaw, length := 3, after := .text }
  else if ['~', '}', '}'].isPrefixOf cs then
    some { symbol := .close, strip := { closing := true }, length := 3, after := .text }
  else if ['}', '}'].isPrefixOf cs then
    some { symbol := .close, length := 2, after := .text }
  else none

def tagLexeme (raw : Bool) (cs : List Char) : Except Fault Lexeme :=
  let one (symbol : Symbol) (n : Nat) : Except Fault Lexeme :=
    .ok { symbol, length := n, after := .tag raw }
  match cs with
  | [] => .error .unclosedMustache
  | c :: rest =>
    if c = '}' || c = '~' then
      match closeLexeme? raw cs with
      | some l => .ok l
      | none => .error (.unexpectedCharacter c)
    else if c = '(' then one .openCall 1
    else if c = ')' then one .closeCall 1
    else if c = '=' then one .equals 1
    else if c = '|' then one .closeParams 1
    else if c = '@' then one .data 1
    else if c = '/' then one (.separator true) 1
    else if c = '.' then
      if rest.head? == some '.' then one (.name ['.', '.'] false) 2
      else if rest.head?.all endsSegment then one (.name ['.'] false) 1
      else one (.separator false) 1
    else if c = '"' || c = '\'' then
      match enclosedText? c (· == c) rest with
      | some (text, n) => one (.literal (.string text)) (n + 1)
      | none => .error .unclosedString
    else if c = '[' then
      match enclosedText? ']' (fun d => d == ']' || d == '\\') rest with
      | some (text, n) => one (.name text true) (n + 1)
      | none => .error .unclosedSegment
    else
      match wordLexeme? raw cs with
      | some l => .ok l
      | none => .error (.unexpectedCharacter c)

/-- How many characters are passed over before a token: blanks inside a mustache,
and outside the backslash that escapes one. -/
def leadLength (mode : Mode) (cs : List Char) : Nat :=
  match mode with
  | .text => if escapes cs then 1 else 0
  | .tag _ => (cs.takeWhile isBlank).length

def lexeme (mode : Mode) (cs : List Char) : Except Fault Lexeme :=
  let rest := cs.drop (leadLength mode cs)
  match mode with
  | .text =>
    if opens cs then openLexeme cs
    else if escapes cs then .ok (escapedLexeme rest)
    else .ok (contentLexeme cs)
  | .tag raw => tagLexeme raw rest

/-- The tokens of a text whose first `skip` characters have been read already. The
last one is the end of the input, which is no place inside a mustache. -/
def scanAfter (mode : Mode) (p : Position) (skip : Nat) :
    List Char → Except ParseError (List Token)
  | [] =>
    match mode with
    | .text => .ok [{ symbol := .endOfInput, loc := ⟨p, p⟩ }]
    | .tag _ => .error ⟨.unclosedMustache, p⟩
  | c :: cs =>
    match skip with
    | skip + 1 => scanAfter mode p skip cs
    | 0 =>
      let lead := leadLength mode (c :: cs)
      let start := p.after ((c :: cs).take lead)
      match lexeme mode (c :: cs) with
      | .error fault => .error ⟨fault, start⟩
      | .ok l =>
        let stop := start.after (((c :: cs).drop lead).take l.length)
        (scanAfter l.after stop (lead + l.length - 1) cs).map
          ({ symbol := l.symbol, loc := ⟨start, stop⟩, strip := l.strip } :: ·)

def scan (text : List Char) : Except ParseError (List Token) :=
  scanAfter .text .first 0 text

end HtmlTemplate.Mustache
