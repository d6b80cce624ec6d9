import HtmlTemplate.Mustache.Scan
import HtmlTemplate.Mustache.Tree

/-! Tokens into the tree of mustaches, by recursive descent. Every reader returns the
tokens it leaves together with the proof that it has used some, which is what its
loops and its recursion end by. The text of the tree is as written: whitespace
control comes after. -/

namespace HtmlTemplate.Mustache

/-- A value read from the front of a list of tokens. -/
structure Parsed (ts : List Token) (α : Type) where
  value : α
  rest : List Token
  shorter : rest.length < ts.length

/-- A value for which there may be no tokens to read. -/
structure ParsedAny (ts : List Token) (α : Type) where
  value : α
  rest : List Token
  noLonger : rest.length ≤ ts.length

def unread (value : α) (ts : List Token) : ParsedAny ts α :=
  ⟨value, ts, Nat.le_refl _⟩

def readOne (value : α) (t : Token) (ts : List Token) : Parsed (t :: ts) α :=
  ⟨value, ts, Nat.lt_succ_self _⟩

/-- The next token; after the last one the input stays at its end. -/
def peek (ts : List Token) : Token :=
  ts.head?.getD { symbol := .endOfInput, loc := ⟨.first, .first⟩ }

def faultAt (p : Position) (fault : Fault) : Except ParseError α :=
  .error ⟨fault, p⟩

def unexpected (what : String) (ts : List Token) : Except ParseError α :=
  faultAt (peek ts).loc.start (.expected what (peek ts).symbol)

def expect (s : Symbol) : (ts : List Token) → Except ParseError (Parsed ts Token)
  | [] => unexpected s.describe []
  | t :: ts =>
    if t.symbol = s then .ok (readOne t t ts) else unexpected s.describe (t :: ts)

def isPathKeyword (text : List Char) : Bool :=
  text == "..".toList || text == ".".toList || text == "this".toList

/-- A path with one more segment. Keywords come before all names. -/
def Path.extend (p : Path) (text : List Char) (bracketed : Bool) (stop : Position) :
    Except ParseError Path :=
  let written := p.written ++ text
  let loc : Location := ⟨p.loc.start, stop⟩
  if !bracketed && isPathKeyword text then
    if p.parts.isEmpty then
      let depth := if text == "..".toList then p.depth + 1 else p.depth
      .ok { p with depth, written, loc }
    else faultAt p.loc.start (.invalidPath written)
  else .ok { p with parts := p.parts ++ [text], written, loc }

/-- A path after a segment, with all segments that separators join to it. -/
def segments (p : Path) : (ts : List Token) → Except ParseError (ParsedAny ts Path)
  | sep :: name :: ts =>
    match sep.symbol, name.symbol with
    | .separator slash, .name text bracketed => do
      let joined := { p with written := p.written ++ [if slash then '/' else '.'] }
      let p ← joined.extend text bracketed name.loc.stop
      let ⟨p, rest, h⟩ ← segments p ts
      return ⟨p, rest, by simp only [List.length_cons]; omega⟩
    | _, _ => .ok (unread p (sep :: name :: ts))
  | ts => .ok (unread p ts)

def pathFrom (p : Path) (ts : List Token) : Except ParseError (ParsedAny ts Expression) :=
  match ts with
  | [] => .ok (unread (.path p) [])
  | t :: ts =>
    match t.symbol with
    | .name text bracketed => do
      let p ← p.extend text bracketed t.loc.stop
      let ⟨p, rest, h⟩ ← segments p ts
      return ⟨.path p, rest, by simp only [List.length_cons]; omega⟩
    | _ => .ok (unread (.path p) (t :: ts))

def namePath (t : Token) (text : List Char) (bracketed : Bool) (ts : List Token) :
    Except ParseError (ParsedAny ts Expression) := do
  let p ← Path.extend ⟨false, 0, [], [], t.loc⟩ text bracketed t.loc.stop
  let ⟨p, rest, h⟩ ← segments p ts
  return ⟨.path p, rest, h⟩

def startsPair : List Token → Bool
  | key :: eq :: _ =>
    match key.symbol, eq.symbol with
    | .name .., .equals => true
    | _, _ => false
  | _ => false

def endsParams (ts : List Token) : Bool :=
  match (peek ts).symbol with
  | .close | .closeRaw | .closeCall | .openParams | .endOfInput => true
  | _ => startsPair ts

def Hash.ofPairs? (pairs : List (Pair Expression)) : Option (Hash Expression) :=
  match pairs.head?, pairs.getLast? with
  | some first, some last => some ⟨pairs, ⟨first.loc.start, last.loc.stop⟩⟩
  | _, _ => none

mutual

def expression (ts : List Token) : Except ParseError (Parsed ts Expression) :=
  match ts with
  | [] => unexpected "an expression" []
  | t :: ts =>
    match t.symbol with
    | .openCall => do
      let ⟨c, rest, h⟩ ← call ts
      let ⟨closer, rest, h'⟩ ← expect .closeCall rest
      return ⟨.call c ⟨t.loc.start, closer.loc.stop⟩, rest, by simp only [List.length_cons]; omega⟩
    | .name text bracketed => do
      let ⟨e, rest, h⟩ ← namePath t text bracketed ts
      return ⟨e, rest, by simp only [List.length_cons]; omega⟩
    | .data => do
      let ⟨e, rest, h⟩ ← pathFrom ⟨true, 0, [], ['@'], t.loc⟩ ts
      return ⟨e, rest, by simp only [List.length_cons]; omega⟩
    | .literal l => .ok (readOne (.literal l t.loc) t ts)
    | _ => unexpected "an expression" (t :: ts)
termination_by (ts.length, 0)

def call (ts : List Token) : Except ParseError (Parsed ts (Call Expression)) := do
  let ⟨callee, rest₁, h₁⟩ ← expression ts
  let ⟨params, rest₂, h₂⟩ ← params rest₁
  let ⟨pairs, rest₃, h₃⟩ ← pairs rest₂
  return ⟨⟨callee, params, Hash.ofPairs? pairs⟩, rest₃, by omega⟩
termination_by (ts.length, 1)

def params (ts : List Token) : Except ParseError (ParsedAny ts (List Expression)) := do
  if endsParams ts then return unread [] ts
  let ⟨e, rest₁, h₁⟩ ← expression ts
  let ⟨es, rest₂, h₂⟩ ← params rest₁
  return ⟨e :: es, rest₂, by omega⟩
termination_by (ts.length, 1)

def pairs (ts : List Token) : Except ParseError (ParsedAny ts (List (Pair Expression))) :=
  match ts with
  | key :: eq :: ts =>
    match key.symbol, eq.symbol with
    | .name text _, .equals => do
      let ⟨value, rest₁, h₁⟩ ← expression ts
      let ⟨more, rest₂, h₂⟩ ← pairs rest₁
      let pair : Pair Expression := ⟨text, value, ⟨key.loc.start, value.loc.stop⟩⟩
      return ⟨pair :: more, rest₂,
      by simp only [List.length_cons]; omega⟩
    | _, _ => .ok (unread [] (key :: eq :: ts))
  | ts => .ok (unread [] ts)
termination_by (ts.length, 0)

end

/-- A `{{#name params hash as |x|}}` or `{{else name …}}`. -/
structure Head where
  call : Call Expression
  params : List (List Char)
  strip : Strip
  start : Position

/-- A `{{/name}}`. -/
structure Closer where
  strip : Strip
  start : Position
  stop : Position

def tagStrip (opener closer : Token) : Strip :=
  ⟨opener.strip.opening, closer.strip.closing⟩

def names : (ts : List Token) → ParsedAny ts (List (List Char))
  | [] => unread [] []
  | t :: ts =>
    match t.symbol with
    | .name text _ =>
      let ⟨more, rest, h⟩ := names ts
      ⟨text :: more, rest, by simp only [List.length_cons]; omega⟩
    | _ => unread [] (t :: ts)

def blockParams (ts : List Token) : Except ParseError (ParsedAny ts (List (List Char))) :=
  match ts with
  | [] => .ok (unread [] [])
  | t :: ts =>
    if t.symbol = .openParams then do
      let ⟨params, rest₁, h₁⟩ := names ts
      if params.isEmpty then unexpected "a block parameter name" rest₁
      let ⟨_, rest₂, h₂⟩ ← expect .closeParams rest₁
      return ⟨params, rest₂,
      by simp only [List.length_cons]; omega⟩
    else .ok (unread [] (t :: ts))

/-- The head of a block or section after its opening token. -/
def head (opener : Token) (ts : List Token) : Except ParseError (Parsed ts Head) := do
  let ⟨call, rest₁, h₁⟩ ← call ts
  let ⟨params, rest₂, h₂⟩ ← blockParams rest₁
  let ⟨closer, rest₃, h₃⟩ ← expect .close rest₂
  return ⟨⟨call, params, tagStrip opener closer, opener.loc.start⟩, rest₃, by omega⟩

/-- The end of a block, which repeats what the block is called. -/
def closer (opened : Head) : (ts : List Token) → Except ParseError (Parsed ts Closer)
  | [] =>
    faultAt (peek []).loc.start
      (.unclosedBlock opened.call.callee.written opened.start.line (peek []).symbol)
  | t :: ts => do
    let name := opened.call.callee.written
    if t.symbol ≠ .opener .endBlock then
      faultAt t.loc.start (.unclosedBlock name opened.start.line t.symbol)
    let ⟨callee, rest₁, h₁⟩ ← expression ts
    let ⟨closer, rest₂, h₂⟩ ← expect .close rest₁
    if callee.written ≠ name then
      faultAt opened.call.callee.loc.start (.mismatchedClose name callee.written)
    return ⟨⟨tagStrip t closer, t.loc.start, closer.loc.stop⟩, rest₂,
      by simp only [List.length_cons]; omega⟩

def interpolation (opener : Token) (ts : List Token) :
    Except ParseError (Parsed ts Interpolation) := do
  let ⟨call, rest₁, h₁⟩ ← call ts
  let ending : Symbol := if opener.symbol = .opener .raw then .closeRaw else .close
  let ⟨closer, rest₂, h₂⟩ ← expect ending rest₁
  let escaped : Bool := opener.symbol ≠ .opener .raw && opener.symbol ≠ .opener .ampersand
  return ⟨⟨call, escaped, tagStrip opener closer, ⟨opener.loc.start, closer.loc.stop⟩⟩, rest₂,
    by omega⟩

def partialCall (opener : Token) (ts : List Token) :
    Except ParseError (Parsed ts PartialCall) := do
  let ⟨call, rest₁, h₁⟩ ← call ts
  let ⟨closer, rest₂, h₂⟩ ← expect .close rest₁
  return ⟨⟨call, [], tagStrip opener closer, ⟨opener.loc.start, closer.loc.stop⟩⟩, rest₂,
    by omega⟩

/-- A marker is the character between the braces and the rest on either side. -/
def commentStrip (written : List Char) : Strip :=
  ⟨(written.drop 2).head? == some '~', (written.reverse.drop 2).head? == some '~'⟩

def dropEndIf (c : Char) (cs : List Char) : List Char :=
  (Text.dropIf c cs.reverse).reverse

/-- The comment without its braces and markers, and without two dashes at either end. -/
def commentValue (written : List Char) : List Char :=
  let inner := Text.dropIf '!' (Text.dropIf '~' (written.drop 2))
  let inner := Text.dropIf '-' (Text.dropIf '-' inner)
  let inner := dropEndIf '~' (inner.take (inner.length - 2))
  dropEndIf '-' (dropEndIf '-' inner)

def endsBody (ts : List Token) : Bool :=
  match (peek ts).symbol with
  | .endOfInput | .opener .endBlock | .elseTag | .opener .elseChain => true
  | _ => false

/-- The sections of a block after its first one. -/
structure Sections where
  chain : List (Head × List Statement) := []
  last : Option (Strip × List Statement) := none

/-- The inverse that the sections make up, with the markers of the tag that opens it.
Each `{{else if}}` is a block of its own in the inverse of the one before, and ends
where the closing tag starts. The markers of the closing tag count for the first of
them, those of the next section's tag for the others. -/
def Sections.inverse? (closer : Closer) (last : Option (Strip × List Statement)) (first : Bool) :
    List (Head × List Statement) → Option (Strip × Program Statement)
  | [] => last.map fun (strip, body) => (strip, { body })
  | (head, body) :: more =>
    let inverse := inverse? closer last false more
    let inverseStrip := inverse.elim {} (·.1)
    let block : Block Statement :=
      { call := head.call
        program := some { body, params := head.params }
        inverse := inverse.map (·.2)
        openStrip := head.strip
        inverseStrip
        closeStrip := if first then closer.strip else inverseStrip
        loc := ⟨head.start, closer.start⟩ }
    some (head.strip, { body := [.block block], chained := true })

/-- A block from its parts. In an inverse block the first section is the inverse. -/
def Block.ofSections (head : Head) (inverted : Bool) (body : List Statement)
    (sections : Sections) (closer : Closer) : Block Statement :=
  let main : Program Statement := { body, params := head.params }
  let inverse := Sections.inverse? closer sections.last true sections.chain
  { call := head.call
    program := if inverted then inverse.map (·.2) else some main
    inverse := if inverted then some main else inverse.map (·.2)
    openStrip := head.strip
    inverseStrip := inverse.elim {} (·.1)
    closeStrip := closer.strip
    loc := ⟨head.start, closer.stop⟩ }

mutual

def statements (ts : List Token) : Except ParseError (ParsedAny ts (List Statement)) := do
  if endsBody ts then return unread [] ts
  let ⟨s, rest₁, h₁⟩ ← statement ts
  let ⟨ss, rest₂, h₂⟩ ← statements rest₁
  return ⟨s :: ss, rest₂, by omega⟩
termination_by (ts.length, 1)

def statement (ts : List Token) : Except ParseError (Parsed ts Statement) :=
  match ts with
  | [] => unexpected "a statement" []
  | t :: ts =>
    match t.symbol with
    | .content text =>
      .ok (readOne (.content { value := text, written := text, loc := t.loc }) t ts)
    | .comment text =>
      .ok (readOne (.comment ⟨commentValue text, commentStrip text, t.loc⟩) t ts)
    | .opener .escaped | .opener .raw | .opener .ampersand => do
      let ⟨m, rest, h⟩ ← interpolation t ts
      return ⟨.mustache m, rest, by simp only [List.length_cons]; omega⟩
    | .opener .decorator => do
      let ⟨m, rest, h⟩ ← interpolation t ts
      return ⟨.decorator m, rest, by simp only [List.length_cons]; omega⟩
    | .opener .partialCall => do
      let ⟨p, rest, h⟩ ← partialCall t ts
      return ⟨.partialCall p, rest, by simp only [List.length_cons]; omega⟩
    | .opener .block | .opener .inverse => do
      let ⟨head, rest₁, h₁⟩ ← head t ts
      let ⟨first, rest₂, h₂⟩ ← statements rest₁
      let inverted : Bool := t.symbol = .opener .inverse
      let ⟨more, rest₃, h₃⟩ ← sections inverted rest₂
      let ⟨closer, rest₄, h₄⟩ ← closer head rest₃
      return ⟨.block (.ofSections head inverted first more closer), rest₄,
        by simp only [List.length_cons]; omega⟩
    | .opener .decoratorBlock => do
      let ⟨head, rest₁, h₁⟩ ← head t ts
      let ⟨first, rest₂, h₂⟩ ← statements rest₁
      let ⟨more, rest₃, h₃⟩ ← sections false rest₂
      let ⟨closer, rest₄, h₄⟩ ← closer head rest₃
      if more.last.isSome || !more.chain.isEmpty then
        faultAt head.start .inverseOfDecorator
      return ⟨.decoratorBlock (.ofSections head false first more closer), rest₄,
        by simp only [List.length_cons]; omega⟩
    | .opener .partialBlock => do
      let ⟨head, rest₁, h₁⟩ ← head t ts
      let ⟨first, rest₂, h₂⟩ ← statements rest₁
      let ⟨closer, rest₃, h₃⟩ ← closer head rest₂
      let block : PartialBlock Statement :=
        { call := head.call, program := { body := first }, openStrip := head.strip
          closeStrip := closer.strip, loc := ⟨head.start, closer.stop⟩ }
      return ⟨.partialBlock block, rest₃, by simp only [List.length_cons]; omega⟩
    | _ => unexpected "a statement" (t :: ts)
termination_by (ts.length, 0)

def sections (inverted : Bool) (ts : List Token) :
    Except ParseError (ParsedAny ts Sections) :=
  match ts with
  | [] => .ok (unread {} [])
  | t :: ts =>
    match t.symbol with
    | .opener .elseChain => do
      if inverted then faultAt t.loc.start .elseIfInInverse
      let ⟨head, rest₁, h₁⟩ ← head t ts
      let ⟨first, rest₂, h₂⟩ ← statements rest₁
      let ⟨more, rest₃, h₃⟩ ← sections inverted rest₂
      return ⟨{ more with chain := (head, first) :: more.chain }, rest₃,
        by simp only [List.length_cons]; omega⟩
    | .elseTag => do
      let ⟨last, rest, h⟩ ← statements ts
      return ⟨⟨[], some (t.strip, last)⟩, rest, by simp only [List.length_cons]; omega⟩
    | _ => .ok (unread {} (t :: ts))
termination_by (ts.length, 0)

end

def Program.ofTokens (ts : List Token) : Except ParseError (Program Statement) := do
  let ⟨body, rest, _⟩ ← statements ts
  match (peek rest).symbol with
  | .endOfInput => return { body }
  | .opener .endBlock => faultAt (peek rest).loc.start .closeWithoutOpen
  | .elseTag | .opener .elseChain => faultAt (peek rest).loc.start .elseOutsideBlock
  | _ => unexpected "a statement" rest

end HtmlTemplate.Mustache
