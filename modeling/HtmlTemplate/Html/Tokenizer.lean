import HtmlTemplate.Html.Event
import HtmlTemplate.Html.Reference
import HtmlTemplate.Html.State
import HtmlTemplate.Text.Letter

/-! The state machine that reads HTML text. Text may come in chunks: between two of
them the state can be seen and changed and the position moved. A chunk is read
character by character, and each event comes with the machine as it stood when the
event was reported, which is where it stays if the listener refuses the event. -/

namespace HtmlTemplate.Html

structure Tokenizer where
  mode : Mode := .precompile
  state : State := .beforeData
  position : Position := {}
  /-- The `<` of the tag or comment read last. -/
  tagStart : Position := {}
  /-- The name of the tag read last, for as long as it rules how text is read. -/
  tagName : List Char := []
deriving DecidableEq, Repr, Inhabited

structure Emission where
  event : Event
  /-- The machine that reports the event. -/
  source : Tokenizer
deriving DecidableEq, Repr

/-- What has happened since a character was looked at. -/
structure Step where
  now : Tokenizer
  /-- How many of the characters that follow have been read with it. -/
  ahead : Nat := 0
  emitted : List Emission := []
deriving Repr

def isSpace (c : Char) : Bool :=
  c == ' ' || c == '\t' || c == '\n' || c == '\r' || c == '\x0c'

def startsTagName (c : Char) : Bool :=
  Text.isLetter c || c == '@' || c == ':'

/-- Elements whose text holds no tags but their own end tag. -/
def rawElements : List (List Char) :=
  ["title", "style", "script"].map String.toList

def verbatimElements : List (List Char) :=
  ["script", "style"].map String.toList

/-- Elements whose text does not count a newline right after the start tag. -/
def preformattedElements : List (List Char) :=
  ["pre", "textarea"].map String.toList

def endTag (name : List Char) : List Char :=
  '<' :: '/' :: name ++ ['>']

namespace Step

def become (s : Step) (state : State) : Step :=
  { s with now := { s.now with state } }

def emit (s : Step) (event : Event) : Step :=
  { s with emitted := s.emitted ++ [⟨event, s.now⟩] }

def emitHere (s : Step) (event : Position → Event) : Step :=
  s.emit (event s.now.position)

def read (s : Step) (c : Char) : Step :=
  { s with now := { s.now with position := s.now.position.next c } }

def readAhead (s : Step) (cs : List Char) : Step :=
  { s with now := { s.now with position := s.now.position.after cs }, ahead := s.ahead + cs.length }

def openTag (s : Step) : Step :=
  { s with now := { s.now with tagStart := s.now.position } }

def forgetName (s : Step) : Step :=
  { s with now := { s.now with tagName := [] } }

def growName (s : Step) (c : Char) : Step :=
  emit { s with now := { s.now with tagName := s.now.tagName ++ [c] } } (.tagName c)

/-- The text that a character stands for once it is read, together with the rest of
the reference that it starts. -/
def decode (s : Step) (c : Char) (rest : List Char) : List Char × Step :=
  if c = '&' && s.now.mode == .precompile then
    match Reference.decode? rest with
    | some (d, n) => ([d], s.readAhead (rest.take n))
    | none => ([c], s)
  else ([c], s)

/-- A `<` belongs to the text of a raw element unless the end tag follows. -/
def isRawText (s : Step) (c : Char) (rest : List Char) : Bool :=
  rawElements.contains s.now.tagName && !(endTag s.now.tagName).isPrefixOf (c :: rest)

def data (s : Step) (c : Char) (rest : List Char) : Step :=
  if c = '<' && !s.isRawText c rest then
    s.emitHere .finishData |>.openTag |>.become .tagOpen |>.read c
  else if verbatimElements.contains s.now.tagName then
    s.read c |>.emit (.data [c])
  else
    let (text, s) := (s.read c).decode c rest
    s.emit (.data text)

def beforeData (s : Step) (c : Char) (rest : List Char) : Step :=
  if c = '<' && !s.isRawText c rest then
    s.openTag |>.become .tagOpen |>.read c
  else if s.now.mode == .precompile && c = '\n' && preformattedElements.contains s.now.tagName then
    s.forgetName.read c
  else
    s.become .data |>.emitHere .beginData |>.data c rest

def tagOpen (s : Step) (c : Char) : Step :=
  let s := s.read c
  if c = '!' then s.become .markupDeclarationOpen
  else if c = '/' then s.become .endTagOpen
  else if startsTagName c then
    s.become .tagName |>.forgetName |>.emit (.beginStartTag s.now.tagStart) |>.growName c
  else
    -- No tag after all: the `<` was text.
    s.become .data |>.emit (.beginData s.now.tagStart) |>.emit (.data ['<']) |>.emit (.data [c])

def endTagOpen (s : Step) (c : Char) : Step :=
  let s := s.read c
  if startsTagName c then
    s.become .endTagName |>.forgetName |>.emit (.beginEndTag s.now.tagStart) |>.growName c
  else
    s.emit (.syntaxError .invalidEndTag s.now.tagStart) |>.become .beforeData

def markupDeclarationOpen (s : Step) (c : Char) (rest : List Char) : Step :=
  let s := s.read c
  if c = '-' && rest.head? == some '-' then
    s.readAhead ['-'] |>.become .commentStart |>.emit (.beginComment s.now.tagStart)
  else
    s.emit (.syntaxError .markupDeclaration s.now.tagStart) |>.become .beforeData

/-- A character that does not continue the delimiter at hand, whose dashes then
belong to the comment. -/
def commentText (s : Step) (dashes : List Char) (c : Char) : Step :=
  let s := if dashes.isEmpty then s else s.emit (.commentData dashes)
  s.emit (.commentData [c]) |>.become .comment

def closeComment (s : Step) : Step :=
  s.emitHere .finishComment |>.become .beforeData

def commentStart (s : Step) (c : Char) : Step :=
  let s := s.read c
  if c = '-' then s.become .commentStartDash
  else if c = '>' then s.closeComment
  else s.commentText [] c

/-- The character after the dash of `<!---` is read without being reported. -/
def commentStartDash (s : Step) (c : Char) : Step :=
  let s := s.read c
  if c = '-' then s.become .commentEnd
  else if c = '>' then s.closeComment
  else s.emit (.commentData ['-']) |>.become .comment

def comment (s : Step) (c : Char) : Step :=
  let s := s.read c
  if c = '-' then s.become .commentEndDash else s.emit (.commentData [c])

def commentEndDash (s : Step) (c : Char) : Step :=
  let s := s.read c
  if c = '-' then s.become .commentEnd else s.commentText ['-'] c

def commentEnd (s : Step) (c : Char) : Step :=
  let s := s.read c
  if c = '>' then s.closeComment else s.commentText ['-', '-'] c

def closeTag (s : Step) : Step :=
  s.emitHere .finishTag |>.become .beforeData

def tagName (s : Step) (c : Char) : Step :=
  let s := s.read c
  if isSpace c then s.become .beforeAttributeName
  else if c = '/' then s.become .selfClosingStartTag
  else if c = '>' then s.closeTag
  else s.growName c

/-- The name of an end tag does not rule how the text after it is read. -/
def endTagName (s : Step) (c : Char) : Step :=
  let s := s.read c
  if isSpace c then s.become .beforeAttributeName |>.forgetName
  else if c = '/' then s.become .selfClosingStartTag |>.forgetName
  else if c = '>' then s.closeTag.forgetName
  else s.growName c

/-- An attribute that was given no value. -/
def emptyValue (s : Step) : Step :=
  s.emitHere (.beginAttributeValue false) |>.emitHere .finishAttributeValue

def attributeName (s : Step) (c : Char) : Step :=
  if isSpace c then s.become .afterAttributeName |>.read c
  else if c = '/' then s.emptyValue.read c |>.become .selfClosingStartTag
  else if c = '=' then s.become .beforeAttributeValue |>.read c
  else if c = '>' then s.emptyValue.read c |>.closeTag
  else if c = '"' || c = '\'' || c = '<' then
    s.emitHere (.syntaxError (.characterInName c)) |>.read c |>.emit (.attributeName c)
  else s.read c |>.emit (.attributeName c)

def beforeAttributeName (s : Step) (c : Char) : Step :=
  if isSpace c then s.read c
  else if c = '/' then s.become .selfClosingStartTag |>.read c
  else if c = '>' then s.read c |>.closeTag
  else if c = '=' then
    s.emitHere (.syntaxError .equalsBeforeName) |>.become .attributeName
      |>.emitHere .beginAttribute |>.read c |>.emit (.attributeName c)
  else s.become .attributeName |>.emitHere .beginAttribute |>.attributeName c

def afterAttributeName (s : Step) (c : Char) : Step :=
  if isSpace c then s.read c
  else if c = '/' then s.emptyValue.read c |>.become .selfClosingStartTag
  else if c = '=' then s.read c |>.become .beforeAttributeValue
  else if c = '>' then s.emptyValue.read c |>.closeTag
  else
    s.emptyValue.become .attributeName |>.emitHere .beginAttribute |>.read c
      |>.emit (.attributeName c)

def valueText (s : Step) (c : Char) (rest : List Char) : Step :=
  let start := s.now.position
  let (text, s) := (s.read c).decode c rest
  s.emit (.attributeValue text ⟨start, s.now.position⟩)

def beforeAttributeValue (s : Step) (c : Char) (rest : List Char) : Step :=
  if isSpace c then s.read c
  else if c = '"' then
    s.become .attributeValueDoubleQuoted |>.emitHere (.beginAttributeValue true) |>.read c
  else if c = '\'' then
    s.become .attributeValueSingleQuoted |>.emitHere (.beginAttributeValue true) |>.read c
  else if c = '>' then s.emptyValue.read c |>.closeTag
  else
    s.become .attributeValueUnquoted |>.emitHere (.beginAttributeValue false) |>.valueText c rest

def quotedValue (s : Step) (quote c : Char) (rest : List Char) : Step :=
  if c = quote then
    s.read c |>.emitHere .finishAttributeValue |>.become .afterAttributeValueQuoted
  else s.valueText c rest

def unquotedValue (s : Step) (c : Char) (rest : List Char) : Step :=
  if isSpace c then
    s.emitHere .finishAttributeValue |>.read c |>.become .beforeAttributeName
  else if c = '/' then
    s.emitHere .finishAttributeValue |>.read c |>.become .selfClosingStartTag
  else if c = '>' then s.emitHere .finishAttributeValue |>.read c |>.closeTag
  else s.valueText c rest

/-- What follows a quoted value without a space is read as if after one. -/
def afterAttributeValueQuoted (s : Step) (c : Char) : Step :=
  if isSpace c then s.read c |>.become .beforeAttributeName
  else if c = '/' then s.read c |>.become .selfClosingStartTag
  else if c = '>' then s.read c |>.closeTag
  else s.become .beforeAttributeName |>.beforeAttributeName c

/-- A slash inside a tag is passed over unless the tag ends there. -/
def selfClosingStartTag (s : Step) (c : Char) : Step :=
  if c = '>' then s.read c |>.emit .selfClosing |>.closeTag
  else s.become .beforeAttributeName |>.beforeAttributeName c

end Step

namespace Tokenizer

/-- Reads a character, and possibly some of those that follow it in the chunk. -/
def step (t : Tokenizer) (c : Char) (rest : List Char) : Step :=
  let s : Step := { now := t }
  match t.state with
  | .beforeData => s.beforeData c rest
  | .data => s.data c rest
  | .tagOpen => s.tagOpen c
  | .markupDeclarationOpen => s.markupDeclarationOpen c rest
  | .commentStart => s.commentStart c
  | .commentStartDash => s.commentStartDash c
  | .comment => s.comment c
  | .commentEndDash => s.commentEndDash c
  | .commentEnd => s.commentEnd c
  | .tagName => s.tagName c
  | .endTagOpen => s.endTagOpen c
  | .endTagName => s.endTagName c
  | .beforeAttributeName => s.beforeAttributeName c
  | .attributeName => s.attributeName c
  | .afterAttributeName => s.afterAttributeName c
  | .beforeAttributeValue => s.beforeAttributeValue c rest
  | .attributeValueDoubleQuoted => s.quotedValue '"' c rest
  | .attributeValueSingleQuoted => s.quotedValue '\'' c rest
  | .attributeValueUnquoted => s.unquotedValue c rest
  | .afterAttributeValueQuoted => s.afterAttributeValueQuoted c
  | .selfClosingStartTag => s.selfClosingStartTag c

/-- Reads a chunk whose first `skip` characters have been read already. -/
def feedAfter (t : Tokenizer) (skip : Nat) : List Char → List Emission × Tokenizer
  | [] => ([], t)
  | c :: cs =>
    match skip with
    | skip + 1 => t.feedAfter skip cs
    | 0 =>
      let s := t.step c cs
      let (emitted, last) := s.now.feedAfter s.ahead cs
      (s.emitted ++ emitted, last)

/-- Reads a chunk: everything reported on the way and the machine after it. -/
def feed (t : Tokenizer) (chunk : List Char) : List Emission × Tokenizer :=
  t.feedAfter 0 chunk

private theorem feedAfter_eq_feed_drop (t : Tokenizer) (n : Nat) (cs : List Char) :
    t.feedAfter n cs = t.feed (cs.drop n) := by
  induction cs generalizing n with
  | nil => simp [feed, feedAfter]
  | cons c cs ih =>
    cases n with
    | zero => rfl
    | succ n => simpa [feedAfter] using ih n

@[simp] theorem feed_nil (t : Tokenizer) : t.feed [] = ([], t) := rfl

theorem feed_cons (t : Tokenizer) (c : Char) (cs : List Char) :
    t.feed (c :: cs) =
      let s := t.step c cs
      let (emitted, last) := s.now.feed (cs.drop s.ahead)
      (s.emitted ++ emitted, last) := by
  rw [feed, feedAfter]
  simp only [feedAfter_eq_feed_drop]

def finishData (t : Tokenizer) : List Emission × Tokenizer :=
  if t.state = .data then
    let s := (Step.mk t 0 []).emitHere .finishData |>.become .beforeData
    (s.emitted, s.now)
  else ([], t)

/-- The end of the input ends a text run, and nothing else. -/
def finish (t : Tokenizer) : List Emission × Tokenizer :=
  t.finishData

/-- Puts text into the comment under way. Dashes that might have ended it are
reported first, so that the comment reads as its source does. -/
def appendComment (t : Tokenizer) (text : List Char) : List Emission × Tokenizer :=
  let s : Step := { now := t }
  let s := match t.state with
    | .commentStartDash | .commentEndDash => s.emit (.commentData ['-'])
    | .commentEnd => s.emit (.commentData ['-', '-'])
    | _ => s
  let s := s.become .comment |>.emit (.commentData text)
  (s.emitted, s.now)

/-- The fresh machine of the same mode, which is reported. -/
def reset (t : Tokenizer) : List Emission × Tokenizer :=
  let fresh : Tokenizer := { mode := t.mode }
  ([⟨.reset, fresh⟩], fresh)

def document (t : Tokenizer) (text : List Char) : List Emission × Tokenizer :=
  let (before, t) := t.reset
  let (inside, t) := t.feed text
  let (after, t) := t.finish
  (before ++ inside ++ after, t)

def moveTo (t : Tokenizer) (position : Position) : Tokenizer :=
  { t with position }

def become (t : Tokenizer) (state : State) : Tokenizer :=
  { t with state }

end Tokenizer

end HtmlTemplate.Html
