import HtmlTemplate.Html.Tokenizer
import HtmlTemplate.Source.Shift
import HtmlTemplate.Tree.Markup
import HtmlTemplate.Tree.Translate

/-! The two halves of a template put together. Text goes through the HTML machine;
every other statement of the mustache tree belongs where the machine stands: between
tags it is a child, in a tag a modifier, in a value a part of it, and in an HTML
comment it is text. -/

namespace HtmlTemplate.Tree

open Html (Tokenizer Emission)

/-- A template being read. -/
structure Assembly where
  tokenizer : Tokenizer
  markup : Markup := {}

namespace Assembly

/-- Takes over what the machine has reported and the machine as it then stands. -/
def follow (src : Source) (a : Assembly) (step : List Emission × Tokenizer) :
    Except SyntaxError Assembly := do
  let markup ← step.1.foldlM (fun m e => m.receive src e.event) a.markup
  return ⟨step.2, markup⟩

def become (a : Assembly) (state : Html.State) : Assembly :=
  { a with tokenizer := a.tokenizer.become state }

def append (a : Assembly) (node : Statement) : Assembly :=
  { a with markup := a.markup.append node }

def withMarkup (a : Assembly) (f : Markup → Except SyntaxError Markup) :
    Except SyntaxError Assembly := do
  return { a with markup := ← f a.markup }

def offset (src : Source) (a : Assembly) : Nat :=
  src.offsetFor a.tokenizer.position

/-- Gives no value to the attribute under way and ends it. -/
def endAttribute (src : Source) (a : Assembly) : Except SyntaxError Assembly :=
  a.withMarkup fun m => (m.beginValue false (a.offset src)).finishValue src (a.offset src)

/-- Reads text between mustaches from where the characters that are left of it stand. -/
def content (src : Source) (a : Assembly) (c : Mustache.Content) : Except SyntaxError Assembly := do
  let start := c.loc.start.shift (.ofTrimmed c.written c.value)
  let a ← a.follow src ((a.tokenizer.moveTo start).feed c.value)
  a.follow src a.tokenizer.finishData

/-- Puts the source of a statement into the HTML comment around it. -/
def commentText (src : Source) (a : Assembly) (loc : Location) : Except SyntaxError Assembly :=
  a.follow src (a.tokenizer.appendComment (src.slice (src.spanFor loc)))

def addModifier (src : Source) (a : Assembly) (d : Dynamic) : Except SyntaxError Assembly :=
  match d with
  | .call m => a.withMarkup (·.addModifier src ⟨m.call, m.span⟩)
  | .literal m => fault src (.literalModifier (a.markup.startTagName?.getD []) m.value) m.span

def place (src : Source) (a : Assembly) (d : Dynamic) : Except SyntaxError Assembly :=
  match a.tokenizer.state with
  | .tagOpen | .tagName => fault src .mustacheInTagName d.span
  | .beforeAttributeName => a.addModifier src d
  | .attributeName | .afterAttributeName => do
    let a ← a.endAttribute src
    let a ← a.addModifier src d
    return a.become .beforeAttributeName
  | .afterAttributeValueQuoted => do
    let a ← a.addModifier src d
    return a.become .beforeAttributeName
  | .beforeAttributeValue =>
    let markup := (a.markup.beginValue false (a.offset src)).addValuePart d
    .ok ({ a with markup }.become .attributeValueUnquoted)
  | .attributeValueDoubleQuoted | .attributeValueSingleQuoted | .attributeValueUnquoted =>
    .ok { a with markup := a.markup.addValuePart d }
  | _ => .ok (a.append (.dynamic d))

def placeComment (src : Source) (a : Assembly) (c : Comment) : Except SyntaxError Assembly :=
  match a.tokenizer.state with
  | .beforeAttributeName => a.withMarkup (·.addTagComment src c)
  | .afterAttributeName => do
    let a ← a.endAttribute src
    let a ← a.withMarkup (·.addTagComment src c)
    return a.become .beforeAttributeName
  | .beforeData | .data => .ok (a.append (.mustacheComment c))
  | state => fault src (.commentPlace state) c.span

def decorator (src : Source) (a : Assembly) (m : Mustache.Interpolation) :
    Except SyntaxError Assembly := do
  let span := src.spanFor m.loc
  if !a.tokenizer.state.isData then fault src .decoratorPlace span
  let call ← call src m.call
  return a.append (.decorator ⟨call, !m.escaped, m.strip, span⟩)

def partialCall (src : Source) (a : Assembly) (p : Mustache.PartialCall) :
    Except SyntaxError Assembly := do
  let call ← partialName src p.call
  return a.append (.partialCall ⟨call, p.indent, p.strip, src.spanFor p.loc⟩)

def pushBody (a : Assembly) : Nat × Assembly :=
  let (id, stack) := a.markup.stack.push (.body [])
  (id, { a with markup := { a.markup with stack } })

/-- Takes back a body that nothing under way is left in. -/
def popBody (src : Source) (a : Assembly) (id : Nat) :
    Except SyntaxError (List Statement × Assembly) := do
  let (frame, stack) ← a.markup.stack.popExpecting src id
  return (frame.children, { a with markup := { a.markup with stack } })

def closeBody (src : Source) (a : Assembly) (id : Nat) :
    Except SyntaxError (List Statement × Assembly) := do
  a.markup.finish src a.tokenizer.state .block (a.offset src)
  a.popBody src id

/-- A body without statements is at the start of its block. -/
def sectionSpan (src : Source) (loc : Option Location) (fallback : Nat) : Span :=
  loc.elim (.empty fallback) src.spanFor

mutual

def statement (src : Source) (a : Assembly) :
    Mustache.Statement → Except SyntaxError Assembly
  | .content c => a.content src c
  | .mustache m => do
    if a.tokenizer.state.isComment then a.commentText src m.loc
    else a.place src (← dynamic src m)
  | .decorator m => do
    if a.tokenizer.state.isComment then a.commentText src m.loc
    else a.decorator src m
  | .comment c => do
    if a.tokenizer.state.isComment then a.commentText src c.loc
    else a.placeComment src ⟨c.value, src.spanFor c.loc⟩
  | .partialCall p => do
    if a.tokenizer.state.isComment then a.commentText src p.loc
    else a.partialCall src p
  | .block b => do
    if a.tokenizer.state.isComment then a.commentText src b.loc
    else
      let (block, a) ← block src a b
      return a.append (.block block)
  | .decoratorBlock b => do
    if a.tokenizer.state.isComment then a.commentText src b.loc
    else
      let (block, a) ← block src a b
      return a.append (.decoratorBlock block)
  | .partialBlock ⟨c, program, openStrip, closeStrip, loc⟩ => do
    if a.tokenizer.state.isComment then a.commentText src loc
    else
      let span := src.spanFor loc
      let call ← partialName src c
      let (program, a) ← sectionOf src a span.start program
      return a.append (.partialBlock { call, program, openStrip, closeStrip, span })

def statements (src : Source) (a : Assembly) :
    List Mustache.Statement → Except SyntaxError Assembly
  | [] => .ok a
  | s :: ss => do
    let a ← statement src a s
    statements src a ss

def sectionOf (src : Source) (a : Assembly) (fallback : Nat) :
    Mustache.Program Mustache.Statement → Except SyntaxError (Section Statement × Assembly)
  | ⟨body, params, chained⟩ => do
    let (id, a) := a.pushBody
    let a ← statements src a body
    let (nodes, a) ← a.closeBody src id
    let loc := Mustache.Program.loc? ⟨body, params, chained⟩
    return (⟨nodes, params, chained, sectionSpan src loc fallback⟩, a)

def sectionOf? (src : Source) (a : Assembly) (fallback : Nat) :
    Option (Mustache.Program Mustache.Statement) →
      Except SyntaxError (Option (Section Statement) × Assembly)
  | none => .ok (none, a)
  | some p => do
    let (s, a) ← sectionOf src a fallback p
    return (some s, a)

def block (src : Source) (a : Assembly) :
    Mustache.Block Mustache.Statement → Except SyntaxError (Block Statement × Assembly)
  | ⟨c, program, inverse, openStrip, inverseStrip, closeStrip, loc⟩ => do
    let span := src.spanFor loc
    if !a.tokenizer.state.isData then fault src .blockPlace span
    let call ← call src c
    let (program, a) ← sectionOf? src a span.start program
    let (inverse, a) ← sectionOf? src a span.start inverse
    let program := program.getD ⟨[], [], false, .empty span.start⟩
    return ({ call, program, inverse, openStrip, inverseStrip, closeStrip, span }, a)

end

end Assembly

def assemble (src : Source) (mode : Html.Mode) (locals : List (List Char))
    (program : Mustache.Program Mustache.Statement) : Except SyntaxError Template := do
  let (id, a) := Assembly.pushBody ⟨{ mode }, {}⟩
  let a ← a.statements src program.body
  let a ← a.follow src a.tokenizer.finish
  a.markup.finish src a.tokenizer.state .template src.size
  let (body, _) ← a.popBody src id
  return ⟨body, locals, src.fullSpan⟩

end HtmlTemplate.Tree
