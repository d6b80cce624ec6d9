import HtmlTemplate.Html.Event
import HtmlTemplate.Html.State
import HtmlTemplate.Text.Blank
import HtmlTemplate.Tree.OpenElements

/-! Elements, text and HTML comments from what is reported of the HTML text. Nodes
that come from mustaches are put into the tag or the attribute value under way. -/

namespace HtmlTemplate.Tree

structure StartTag where
  name : List Char := []
  start : Nat
  attributes : List Attribute := []
  modifiers : List Modifier := []
  comments : List Comment := []
  selfClosing : Bool := false

/-- The node under way. -/
inductive Current where
  | text (chars : List Char) (start : Nat)
  | comment (value : List Char) (start : Nat)
  | startTag (t : StartTag)
  | endTag (name : List Char) (start : Nat)

/-- An attribute between its name and the end of its value. -/
structure PendingAttribute where
  name : List Char := []
  start : Nat
  valueStart : Nat
  quoted : Bool := false
  /-- Whether a mustache is among the parts. -/
  dynamic : Bool := false
  parts : List Part := []
  /-- The text after the last part. -/
  text : Option TextNode := none

namespace PendingAttribute

def finishText (a : PendingAttribute) : PendingAttribute :=
  match a.text with
  | some t => { a with parts := a.parts ++ [.text t], text := none }
  | none => a

def addText (a : PendingAttribute) (chars : List Char) (span : Span) : PendingAttribute :=
  let text : TextNode := match a.text with
    | some t => ⟨t.chars ++ chars, ⟨t.span.start, span.stop⟩⟩
    | none => ⟨chars, span⟩
  { a with text := some text }

def addDynamic (a : PendingAttribute) (d : Dynamic) : PendingAttribute :=
  let a := a.finishText
  { a with dynamic := true, parts := a.parts ++ [.dynamic d] }

def staticChars (a : PendingAttribute) : List Char :=
  match a.parts with
  | .text t :: _ => t.chars
  | _ => []

/-- The value, whose text is finished. Only between quotes it may have several parts. -/
def value? (a : PendingAttribute) (span : Span) : Except Fault AttributeValue :=
  if !a.dynamic then .ok (.text ⟨a.staticChars, span⟩)
  else if a.quoted then .ok (.concat a.parts span)
  else
    match a.parts with
    | [part] => .ok part.toValue
    | _ => .error .unquotedConcat

end PendingAttribute

/-- Characters that the name of a block parameter may not hold. -/
def isForbidden (c : Char) : Bool :=
  "!\"#%&'()*+,./;<=>@[\\]^`\x7b|\x7d~".toList.contains c

def startsWithBar (name : List Char) : Bool :=
  name.head? == some '|'

/-- The names in `as |a b|`, given the attribute names after `as`. -/
def paramNames : List (List Char) → Except Fault (List (List Char))
  | [] => .ok []
  | name :: names =>
    let param := name.filter (· != '|')
    if param.isEmpty then paramNames names
    else if param.any isForbidden then .error (.invalidParam param)
    else (paramNames names).map (param :: ·)

/-- How many attributes are left and what the block parameters are. They are written
as attributes that come last, from `as` on. -/
def blockParams? (names : List (List Char)) : Except Fault (Nat × List (List Char)) :=
  let before := names.takeWhile (· != "as".toList)
  match names.drop before.length with
  | [] =>
    if (names.getLast?.elim false startsWithBar) then .error .paramsWithoutAs
    else .ok (names.length, [])
  | keyword :: after =>
    if !(after.head?.elim false startsWithBar) then .ok (names.length, [])
    else
      let written := List.intercalate [' '] (keyword :: after)
      if written.getLast? != some '|' || written.count '|' != 2 then
        .error (.malformedParams written)
      else
        match paramNames after with
        | .error f => .error f
        | .ok [] => .error .noParams
        | .ok params => .ok (before.length, params)

structure Markup where
  stack : OpenElements := {}
  current : Option Current := none
  /-- The attribute under way. -/
  pending : Option PendingAttribute := none

namespace Markup

def append (m : Markup) (node : Statement) : Markup :=
  { m with stack := m.stack.append node }

/-- Puts the element on top, which has to have the name, into the frame below it. -/
def closeElement (src : Source) (m : Markup) (name : List Char) (tagSpan : Span)
    (implicit : Bool) : Except SyntaxError Markup :=
  if Html.isVoid name && !implicit then fault src (.voidEndTag name) tagSpan
  else
    match m.stack.popElement? with
    | none => fault src (.endTagAlone name) tagSpan
    | some (e, stack) =>
      if e.tag = name then
        .ok { m with stack := stack.append (.element (e.finish tagSpan.stop)) }
      else
        fault src (.mismatchedEndTag name e.tag (src.positionFor e.startTag.start).line) tagSpan

/-- Opens the element of a start tag, and closes it if it has no end tag. -/
def openElement (src : Source) (m : Markup) (t : StartTag) (stop : Nat) :
    Except SyntaxError Markup :=
  let startTag : Span := ⟨t.start, stop⟩
  if t.name = [':'] then fault src .namedBlock startTag
  else
    match blockParams? (t.attributes.map (·.name)) with
    | .error f => fault src f startTag
    | .ok (kept, params) =>
      let e : OpenElement :=
        { tag := t.name, selfClosing := t.selfClosing, attributes := t.attributes.take kept
          params, modifiers := t.modifiers, comments := t.comments, children := [], startTag }
      let m := { m with stack := (m.stack.push (.element e)).2 }
      if t.selfClosing || Html.isVoid t.name then m.closeElement src t.name startTag true
      else .ok m

def withStartTag (src : Source) (m : Markup) (span : Span) (f : StartTag → StartTag) :
    Except SyntaxError Markup :=
  match m.current with
  | some (.startTag t) => .ok { m with current := some (.startTag (f t)) }
  | _ => fault src .endTagAttributes span

def addModifier (src : Source) (m : Markup) (modifier : Modifier) : Except SyntaxError Markup :=
  m.withStartTag src modifier.span fun t => { t with modifiers := t.modifiers ++ [modifier] }

def addTagComment (src : Source) (m : Markup) (c : Comment) : Except SyntaxError Markup :=
  m.withStartTag src c.span fun t => { t with comments := t.comments ++ [c] }

def mapAttribute (m : Markup) (f : PendingAttribute → PendingAttribute) : Markup :=
  { m with pending := m.pending.map f }

def addValuePart (m : Markup) (d : Dynamic) : Markup :=
  m.mapAttribute (·.addDynamic d)

def startTagName? (m : Markup) : Option (List Char) :=
  match m.current with
  | some (.startTag t) => some t.name
  | _ => none

def beginValue (m : Markup) (quoted : Bool) (offset : Nat) : Markup :=
  m.mapAttribute fun a => { a with quoted, valueStart := offset, text := none }

def finishValue (src : Source) (m : Markup) (stop : Nat) : Except SyntaxError Markup :=
  match m.pending with
  | none => .ok m
  | some a => do
    let m := { m with pending := none }
    let a := a.finishText
    let span : Span := ⟨a.start, stop⟩
    if let some (.endTag ..) := m.current then
      fault src .endTagAttributes span
    match a.value? ⟨a.valueStart, stop⟩ with
    | .error f => fault src f span
    | .ok value =>
      m.withStartTag src span fun t =>
        { t with attributes := t.attributes ++ [⟨a.name, value, span⟩] }

def finishTag (src : Source) (m : Markup) (stop : Nat) : Except SyntaxError Markup :=
  match m.current with
  | some (.startTag t) => { m with current := none }.openElement src t stop
  | some (.endTag name start) =>
    { m with current := none }.closeElement src name ⟨start, stop⟩ false
  | _ => .ok m

def growTagName (m : Markup) (c : Char) : Markup :=
  match m.current with
  | some (.startTag t) => { m with current := some (.startTag { t with name := t.name ++ [c] }) }
  | some (.endTag name start) => { m with current := some (.endTag (name ++ [c]) start) }
  | _ => m

def markSelfClosing (src : Source) (m : Markup) : Except SyntaxError Markup :=
  match m.current with
  | some (.startTag t) => .ok { m with current := some (.startTag { t with selfClosing := true }) }
  | some (.endTag _ start) => fault src .endTagSelfClosing ⟨start, start⟩
  | _ => .ok m

/-- What is reported of the HTML text, put into the tree. -/
def receive (src : Source) (m : Markup) (e : Html.Event) : Except SyntaxError Markup :=
  match e with
  | .reset => .ok { m with current := none, pending := none }
  | .beginStartTag p => .ok { m with current := some (.startTag { start := src.offsetFor p }) }
  | .beginEndTag p => .ok { m with current := some (.endTag [] (src.offsetFor p)) }
  | .tagName c => .ok (m.growTagName c)
  | .selfClosing => m.markSelfClosing src
  | .finishTag p => m.finishTag src (src.offsetFor p)
  | .beginAttribute p =>
    let start := src.offsetFor p
    .ok { m with pending := some { start, valueStart := start } }
  | .attributeName c => .ok (m.mapAttribute fun a => { a with name := a.name ++ [c] })
  | .beginAttributeValue quoted p => .ok (m.beginValue quoted (src.offsetFor p))
  | .attributeValue text l =>
    .ok (m.mapAttribute (·.addText text ⟨src.offsetFor l.start, src.offsetFor l.stop⟩))
  | .finishAttributeValue p => m.finishValue src (src.offsetFor p)
  | .beginData p => .ok { m with current := some (.text [] (src.offsetFor p)) }
  | .data text =>
    match m.current with
    | some (.text chars start) => .ok { m with current := some (.text (chars ++ text) start) }
    | _ => .ok m
  | .finishData p =>
    match m.current with
    | some (.text chars start) =>
      .ok ({ m with current := none }.append (.text ⟨chars, ⟨start, src.offsetFor p⟩⟩))
    | _ => .ok m
  | .beginComment p => .ok { m with current := some (.comment [] (src.offsetFor p)) }
  | .commentData text =>
    match m.current with
    | some (.comment value start) =>
      .ok { m with current := some (.comment (value ++ text) start) }
    | _ => .ok m
  | .finishComment p =>
    match m.current with
    | some (.comment value start) =>
      .ok ({ m with current := none }.append (.comment ⟨value, ⟨start, src.offsetFor p⟩⟩))
    | _ => .ok m
  | .syntaxError f p => fault src (.html f) (.empty (src.offsetFor p))

/-- Text that ends inside a tag or a comment is at fault from there on. -/
def finish (src : Source) (m : Markup) (state : Html.State) (whole : Whole) (stop : Nat) :
    Except SyntaxError Unit :=
  if state.isData then .ok ()
  else
    let (f, start) : Fault × Nat := match m.current with
      | some (.comment _ start) => (.unclosedComment, start)
      | some (.startTag t) => (.unclosedStartTag t.name, t.start)
      | some (.endTag name start) => (.unclosedEndTag name, start)
      | _ => (.unexpectedEnd whole state, stop)
    fault src f ⟨min start stop, stop⟩

end Markup

end HtmlTemplate.Tree
