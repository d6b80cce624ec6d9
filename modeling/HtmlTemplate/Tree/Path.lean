import HtmlTemplate.Mustache.Tree
import HtmlTemplate.Source.Error
import HtmlTemplate.Tree.Basic
import HtmlTemplate.Tree.Fault

/-! Paths: what their head refers to. Forms of paths that older templates use are
refused. -/

namespace HtmlTemplate.Tree

def fault (src : Source) (f : Fault) (span : Span) : Except SyntaxError α :=
  .error (src.error f.message span)

namespace Path

/-- `this` or `this.` with something after it. -/
def isSelf (written : List Char) : Bool :=
  written == "this".toList
    || ("this.".toList.isPrefixOf written && "this.".length < written.length)

/-- The segments of a path, of which slashes make a single one. -/
def segments? (p : Mustache.Path) : Except Fault (List (List Char)) :=
  if p.written = "...attributes".toList then .error .attributesPath
  else if p.written.contains '/' then
    if "./".toList.isPrefixOf p.written then .error .currentSlash
    else if "../".toList.isPrefixOf p.written then .error .parentSlash
    else if p.written.contains '.' then .error .mixedSeparators
    else .ok [List.intercalate ['/'] p.parts]
  else if p.written = ['.'] then .error .lonelyDot
  else .ok p.parts

def headSpan (span : Span) (bytes : Nat) : Span :=
  ⟨span.start, min (span.start + bytes) span.stop⟩

def split? (p : Mustache.Path) (span : Span) : Except Fault (PathHead × List (List Char)) := do
  let parts ← segments? p
  if isSelf p.written then
    return (.self (headSpan span "this".utf8ByteSize), parts)
  match parts with
  | name :: tail =>
    if p.data then return (.argument name (headSpan span (byteLength name + 1)), tail)
    else return (.plain name (headSpan span (byteLength name)), tail)
  | [] => .error (if p.data then .namelessArgument else .namelessPath)

def resolve (src : Source) (p : Mustache.Path) : Except SyntaxError Path :=
  let span := src.spanFor p.loc
  match split? p span with
  | .ok (head, tail) => .ok { written := p.written, head, tail, span }
  | .error f => fault src f span

end Path

end HtmlTemplate.Tree
