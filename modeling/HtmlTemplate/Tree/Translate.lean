import HtmlTemplate.Mustache.Tree
import HtmlTemplate.Tree.Path

/-! Expressions and calls of the mustache tree into those of the template tree. What is
called is a path or another call, never a literal; only the name of a partial may be
one. -/

namespace HtmlTemplate.Tree

def callable (src : Source) : Expression → Except SyntaxError Unit
  | .literal l span => fault src (.notCallable l) span
  | _ => .ok ()

/-- A call without pairs has an empty hash after its last parameter, or after what is
called. -/
def emptyHash (callee : Expression) (params : List Expression) : Hash Expression :=
  .empty (params.getLast?.getD callee).span.stop

mutual

def expression (src : Source) : Mustache.Expression → Except SyntaxError Expression
  | .path p => (Path.resolve src p).map .path
  | .literal l loc => .ok (.literal l (src.spanFor loc))
  | .call c loc => (call src c).map (.call · (src.spanFor loc))

def call (src : Source) : Mustache.Call Mustache.Expression → Except SyntaxError (Call Expression)
  | ⟨callee, params, none⟩ => do
    let callee ← expression src callee
    callable src callee
    let params ← expressions src params
    return ⟨callee, params, emptyHash callee params⟩
  | ⟨callee, params, some ⟨pairs, loc⟩⟩ => do
    let callee ← expression src callee
    callable src callee
    let params ← expressions src params
    let pairs ← hashPairs src pairs
    return ⟨callee, params, ⟨pairs, src.spanFor loc⟩⟩

def expressions (src : Source) :
    List Mustache.Expression → Except SyntaxError (List Expression)
  | [] => .ok []
  | e :: es => do
    let e ← expression src e
    let es ← expressions src es
    return e :: es

def hashPairs (src : Source) :
    List (Mustache.Pair Mustache.Expression) → Except SyntaxError (List (Pair Expression))
  | [] => .ok []
  | ⟨key, value, loc⟩ :: pairs => do
    let value ← expression src value
    let pairs ← hashPairs src pairs
    return ⟨key, value, src.spanFor loc⟩ :: pairs

end

def partialName (src : Source) (c : Mustache.Call Mustache.Expression) :
    Except SyntaxError (Call Expression) := do
  let callee ← expression src c.callee
  let params ← expressions src c.params
  match c.hash with
  | none => return ⟨callee, params, emptyHash callee params⟩
  | some h =>
    let pairs ← hashPairs src h.pairs
    return ⟨callee, params, ⟨pairs, src.spanFor h.loc⟩⟩

/-- A mustache, which prints a literal if there is nothing but one in it. -/
def dynamic (src : Source) (m : Mustache.Interpolation) : Except SyntaxError Dynamic := do
  let span := src.spanFor m.loc
  let trusting := !m.escaped
  match ← expression src m.call.callee with
  | .literal l valueSpan =>
    if m.call.params.isEmpty && m.call.hash.isNone then
      return .literal ⟨l, valueSpan, trusting, m.strip, span⟩
    else fault src (.notCallable l) valueSpan
  | _ => return .call ⟨← call src m.call, trusting, m.strip, span⟩

end HtmlTemplate.Tree
