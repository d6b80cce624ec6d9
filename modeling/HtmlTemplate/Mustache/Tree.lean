import HtmlTemplate.Literal
import HtmlTemplate.Source.Position
import HtmlTemplate.Strip

/-! The tree of the mustaches of a template. The text between them is kept as it was
written, next to what whitespace control leaves of it. -/

namespace HtmlTemplate.Mustache

structure Path where
  /-- Whether the path starts with `@`. -/
  data : Bool
  /-- How many segments are `..`. -/
  depth : Nat
  /-- The segments that are none of `this`, `.` and `..`. -/
  parts : List (List Char)
  written : List Char
  loc : Location
deriving DecidableEq, Repr

/-- `key=value` -/
structure Pair (ε : Type) where
  key : List Char
  value : ε
  loc : Location

structure Hash (ε : Type) where
  pairs : List (Pair ε)
  loc : Location

/-- What is called and with what; a call without pairs has no hash. -/
structure Call (ε : Type) where
  callee : ε
  params : List ε
  hash : Option (Hash ε)

inductive Expression where
  | path (p : Path)
  | call (c : Call Expression) (loc : Location)
  | literal (l : Literal) (loc : Location)

namespace Expression

def loc : Expression → Location
  | path p => p.loc
  | call _ loc => loc
  | literal _ loc => loc

/-- The text that the closing tag of a block has to repeat. -/
def written : Expression → List Char
  | path p => p.written
  | call ⟨callee, _, _⟩ _ => callee.written
  | literal l _ => l.text

end Expression

/-- A mustache that is not a block: something to print, or a decorator. -/
structure Interpolation where
  call : Call Expression
  /-- Not in `{{{ }}}` and `{{& }}`. -/
  escaped : Bool
  strip : Strip
  loc : Location

/-- Text between mustaches. -/
structure Content where
  /-- What whitespace control leaves. -/
  value : List Char
  written : List Char
  /-- Whether the trimming before the next tag, looked at last, took anything. -/
  leftStripped : Bool := false
  /-- Whether the trimming after the tag before, looked at last, took anything. -/
  rightStripped : Bool := false
  loc : Location
deriving DecidableEq, Repr

structure Comment where
  value : List Char
  strip : Strip
  loc : Location
deriving DecidableEq, Repr

/-- `{{> name}}` -/
structure PartialCall where
  /-- The callee is the name. -/
  call : Call Expression
  /-- The indentation of a partial that stands alone on its line. -/
  indent : List Char := []
  strip : Strip
  loc : Location

/-- The statements of a template or of a section of a block. -/
structure Program (σ : Type) where
  body : List σ
  params : List (List Char) := []
  /-- Whether this is the section of an `{{else if}}`, which holds just its block. -/
  chained : Bool := false

structure Block (σ : Type) where
  call : Call Expression
  /-- Missing in an inverse block, `{{^x}}`, that has no `{{else}}`. -/
  program : Option (Program σ)
  inverse : Option (Program σ)
  openStrip : Strip
  /-- The markers of the tag that opens the inverse. -/
  inverseStrip : Strip
  closeStrip : Strip
  loc : Location

/-- `{{#> name}}` -/
structure PartialBlock (σ : Type) where
  call : Call Expression
  program : Program σ
  openStrip : Strip
  closeStrip : Strip
  loc : Location

inductive Statement where
  | mustache (m : Interpolation)
  | decorator (m : Interpolation)
  | block (b : Block Statement)
  | decoratorBlock (b : Block Statement)
  | content (c : Content)
  | comment (c : Comment)
  | partialCall (p : PartialCall)
  | partialBlock (p : PartialBlock Statement)

def Statement.loc : Statement → Location
  | mustache m | decorator m => m.loc
  | block b | decoratorBlock b => b.loc
  | content c => c.loc
  | comment c => c.loc
  | partialCall p => p.loc
  | partialBlock p => p.loc

namespace Program

/-- From the first statement to the last, if there are any. -/
def loc? (p : Program Statement) : Option Location :=
  match p.body.head?, p.body.getLast? with
  | some first, some last => some ⟨first.loc.start, last.loc.stop⟩
  | _, _ => none

theorem loc?_eq_none_iff (p : Program Statement) : p.loc? = none ↔ p.body = [] := by
  rcases p with ⟨body, params, chained⟩
  cases body with
  | nil => simp [loc?]
  | cons s ss => simp [loc?, List.getLast?_cons]

end Program

end HtmlTemplate.Mustache
