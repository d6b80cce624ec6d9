import HtmlTemplate.Mustache
import HtmlTemplate.Tree.Assembly

/-! Template text into its tree. The first fault ends the reading; faults of the
mustaches come before all others. -/

namespace HtmlTemplate

structure Options where
  /-- Shown in diagnostics. -/
  moduleName : Option String := none
  /-- The names in scope for the whole template. -/
  locals : List (List Char) := []
  mode : Html.Mode := .precompile
  /-- Tags alone on a line leave the line there. -/
  keepLines : Bool := false

def Source.mustacheError (src : Source) (e : Mustache.ParseError) : SyntaxError :=
  src.error e.message (.empty (src.offsetFor e.position))

def preprocess (text : List Char) (options : Options) : Except SyntaxError Tree.Template :=
  let src : Source := ⟨text, options.moduleName⟩
  match Mustache.parse text options.keepLines with
  | .error e => .error (src.mustacheError e)
  | .ok program => Tree.assemble src options.mode options.locals program

end HtmlTemplate
