import HtmlTemplate.Mustache.Parse
import HtmlTemplate.Mustache.Whitespace

/-! The mustache half of a template: its tree, whitespace control applied. -/

namespace HtmlTemplate.Mustache

def parseWritten (text : List Char) : Except ParseError (Program Statement) := do
  Program.ofTokens (← scan text)

/-- The tree of a template; with `keepLines`, tags alone on a line leave it there. -/
def parse (text : List Char) (keepLines : Bool) : Except ParseError (Program Statement) := do
  return (← parseWritten text).control keepLines

end HtmlTemplate.Mustache
