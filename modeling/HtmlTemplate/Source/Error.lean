import HtmlTemplate.Source.Text

/-! The error that ends the reading of a template: the first fault found, with its
place in both coordinate systems. -/

namespace HtmlTemplate

structure SyntaxError where
  message : String
  span : Span
  /-- The position of the start of the span. -/
  position : Position
  moduleName : String
deriving DecidableEq, Repr

def Source.error (s : Source) (message : String) (span : Span) : SyntaxError where
  message
  span
  position := s.positionFor span.start
  moduleName := s.moduleName

/-- The line that is shown to the author of the template. -/
def SyntaxError.display (e : SyntaxError) : String :=
  "Syntax error at line " ++ toString e.position.line ++ ", column "
    ++ toString e.position.column ++ " in '" ++ e.moduleName ++ "': " ++ e.message

end HtmlTemplate
