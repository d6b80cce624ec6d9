/-! The whitespace markers `~` on the two sides of a mustache. -/

namespace HtmlTemplate

structure Strip where
  /-- After the opening braces. -/
  opening : Bool := false
  /-- Before the closing braces. -/
  closing : Bool := false
deriving DecidableEq, Repr, Inhabited

end HtmlTemplate
