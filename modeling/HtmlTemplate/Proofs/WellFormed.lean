import HtmlTemplate.Draft

/-! Drafts whose text is read back as their tree. What could be taken for something else in
the place where it is written is left out: a brace in a text, a keyword as a name, a quote
in a string. -/

namespace HtmlTemplate

/-- A character of a kind is none of those that are of another. -/
theorem not_mem_of_all {f : Char → Bool} {c : Char} {ds : List Char} (hc : f c = true)
    (hds : ds.all (!f ·) = true) : c ∉ ds := by
  intro hmem
  have hnot := List.all_eq_true.mp hds c hmem
  simp [hc] at hnot

namespace Draft

/-- The words that are no names in a mustache. -/
def reserved : List (List Char) :=
  [['t', 'r', 'u', 'e'], ['f', 'a', 'l', 's', 'e'], ['n', 'u', 'l', 'l'],
    ['u', 'n', 'd', 'e', 'f', 'i', 'n', 'e', 'd'], ['e', 'l', 's', 'e'], ['a', 's']]

def isWordChar (c : Char) : Bool :=
  c.isAlphanum || c == '_' || c == '-'

def isWord : List Char → Bool
  | [] => false
  | c :: cs => c.isAlpha && cs.all isWordChar && !reserved.contains (c :: cs)

/-- A segment of a path that is no keyword. -/
def isSegment (s : List Char) : Bool :=
  isWord s && s != ['t', 'h', 'i', 's']

/-- What a path may begin with: a segment, `this`, or a name after an `@`. -/
def isHead : List Char → Bool
  | '@' :: name => isSegment name
  | first => isWord first

def isPath (written : List Char) : Bool :=
  match splitDots written with
  | [] => false
  | first :: more => isHead first && more.all isSegment

def Constant.WellFormed : Constant → Prop
  | .string value => '"' ∉ value ∧ value.getLast? ≠ some '\\'
  | .number value => value.isFinite = true
  | _ => True

mutual

def Expression.WellFormed : Expression → Prop
  | .constant c => c.WellFormed
  | .path written => isPath written = true
  | .call path args => isPath path = true ∧ argumentsWellFormed false false args

/-- Parameters come before pairs, and names, which only the call of a block has, come last. -/
def argumentsWellFormed (named paired : Bool) : List (Argument Expression) → Prop
  | [] => True
  | .param e :: args => paired = false ∧ e.WellFormed ∧ argumentsWellFormed named false args
  | .pair key e :: args =>
    isWord key = true ∧ e.WellFormed ∧ argumentsWellFormed named true args
  | .params names :: args =>
    named = true ∧ names ≠ [] ∧ (∀ name ∈ names, isWord name = true) ∧ args = []

end

def Call.WellFormed (named : Bool) (c : Call) : Prop :=
  isPath c.path = true ∧ argumentsWellFormed named false c.args

def isTextChar (c : Char) : Bool :=
  c != '<' && c != '&' && c != '{' && c != '\\' && c != '\n'

/-- The characters of the names of elements and attributes. -/
def isMarkupChar (c : Char) : Bool :=
  c.isAlphanum || c == '-'

/-- The text of some elements is read in a way of its own. -/
def isTag (tag : List Char) : Bool :=
  match tag with
  | [] => false
  | c :: cs =>
    c.isAlpha && cs.all isMarkupChar
      && !([['t', 'i', 't', 'l', 'e'], ['s', 't', 'y', 'l', 'e'],
        ['s', 'c', 'r', 'i', 'p', 't']].contains tag)

def isAttribute (a : List Char × List Char) : Bool :=
  !a.1.isEmpty && a.1.all isMarkupChar
    && a.2.all (fun c => c != '"' && c != '&' && c != '{')

def Node.isText : Node → Bool
  | .text _ => true
  | _ => false

mutual

/-- The children of a void element are not written. -/
def Node.WellFormed : Node → Prop
  | .text chars => chars ≠ [] ∧ chars.all isTextChar = true
  | .raw _ => False
  | .element tag attributes children =>
    isTag tag = true ∧ attributes.all isAttribute = true
      ∧ (Html.isVoid tag = false → nodesWellFormed children)
  | .mustache _ call => call.WellFormed false
  | .literal c => c.WellFormed
  | .block call body inverse =>
    call.WellFormed true ∧ nodesWellFormed body ∧ inverseWellFormed inverse

def inverseWellFormed : Option (List Node) → Prop
  | none => True
  | some body => nodesWellFormed body

/-- Two texts in a row would be read as one. -/
def nodesWellFormed : List Node → Prop
  | [] => True
  | n :: ns =>
    n.WellFormed ∧ (n.isText = true → ns.head?.all (fun n => !n.isText) = true)
      ∧ nodesWellFormed ns

end

instance : (c : Constant) → Decidable c.WellFormed
  | .string value => inferInstanceAs (Decidable ('"' ∉ value ∧ value.getLast? ≠ some '\\'))
  | .number value => inferInstanceAs (Decidable (value.isFinite = true))
  | .boolean _ | .null | .undefined => isTrue trivial

mutual

instance Expression.decidable : (e : Expression) → Decidable e.WellFormed
  | .constant c => inferInstanceAs (Decidable c.WellFormed)
  | .path written => inferInstanceAs (Decidable (isPath written = true))
  | .call path args =>
    have := argumentsDecidable false false args
    inferInstanceAs (Decidable (isPath path = true ∧ argumentsWellFormed false false args))

instance argumentsDecidable (named paired : Bool) : (args : List (Argument Expression)) →
    Decidable (argumentsWellFormed named paired args)
  | [] => isTrue trivial
  | .param e :: args =>
    have := e.decidable
    have := argumentsDecidable named false args
    inferInstanceAs
      (Decidable (paired = false ∧ e.WellFormed ∧ argumentsWellFormed named false args))
  | .pair key e :: args =>
    have := e.decidable
    have := argumentsDecidable named true args
    inferInstanceAs
      (Decidable (isWord key = true ∧ e.WellFormed ∧ argumentsWellFormed named true args))
  | .params names :: args =>
    have : Decidable (args = []) := decidable_of_iff _ List.isEmpty_iff
    inferInstanceAs (Decidable (named = true ∧ names ≠ [] ∧ (∀ name ∈ names, isWord name = true)
      ∧ args = []))

end

instance (c : Call) (named : Bool) : Decidable (c.WellFormed named) :=
  inferInstanceAs (Decidable (isPath c.path = true ∧ argumentsWellFormed named false c.args))

mutual

instance Node.decidable : (n : Node) → Decidable n.WellFormed
  | .text chars => inferInstanceAs (Decidable (chars ≠ [] ∧ chars.all isTextChar = true))
  | .raw _ => isFalse id
  | .element tag attributes children =>
    have := nodesDecidable children
    inferInstanceAs (Decidable (isTag tag = true ∧ attributes.all isAttribute = true
      ∧ (Html.isVoid tag = false → nodesWellFormed children)))
  | .mustache _ call => inferInstanceAs (Decidable (call.WellFormed false))
  | .literal c => inferInstanceAs (Decidable c.WellFormed)
  | .block call body inverse =>
    have := nodesDecidable body
    have := inverseDecidable inverse
    inferInstanceAs (Decidable (call.WellFormed true ∧ nodesWellFormed body
      ∧ inverseWellFormed inverse))

instance inverseDecidable : (inverse : Option (List Node)) → Decidable (inverseWellFormed inverse)
  | none => isTrue trivial
  | some body => nodesDecidable body

instance nodesDecidable : (ns : List Node) → Decidable (nodesWellFormed ns)
  | [] => isTrue trivial
  | n :: ns =>
    have := n.decidable
    have := nodesDecidable ns
    inferInstanceAs (Decidable (n.WellFormed
      ∧ (n.isText = true → ns.head?.all (fun n => !n.isText) = true) ∧ nodesWellFormed ns))

end

end Draft

end HtmlTemplate
