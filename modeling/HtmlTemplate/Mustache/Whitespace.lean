import HtmlTemplate.Mustache.Tree
import HtmlTemplate.Text.Blank

/-! Whitespace control. A `~` takes all blanks between its tag and the text next to
it. A block tag, an `{{else}}`, a comment or a partial that is alone on its line takes
that line with it. Which of the two applies is read off the text as written, so it
does not depend on what other tags have taken; text is first trimmed by the tags next
to it, then by the tags of the blocks that it begins or ends. -/

namespace HtmlTemplate.Mustache

/-- How much blank text goes. -/
inductive Trim where
  | all
  /-- Up to the end of the line, or from its start. -/
  | line
deriving DecidableEq, Repr

namespace Content

/-- Trims the start. Text of which a line has gone keeps the next one. -/
def trimStart (t : Trim) (c : Content) : Content :=
  let trimmed := fun value => { c with value, rightStripped := value != c.value }
  match t with
  | .all => trimmed (Text.trimStart c.value)
  | .line => if c.rightStripped then c else trimmed (Text.dropBlankLine c.value)

/-- Trims the end. Text whose end has gone keeps what is left of it. -/
def trimEnd (t : Trim) (c : Content) : Content :=
  let trimmed := fun value => { c with value, leftStripped := value != c.value }
  match t with
  | .all => trimmed (Text.trimEnd c.value)
  | .line => if c.leftStripped then c else trimmed (Text.dropEndIndent c.value)

@[simp] theorem written_trimStart (t : Trim) (c : Content) :
    (c.trimStart t).written = c.written := by
  cases t <;> simp only [trimStart]
  split <;> rfl

@[simp] theorem written_trimEnd (t : Trim) (c : Content) :
    (c.trimEnd t).written = c.written := by
  cases t <;> simp only [trimEnd]
  split <;> rfl

/-- Whether only blanks stand between the last line break and the end. -/
def endsLine (c : Content) : Bool :=
  (Text.takeEndWhile Text.isBlank c.written).contains '\n'

/-- Whether only blanks stand between the start and the first line break. -/
def startsLine (c : Content) : Bool :=
  (c.written.takeWhile Text.isBlank).contains '\n'

def isBlank (c : Content) : Bool :=
  c.written.all Text.isBlank

end Content

/-- Whether nothing else stands before on the line, given the statements before from
the nearest on. The start of the template starts a line, that of a body does not. -/
def startsLine (root : Bool) : List Statement → Bool
  | [] => root
  | .content c :: before => c.endsLine || (root && before.isEmpty && c.isBlank)
  | _ => false

/-- Whether nothing else stands after on the line. The end of the template ends a line,
that of a body does not. -/
def endsLine (root : Bool) : List Statement → Bool
  | [] => root
  | .content c :: after => c.startsLine || (root && after.isEmpty && c.isBlank)
  | _ => false

def trimFirst (t : Trim) : List Statement → List Statement
  | .content c :: ss => .content (c.trimStart t) :: ss
  | ss => ss

def trimLast (t : Trim) : List Statement → List Statement
  | [] => []
  | [.content c] => [.content (c.trimEnd t)]
  | s :: ss => s :: trimLast t ss

namespace Program

def mapBody (f : List Statement → List Statement) (p : Program Statement) : Program Statement :=
  { p with body := f p.body }

/-- Changes the body right after the tag that opens an inverse, which an `{{else if}}`
has inside its block. -/
def mapFirst (f : List Statement → List Statement) (p : Program Statement) : Program Statement :=
  match p with
  | ⟨.block b :: rest, params, true⟩ =>
    ⟨.block { b with program := b.program.map (mapBody f) } :: rest, params, true⟩
  | _ => p.mapBody f

def firstBody (p : Program Statement) : List Statement :=
  match p with
  | ⟨.block b :: _, _, true⟩ => b.program.elim [] (·.body)
  | _ => p.body

/-- Changes the body right before the tag that closes the block, at the end of a chain
of `{{else if}}`. -/
def mapLast (f : List Statement → List Statement) : Program Statement → Program Statement
  | ⟨.block ⟨call, program, some next, openStrip, inverseStrip, closeStrip, loc⟩ :: rest,
      params, true⟩ =>
    ⟨.block ⟨call, program, some (mapLast f next), openStrip, inverseStrip, closeStrip, loc⟩
      :: rest, params, true⟩
  | ⟨.block ⟨call, program, none, openStrip, inverseStrip, closeStrip, loc⟩ :: rest,
      params, true⟩ =>
    ⟨.block ⟨call, program.map (mapBody f), none, openStrip, inverseStrip, closeStrip, loc⟩
      :: rest, params, true⟩
  | p => p.mapBody f

end Program

def applyIf (p : Bool) (f : α → α) (a : α) : α :=
  if p then f a else a

namespace Block

/-- The only section of a block without an `{{else}}`. -/
def trimOnly (b : Block Statement) (p : Program Statement) : Program Statement :=
  p.mapBody fun body =>
    applyIf b.closeStrip.opening (trimLast .all) (applyIf b.openStrip.closing (trimFirst .all) body)

/-- Whether the tag between program and inverse stands alone on its line. -/
def elseAlone (p inverse : Program Statement) : Bool :=
  startsLine false p.body.reverse && endsLine false inverse.firstBody

/-- Trims the bodies of a block by the tags of the block that border them. -/
def trimSections (keepLines : Bool) (b : Block Statement) : Block Statement :=
  match b.program, b.inverse with
  | none, none => b
  | some p, none => { b with program := some (b.trimOnly p) }
  | none, some inverse => { b with inverse := some (b.trimOnly inverse) }
  | some p, some inverse =>
    let alone := !keepLines && elseAlone p inverse
    let program := p.mapBody fun body =>
      applyIf alone (trimLast .line)
        (applyIf b.inverseStrip.opening (trimLast .all)
          (applyIf b.openStrip.closing (trimFirst .all) body))
    let inverse :=
      applyIf alone (Program.mapFirst (trimFirst .line))
        (applyIf b.closeStrip.opening (Program.mapLast (trimLast .all))
          (applyIf b.inverseStrip.closing (Program.mapFirst (trimFirst .all)) inverse))
    { b with program := some program, inverse := some inverse }

def openedBody (b : Block Statement) : List Statement :=
  match b.program, b.inverse with
  | some p, _ => p.body
  | none, some inverse => inverse.body
  | none, none => []

/-- The body that decides whether the closing tag stands alone: the one after the first
`{{else}}`, or the only one. -/
def closedBody (b : Block Statement) : List Statement :=
  match b.program, b.inverse with
  | some _, some inverse => inverse.firstBody
  | _, _ => b.openedBody

def mapOpened (f : List Statement → List Statement) (b : Block Statement) : Block Statement :=
  match b.program with
  | some p => { b with program := some (p.mapBody f) }
  | none => { b with inverse := b.inverse.map (Program.mapBody f) }

def mapClosed (f : List Statement → List Statement) (b : Block Statement) : Block Statement :=
  match b.inverse with
  | some inverse => { b with inverse := some (inverse.mapBody f) }
  | none => { b with program := b.program.map (Program.mapBody f) }

end Block

/-- A statement as the text around it sees it. -/
structure Outline where
  /-- The markers that face the text around. -/
  strip : Strip
  /-- A comment or a partial, which stands alone if both sides are blank. -/
  inline : Bool := false
  /-- The line ends after the opening tag of a block. -/
  opensLine : Bool := false
  /-- The line starts before the closing tag of a block. -/
  closesLine : Bool := false

def Outline.ofBodies (openStrip closeStrip : Strip) (opened closed : List Statement) :
    Outline where
  strip := ⟨openStrip.opening, closeStrip.closing⟩
  opensLine := endsLine false opened
  closesLine := startsLine false closed.reverse

/-- Text has no outline: it is what the others trim. -/
def Statement.outline? : Statement → Option Outline
  | .content _ => none
  | .mustache m | .decorator m => some { strip := m.strip }
  | .comment c => some { strip := c.strip, inline := true }
  | .partialCall p => some { strip := p.strip, inline := true }
  | .block b | .decoratorBlock b =>
    some (.ofBodies b.openStrip b.closeStrip b.openedBody b.closedBody)
  | .partialBlock b => some (.ofBodies b.openStrip b.closeStrip b.program.body b.program.body)

/-- What a statement does to the text around it and, if it is a block, inside it. -/
structure Reach where
  /-- To the text before, in this order. -/
  before : List Trim := []
  after : List Trim := []
  inline : Bool := false
  opensLine : Bool := false
  closesLine : Bool := false

/-- The reach of a statement between those before, from the nearest on, and after. -/
def reach (root keepLines : Bool) (before : List Statement) (s : Statement)
    (after : List Statement) : Reach :=
  match s.outline? with
  | none => {}
  | some o =>
    let starts := startsLine root before
    let ends := endsLine root after
    let inline := !keepLines && o.inline && starts && ends
    let opensLine := !keepLines && o.opensLine && starts
    let closesLine := !keepLines && o.closesLine && ends
    { before := (if o.strip.opening then [.all] else [])
        ++ (if inline || opensLine then [.line] else [])
      after := (if o.strip.closing then [.all] else [])
        ++ (if inline || closesLine then [.line] else [])
      inline, opensLine, closesLine }

/-- The indentation that a partial takes from the text before it when it stands alone. -/
def takenIndent (r : Reach) (opening : Bool) : Option Content → List Char
  | some c =>
    let c := applyIf opening (Content.trimEnd .all) c
    if r.inline && !c.leftStripped && (c.trimEnd .line).leftStripped then
      Text.endIndent c.written
    else []
  | none => []

/-- Trims the bodies of a block whose tags stand alone on their lines. -/
def Statement.trimInside (r : Reach) : Statement → Statement
  | .block b => .block (inside b)
  | .decoratorBlock b => .decoratorBlock (inside b)
  | .partialBlock b =>
    .partialBlock { b with
      program := b.program.mapBody fun body =>
        applyIf r.closesLine (trimLast .line) (applyIf r.opensLine (trimFirst .line) body) }
  | s => s
where
  inside (b : Block Statement) : Block Statement :=
    applyIf r.closesLine (Block.mapClosed (trimLast .line))
      (applyIf r.opensLine (Block.mapOpened (trimFirst .line)) b)

/-- Settles the statements of a body that follow `before`. The trims of the statement
before and, if that is text, what they leave of it are handed on. -/
def settleAfter (root keepLines : Bool) (before : List Statement) (trims : List Trim)
    (text : Option Content) : List Statement → List Statement
  | [] => []
  | s :: after =>
    let r := reach root keepLines before s after
    match s with
    | .content c =>
      let c := trims.foldl (fun c t => c.trimStart t) c
      let next := match after with
        | [] => []
        | n :: after => (reach root keepLines (s :: before) n after).before
      .content (next.foldl (fun c t => c.trimEnd t) c)
        :: settleAfter root keepLines (s :: before) r.after (some c) after
    | .partialCall p =>
      .partialCall { p with indent := takenIndent r p.strip.opening text }
        :: settleAfter root keepLines (s :: before) r.after none after
    | s => s.trimInside r :: settleAfter root keepLines (s :: before) r.after none after

/-- Trims the texts of a body by the statements next to them. -/
def settle (root keepLines : Bool) (body : List Statement) : List Statement :=
  settleAfter root keepLines [] [] none body

mutual

def Statement.control (keepLines : Bool) : Statement → Statement
  | .block ⟨call, program, inverse, openStrip, inverseStrip, closeStrip, loc⟩ =>
    .block (Block.trimSections keepLines ⟨call, controlSection keepLines program,
      controlSection keepLines inverse, openStrip, inverseStrip, closeStrip, loc⟩)
  | .decoratorBlock ⟨call, program, inverse, openStrip, inverseStrip, closeStrip, loc⟩ =>
    .decoratorBlock (Block.trimSections keepLines ⟨call, controlSection keepLines program,
      controlSection keepLines inverse, openStrip, inverseStrip, closeStrip, loc⟩)
  | .partialBlock ⟨call, program, openStrip, closeStrip, loc⟩ =>
    let program := controlProgram keepLines program
    .partialBlock { call, openStrip, closeStrip, loc
                    program := program.mapBody fun body =>
                      applyIf closeStrip.opening (trimLast .all)
                        (applyIf openStrip.closing (trimFirst .all) body) }
  | .mustache m => .mustache m
  | .decorator m => .decorator m
  | .content c => .content c
  | .comment c => .comment c
  | .partialCall p => .partialCall p

def controlAll (keepLines : Bool) : List Statement → List Statement
  | [] => []
  | s :: ss => s.control keepLines :: controlAll keepLines ss

/-- The section of an `{{else if}}` has no text of its own. -/
def controlProgram (keepLines : Bool) : Program Statement → Program Statement
  | ⟨body, params, chained⟩ =>
    let body := controlAll keepLines body
    ⟨if chained then body else settle false keepLines body, params, chained⟩

def controlSection (keepLines : Bool) : Option (Program Statement) → Option (Program Statement)
  | none => none
  | some p => some (controlProgram keepLines p)

end

/-- Whitespace control on a whole template. With `keepLines` only `~` trims. -/
def Program.control (keepLines : Bool) (p : Program Statement) : Program Statement :=
  p.mapBody fun body => settle true keepLines (controlAll keepLines body)

end HtmlTemplate.Mustache
