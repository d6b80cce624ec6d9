import HtmlTemplate.Preprocess

/-! The moments of reading a template. Reading a statement either succeeds and hands on
to the next one or fails, and most of what holds of a template holds because it holds at
every moment on the way, those before a failure included. -/

namespace HtmlTemplate

/-- A sequence of two steps succeeds if both do. -/
theorem bind_eq_ok {ε α β : Type} {x : Except ε α} {f : α → Except ε β} {b : β} :
    x >>= f = .ok b ↔ ∃ a, x = .ok a ∧ f a = .ok b := by
  cases x with
  | error e => simp [bind, Except.bind]
  | ok a => simp [bind, Except.bind]

theorem bind_eq_error {ε α β : Type} {x : Except ε α} {f : α → Except ε β} {e : ε} :
    x >>= f = .error e ↔ x = .error e ∨ ∃ a, x = .ok a ∧ f a = .error e := by
  cases x with
  | error e => simp [bind, Except.bind]
  | ok a => simp [bind, Except.bind]

theorem pure_eq_ok {ε α : Type} {a b : α} : (pure a : Except ε α) = .ok b ↔ a = b := by
  simp [pure, Except.pure]

theorem map_eq_ok {ε α β : Type} {x : Except ε α} {f : α → β} {b : β} :
    x.map f = .ok b ↔ ∃ a, x = .ok a ∧ f a = b := by
  cases x with
  | error e => simp [Except.map]
  | ok a => simp [Except.map]

namespace Tree

/-- A moment of reading statements. -/
inductive Moment where
  /-- A statement is about to be read. -/
  | reads (s : Mustache.Statement) (a : Assembly)
  /-- The last statement has been read. -/
  | done (a : Assembly)
  /-- Part of what the machine reports of a statement has been put into the tree. -/
  | hears (m : Markup)
  /-- The body of a section is about to be opened. -/
  | enters (p : Mustache.Program Mustache.Statement) (a : Assembly)
  /-- The body of a section has been closed. -/
  | leaves (p : Mustache.Program Mustache.Statement) (a : Assembly)

def Moment.markup : Moment → Markup
  | reads _ a => a.markup
  | done a => a.markup
  | hears m => m
  | enters _ a => a.markup
  | leaves _ a => a.markup

namespace Assembly

/-- Nothing is under way at all. -/
structure Idle (a : Assembly) : Prop where
  state : a.tokenizer.state = .beforeData
  current : a.markup.current = none
  pending : a.markup.pending = none

theorem Idle.isData {a : Assembly} (h : a.Idle) : a.tokenizer.state.isData = true := by
  rw [h.state]
  rfl

/-- What the machine reports while a statement is read, sections aside. -/
def report (src : Source) (a : Assembly) (s : Mustache.Statement) : List Html.Emission :=
  match s with
  | .content c =>
    let start := c.loc.start.shift (.ofTrimmed c.written c.value)
    let fed := (a.tokenizer.moveTo start).feed c.value
    fed.1 ++ fed.2.finishData.1
  | s =>
    if a.tokenizer.state.isComment then
      (a.tokenizer.appendComment (src.slice (src.spanFor s.loc))).1
    else []

/-- The markup when the first of some reports have been put into the tree. -/
def Hears (src : Source) (m : Markup) (reports : List Html.Emission) (n : Markup) : Prop :=
  ∃ before, before <+: reports ∧ before.foldlM (fun m e => m.receive src e.event) m = .ok n

/-- Reading a statement opens the body of a section that starts, if it is empty, at an
offset. The inverse of a block comes after its program has been read. -/
inductive Enters (src : Source) (a : Assembly) : Mustache.Statement → Nat →
    Mustache.Program Mustache.Statement → Assembly → Prop
  | program {s : Mustache.Statement} {b : Mustache.Block Mustache.Statement}
      {p : Mustache.Program Mustache.Statement} {c : Call Expression} :
      s = .block b ∨ s = .decoratorBlock b → a.tokenizer.state.isData = true →
      call src b.call = .ok c → b.program = some p →
      Enters src a s (src.spanFor b.loc).start p a
  | inverse {s : Mustache.Statement} {b : Mustache.Block Mustache.Statement}
      {p : Mustache.Program Mustache.Statement} {c : Call Expression}
      {program : Option (Section Statement)} {a' : Assembly} :
      s = .block b ∨ s = .decoratorBlock b → a.tokenizer.state.isData = true →
      call src b.call = .ok c →
      sectionOf? src a (src.spanFor b.loc).start b.program = .ok (program, a') →
      b.inverse = some p →
      Enters src a s (src.spanFor b.loc).start p a'
  | partialBlock {b : Mustache.PartialBlock Mustache.Statement} {c : Call Expression} :
      a.tokenizer.state.isComment = false → partialName src b.call = .ok c →
      Enters src a (.partialBlock b) (src.spanFor b.loc).start b.program a

/-- Reading statements one after the other comes by a moment. -/
inductive Passes (src : Source) : Assembly → List Mustache.Statement → Moment → Prop
  | reads {a : Assembly} {s : Mustache.Statement} {ss : List Mustache.Statement} :
      Passes src a (s :: ss) (.reads s a)
  | done {a : Assembly} : Passes src a [] (.done a)
  | hears {a : Assembly} {s : Mustache.Statement} {ss : List Mustache.Statement} {m : Markup} :
      Hears src a.markup (a.report src s) m → Passes src a (s :: ss) (.hears m)
  | enters {a b : Assembly} {s : Mustache.Statement} {ss : List Mustache.Statement}
      {fallback : Nat} {p : Mustache.Program Mustache.Statement} :
      Enters src a s fallback p b → Passes src a (s :: ss) (.enters p b)
  | inside {a b : Assembly} {s : Mustache.Statement} {ss : List Mustache.Statement}
      {fallback : Nat} {p : Mustache.Program Mustache.Statement} {moment : Moment} :
      Enters src a s fallback p b → Passes src b.pushBody.2 p.body moment →
      Passes src a (s :: ss) moment
  | leaves {a b c : Assembly} {s : Mustache.Statement} {ss : List Mustache.Statement}
      {fallback : Nat} {p : Mustache.Program Mustache.Statement} {nodes : Section Statement} :
      Enters src a s fallback p b → sectionOf src b fallback p = .ok (nodes, c) →
      Passes src a (s :: ss) (.leaves p c)
  | later {a b : Assembly} {s : Mustache.Statement} {ss : List Mustache.Statement}
      {moment : Moment} :
      statement src a s = .ok b → Passes src b ss moment → Passes src a (s :: ss) moment

/-- Where reading a template starts: in the body of the template. -/
def initial (mode : Html.Mode) : Assembly := (pushBody ⟨{ mode }, {}⟩).2

end Assembly

end Tree

/-- Reading a template comes by a moment. After the last statement the machine reports
the end of a text that is under way. -/
inductive Passes (text : List Char) (options : Options) : Tree.Moment → Prop
  | statements {program : Mustache.Program Mustache.Statement} {moment : Tree.Moment} :
      Mustache.parse text options.keepLines = .ok program →
      Tree.Assembly.Passes ⟨text, options.moduleName⟩ (.initial options.mode) program.body moment →
      Passes text options moment
  | finish {program : Mustache.Program Mustache.Statement} {a : Tree.Assembly}
      {m : Tree.Markup} :
      Mustache.parse text options.keepLines = .ok program →
      Tree.Assembly.statements ⟨text, options.moduleName⟩ (.initial options.mode) program.body
        = .ok a →
      Tree.Assembly.Hears ⟨text, options.moduleName⟩ a.markup a.tokenizer.finish.1 m →
      Passes text options (.hears m)

/-- Apart from what is heard, it comes by the moments of reading the statements. -/
theorem passes_iff {text : List Char} {options : Options}
    {program : Mustache.Program Mustache.Statement} {moment : Tree.Moment}
    (hparse : Mustache.parse text options.keepLines = .ok program)
    (hne : ∀ m, moment ≠ .hears m) :
    Passes text options moment ↔
      Tree.Assembly.Passes ⟨text, options.moduleName⟩ (.initial options.mode) program.body
        moment := by
  constructor
  · intro hpasses
    cases hpasses with
    | statements hparse' hpasses =>
      rw [hparse, Except.ok.injEq] at hparse'
      exact hparse' ▸ hpasses
    | finish => exact absurd rfl (hne _)
  · exact .statements hparse

end HtmlTemplate
