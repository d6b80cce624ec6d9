import HtmlTemplate.Proofs.Spans
import HtmlTemplate.Proofs.Steady

/-! A template as the machine sees it: each character that is looked at, with the machine and the
tree in front of it and all that has been reported before, in the statements before it and in the
sections that have been read. -/

namespace HtmlTemplate.Tree

open Html (Event Scribe Tokenizer Watched)

namespace Assembly

/-- What is reported of a statement, sections aside. -/
def told (src : Source) (a : Assembly) (s : Mustache.Statement) : List Event :=
  (a.report src s).map (·.event)

/-- A section of a statement is entered, and something has been reported of the sections before
it. -/
inductive EntersAfter (src : Source) (a : Assembly) : Mustache.Statement → List Event →
    Mustache.Program Mustache.Statement → Assembly → Prop
  | program {s : Mustache.Statement} {b : Mustache.Block Mustache.Statement}
      {p : Mustache.Program Mustache.Statement} {c : Call Expression} :
      s = .block b ∨ s = .decoratorBlock b → a.tokenizer.state.isData = true →
      call src b.call = .ok c → b.program = some p → EntersAfter src a s [] p a
  | inverse {s : Mustache.Statement} {b : Mustache.Block Mustache.Statement}
      {p : Mustache.Program Mustache.Statement} {c : Call Expression}
      {program : Option (Section Statement)} {a' : Assembly} :
      s = .block b ∨ s = .decoratorBlock b → a.tokenizer.state.isData = true →
      call src b.call = .ok c →
      sectionOf? src a (src.spanFor b.loc).start b.program = .ok (program, a') →
      b.inverse = some p →
      EntersAfter src a s (collectSection? src (told src) a b.program) p a'
  | partialBlock {b : Mustache.PartialBlock Mustache.Statement} {c : Call Expression} :
      a.tokenizer.state.isComment = false → partialName src b.call = .ok c →
      EntersAfter src a (.partialBlock b) [] b.program a

/-- Reading statements comes to one of them, and something has been reported before. -/
inductive ReadsAfter (src : Source) : Assembly → List Mustache.Statement → List Event →
    Mustache.Statement → Assembly → Prop
  | here {a : Assembly} {s : Mustache.Statement} {ss : List Mustache.Statement} :
      ReadsAfter src a (s :: ss) [] s a
  | inside {a b c : Assembly} {s t : Mustache.Statement} {ss : List Mustache.Statement}
      {p : Mustache.Program Mustache.Statement} {heard more : List Event} :
      EntersAfter src a s heard p b → ReadsAfter src b.pushBody.2 p.body more t c →
      ReadsAfter src a (s :: ss) (heard ++ more) t c
  | later {a b c : Assembly} {s t : Mustache.Statement} {ss : List Mustache.Statement}
      {more : List Event} :
      statement src a s = .ok b → ReadsAfter src b ss more t c →
      ReadsAfter src a (s :: ss) (collect src (told src) a s ++ more) t c

variable {src : Source} {a b c : Assembly} {s t : Mustache.Statement}
  {ss : List Mustache.Statement} {heard : List Event}

def InStep (a : Assembly) (r : Scribe) : Prop :=
  Attuned a.tokenizer a.markup r []

variable {r : Scribe}

theorem inStep_initial (mode : Html.Mode) : InStep (initial mode) {} where
  name := .outside rfl fun hne => absurd rfl hne
  raw hlast := by cases hlast
  head := rfl
  opened hlast := by cases hlast
  inner hhead := by cases hhead
  outer := List.forall_mem_nil _

theorem InStep.steady (h : InStep a r) (hb : Steady a b) : InStep b r := by
  refine h.of_same ?_ (hb.head.trans h.head) rfl hb.names
  obtain ⟨state, htokenizer, rfl | ⟨hin, hin'⟩⟩ := hb.tokenizer
  · rw [htokenizer]
    exact h.toWatched
  · rw [htokenizer]
    exact h.toWatched.become hin hin'

theorem InStep.pushBody (h : InStep a r) : InStep a.pushBody.2 r :=
  h.of_same h.toWatched h.head rfl rfl

theorem follow_told {step : List Html.Emission × Tokenizer} (h : a.follow src step = .ok b) :
    (step.1.map (·.event)).foldlM (Markup.receive src) a.markup = .ok b.markup
      ∧ b.tokenizer = step.2 := by
  rw [List.foldlM_map]
  exact follow_ok h

theorem InStep.content (h : InStep a r) {x : Mustache.Content} (hb : a.content src x = .ok b) :
    InStep b ((told src a (.content x)).foldl Scribe.record r) := by
  obtain ⟨hmarkup, htokenizer⟩ := content_ok hb
  rw [report, List.map_append, List.foldlM_append, bind_eq_ok] at hmarkup
  obtain ⟨m, hm, hmarkup⟩ := hmarkup
  rw [InStep, htokenizer, told, report, List.map_append, List.foldl_append]
  exact ((h.moveTo (textStart x) x.value).feed hm).finishData hmarkup

theorem InStep.flat (h : InStep a r) (hb : statement src a s = .ok b)
    (hflat : isSectioned s = false ∨ a.tokenizer.state.isComment = true) :
    InStep b ((told src a s).foldl Scribe.record r) := by
  rcases flat_ok hb hflat with ⟨x, rfl, hb⟩ | ⟨hne, hcomment, hb⟩ | ⟨hne, hcomment, hb⟩
  · exact h.content hb
  · rw [told, report_of_ne hne, if_pos hcomment]
    obtain ⟨hmarkup, htokenizer⟩ := follow_told hb
    have hdone := Attuned.appendComment h hcomment _ hmarkup
    rwa [← htokenizer] at hdone
  · rw [told, report_of_ne hne, if_neg (by simp [hcomment])]
    exact h.steady hb

def StaysInStep (src : Source) : RunProperty := fun a ss b =>
  ∀ {r}, InStep a r → InStep b ((collectAll src (told src) a ss).foldl Scribe.record r)

/-- Of a statement with sections nothing is reported besides what is reported in them. -/
theorem told_eq_nil (hcomment : a.tokenizer.state.isComment = false)
    (hs : ∀ x, s ≠ .content x) : told src a s = [] := by
  rw [told, report_of_ne hs, if_neg (by simp [hcomment])]
  rfl

theorem Inside.inStep {fallback : Nat} {p : Mustache.Program Mustache.Statement}
    {nodes : Section Statement} (h : Inside src (StaysInStep src) a fallback p nodes b)
    (ha : InStep a r) :
    InStep b ((collectSection src (told src) a p).foldl Scribe.record r) := by
  obtain ⟨hsection, hinside⟩ := h
  obtain ⟨inside, hread, hsteady⟩ := sectionOf_steady hsection
  obtain ⟨body, params, chained⟩ := p
  exact (hinside inside hread ha.pushBody).steady hsteady

theorem Inside?.inStep {fallback : Nat} {p : Option (Mustache.Program Mustache.Statement)}
    {nodes : Option (Section Statement)}
    (h : Inside? src (StaysInStep src) a fallback p nodes b) (ha : InStep a r) :
    InStep b ((collectSection? src (told src) a p).foldl Scribe.record r) := by
  cases p with
  | none =>
    obtain ⟨-, rfl⟩ := h
    exact ha
  | some p =>
    obtain ⟨_, -, hs⟩ := h
    exact hs.inStep ha

theorem staysInStep (src : Source) : Follows src (StaysInStep src) where
  nil a := fun h => h
  flat {a b c s ss} hflat hb ih := fun {r} ha => by
    rw [collectAll_cons hb, collect_flat hflat, List.foldl_append]
    exact ih (ha.flat hb hflat)
  block {a mid b c s child m node ss program inverse} hs hdata hcall hprogram hinverse hp hi hblock
      hb ih := fun {r} ha => by
    have hs' : s = .block m ∨ s = .decoratorBlock m := hs.imp And.left And.left
    have hcomment : a.tokenizer.state.isComment = false := Html.State.isComment_of_isData hdata
    have hne : ∀ x, s ≠ .content x := by rcases hs' with rfl | rfl <;> simp
    rw [collectAll_cons hb, collect_block hs' hdata hprogram.read, told_eq_nil hcomment hne,
      List.nil_append, List.foldl_append, List.foldl_append]
    exact ih ((hinverse.inStep (hprogram.inStep ha)).steady (steady_append b child))
  partialBlock {a b c m callee nodes ss} hcomment hcallee hsection hb ih := fun {r} ha => by
    rw [collectAll_cons hb, collect_partialBlock hcomment, told_eq_nil hcomment (by simp),
      List.nil_append, List.foldl_append]
    obtain ⟨callee', ⟨body, params, chained⟩, openStrip, closeStrip, loc⟩ := m
    exact ih ((hsection.inStep ha).steady (steady_append b _))

theorem EntersAfter.inStep {p : Mustache.Program Mustache.Statement}
    (h : EntersAfter src a s heard p b) (ha : InStep a r) :
    InStep b (heard.foldl Scribe.record r) := by
  cases h with
  | program | partialBlock => exact ha
  | inverse _ _ _ hmid _ => exact ((staysInStep src).inside? _ hmid).inStep ha

private theorem collect_inStep (hb : statement src a s = .ok b) (ha : InStep a r) :
    InStep b ((collect src (told src) a s).foldl Scribe.record r) := by
  have hrun := (staysInStep src).head s hb ((staysInStep src).nil b) ha
  rw [collectAll_cons hb] at hrun
  simpa [collectAll] using hrun

theorem ReadsAfter.inStep (h : ReadsAfter src a ss heard t c) (ha : InStep a r) :
    InStep c (heard.foldl Scribe.record r) := by
  induction h generalizing r with
  | here => exact ha
  | inside henters _ ih =>
    rw [List.foldl_append]
    exact ih (henters.inStep ha).pushBody
  | later hb _ ih =>
    rw [List.foldl_append]
    exact ih (collect_inStep hb ha)

end Assembly

/-- A character that the machine looks at. -/
structure Glance where
  tokenizer : Tokenizer
  markup : Markup
  /-- All that has been reported so far. -/
  heard : List Event
  /-- The part of the text between mustaches that has been read already. -/
  read : List Char
  char : Char
  /-- The rest of that text. -/
  rest : List Char

def Glance.step (g : Glance) : Html.Step :=
  g.tokenizer.step g.char g.rest

/-- The next character, which is looked at if what is reported of this one can be put into the
tree. -/
def Glance.next? (src : Source) (g : Glance) : Option Glance :=
  match g.step.events.foldlM (Markup.receive src) g.markup, g.rest.drop g.step.ahead with
  | .ok markup, char :: rest =>
    some { tokenizer := g.step.now, markup, heard := g.heard ++ g.step.events
           read := g.read ++ g.char :: g.rest.take g.step.ahead, char, rest }
  | _, _ => none

theorem Glance.next?_eq_some {src : Source} {g g' : Glance} (h : g.next? src = some g') :
    g.step.events.foldlM (Markup.receive src) g.markup = .ok g'.markup
      ∧ g.rest.drop g.step.ahead = g'.char :: g'.rest ∧ g'.tokenizer = g.step.now
      ∧ g'.heard = g.heard ++ g.step.events
      ∧ g'.read = g.read ++ g.char :: g.rest.take g.step.ahead := by
  unfold next? at h
  split at h
  · rename_i hm hrest
    obtain rfl := Option.some.inj h
    exact ⟨hm, hrest, rfl, rfl, rfl⟩
  · cases h

def Glance.after? (src : Source) (g : Glance) : Nat → Option Glance
  | 0 => some g
  | n + 1 => (g.next? src).bind (·.after? src n)

end HtmlTemplate.Tree

namespace HtmlTemplate

open Html (Event Scribe)
open HtmlTemplate.Tree (Glance)
open HtmlTemplate.Tree.Assembly (ReadsAfter InStep inStep_initial textStart)

/-- While a template is read, even if it fails later on, the machine looks at a character. -/
inductive Sees (text : List Char) (options : Options) : Glance → Prop
  | first {program : Mustache.Program Mustache.Statement} {heard : List Event}
      {x : Mustache.Content} {a : Tree.Assembly} {c : Char} {cs : List Char} :
      Mustache.parse text options.keepLines = .ok program →
      ReadsAfter ⟨text, options.moduleName⟩ (.initial options.mode) program.body heard
        (.content x) a →
      x.value = c :: cs →
      Sees text options ⟨a.tokenizer.moveTo (textStart x), a.markup, heard, [], c, cs⟩
  | next {g g' : Glance} : Sees text options g → g.next? ⟨text, options.moduleName⟩ = some g' →
      Sees text options g'

theorem Sees.after {text : List Char} {options : Options} {g g' : Glance}
    (h : Sees text options g) {n : Nat} (hg : g.after? ⟨text, options.moduleName⟩ n = some g') :
    Sees text options g' := by
  induction n generalizing g with
  | zero => exact Option.some.inj hg ▸ h
  | succ n ih =>
    obtain ⟨k, hk, hg⟩ := Option.bind_eq_some_iff.mp hg
    exact ih (h.next hk) hg

theorem Sees.attuned {text : List Char} {options : Options} {g : Glance}
    (h : Sees text options g) :
    Tree.Attuned g.tokenizer g.markup (g.heard.foldl Scribe.record {}) (g.char :: g.rest) := by
  induction h with
  | first _ hreads hvalue =>
    rw [← hvalue]
    exact (hreads.inStep (inStep_initial _)).moveTo _ _
  | next _ hnext ih =>
    obtain ⟨hm, hrest, htokenizer, hheard, -⟩ := Glance.next?_eq_some hnext
    rw [← hrest, htokenizer, hheard, List.foldl_append]
    exact ih.step hm

end HtmlTemplate
