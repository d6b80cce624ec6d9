import HtmlTemplate.Proofs.Containment
import HtmlTemplate.Proofs.Evaluation

/-! Bodies and the tags around them. Nothing is under way when a body ends, and nothing is
when the body of a block begins. The body of a partial block may begin inside a tag, which
its text can then end. -/

namespace HtmlTemplate

namespace Mustache

theorem Between.ordered {lo : Position} {ts : List Token} {body : List Statement}
    {opening closing : Token} (h : Between ts body opening closing) (hts : Sorted lo ts) :
    lo ≤ opening.loc.stop ∧ opening.loc.stop ≤ closing.loc.start
      ∧ Ordered opening.loc.stop closing.loc.start body := by
  obtain ⟨before, inside, after, written, hle, rfl, -, -, hstatements, hbare⟩ := h
  obtain ⟨hlo, hrest⟩ := hts.after
  obtain ⟨hi, hleaves, hordered, -, -⟩ := (statements_read _ hstatements).laid hrest
  refine ⟨hlo, le_trans hleaves.le hleaves.sorted.1, ?_⟩
  rw [← ordered_bare, ← hbare, ordered_bare]
  exact hordered.mono (le_refl _) hleaves.sorted.1

end Mustache

namespace Tree

/-- A node of a body, or of an element in it. -/
inductive Placed (body : List Statement) : Statement → Prop
  | here {s : Statement} : s ∈ body → Placed body s
  | inside {e : Element Statement} {s : Statement} :
      Placed body (.element e) → s ∈ e.children → Placed body s

theorem Statement.Nested.span {outer : Span} {s : Statement} (h : s.Nested outer) :
    outer.Encloses s.span := by
  cases s with
  | dynamic d =>
    cases d with
    | call m => exact h.1
    | literal m => exact h.1
  | block b =>
    obtain ⟨call, program, inverse, openStrip, inverseStrip, closeStrip, span⟩ := b
    exact h.1
  | decorator m => exact h.1
  | decoratorBlock b =>
    obtain ⟨call, program, inverse, openStrip, inverseStrip, closeStrip, span⟩ := b
    exact h.1
  | partialCall p => exact h.1
  | partialBlock p =>
    obtain ⟨call, ⟨body, params, chained, inner⟩, openStrip, closeStrip, span⟩ := p
    exact h.1
  | mustacheComment c => exact h
  | comment c => exact h
  | element e =>
    obtain ⟨tag, selfClosing, attributes, params, modifiers, comments, children, span⟩ := e
    exact h.1
  | text t => exact h

theorem Placed.nested {outer : Span} {body : List Statement} {s : Statement}
    (hs : Placed body s) (h : statementsNested outer body) : s.Nested outer := by
  induction hs with
  | here hmem => exact statementsNested_iff.mp h _ hmem
  | @inside e s _ hmem ih =>
    obtain ⟨tag, selfClosing, attributes, params, modifiers, comments, children, span⟩ := e
    exact (statementsNested_iff.mp ih.2.2.2.2 s hmem).widen ih.1.contains

namespace Assembly

variable {src : Source} {a b : Assembly}

theorem Passes.reads_of_enters {ss : List Mustache.Statement}
    {p : Mustache.Program Mustache.Statement} (h : Passes src a ss (.enters p b)) :
    ∃ s a' fallback, Passes src a ss (.reads s a') ∧ Enters src a' s fallback p b := by
  generalize hmoment : Moment.enters p b = moment at h
  induction h with
  | @enters a _ s _ fallback _ henters =>
    cases hmoment
    exact ⟨s, a, fallback, .reads, henters⟩
  | inside henters _ ih =>
    obtain ⟨s, a', fallback, hreads, henters'⟩ := ih hmoment
    exact ⟨s, a', fallback, .inside henters hreads, henters'⟩
  | later hstatement _ ih =>
    obtain ⟨s, a', fallback, hreads, henters⟩ := ih hmoment
    exact ⟨s, a', fallback, .later hstatement hreads, henters⟩
  | _ => cases hmoment

theorem Passes.enters_of_reads {ss : List Mustache.Statement} {s : Mustache.Statement}
    {fallback : Nat} {p : Mustache.Program Mustache.Statement} {c : Assembly}
    (h : Passes src a ss (.reads s b)) (he : Enters src b s fallback p c) :
    Passes src a ss (.enters p c) := by
  generalize hmoment : Moment.reads s b = moment at h
  induction h with
  | reads =>
    cases hmoment
    exact .enters he
  | inside henters _ ih => exact .inside henters (ih hmoment)
  | later hstatement _ ih => exact .later hstatement (ih hmoment)
  | _ => cases hmoment

theorem Passes.reads_of_leaves {ss : List Mustache.Statement}
    {p : Mustache.Program Mustache.Statement} (h : Passes src a ss (.leaves p b)) :
    ∃ s a' fallback c nodes, Passes src a ss (.reads s a') ∧ Enters src a' s fallback p c
      ∧ sectionOf src c fallback p = .ok (nodes, b) := by
  generalize hmoment : Moment.leaves p b = moment at h
  induction h with
  | @leaves a c _ s _ fallback _ nodes henters hsection =>
    cases hmoment
    exact ⟨s, a, fallback, c, nodes, .reads, henters, hsection⟩
  | inside henters _ ih =>
    obtain ⟨s, a', fallback, c, nodes, hreads, h⟩ := ih hmoment
    exact ⟨s, a', fallback, c, nodes, .inside henters hreads, h⟩
  | later hstatement _ ih =>
    obtain ⟨s, a', fallback, c, nodes, hreads, h⟩ := ih hmoment
    exact ⟨s, a', fallback, c, nodes, .later hstatement hreads, h⟩
  | _ => cases hmoment

private theorem block_of_statement {s : Mustache.Statement} {m : Mustache.Block Mustache.Statement}
    (hs : s = .block m ∨ s = .decoratorBlock m) (hdata : a.tokenizer.state.isData = true)
    (h : statement src a s = .ok b) : ∃ node c, block src a m = .ok (node, c) := by
  have hcomment := Html.State.isComment_of_isData hdata
  rcases hs with rfl | rfl
  · cases statement_ok h with
    | commented _ hcomment' => simp [hcomment] at hcomment'
    | block hblock => exact ⟨_, _, hblock⟩
  · cases statement_ok h with
    | commented _ hcomment' => simp [hcomment] at hcomment'
    | decoratorBlock hblock => exact ⟨_, _, hblock⟩

theorem Enters.sectionOf_ok {s : Mustache.Statement} {fallback : Nat}
    {p : Mustache.Program Mustache.Statement} {c : Assembly} (h : Enters src a s fallback p b)
    (hs : statement src a s = .ok c) :
    ∃ nodes d, sectionOf src b fallback p = .ok (nodes, d) := by
  cases h with
  | program hblock hdata _ hp =>
    obtain ⟨node, d, h⟩ := block_of_statement hblock hdata hs
    obtain ⟨-, -, program, -, between, -, hprogram, -, -⟩ := block_ok h
    rw [hp] at hprogram
    obtain ⟨nodes, -, hnodes⟩ := sectionOf?_ok hprogram
    exact ⟨nodes, between, hnodes⟩
  | inverse hblock hdata _ hbefore hp =>
    obtain ⟨node, d, h⟩ := block_of_statement hblock hdata hs
    obtain ⟨-, -, program, inverse, between, -, hprogram, hinverse, -⟩ := block_ok h
    rw [hbefore, Except.ok.injEq, Prod.mk.injEq] at hprogram
    obtain ⟨-, rfl⟩ := hprogram
    rw [hp] at hinverse
    obtain ⟨nodes, -, hnodes⟩ := sectionOf?_ok hinverse
    exact ⟨nodes, d, hnodes⟩
  | partialBlock hcomment _ =>
    cases Assembly.statement_ok hs with
    | commented _ hcomment' => simp [hcomment] at hcomment'
    | partialBlock _ _ hsection => exact ⟨_, _, hsection⟩

/-- What is kept by entering a section and by reading a statement is known wherever a statement
is read. -/
theorem Passes.kept {I : Assembly → List Mustache.Statement → Prop}
    {ss : List Mustache.Statement} {s : Mustache.Statement}
    (hinside : ∀ {a b s ss fallback p}, I a (s :: ss) → Enters src a s fallback p b →
      I b.pushBody.2 p.body)
    (hlater : ∀ {a b s ss}, I a (s :: ss) → statement src a s = .ok b → I b ss)
    (h : Passes src a ss (.reads s b)) (ha : I a ss) : ∃ rest, I b (s :: rest) := by
  generalize hmoment : Moment.reads s b = moment at h
  induction h with
  | reads =>
    cases hmoment
    exact ⟨_, ha⟩
  | inside henters _ ih => exact ih (hinside ha henters) hmoment
  | later hstatement _ ih => exact ih (hlater ha hstatement) hmoment
  | _ => cases hmoment

theorem Passes.statement_ok {ss : List Mustache.Statement} {s : Mustache.Statement} {c : Assembly}
    (h : Passes src a ss (.reads s b)) (hss : statements src a ss = .ok c) :
    ∃ d, statement src b s = .ok d := by
  obtain ⟨rest, last, hlast⟩ := h.kept (I := fun a ss => ∃ c, statements src a ss = .ok c)
    (by
      rintro a b s ss fallback p ⟨c, hc⟩ henters
      obtain ⟨d, hd, -⟩ := statements_cons_ok hc
      obtain ⟨nodes, _, hsection⟩ := henters.sectionOf_ok hd
      obtain ⟨inside, -, -, hinside, -⟩ := Assembly.sectionOf_ok hsection
      exact ⟨inside, hinside⟩)
    (by
      rintro a b s ss ⟨c, hc⟩ hstatement
      obtain ⟨d, hd, hrest⟩ := statements_cons_ok hc
      rw [hstatement, Except.ok.injEq] at hd
      exact ⟨c, hd ▸ hrest⟩)
    ⟨c, hss⟩
  obtain ⟨d, hd, -⟩ := statements_cons_ok hlast
  exact ⟨d, hd⟩

/-- What comes before some statements is settled, and they are laid out as their tokens
are. -/
def Laid (src : Source) (ts : List Mustache.Token) (a : Assembly)
    (ss : List Mustache.Statement) : Prop :=
  ∃ bottom base lo hi, 1 ≤ lo.line ∧ Mustache.Ordered lo hi ss ∧ Mustache.allFit ss
    ∧ Mustache.allTagged ts ss ∧ Settled ⟨src, bottom, base⟩ (src.offsetFor lo) a

section
variable {ts : List Mustache.Token} {s : Mustache.Statement} {ss : List Mustache.Statement}

theorem Laid.head (h : Laid src ts a (s :: ss)) : Laid src ts a [s] := by
  obtain ⟨bottom, base, lo, hi, hlo, hordered, hfits, htagged, ha⟩ := h
  exact ⟨bottom, base, lo, hi, hlo, ⟨hordered.1, hordered.2.1, trivial⟩, ⟨hfits.1, trivial⟩,
    ⟨htagged.1, trivial⟩, ha⟩

theorem Laid.tail (h : Laid src ts a (s :: ss)) (hs : statement src a s = .ok b) :
    Laid src ts b ss := by
  obtain ⟨bottom, base, lo, hi, hlo, hordered, hfits, htagged, ha⟩ := h
  have hline := Position.one_le_line_of_le (le_trans hordered.1.1 hordered.1.2.1) hlo
  exact ⟨bottom, base, _, hi, hline, hordered.2.2, hfits.2, htagged.2,
    statement_settled hlo s hordered.1 hordered.2.1 hfits.1 ha hs⟩

theorem Settled.between_sections {bottom : Nat} {base : List (Nat × Frame)} {lo hi : Position}
    {m : Mustache.Block Mustache.Statement} {program : Option (Section Statement)}
    (hlo : 1 ≤ lo.line) (hloc : m.loc.Within lo hi) (hnested : m.Nested)
    (hfits : Mustache.Block.Fits m) (hdata : a.tokenizer.state.isData = true)
    (ha : Settled ⟨src, bottom, base⟩ (src.offsetFor lo) a)
    (h : sectionOf? src a (src.spanFor m.loc).start m.program = .ok (program, b)) :
    Settled ⟨src, bottom, base⟩ (src.offsetFor lo) b ∧ b.Idle := by
  obtain ⟨c, written, inverse, openStrip, inverseStrip, closeStrip, loc⟩ := m
  obtain ⟨hspan, heq⟩ := spanFor_within src hlo hloc
  have hline := Position.one_le_line_of_le hloc.1 hlo
  have hfallback := Span.encloses_empty (Nat.le_refl (src.spanFor loc).start) hspan.2.1
  rw [heq] at hfallback
  obtain ⟨hsettled, hidle, -⟩ := sectionOf?_settled hline hloc.2.1 (src.offsetFor_mono hlo hloc.1)
    hfallback written hnested.2.1 hfits.1 ha (ha.idle hdata) h
  exact ⟨hsettled, hidle⟩

/-- Where a section is entered everything is as settled as where its statement begins, and
the section is laid out as its statement is. -/
theorem Enters.settled {bottom : Nat} {base : List (Nat × Frame)} {lo hi : Position}
    {fallback : Nat} {p : Mustache.Program Mustache.Statement} (h : Enters src a s fallback p b)
    (hlo : 1 ≤ lo.line) (hloc : s.loc.Within lo hi) (hnested : s.Nested) (hfits : s.Fits)
    (htagged : s.Tagged ts) (ha : Settled ⟨src, bottom, base⟩ (src.offsetFor lo) a) :
    Settled ⟨src, bottom, base⟩ (src.offsetFor lo) b
      ∧ p.Within s.loc.start s.loc.stop ∧ p.Fits ∧ p.Tagged ts
      ∧ (b.Idle ∨ b = a ∧ a.tokenizer.state.isComment = false ∧ ∃ q, s = .partialBlock q) := by
  cases h with
  | @program _ m _ _ hblock hdata _ hp =>
    obtain ⟨c, program, inverse, openStrip, inverseStrip, closeStrip, loc⟩ := m
    obtain rfl : program = some p := hp
    rcases hblock with rfl | rfl
    · exact ⟨ha, hnested.2.1, hfits.1, htagged.1, .inl (ha.idle hdata)⟩
    · exact ⟨ha, hnested.2.1, hfits.1, htagged.1, .inl (ha.idle hdata)⟩
  | @inverse _ m _ _ _ _ hblock hdata _ hbefore hp =>
    obtain ⟨c, program, inverse, openStrip, inverseStrip, closeStrip, loc⟩ := m
    obtain rfl : inverse = some p := hp
    rcases hblock with rfl | rfl
    · obtain ⟨hb, hidle⟩ := ha.between_sections hlo hloc hnested hfits hdata hbefore
      exact ⟨hb, hnested.2.2, hfits.2, htagged.2, .inl hidle⟩
    · obtain ⟨hb, hidle⟩ := ha.between_sections hlo hloc hnested hfits hdata hbefore
      exact ⟨hb, hnested.2.2, hfits.2, htagged.2, .inl hidle⟩
  | @partialBlock m _ hcomment _ =>
    obtain ⟨c, program, openStrip, closeStrip, loc⟩ := m
    exact ⟨ha, hnested.2, hfits, htagged, .inr ⟨rfl, hcomment, _, rfl⟩⟩

theorem Laid.inside {fallback : Nat} {p : Mustache.Program Mustache.Statement}
    (h : Laid src ts a (s :: ss)) (he : Enters src a s fallback p b) :
    Laid src ts b.pushBody.2 p.body := by
  obtain ⟨bottom, base, lo, hi, hlo, hordered, hfits, htagged, ha⟩ := h
  obtain ⟨hb, hwithin, hfits', htagged', -⟩ := he.settled hlo hordered.1 hordered.2.1 hfits.1
    htagged.1 ha
  obtain ⟨body, params, chained⟩ := p
  have hline := Position.one_le_line_of_le hordered.1.1 hlo
  have hle := src.offsetFor_mono hlo hordered.1.1
  exact ⟨0, b.markup.stack.frames, _, _, hline, hwithin, hfits', htagged'.2,
    (hb.later hle).pushBody (Nat.zero_le _) (above_zero src b)⟩

theorem Passes.laid (h : Passes src a ss (.reads s b)) (ha : Laid src ts a ss) :
    Laid src ts b [s] := by
  obtain ⟨rest, hb⟩ := h.kept Laid.inside Laid.tail ha
  exact hb.head

theorem Passes.laid_done (h : Passes src a ss (.done b)) (ha : Laid src ts a ss) :
    Laid src ts b [] := by
  generalize hmoment : Moment.done b = moment at h
  induction h with
  | done =>
    cases hmoment
    exact ha
  | inside henters _ ih => exact ih (ha.inside henters) hmoment
  | later hstatement _ ih => exact ih (ha.tail hstatement) hmoment
  | _ => cases hmoment

theorem Passes.entered {p : Mustache.Program Mustache.Statement}
    (h : Passes src a ss (.enters p b)) (ha : Laid src ts a ss) :
    1 ≤ b.tokenizer.position.line ∧ p.Fits ∧ p.Tagged ts
      ∧ (b.Idle ∨ ∃ q, Passes src a ss (.reads (.partialBlock q) b)
        ∧ b.tokenizer.state.isComment = false ∧ (b.tokenizer.state.isData = true → b.Idle)) := by
  obtain ⟨s, a', fallback, hreads, henters⟩ := h.reads_of_enters
  obtain ⟨bottom, base, lo, hi, hlo, hordered, hfits, htagged, ha'⟩ := hreads.laid ha
  obtain ⟨hb, -, hfits', htagged', hidle⟩ := henters.settled hlo hordered.1 hordered.2.1 hfits.1
    htagged.1 ha'
  refine ⟨hb.line, hfits', htagged', hidle.imp_right ?_⟩
  rintro ⟨rfl, hcomment, q, rfl⟩
  exact ⟨q, hreads, hcomment, fun hdata => hb.idle hdata⟩

theorem Passes.left {p : Mustache.Program Mustache.Statement} (h : Passes src a ss (.leaves p b))
    (ha : Laid src ts a ss) : b.Idle := by
  obtain ⟨s, a', fallback, c, nodes, hreads, henters, hsection⟩ := h.reads_of_leaves
  obtain ⟨bottom, base, lo, hi, hlo, hordered, hfits, htagged, ha'⟩ := hreads.laid ha
  obtain ⟨hc, hwithin, hfits', -, -⟩ := henters.settled hlo hordered.1 hordered.2.1 hfits.1
    htagged.1 ha'
  have hline := Position.one_le_line_of_le hordered.1.1 hlo
  exact (sectionOf_settled hline hordered.1.2.1 (src.offsetFor_mono hlo hordered.1.1)
    (Nat.zero_le _) p hwithin hfits' hc (above_zero src c) hsection).2.1

end

theorem Idle.pushBody (h : a.Idle) (hline : 1 ≤ a.tokenizer.position.line) (src : Source)
    (now : Nat) : Settled ⟨src, now, a.markup.stack.frames⟩ now a.pushBody.2 :=
  settled_of_at .beforeData h.state hline
    (.rest_of_current_none (.body (Nat.le_refl _) (by simp)) h.current h.pending) rfl rfl
    (by decide) (by decide)

theorem Idle.sectionOf_between {lo : Position} {ts : List Mustache.Token}
    {p : Mustache.Program Mustache.Statement} {opening closing : Mustache.Token} {fallback : Nat}
    {nodes : Section Statement} (h : a.Idle) (hline : 1 ≤ a.tokenizer.position.line)
    (hlo : 1 ≤ lo.line) (hts : Mustache.Sorted lo ts)
    (hbetween : Mustache.Between ts p.body opening closing) (hfits : p.Fits)
    (hs : sectionOf src a fallback p = .ok (nodes, b)) :
    statementsNested ⟨src.offsetFor opening.loc.stop, src.offsetFor closing.loc.start⟩
      nodes.body := by
  obtain ⟨body, params, chained⟩ := p
  obtain ⟨hle, hle', hordered⟩ := hbetween.ordered hts
  have hline' := Position.one_le_line_of_le hle hlo
  obtain ⟨-, -, -, hnodes⟩ := sectionOf_closed (fun _ hinside =>
    statements_settled hline' hle' body hordered hfits
      (h.pushBody hline src (src.offsetFor opening.loc.stop)) hinside) hs
  exact hnodes

theorem Idle.sectionOf_block {p : Mustache.Program Mustache.Statement} {fallback : Nat}
    {m : Mustache.Block Mustache.Statement} {nodes : Section Statement} (h : a.Idle)
    (hbody : p.body = [.block m]) (hs : sectionOf src a fallback p = .ok (nodes, b)) :
    ∃ node, nodes.body = [.block node] := by
  obtain ⟨inside, frame, stack, hinside, -, hpop, -, rfl⟩ := sectionOf_ok hs
  rw [hbody] at hinside
  obtain ⟨c, hc, hdone⟩ := statements_cons_ok hinside
  rw [statements, Except.ok.injEq] at hdone
  subst hdone
  cases statement_ok hc with
  | commented _ hcomment =>
    have hstate : a.pushBody.2.tokenizer.state = .beforeData := h.state
    rw [hstate] at hcomment
    cases hcomment
  | @block _ node d hblock =>
    have hframes : d.markup.stack.frames = a.pushBody.2.markup.stack.frames :=
      (block_sameFrames m hblock).1
    obtain ⟨tokenizer, ⟨frames, nextId⟩, current, pending⟩ := d
    obtain rfl : frames = (a.markup.stack.nextId, .body []) :: a.markup.stack.frames := hframes
    simp only [append, Markup.append, OpenElements.append, OpenElements.mapTop,
      OpenElements.popExpecting, ↓reduceIte, Except.ok.injEq, Prod.mk.injEq] at hpop
    rw [← hpop.1]
    exact ⟨node, rfl⟩

end Assembly
end Tree

open HtmlTemplate.Tree (Assembly Moment Placed)

/-- No markup crosses the boundary of a body: nothing is under way when a body begins or
ends, and all nodes of a body are between its tags. The section of an `{{else if}}` has no
tags of its own, it is just a block. -/
structure Uncrossed (text : List Char) (options : Options) (ts : List Mustache.Token) : Prop where
  enters : ∀ p a, Passes text options (.enters p a) → a.Idle
  leaves : ∀ p a, Passes text options (.leaves p a) → a.Idle
  placed : ∀ p a fallback nodes b, Passes text options (.enters p a) →
    Assembly.sectionOf ⟨text, options.moduleName⟩ a fallback p = .ok (nodes, b) →
      (∃ node, nodes.body = [.block node])
        ∨ ∃ opening closing, Mustache.Between ts p.body opening closing
          ∧ ∀ s, Placed nodes.body s →
            Span.Encloses ⟨Source.offsetFor ⟨text, options.moduleName⟩ opening.loc.stop,
              Source.offsetFor ⟨text, options.moduleName⟩ closing.loc.start⟩ s.span

/-- A partial block that is not part of an HTML comment is between tags. -/
def PartialBlocksBetweenTags (text : List Char) (options : Options) : Prop :=
  ∀ q a, Passes text options (.reads (.partialBlock q) a) →
    a.tokenizer.state.isComment = false → a.tokenizer.state.isData = true

theorem laid_initial {text : List Char} {options : Options}
    {program : Mustache.Program Mustache.Statement}
    (h : Mustache.parse text options.keepLines = .ok program) :
    ∃ ts, Mustache.scan text = .ok ts ∧ Mustache.Sorted .first ts
      ∧ Assembly.Laid ⟨text, options.moduleName⟩ ts (.initial options.mode) program.body := by
  obtain ⟨ts, hi, hscan, hsorted, -, hordered, hfits, htagged⟩ := Mustache.parse_laid h
  exact ⟨ts, hscan, hsorted, 0, [], .first, hi, Nat.le_refl 1, hordered, hfits, htagged,
    Assembly.settled_initial _ _⟩

/-- A template is what its body holds when all statements have been read. Nothing is under way
then. -/
theorem preprocess_ok {text : List Char} {options : Options} {t : Tree.Template}
    (h : preprocess text options = .ok t) :
    ∃ program a stack, Mustache.parse text options.keepLines = .ok program
      ∧ Assembly.statements ⟨text, options.moduleName⟩ (.initial options.mode) program.body = .ok a
      ∧ a.Idle
      ∧ a.markup.stack.popExpecting ⟨text, options.moduleName⟩ 0 = .ok (.body t.body, stack)
      ∧ stack.frames = [] := by
  unfold preprocess at h
  dsimp only at h
  split at h
  · cases h
  rename_i program hparse
  simp only [Tree.assemble, Assembly.popBody, bind_eq_ok, pure_eq_ok] at h
  obtain ⟨a, ha, b, hb, _, hfinish, ⟨nodes, c⟩, ⟨⟨frame, stack⟩, hpop, hc⟩, rfl⟩ := h
  obtain ⟨ts, hi, -, -, hhi, hordered, hfits, -⟩ := Mustache.parse_laid hparse
  have hsettled := Assembly.statements_settled (Nat.le_refl 1) hhi program.body hordered hfits
    (Assembly.settled_initial ⟨text, options.moduleName⟩ options.mode) ha
  obtain rfl : b = a := hsettled.follow_finish hb
  have hfills := (Assembly.statements_keepsFilling program.body ha).2 _ _
    (Assembly.fills_initial options.mode)
  obtain ⟨hframes, -, children, rfl⟩ := hfills.popExpecting_ok hpop
  obtain ⟨rfl, -⟩ := Prod.mk.inj hc
  exact ⟨program, b, stack, hparse, ha, hsettled.idle (Assembly.isData_of_finish hfinish), hpop,
    hframes⟩

/-- Markup crosses the boundary of a body just where a partial block is in a tag. -/
theorem uncrossed_iff {text : List Char} {options : Options} {t : Tree.Template}
    (h : preprocess text options = .ok t) :
    ∃ ts, Mustache.scan text = .ok ts
      ∧ (Uncrossed text options ts ↔ PartialBlocksBetweenTags text options) := by
  unfold preprocess at h
  dsimp only at h
  split at h
  · cases h
  rename_i program hparse
  simp only [Tree.assemble, bind_eq_ok] at h
  obtain ⟨last, hlast, -⟩ := h
  obtain ⟨ts, hscan, hsorted, hlaid⟩ := laid_initial hparse
  have hpasses {moment : Moment} (hm : Passes text options moment)
      (hne : ∀ m, moment ≠ .hears m) :
      Assembly.Passes ⟨text, options.moduleName⟩ (.initial options.mode) program.body moment :=
    (passes_iff hparse hne).mp hm
  refine ⟨ts, hscan, fun huncrossed q a hreads hcomment => ?_, fun hbetween => ?_⟩
  · have hreads' := hpasses hreads (by simp)
    obtain ⟨b, hb⟩ := hreads'.statement_ok hlast
    cases Assembly.statement_ok hb with
    | commented _ hcomment' => simp [hcomment] at hcomment'
    | partialBlock _ hname _ =>
      have henters := hreads'.enters_of_reads (.partialBlock hcomment hname)
      exact (huncrossed.enters _ _ (.statements hparse henters)).isData
  · have henters (p : Mustache.Program Mustache.Statement) (a : Assembly)
        (hm : Passes text options (.enters p a)) : a.Idle := by
      obtain ⟨-, -, -, hidle | ⟨q, hreads, hcomment, hidle⟩⟩ := (hpasses hm (by simp)).entered hlaid
      · exact hidle
      · exact hidle (hbetween q a (.statements hparse hreads) hcomment)
    refine ⟨henters, fun p a hm => (hpasses hm (by simp)).left hlaid, ?_⟩
    intro p a fallback nodes b hm hsection
    have hidle := henters p a hm
    obtain ⟨hline, hfits, htagged, -⟩ := (hpasses hm (by simp)).entered hlaid
    obtain ⟨body, params, chained⟩ := p
    obtain ⟨⟨-, m, hm⟩ | ⟨opening, closing, htags⟩, -⟩ := htagged
    · exact .inl (hidle.sectionOf_block hm hsection)
    · refine .inr ⟨opening, closing, htags, fun s hs => ?_⟩
      exact (hs.nested (hidle.sectionOf_between hline (Nat.le_refl 1) hsorted htags hfits
        hsection)).span

/-- The start tag of `a` begins before the body of the partial block and ends in it. -/
theorem not_uncrossed_partialBlock :
    ∃ t ts, preprocess "<a {{#> p}}></a>{{/p}}".toList {} = .ok t
      ∧ Mustache.scan "<a {{#> p}}></a>{{/p}}".toList = .ok ts
      ∧ ¬ Uncrossed "<a {{#> p}}></a>{{/p}}".toList {} ts := by
  have hscan : Mustache.scan "<a {{#> p}}></a>{{/p}}".toList = .ok
      [.onLine (.content "<a ".toList) 0 3, .onLine (.opener .partialBlock) 3 7,
        .onLine (.name ['p'] false) 8 9, .onLine .close 9 11,
        .onLine (.content "></a>".toList) 11 16, .onLine (.opener .endBlock) 16 19,
        .onLine (.name ['p'] false) 19 20, .onLine .close 20 22, .onLine .endOfInput 22 22] := by
    decide +kernel
  have hparse := Mustache.parse_of_tokens false hscan (by cbv)
  have hok : (preprocess "<a {{#> p}}></a>{{/p}}".toList {}).isOk = true := by
    rw [preprocess_of_parse {} hparse]
    decide +kernel
  obtain ⟨t, h⟩ := exists_of_isOk hok
  obtain ⟨ts, hts, hiff⟩ := uncrossed_iff h
  refine ⟨t, ts, h, hts, fun huncrossed => ?_⟩
  have hdata := hiff.mp huncrossed _ _ (.statements hparse (.later rfl .reads)) rfl
  exact absurd hdata (by decide +kernel)

end HtmlTemplate
