import HtmlTemplate.Proofs.Evaluation
import HtmlTemplate.Proofs.Faults
import Mathlib.Data.List.Basic

/-! The discipline of the stack of open elements over a whole run: the body of the template
lies at the bottom until it is taken as the template, and a section is read entirely above
what was there before it. -/

namespace HtmlTemplate

namespace Tree

open OpenElements (Fills Holds)

namespace Assembly

variable {src : Source} {a b : Assembly} {ss : List Mustache.Statement}

theorem holds_of_hears {id : Nat} {base : List (Nat × Frame)} {m n : Markup}
    {reports : List Html.Emission} (hf : Fills id base m.stack) (h : Hears src m reports n) :
    Holds id base n.stack := by
  obtain ⟨before, _, hbefore⟩ := h
  exact (hf.changes (Markup.reports_changes hbefore)).holds

theorem Enters.sameFrames {s : Mustache.Statement} {fallback : Nat}
    {p : Mustache.Program Mustache.Statement} (h : Enters src a s fallback p b) :
    SameFrames a b := by
  cases h with
  | program => exact .refl a
  | inverse _ _ _ hprogram _ => exact sectionOf?_sameFrames _ hprogram
  | partialBlock => exact .refl a

theorem Passes.holds {moment : Moment} (h : Passes src a ss moment) {id : Nat}
    {base : List (Nat × Frame)} (hf : Fills id base a.markup.stack) :
    Holds id base moment.markup.stack := by
  induction h generalizing id base with
  | reads => exact hf.holds
  | done => exact hf.holds
  | hears hhears => exact holds_of_hears hf hhears
  | enters henters => exact (fills_of_sameFrames hf henters.sameFrames).holds
  | @inside a b _ _ _ _ _ henters _ ih =>
    exact (fills_of_sameFrames hf henters.sameFrames).holds_of_holds
      (ih (OpenElements.fills_pushBody b.markup.stack))
  | leaves henters hsection =>
    exact (fills_of_sameFrames hf
      (henters.sameFrames.trans (sectionOf_sameFrames _ hsection))).holds
  | later hstatement _ ih => exact ih ((statement_keepsFilling _ hstatement).2 _ _ hf)

theorem fills_initial (mode : Html.Mode) : Fills 0 [] (initial mode).markup.stack :=
  OpenElements.fills_pushBody {}

theorem failsWith_popBody {id : Nat} {base : List (Nat × Frame)}
    (h : Fills id base a.markup.stack) : FailsWith Balanced (a.popBody src id) := by
  refine FailsWith.bind ?_ fun _ _ => .pure _
  intro e he
  obtain ⟨open', rfl⟩ := h.popExpecting_error he
  exact message_ne_unbalanced (f := .unclosedElement open'.tag) (by simp)

theorem failsWith_finish (a : Assembly) (whole : Whole) (stop : Nat) :
    FailsWith Balanced (a.markup.finish src a.tokenizer.state whole stop) := by
  refine (Markup.failsWith_finish _ _ _ _).mono ?_
  rintro e ⟨start, -, he⟩
  exact he.balanced

theorem errs_balanced (src : Source) : Errs src (fun _ _ => True) Balanced where
  head _ := trivial
  tail _ _ := trivial
  inside _ _ := trivial
  location he := he.elim fun _ he => he.balanced
  content _ := (failsWith_follow _ _).bind fun _ _ => failsWith_follow _ _
  comment _ _ := failsWith_follow _ _
  name _ he := he.balanced
  close {a inside body} _ hinside := by
    have hfills := (statements_keepsFilling body hinside).2 _ _
      (OpenElements.fills_pushBody a.markup.stack)
    exact (failsWith_finish _ _ _).bind fun _ _ => failsWith_popBody hfills

end Assembly

theorem failsWith_assemble (src : Source) (mode : Html.Mode) (locals : List (List Char))
    (program : Mustache.Program Mustache.Statement) :
    FailsWith Balanced (assemble src mode locals program) := by
  refine ((Assembly.errs_balanced src).statements program.body trivial).bind fun a ha =>
    (Assembly.failsWith_follow a _).bind fun b hb =>
      (Assembly.failsWith_finish _ _ _).bind fun _ _ => ?_
  have hfills := (Assembly.statements_keepsFilling program.body ha).2 _ _
    (Assembly.fills_initial mode)
  have hfills' := hfills.changes (Assembly.follow_changes hb)
  exact (Assembly.failsWith_popBody hfills').bind fun _ _ => .pure _

end Tree

open HtmlTemplate.Tree (Assembly)
open HtmlTemplate.Tree.OpenElements (Holds)

theorem Passes.holds {text : List Char} {options : Options} {moment : Tree.Moment}
    (h : Passes text options moment) : Holds 0 [] moment.markup.stack := by
  cases h with
  | statements _ hpasses => exact hpasses.holds (Assembly.fills_initial options.mode)
  | finish _ hstatements hhears =>
    exact Assembly.holds_of_hears ((Assembly.statements_keepsFilling _ hstatements).2 _ _
      (Assembly.fills_initial options.mode)) hhears

private theorem failsWith_preprocess (text : List Char) (options : Options) :
    FailsWith Tree.Balanced (preprocess text options) := by
  unfold preprocess
  dsimp only
  split
  · rename_i f _
    intro e he
    cases he
    exact Tree.mustacheMessage_ne_unbalanced f.fault
  · exact Tree.failsWith_assemble _ _ _ _

/-- At every moment of a run the body of the template is at the bottom of the stack, also
when an end tag has taken the element on top, so there is always a frame to append to.
While the body of a section is read it lies on the stack as it was, under whatever is
opened there, and once the section is read the stack is as it was. No run ends because a
body does not come back. -/
theorem stack_discipline (text : List Char) (options : Options) :
    (∀ moment, Passes text options moment →
      Holds 0 [] moment.markup.stack
        ∧ ∀ e rest, moment.markup.stack.popElement? = some (e, rest) → Holds 0 [] rest)
    ∧ (∀ src a fallback p,
        (∀ moment, Assembly.Passes src a.pushBody.2 p.body moment →
          Holds a.markup.stack.nextId a.markup.stack.frames moment.markup.stack
            ∧ ∀ e rest, moment.markup.stack.popElement? = some (e, rest) →
              Holds a.markup.stack.nextId a.markup.stack.frames rest)
        ∧ ∀ nodes b, Assembly.sectionOf src a fallback p = .ok (nodes, b) →
            b.markup.stack.frames = a.markup.stack.frames)
    ∧ ∀ e, preprocess text options = .error e → e.message ≠ "Unbalanced template body" := by
  refine ⟨fun moment h => ?_, fun src a fallback p => ⟨fun moment h => ?_, ?_⟩, ?_⟩
  · have hholds := h.holds
    exact ⟨hholds, fun e rest hpop => hholds.popElement hpop⟩
  · have hholds := h.holds (Tree.OpenElements.fills_pushBody a.markup.stack)
    exact ⟨hholds, fun e rest hpop => hholds.popElement hpop⟩
  · intro nodes b h
    exact (Assembly.sectionOf_sameFrames p h).1
  · exact failsWith_preprocess text options

/-- In an element that is opened in a section, which is in an element itself. -/
theorem stack_discipline_element :
    let src : Source := ⟨"<b>{{#c}}<i>{{d}}</i>{{/c}}</b>".toList, none⟩
    (∃ moment, Passes src.text {} moment ∧ moment.markup.stack.frames.length = 4
      ∧ Holds 0 [] moment.markup.stack
      ∧ ∃ a p, Assembly.Passes src a.pushBody.2 p.body moment
        ∧ a.markup.stack.frames.length = 2
        ∧ Holds a.markup.stack.nextId a.markup.stack.frames moment.markup.stack
        ∧ ∃ nodes b, Assembly.sectionOf src a 3 p = .ok (nodes, b)
          ∧ b.markup.stack.frames = a.markup.stack.frames)
    ∧ ∃ e, preprocess "<b>{{#c}}</b>{{/c}}".toList {} = .error e
        ∧ e.message ≠ "Unbalanced template body" := by
  intro src
  have hscan : Mustache.scan src.text = .ok
      [.onLine (.content "<b>".toList) 0 3, .onLine (.opener .block) 3 6,
        .onLine (.name ['c'] false) 6 7, .onLine .close 7 9, .onLine (.content "<i>".toList) 9 12,
        .onLine (.opener .escaped) 12 14, .onLine (.name ['d'] false) 14 15, .onLine .close 15 17,
        .onLine (.content "</i>".toList) 17 21, .onLine (.opener .endBlock) 21 24,
        .onLine (.name ['c'] false) 24 25, .onLine .close 25 27,
        .onLine (.content "</b>".toList) 27 31, .onLine .endOfInput 31 31] := by decide +kernel
  let text (value : List Char) (start stop : Nat) : Mustache.Statement :=
    .content { value, written := value, loc := ⟨⟨1, start⟩, ⟨1, stop⟩⟩ }
  let call (c : Char) (start : Nat) : Mustache.Call Mustache.Expression :=
    ⟨.path ⟨false, 0, [[c]], [c], ⟨⟨1, start⟩, ⟨1, start + 1⟩⟩⟩, [], none⟩
  let p : Mustache.Program Mustache.Statement :=
    ⟨[text "<i>".toList 9 12, .mustache ⟨call 'd' 14, true, {}, ⟨⟨1, 12⟩, ⟨1, 17⟩⟩⟩,
      text "</i>".toList 17 21], [], false⟩
  have hparse : Mustache.parse src.text false = .ok ⟨[text "<b>".toList 0 3,
      .block ⟨call 'c' 6, some p, none, {}, {}, {}, ⟨⟨1, 3⟩, ⟨1, 27⟩⟩⟩, text "</b>".toList 27 31],
      [], false⟩ := Mustache.parse_of_tokens false hscan (by cbv)
  have hscan' : Mustache.scan "<b>{{#c}}</b>{{/c}}".toList = .ok
      [.onLine (.content "<b>".toList) 0 3, .onLine (.opener .block) 3 6,
        .onLine (.name ['c'] false) 6 7, .onLine .close 7 9, .onLine (.content "</b>".toList) 9 13,
        .onLine (.opener .endBlock) 13 16, .onLine (.name ['c'] false) 16 17, .onLine .close 17 19,
        .onLine .endOfInput 19 19] := by decide +kernel
  have hparse' := Mustache.parse_of_tokens false hscan' (by cbv)
  obtain ⟨hmoments, hsections, -⟩ := stack_discipline src.text {}
  obtain ⟨-, -, herrors⟩ := stack_discipline "<b>{{#c}}</b>{{/c}}".toList {}
  constructor
  · have hread :
        (Assembly.statement src (.initial .precompile) (text "<b>".toList 0 3)).toOption.any
          (fun a => a.tokenizer.state.isData && a.markup.stack.frames.length == 2
            && (Assembly.sectionOf src a 3 p).isOk
            && (Assembly.statement src a.pushBody.2 (text "<i>".toList 9 12)).toOption.any
              (·.markup.stack.frames.length == 4)) = true := by decide +kernel
    obtain ⟨a, ha, hread⟩ := exists_of_any hread
    simp only [Bool.and_eq_true, beq_iff_eq] at hread
    obtain ⟨⟨⟨hdata, htwo⟩, hok⟩, hread⟩ := hread
    obtain ⟨⟨nodes, b⟩, hsection⟩ := exists_of_isOk hok
    obtain ⟨c, hc, hfour⟩ := exists_of_any hread
    have hinside : Assembly.Passes src a.pushBody.2 p.body (.reads _ c) := .later hc .reads
    have hpasses : Passes src.text {} (.reads _ c) :=
      .statements hparse (.later ha (.inside (.program (.inl rfl) hdata rfl rfl) hinside))
    obtain ⟨hholds, hback⟩ := hsections src a 3 p
    exact ⟨_, hpasses, eq_of_beq hfour, (hmoments _ hpasses).1, a, p, hinside, htwo,
      (hholds _ hinside).1, nodes, b, hsection, hback nodes b hsection⟩
  · have hfails : (preprocess "<b>{{#c}}</b>{{/c}}".toList {}).isOk = false := by
      rw [preprocess_of_parse {} hparse']
      decide +kernel
    cases herror : preprocess "<b>{{#c}}</b>{{/c}}".toList {} with
    | error e => exact ⟨e, rfl, herrors e herror⟩
    | ok t =>
      rw [herror] at hfails
      cases hfails

end HtmlTemplate
