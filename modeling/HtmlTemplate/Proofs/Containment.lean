import HtmlTemplate.Proofs.Evaluation
import HtmlTemplate.Proofs.Spans

/-! Spans in bodies. A body is read on a ground of its own, and once it has been read
everything is as settled around it as it was before. -/

namespace HtmlTemplate

theorem Mustache.Program.Within.loc? {lo hi : Position}
    {p : Mustache.Program Mustache.Statement} (h : p.Within lo hi) (hbody : p.body ≠ []) :
    ∃ l, p.loc? = some l ∧ l.Within lo hi ∧ p.Within l.start l.stop := by
  obtain ⟨body, params, chained⟩ := p
  have hordered : Mustache.Ordered lo hi body := h
  cases hfirst : body.head? with
  | none => exact absurd (List.head?_eq_none_iff.mp hfirst) hbody
  | some first =>
    cases hlast : body.getLast? with
    | none => exact absurd (List.getLast?_eq_none_iff.mp hlast) hbody
    | some last =>
      obtain ⟨hstart, hle, hstop, htight⟩ := hordered.tight hfirst hlast
      exact ⟨⟨first.loc.start, last.loc.stop⟩, by simp [Mustache.Program.loc?, hfirst, hlast],
        ⟨hstart, hle, hstop⟩, htight⟩

namespace Tree

open Html (Tokenizer State)

theorem Framed.popped {g : Ground} {now id : Nat} {src : Source} {s t : OpenElements}
    {children : List Statement} (h : Framed g now s.frames)
    (hpop : s.popExpecting src id = .ok (.body children, t)) :
    (∀ s ∈ children, s.Nested ⟨g.lo, now⟩) ∧ t.frames = g.base := by
  obtain ⟨frames, nextId⟩ := s
  cases h with
  | body _ hchildren =>
    simp only [OpenElements.popExpecting] at hpop
    split at hpop
    · cases hpop
      exact ⟨hchildren, rfl⟩
    · simp [fault] at hpop
  | element _ _ _ =>
    simp only [OpenElements.popExpecting] at hpop
    split at hpop
    · cases hpop
    · simp [fault] at hpop

namespace Assembly

variable {g : Ground} {now now' bottom : Nat} {a b : Assembly}

def Above (src : Source) (bottom : Nat) (a : Assembly) : Prop :=
  (∀ c, a.markup.current = some c → bottom ≤ c.start)
    ∧ (a.tokenizer.state.opensTag = true → bottom ≤ src.offsetFor a.tokenizer.tagStart)

theorem above_zero (src : Source) (a : Assembly) : a.Above src 0 :=
  ⟨fun _ _ => Nat.zero_le _, fun _ => Nat.zero_le _⟩

theorem Idle.above (h : a.Idle) (src : Source) (bottom : Nat) : a.Above src bottom := by
  refine ⟨fun c hc => ?_, fun ho => ?_⟩
  · rw [h.current] at hc
    cases hc
  · rw [h.state] at ho
    cases ho

/-- Between tags nothing is under way. -/
theorem Settled.idle (h : Settled g now a) (hdata : a.tokenizer.state.isData = true) :
    a.Idle := by
  have hstate : a.tokenizer.state = .beforeData := by
    have hne := h.notData
    revert hdata hne
    cases a.tokenizer.state <;> simp [Html.State.isData]
  obtain ⟨hcurrent, hpending⟩ := (h.at_of_state hstate).phase
  exact ⟨hstate, hcurrent, hpending⟩

theorem Settled.pushBody (h : Settled g now a) (hbottom : bottom ≤ now)
    (habove : a.Above g.src bottom) :
    Settled ⟨g.src, bottom, a.markup.stack.frames⟩ now a.pushBody.2 where
  line := h.line
  at_ :=
    { phase := by
        have hphase := h.at_.phase
        show (Phase.of a.tokenizer.state).Shows _
        cases hφ : Phase.of a.tokenizer.state <;> rw [hφ] at hphase <;> exact hphase
      framed := .body hbottom (by simp)
      current := fun c hc => ⟨habove.1 c hc, (h.at_.current c hc).2⟩
      pending := h.at_.pending }
  opening ho := ⟨habove.2 ho, (h.opening ho).2⟩
  naming := h.naming
  notData := h.notData

theorem Settled.restore (h : Settled g now a) (hb : b.Idle)
    (hline : 1 ≤ b.tokenizer.position.line)
    (hframes : b.markup.stack.frames = a.markup.stack.frames) : Settled g now b :=
  settled_of_at .beforeData hb.state hline
    (.rest_of_current_none (hframes ▸ h.at_.framed) hb.current hb.pending) rfl rfl (by decide)
    (by decide)

/-- A body ends between tags. -/
theorem isData_of_finish {src : Source} {m : Markup} {state : State} {whole : Whole} {stop : Nat}
    (h : m.finish src state whole stop = .ok ()) : state.isData = true := by
  unfold Markup.finish at h
  split at h
  · assumption
  · simp [fault] at h

theorem sectionOf_closed {src : Source} {fallback : Nat}
    {p : Mustache.Program Mustache.Statement} {s : Section Statement}
    (hbody : ∀ inside, statements src a.pushBody.2 p.body = .ok inside →
      Settled ⟨src, bottom, a.markup.stack.frames⟩ now inside)
    (hs : Assembly.sectionOf src a fallback p = .ok (s, b)) :
    b.Idle ∧ 1 ≤ b.tokenizer.position.line ∧ b.markup.stack.frames = a.markup.stack.frames
      ∧ statementsNested ⟨bottom, now⟩ s.body := by
  obtain ⟨inside, frame, stack, hinside, hfinish, hpop, rfl, rfl⟩ := sectionOf_ok hs
  have hsettled := hbody inside hinside
  have hidle := hsettled.idle (isData_of_finish hfinish)
  have hfills := (statements_keepsFilling p.body hinside).2 _ _
    (OpenElements.fills_pushBody a.markup.stack)
  obtain ⟨-, -, children, rfl⟩ := hfills.popExpecting_ok hpop
  obtain ⟨hchildren, hframes⟩ := hsettled.at_.framed.popped hpop
  exact ⟨⟨hidle.state, hidle.current, hidle.pending⟩, hsettled.line, hframes,
    statementsNested_iff.mpr hchildren⟩

theorem sectionOf_nil {src : Source} {fallback : Nat} {p : Mustache.Program Mustache.Statement}
    {s : Section Statement} (hbody : p.body = [])
    (hs : Assembly.sectionOf src a fallback p = .ok (s, b)) :
    s.body = [] ∧ s.span = .empty fallback := by
  obtain ⟨inside, frame, stack, hinside, -, hpop, -, rfl⟩ := sectionOf_ok hs
  rw [hbody, statements, Except.ok.injEq] at hinside
  subst hinside
  have hpush := OpenElements.popExpecting_push src a.markup.stack (.body [])
  rw [show a.pushBody.2.markup.stack.popExpecting src a.markup.stack.nextId = _ from hpush] at hpop
  cases hpop
  refine ⟨rfl, ?_⟩
  show sectionSpan src p.loc? fallback = _
  rw [(Mustache.Program.loc?_eq_none_iff p).mpr hbody]
  rfl

theorem sectionOf_span {src : Source} {fallback : Nat} {lo hi : Position}
    {p : Mustache.Program Mustache.Statement} {s : Section Statement} (hlo : 1 ≤ lo.line)
    (hp : p.Within lo hi)
    (hfallback : Span.Encloses ⟨src.offsetFor lo, src.offsetFor hi⟩ (.empty fallback))
    (hs : Assembly.sectionOf src a fallback p = .ok (s, b)) :
    Span.Encloses ⟨src.offsetFor lo, src.offsetFor hi⟩ s.span := by
  by_cases hbody : p.body = []
  · rw [(sectionOf_nil hbody hs).2]
    exact hfallback
  · obtain ⟨l, hl, hwithin, -⟩ := hp.loc? hbody
    obtain ⟨_, frame, stack, -, -, -, -, rfl⟩ := sectionOf_ok hs
    show Span.Encloses _ (sectionSpan src p.loc? fallback)
    rw [hl]
    exact (spanFor_within src hlo hwithin).1

mutual

theorem statement_settled {g : Ground} {a b : Assembly} {lo hi : Position} (hlo : 1 ≤ lo.line) :
    (s : Mustache.Statement) → s.loc.Within lo hi → s.Nested → s.Fits →
      Settled g (g.src.offsetFor lo) a → statement g.src a s = .ok b →
        Settled g (g.src.offsetFor s.loc.stop) b
  | .content c, hloc, hnested, hfits, h, hb => by
    cases statement_ok hb with
    | content hb => exact h.content hlo hloc.1 hnested hfits hb
    | commented hne _ _ => exact absurd rfl (hne _)
  | .mustache m, hloc, hnested, _, h, hb => by
    have hle : _ ≤ g.src.offsetFor m.loc.stop := g.src.offsetFor_mono hlo (le_trans hloc.1 hloc.2.1)
    cases statement_ok hb with
    | commented _ hcomment hb => exact (h.commentText hcomment hb).later hle
    | mustache _ hd hb => exact h.place (dynamic_nested hlo hloc.tight hnested hd).1 hle hb
  | .decorator m, hloc, hnested, _, h, hb => by
    have hle : _ ≤ g.src.offsetFor m.loc.stop := g.src.offsetFor_mono hlo (le_trans hloc.1 hloc.2.1)
    cases statement_ok hb with
    | commented _ hcomment hb => exact (h.commentText hcomment hb).later hle
    | decorator _ hc =>
      exact h.append ⟨(spanFor_within g.src hlo hloc.tight).1, call_in_span hlo hloc hnested hc⟩ hle
  | .comment c, hloc, _, _, h, hb => by
    have hle : _ ≤ g.src.offsetFor c.loc.stop := g.src.offsetFor_mono hlo (le_trans hloc.1 hloc.2.1)
    cases statement_ok hb with
    | commented _ hcomment hb => exact (h.commentText hcomment hb).later hle
    | comment _ hb => exact h.placeComment (spanFor_within g.src hlo hloc.tight).1 hle hb
  | .partialCall p, hloc, hnested, _, h, hb => by
    have hle : _ ≤ g.src.offsetFor p.loc.stop := g.src.offsetFor_mono hlo (le_trans hloc.1 hloc.2.1)
    cases statement_ok hb with
    | commented _ hcomment hb => exact (h.commentText hcomment hb).later hle
    | partialCall _ hc =>
      exact h.append
        ⟨(spanFor_within g.src hlo hloc.tight).1, partialName_in_span hlo hloc hnested hc⟩
        hle
  | .block m, hloc, hnested, hfits, h, hb => by
    have hle : _ ≤ g.src.offsetFor m.loc.stop := g.src.offsetFor_mono hlo (le_trans hloc.1 hloc.2.1)
    cases statement_ok hb with
    | commented _ hcomment hb => exact (h.commentText hcomment hb).later hle
    | block hblock =>
      obtain ⟨hsettled, hnode⟩ := block_settled hlo m hloc.tight hnested hfits h hblock
      exact hsettled.append hnode hle
  | .decoratorBlock m, hloc, hnested, hfits, h, hb => by
    have hle : _ ≤ g.src.offsetFor m.loc.stop := g.src.offsetFor_mono hlo (le_trans hloc.1 hloc.2.1)
    cases statement_ok hb with
    | commented _ hcomment hb => exact (h.commentText hcomment hb).later hle
    | decoratorBlock hblock =>
      obtain ⟨hsettled, hnode⟩ := block_settled hlo m hloc.tight hnested hfits h hblock
      exact hsettled.append hnode hle
  | .partialBlock m, hloc, hnested, hfits, h, hb => by
    have hle : _ ≤ g.src.offsetFor m.loc.stop := g.src.offsetFor_mono hlo (le_trans hloc.1 hloc.2.1)
    cases statement_ok hb with
    | commented _ hcomment hb => exact (h.commentText hcomment hb).later hle
    | partialBlock _ hc hs =>
      obtain ⟨hsettled, hnode⟩ := partialBlock_settled hlo m hloc.tight hnested hfits h hc hs
      exact hsettled.append hnode hle

theorem statements_settled {g : Ground} {a b : Assembly} {lo hi : Position} (hlo : 1 ≤ lo.line)
    (hle : lo ≤ hi) :
    (ss : List Mustache.Statement) → Mustache.Ordered lo hi ss → Mustache.allFit ss →
      Settled g (g.src.offsetFor lo) a → statements g.src a ss = .ok b →
        Settled g (g.src.offsetFor hi) b
  | [], _, _, h, hb => by
    rw [statements, Except.ok.injEq] at hb
    subst hb
    exact h.later (g.src.offsetFor_mono hlo hle)
  | s :: ss, hordered, hfits, h, hb => by
    obtain ⟨a', hs, hss⟩ := statements_cons_ok hb
    obtain ⟨hloc, hnested, hrest⟩ := hordered
    have hline := Position.one_le_line_of_le (le_trans hloc.1 hloc.2.1) hlo
    have h' := statement_settled hlo s hloc hnested hfits.1 h hs
    exact statements_settled hline hloc.2.2 ss hrest hfits.2 h' hss

theorem sectionOf_settled {g : Ground} {a b : Assembly} {lo hi : Position}
    {now bottom fallback : Nat} {s : Section Statement} (hlo : 1 ≤ lo.line) (hle : lo ≤ hi)
    (hnow : now ≤ g.src.offsetFor lo) (hbottom : bottom ≤ g.src.offsetFor lo) :
    (p : Mustache.Program Mustache.Statement) → Mustache.Program.Within lo hi p →
      Mustache.Program.Fits p → Settled g now a → a.Above g.src bottom →
        sectionOf g.src a fallback p = .ok (s, b) →
          Settled g now b ∧ b.Idle ∧ statementsNested ⟨bottom, g.src.offsetFor hi⟩ s.body
  | ⟨body, _, _⟩, hwithin, hfits, h, habove, hs => by
    obtain ⟨hidle, hline, hframes, hnodes⟩ := sectionOf_closed (fun _ hinside =>
      statements_settled hlo hle body hwithin hfits ((h.later hnow).pushBody hbottom habove)
        hinside) hs
    exact ⟨h.restore hidle hline hframes, hidle, hnodes⟩

theorem sectionOf?_settled {g : Ground} {a b : Assembly} {lo hi : Position} {now fallback : Nat}
    {s : Option (Section Statement)} (hlo : 1 ≤ lo.line) (hle : lo ≤ hi)
    (hnow : now ≤ g.src.offsetFor lo)
    (hfallback : Span.Encloses ⟨g.src.offsetFor lo, g.src.offsetFor hi⟩ (.empty fallback)) :
    (p : Option (Mustache.Program Mustache.Statement)) → Mustache.sectionWithin lo hi p →
      Mustache.sectionFits p → Settled g now a → a.Idle →
        sectionOf? g.src a fallback p = .ok (s, b) →
          Settled g now b ∧ b.Idle ∧ sectionNested ⟨g.src.offsetFor lo, g.src.offsetFor hi⟩ s
  | none, _, _, h, hidle, hs => by
    rw [sectionOf?, Except.ok.injEq, Prod.mk.injEq] at hs
    obtain ⟨rfl, rfl⟩ := hs
    exact ⟨h, hidle, trivial⟩
  | some p, hwithin, hfits, h, hidle, hs => by
    obtain ⟨s', rfl, hs'⟩ := sectionOf?_ok hs
    have hspan := sectionOf_span hlo hwithin hfallback hs'
    by_cases hbody : p.body = []
    · obtain ⟨hsettled, hidle', -⟩ := sectionOf_settled hlo hle hnow (Nat.zero_le _) p hwithin hfits
        h (above_zero g.src a) hs'
      refine ⟨hsettled, hidle', Section.nested_iff.mpr ⟨hspan, ?_⟩⟩
      rw [(sectionOf_nil hbody hs').1]
      exact trivial
    · obtain ⟨l, hl, hloc, hwithin'⟩ := Mustache.Program.Within.loc? hwithin hbody
      have hline := Position.one_le_line_of_le hloc.1 hlo
      have hnow' := Nat.le_trans hnow (g.src.offsetFor_mono hlo hloc.1)
      obtain ⟨hsettled, hidle', hnodes⟩ := sectionOf_settled hline hloc.2.1 hnow' (Nat.le_refl _) p
        hwithin' hfits h (hidle.above _ _) hs'
      refine ⟨hsettled, hidle', Section.nested_iff.mpr ⟨hspan, ?_⟩⟩
      obtain ⟨_, frame, stack, -, -, -, -, rfl⟩ := sectionOf_ok hs'
      show statementsNested (sectionSpan g.src p.loc? _) _
      rw [hl]
      show statementsNested (g.src.spanFor l) _
      rw [(spanFor_within g.src hlo hloc).2]
      exact hnodes

theorem block_settled {g : Ground} {a b : Assembly} {lo hi : Position} {node : Block Statement}
    (hlo : 1 ≤ lo.line) :
    (m : Mustache.Block Mustache.Statement) → m.loc.Within lo hi → m.Nested →
      Mustache.Block.Fits m →
      Settled g (g.src.offsetFor lo) a → block g.src a m = .ok (node, b) →
        Settled g (g.src.offsetFor lo) b
          ∧ node.Nested ⟨g.src.offsetFor lo, g.src.offsetFor hi⟩
  | ⟨c, program, inverse, _, _, _, loc⟩, hloc, hnested, hfits, h, hb => by
    obtain ⟨hdata, call, program', inverse', between, hcall, hprogram, hinverse, rfl⟩ := block_ok hb
    have hline := Position.one_le_line_of_le hloc.1 hlo
    obtain ⟨hspan, heq⟩ := spanFor_within g.src hlo hloc
    have hstart : g.src.offsetFor lo ≤ g.src.offsetFor loc.start := g.src.offsetFor_mono hlo hloc.1
    have hfallback := Span.encloses_empty (Nat.le_refl (g.src.spanFor loc).start) hspan.2.1
    have hcall' := call_in_span hlo hloc hnested.1 hcall
    rw [heq] at hfallback
    obtain ⟨hbetween, hidle, hprogram'⟩ :=
      sectionOf?_settled hline hloc.2.1 hstart hfallback program
      hnested.2.1 hfits.1 h (h.idle hdata) hprogram
    obtain ⟨hsettled, -, hinverse'⟩ := sectionOf?_settled hline hloc.2.1 hstart hfallback inverse
      hnested.2.2 hfits.2 hbetween hidle hinverse
    refine ⟨hsettled, hspan, hcall', ?_, ?_⟩
    · show Section.Nested (g.src.spanFor loc) (program'.getD _)
      rw [heq]
      cases program' with
      | none => exact ⟨hfallback, trivial⟩
      | some s => exact hprogram'
    · show sectionNested (g.src.spanFor loc) inverse'
      rw [heq]
      exact hinverse'

theorem partialBlock_settled {g : Ground} {a b : Assembly} {lo hi : Position} {c : Call Expression}
    {s : Section Statement} (hlo : 1 ≤ lo.line) :
    (m : Mustache.PartialBlock Mustache.Statement) → m.loc.Within lo hi →
      (Mustache.Statement.partialBlock m).Nested → (Mustache.Statement.partialBlock m).Fits →
        Settled g (g.src.offsetFor lo) a → partialName g.src m.call = .ok c →
          sectionOf g.src a (g.src.spanFor m.loc).start m.program = .ok (s, b) →
            Settled g (g.src.offsetFor lo) b
              ∧ Statement.Nested ⟨g.src.offsetFor lo, g.src.offsetFor hi⟩
                (.partialBlock ⟨c, s, m.openStrip, m.closeStrip, g.src.spanFor m.loc⟩)
  | ⟨_, program, _, _, loc⟩, hloc, hnested, hfits, h, hc, hs => by
    have hline := Position.one_le_line_of_le hloc.1 hlo
    obtain ⟨hspan, heq⟩ := spanFor_within g.src hlo hloc
    have hstart : g.src.offsetFor lo ≤ g.src.offsetFor loc.start := g.src.offsetFor_mono hlo hloc.1
    have hfallback := Span.encloses_empty (Nat.le_refl (g.src.spanFor loc).start) hspan.2.1
    have hcall := partialName_in_span hlo hloc hnested.1 hc
    rw [heq] at hfallback
    have hinner := sectionOf_span hline hnested.2 hfallback hs
    obtain ⟨hsettled, -, hbody⟩ := sectionOf_settled hline hloc.2.1 hstart (Nat.zero_le _) program
      hnested.2 hfits h (above_zero g.src a) hs
    rw [← heq] at hinner
    refine ⟨hsettled, hspan, hcall, hinner, ?_⟩
    show statementsNested ⟨0, (g.src.spanFor loc).stop⟩ s.body
    rw [heq]
    exact hbody

end

theorem settled_initial (src : Source) (mode : Html.Mode) :
    Settled ⟨src, 0, []⟩ (src.offsetFor .first) (initial mode) :=
  settled_of_at .beforeData rfl (Nat.le_refl 1)
    (.rest_of_current_none (.body (Nat.zero_le _) (by simp)) rfl rfl) rfl rfl (by decide)
    (by decide)

theorem Settled.follow_finish (h : Settled g now a)
    (hb : a.follow g.src a.tokenizer.finish = .ok b) : b = a := by
  obtain ⟨hmarkup, htokenizer⟩ := follow_ok hb
  rw [Tokenizer.finish, Tokenizer.finishData, if_neg h.notData] at hmarkup htokenizer
  obtain ⟨tokenizer, markup⟩ := b
  obtain rfl : tokenizer = a.tokenizer := htokenizer
  obtain rfl : a.markup = markup := pure_eq_ok.mp hmarkup
  rfl

end Assembly

theorem assemble_nested {src : Source} {mode : Html.Mode} {locals : List (List Char)}
    {program : Mustache.Program Mustache.Statement} {hi : Position} {t : Template}
    (hhi : Position.first ≤ hi) (hordered : Mustache.Ordered .first hi program.body)
    (hfits : Mustache.allFit program.body) (h : assemble src mode locals program = .ok t) :
    t.Nested src.size := by
  simp only [assemble, Assembly.popBody, bind_eq_ok, pure_eq_ok] at h
  obtain ⟨a, ha, b, hb, _, -, ⟨nodes, c⟩, ⟨⟨frame, stack⟩, hpop, hc⟩, rfl⟩ := h
  have hsettled := Assembly.statements_settled (g := ⟨src, 0, []⟩) (Nat.le_refl 1) hhi program.body
    hordered hfits (Assembly.settled_initial src mode) ha
  obtain rfl : b = a := hsettled.follow_finish hb
  have hfills := (Assembly.statements_keepsFilling program.body ha).2 _ _
    (Assembly.fills_initial mode)
  obtain ⟨-, -, children, rfl⟩ := hfills.popExpecting_ok hpop
  obtain ⟨rfl, -⟩ := Prod.mk.inj hc
  refine ⟨⟨Nat.le_refl _, Nat.zero_le _, Nat.le_refl _⟩, statementsNested_iff.mpr fun s hs => ?_⟩
  exact ((hsettled.at_.framed.popped hpop).1 s hs).widen
    (Span.contains_later 0 (src.offsetFor_le_size hi))

end Tree

/-- Every span of a template lies within the span around it, and all of them within the
text. Only the body of a partial block may begin before the partial block, with an element
whose start tag the partial block is in. -/
theorem preprocess_nested {text : List Char} {options : Options} {t : Tree.Template}
    (h : preprocess text options = .ok t) : t.Nested (byteLength text) := by
  unfold preprocess at h
  dsimp only at h
  split at h
  · cases h
  · rename_i program hparse
    obtain ⟨ts, hi, -, -, hhi, hordered, hfits, -⟩ := Mustache.parse_laid hparse
    exact Tree.assemble_nested hhi hordered hfits h

/-- A mustache as the value of an attribute. -/
theorem preprocess_nested_value :
    ∃ t, preprocess "<a b={{c}}></a>".toList {} = .ok t
      ∧ t.Nested (byteLength "<a b={{c}}></a>".toList) := by
  have hscan : Mustache.scan "<a b={{c}}></a>".toList = .ok
      [.onLine (.content "<a b=".toList) 0 5, .onLine (.opener .escaped) 5 7,
        .onLine (.name ['c'] false) 7 8, .onLine .close 8 10,
        .onLine (.content "></a>".toList) 10 15, .onLine .endOfInput 15 15] := by decide +kernel
  have hparse := Mustache.parse_of_tokens false hscan (by cbv)
  have hok : (preprocess "<a b={{c}}></a>".toList {}).isOk = true := by
    rw [preprocess_of_parse {} hparse]
    decide +kernel
  obtain ⟨t, h⟩ := exists_of_isOk hok
  exact ⟨t, h, preprocess_nested h⟩

end HtmlTemplate
