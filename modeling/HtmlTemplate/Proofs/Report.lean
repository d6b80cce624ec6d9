import HtmlTemplate.Proofs.Moment

/-! What a report does to the nodes under way, and a statement to the template, when it is
accepted. -/

namespace HtmlTemplate.Tree.Markup

variable {src : Source} {m n : Markup}

/-- Only a start tag takes what belongs into one. -/
theorem withStartTag_ok {span : Span} {f : StartTag → StartTag}
    (h : m.withStartTag src span f = .ok n) :
    ∃ t, m.current = some (.startTag t) ∧ n = { m with current := some (.startTag (f t)) } := by
  unfold withStartTag at h
  split at h
  · rename_i t ht
    exact ⟨t, ht, (Except.ok.inj h).symm⟩
  · simp [fault] at h

/-- The attribute under way goes to the start tag under way. -/
theorem finishValue_ok {stop : Nat} {a : PendingAttribute} (ha : m.pending = some a)
    (h : m.finishValue src stop = .ok n) :
    ∃ t value, m.current = some (.startTag t)
      ∧ a.finishText.value? ⟨a.valueStart, stop⟩ = .ok value
      ∧ n = { m with
          pending := none
          current := some (.startTag { t with
            attributes := t.attributes ++ [⟨a.name, value, ⟨a.start, stop⟩⟩] }) } := by
  have hname : a.finishText.name = a.name := by
    unfold PendingAttribute.finishText
    split <;> rfl
  have hstart : a.finishText.start = a.start := by
    unfold PendingAttribute.finishText
    split <;> rfl
  have hvalue : a.finishText.valueStart = a.valueStart := by
    unfold PendingAttribute.finishText
    split <;> rfl
  simp only [finishValue, ha, hname, hstart, hvalue] at h
  rcases m with ⟨stack, current, pending⟩
  obtain rfl : pending = some a := ha
  dsimp only at h
  split at h
  · simp [fault, bind_eq_ok] at h
  · split at h
    · simp [fault] at h
    · rename_i value hval
      obtain ⟨t, ht, rfl⟩ := withStartTag_ok h
      exact ⟨t, value, ht, hval, rfl⟩

theorem finishValue_none {stop : Nat} (ha : m.pending = none) :
    m.finishValue src stop = .ok m := by
  simp [finishValue, ha]

/-- An end tag ends the element on top, which has its name. -/
theorem closeElement_ok {name : List Char} {tagSpan : Span} {implicit : Bool}
    (h : m.closeElement src name tagSpan implicit = .ok n) :
    ∃ e stack, m.stack.popElement? = some (e, stack) ∧ e.tag = name
      ∧ n = { m with stack := stack.append (.element (e.finish tagSpan.stop)) } := by
  unfold closeElement at h
  split at h
  · simp [fault] at h
  · split at h
    · simp [fault] at h
    · rename_i e stack hpop
      split at h
      · rename_i htag
        exact ⟨e, stack, hpop, htag, (Except.ok.inj h).symm⟩
      · simp [fault] at h

/-- The element that a start tag opens when its attributes are read as block parameters
from some number on. -/
def opened (t : StartTag) (kept : Nat) (params : List (List Char)) (stop : Nat) : OpenElement where
  tag := t.name
  selfClosing := t.selfClosing
  attributes := t.attributes.take kept
  params := params
  modifiers := t.modifiers
  comments := t.comments
  children := []
  startTag := ⟨t.start, stop⟩

/-- A start tag opens an element, or adds one that is closed at once. -/
theorem openElement_ok {t : StartTag} {stop : Nat} (h : m.openElement src t stop = .ok n) :
    ∃ kept params, blockParams? (t.attributes.map (·.name)) = .ok (kept, params)
      ∧ (n = { m with stack := (m.stack.push (.element (opened t kept params stop))).2 }
        ∨ n = { m with
            stack := OpenElements.append { m.stack with nextId := m.stack.nextId + 1 }
              (.element ((opened t kept params stop).finish stop)) }) := by
  unfold openElement at h
  dsimp only at h
  split at h
  · simp [fault] at h
  · split at h
    · simp [fault] at h
    · rename_i kept params hparams
      refine ⟨kept, params, hparams, ?_⟩
      split at h
      · obtain ⟨e, stack, hpop, htag, rfl⟩ := closeElement_ok h
        right
        simp only [OpenElements.popElement?, OpenElements.push, Option.some.injEq,
          Prod.mk.injEq] at hpop
        obtain ⟨rfl, rfl⟩ := hpop
        rfl
      · left
        exact (Except.ok.inj h).symm

/-- What every report keeps, all of them keep one after the other. -/
theorem reports_keep {P : Markup → Prop} {reports : List Html.Emission}
    (hreceive : ∀ e ∈ reports, ∀ {m n : Markup}, P m → m.receive src e.event = .ok n → P n)
    (hn : reports.foldlM (fun m e => m.receive src e.event) m = .ok n) (hm : P m) : P n := by
  induction reports generalizing m with
  | nil =>
    obtain rfl := pure_eq_ok.mp hn
    exact hm
  | cons e reports ih =>
    simp only [List.foldlM_cons, bind_eq_ok] at hn
    obtain ⟨k, hk, hn⟩ := hn
    obtain ⟨hfirst, hmore⟩ := List.forall_mem_cons.mp hreceive
    exact ih hmore hn (hfirst hm hk)

end HtmlTemplate.Tree.Markup

namespace HtmlTemplate.Tree

variable {src : Source}

theorem call_literal (l : Literal) (loc : Location) (params : List Mustache.Expression)
    (hash : Option (Mustache.Hash Mustache.Expression)) {c : Call Expression} :
    call src ⟨.literal l loc, params, hash⟩ ≠ .ok c := by
  rcases hash with _ | ⟨pairs, loc'⟩ <;>
    simp [call, expression, callable, fault, bind_eq_ok]

/-- A mustache is a literal with nothing after it, or a call. -/
theorem dynamic_ok {m : Mustache.Interpolation} {d : Dynamic}
    (h : dynamic src m = .ok d) :
    (∃ l loc, m.call = ⟨.literal l loc, [], none⟩
      ∧ d = .literal ⟨l, src.spanFor loc, !m.escaped, m.strip, src.spanFor m.loc⟩)
    ∨ ∃ c, call src m.call = .ok c ∧ d = .call ⟨c, !m.escaped, m.strip, src.spanFor m.loc⟩ := by
  obtain ⟨⟨callee, params, hash⟩, escaped, strip, loc⟩ := m
  simp only [dynamic, bind_eq_ok] at h
  obtain ⟨e, he, h⟩ := h
  cases callee with
  | literal l loc' =>
    cases he
    simp only at h
    split at h
    · rename_i hnone
      simp only [Bool.and_eq_true, List.isEmpty_iff, Option.isNone_iff_eq_none] at hnone
      obtain ⟨rfl, rfl⟩ := hnone
      exact .inl ⟨l, loc', rfl, (Except.ok.inj h).symm⟩
    · simp [fault] at h
  | path p =>
    rw [expression, map_eq_ok] at he
    obtain ⟨path, -, rfl⟩ := he
    simp only [bind_eq_ok, pure_eq_ok] at h
    obtain ⟨c, hc, rfl⟩ := h
    exact .inr ⟨c, hc, rfl⟩
  | call c loc' =>
    rw [expression, map_eq_ok] at he
    obtain ⟨c', -, rfl⟩ := he
    simp only [bind_eq_ok, pure_eq_ok] at h
    obtain ⟨c, hc, rfl⟩ := h
    exact .inr ⟨c, hc, rfl⟩

end HtmlTemplate.Tree

namespace HtmlTemplate.Tree.Assembly

variable {src : Source} {a b : Assembly}

theorem follow_eq (src : Source) (a : Assembly) (es : List Html.Emission) (t : Html.Tokenizer) :
    a.follow src (es, t)
      = (es.map (·.event)).foldlM (Markup.receive src) a.markup >>= fun m => .ok ⟨t, m⟩ := by
  simp only [follow, List.foldlM_map]
  rfl

theorem follow_ok {step : List Html.Emission × Html.Tokenizer} (h : a.follow src step = .ok b) :
    step.1.foldlM (fun m e => m.receive src e.event) a.markup = .ok b.markup
      ∧ b.tokenizer = step.2 := by
  simp only [follow, bind_eq_ok, pure_eq_ok] at h
  obtain ⟨m, hm, rfl⟩ := h
  exact ⟨hm, rfl⟩

theorem decorator_ok {m : Mustache.Interpolation} (h : a.decorator src m = .ok b) :
    a.tokenizer.state.isData = true ∧ ∃ c, call src m.call = .ok c
      ∧ b = a.append (.decorator ⟨c, !m.escaped, m.strip, src.spanFor m.loc⟩) := by
  simp only [decorator] at h
  split at h
  · simp [fault, bind_eq_ok] at h
  · rename_i hdata
    simp only [bind_eq_ok, pure_eq_ok] at h
    obtain ⟨c, hc, rfl⟩ := h
    exact ⟨by simpa using hdata, c, hc, rfl⟩

/-- The body of a section is opened, filled and closed. -/
theorem sectionOf_ok {fallback : Nat} {p : Mustache.Program Mustache.Statement}
    {s : Section Statement} (h : sectionOf src a fallback p = .ok (s, b)) :
    ∃ inside frame stack, statements src a.pushBody.2 p.body = .ok inside
      ∧ inside.markup.finish src inside.tokenizer.state .block (inside.offset src) = .ok ()
      ∧ inside.markup.stack.popExpecting src a.markup.stack.nextId = .ok (frame, stack)
      ∧ b = { inside with markup := { inside.markup with stack } }
      ∧ s = ⟨frame.children, p.params, p.chained, sectionSpan src p.loc? fallback⟩ := by
  obtain ⟨body, params, chained⟩ := p
  simp only [sectionOf, closeBody, popBody, bind_eq_ok, pure_eq_ok] at h
  obtain ⟨inside, hinside, ⟨nodes, b'⟩, ⟨_, hfinish, ⟨frame, stack⟩, hpop, hb⟩, hs⟩ := h
  obtain ⟨rfl, rfl⟩ := Prod.mk.inj hb
  obtain ⟨rfl, rfl⟩ := Prod.mk.inj hs
  exact ⟨inside, frame, stack, hinside, hfinish, hpop, rfl, rfl⟩

theorem sectionOf?_ok {fallback : Nat} {p : Mustache.Program Mustache.Statement}
    {s : Option (Section Statement)} (h : sectionOf? src a fallback (some p) = .ok (s, b)) :
    ∃ s', s = some s' ∧ sectionOf src a fallback p = .ok (s', b) := by
  simp only [sectionOf?, bind_eq_ok, pure_eq_ok, Prod.mk.injEq] at h
  obtain ⟨⟨s', b'⟩, hs, rfl, rfl⟩ := h
  exact ⟨s', rfl, hs⟩

/-- The sections of a block are read between tags, the program first. -/
theorem block_ok {m : Mustache.Block Mustache.Statement} {node : Block Statement}
    (h : block src a m = .ok (node, b)) :
    a.tokenizer.state.isData = true ∧ ∃ c program inverse between,
      call src m.call = .ok c
      ∧ sectionOf? src a (src.spanFor m.loc).start m.program = .ok (program, between)
      ∧ sectionOf? src between (src.spanFor m.loc).start m.inverse = .ok (inverse, b)
      ∧ node = { call := c
                 program := program.getD ⟨[], [], false, .empty (src.spanFor m.loc).start⟩
                 inverse
                 openStrip := m.openStrip
                 inverseStrip := m.inverseStrip
                 closeStrip := m.closeStrip
                 span := src.spanFor m.loc } := by
  obtain ⟨c, program, inverse, openStrip, inverseStrip, closeStrip, loc⟩ := m
  simp only [block] at h
  split at h
  · simp [fault, bind_eq_ok] at h
  · rename_i hdata
    simp only [bind_eq_ok, pure_eq_ok, Prod.mk.injEq] at h
    obtain ⟨c', hc, ⟨program', between⟩, hprogram, ⟨inverse', b'⟩, hinverse, rfl, rfl⟩ := h
    exact ⟨by simpa using hdata, c', program', inverse', between, hc, hprogram, hinverse, rfl⟩

theorem block_span {m : Mustache.Block Mustache.Statement} {node : Block Statement}
    (h : block src a m = .ok (node, b)) : node.span = src.spanFor m.loc := by
  obtain ⟨-, _, _, _, _, -, -, -, rfl⟩ := block_ok h
  rfl

theorem statements_cons_ok {s : Mustache.Statement} {ss : List Mustache.Statement}
    (h : statements src a (s :: ss) = .ok b) :
    ∃ a', statement src a s = .ok a' ∧ statements src a' ss = .ok b := by
  simp only [statements, bind_eq_ok] at h
  exact h

/-- How a statement is read: text by the machine, everything in an HTML comment as text
of the comment, and each other kind in its own way. -/
inductive Reads (src : Source) (a : Assembly) : Mustache.Statement → Assembly → Prop
  | content {c : Mustache.Content} {b : Assembly} :
      a.content src c = .ok b → Reads src a (.content c) b
  | commented {s : Mustache.Statement} {b : Assembly} :
      (∀ c, s ≠ .content c) → a.tokenizer.state.isComment = true →
      a.commentText src s.loc = .ok b → Reads src a s b
  | mustache {m : Mustache.Interpolation} {d : Dynamic} {b : Assembly} :
      a.tokenizer.state.isComment = false → dynamic src m = .ok d → a.place src d = .ok b →
      Reads src a (.mustache m) b
  | decorator {m : Mustache.Interpolation} {c : Call Expression} :
      a.tokenizer.state.isData = true → call src m.call = .ok c →
      Reads src a (.decorator m)
        (a.append (.decorator ⟨c, !m.escaped, m.strip, src.spanFor m.loc⟩))
  | comment {c : Mustache.Comment} {b : Assembly} :
      a.tokenizer.state.isComment = false →
      a.placeComment src ⟨c.value, src.spanFor c.loc⟩ = .ok b → Reads src a (.comment c) b
  | partialCall {p : Mustache.PartialCall} {c : Call Expression} :
      a.tokenizer.state.isComment = false → partialName src p.call = .ok c →
      Reads src a (.partialCall p)
        (a.append (.partialCall ⟨c, p.indent, p.strip, src.spanFor p.loc⟩))
  | block {m : Mustache.Block Mustache.Statement} {node : Block Statement} {b : Assembly} :
      block src a m = .ok (node, b) → Reads src a (.block m) (b.append (.block node))
  | decoratorBlock {m : Mustache.Block Mustache.Statement} {node : Block Statement}
      {b : Assembly} :
      block src a m = .ok (node, b) →
      Reads src a (.decoratorBlock m) (b.append (.decoratorBlock node))
  | partialBlock {m : Mustache.PartialBlock Mustache.Statement} {c : Call Expression}
      {s : Section Statement} {b : Assembly} :
      a.tokenizer.state.isComment = false → partialName src m.call = .ok c →
      sectionOf src a (src.spanFor m.loc).start m.program = .ok (s, b) →
      Reads src a (.partialBlock m)
        (b.append (.partialBlock ⟨c, s, m.openStrip, m.closeStrip, src.spanFor m.loc⟩))

theorem statement_ok {s : Mustache.Statement} (h : statement src a s = .ok b) :
    Reads src a s b := by
  cases s with
  | content c =>
    rw [statement] at h
    exact .content h
  | mustache m =>
    rw [statement] at h
    split at h
    · rename_i hcomment
      exact .commented (by simp) hcomment h
    · rename_i hcomment
      simp only [bind_eq_ok] at h
      obtain ⟨d, hd, h⟩ := h
      exact .mustache (by simpa using hcomment) hd h
  | decorator m =>
    rw [statement] at h
    split at h
    · rename_i hcomment
      exact .commented (by simp) hcomment h
    · obtain ⟨hdata, c, hc, rfl⟩ := decorator_ok h
      exact .decorator hdata hc
  | comment c =>
    rw [statement] at h
    split at h
    · rename_i hcomment
      exact .commented (by simp) hcomment h
    · rename_i hcomment
      exact .comment (by simpa using hcomment) h
  | partialCall p =>
    rw [statement] at h
    split at h
    · rename_i hcomment
      exact .commented (by simp) hcomment h
    · rename_i hcomment
      simp only [Assembly.partialCall, bind_eq_ok, pure_eq_ok] at h
      obtain ⟨c, hc, rfl⟩ := h
      exact .partialCall (by simpa using hcomment) hc
  | block m =>
    rw [statement] at h
    split at h
    · rename_i hcomment
      exact .commented (by simp) hcomment h
    · simp only [bind_eq_ok, pure_eq_ok] at h
      obtain ⟨⟨node, b'⟩, hb, rfl⟩ := h
      exact .block hb
  | decoratorBlock m =>
    rw [statement] at h
    split at h
    · rename_i hcomment
      exact .commented (by simp) hcomment h
    · simp only [bind_eq_ok, pure_eq_ok] at h
      obtain ⟨⟨node, b'⟩, hb, rfl⟩ := h
      exact .decoratorBlock hb
  | partialBlock m =>
    obtain ⟨c, program, openStrip, closeStrip, loc⟩ := m
    rw [statement] at h
    split at h
    · rename_i hcomment
      exact .commented (by simp) hcomment h
    · rename_i hcomment
      simp only [bind_eq_ok, pure_eq_ok] at h
      obtain ⟨c', hc, ⟨s, b'⟩, hs, rfl⟩ := h
      exact .partialBlock (m := ⟨c, program, openStrip, closeStrip, loc⟩)
        (by simpa using hcomment) hc hs

end HtmlTemplate.Tree.Assembly
