import HtmlTemplate.Proofs.Boundaries
import HtmlTemplate.Proofs.Coordinates
import HtmlTemplate.Proofs.Runs

/-! Where errors are. What is under way begins between two characters of the text, and not after
what is being read, so each fault is at a span of the text. -/

namespace HtmlTemplate

namespace Source

variable {src : Source} {o o' : Nat}

def Marks (src : Source) (span : Span) : Prop :=
  span.start ≤ span.stop ∧ src.IsBoundary span.start ∧ src.IsBoundary span.stop

theorem isBoundary_size (src : Source) : src.IsBoundary src.size :=
  ⟨src.text, List.prefix_refl _, rfl⟩

theorem IsBoundary.le_size (h : src.IsBoundary o) : o ≤ src.size := by
  obtain ⟨before, hbefore, rfl⟩ := h
  exact byteLength_mono hbefore

theorem IsBoundary.min (h : src.IsBoundary o) (h' : src.IsBoundary o') :
    src.IsBoundary (min o o') := by
  rcases Nat.le_total o o' with hle | hle
  · rwa [Nat.min_eq_left hle]
  · rwa [Nat.min_eq_right hle]

theorem IsBoundary.marks_empty (h : src.IsBoundary o) : src.Marks (.empty o) :=
  ⟨Nat.le_refl _, h, h⟩

theorem marks_spanFor (src : Source) (l : Location) : src.Marks (src.spanFor l) := by
  have hstart := src.isBoundary_offsetFor l.start
  have hstop := src.isBoundary_offsetFor l.stop
  refine ⟨Nat.le_max_right _ _, hstart, ?_⟩
  show src.IsBoundary (max (src.offsetFor l.stop) (src.offsetFor l.start))
  rcases Nat.le_total (src.offsetFor l.start) (src.offsetFor l.stop) with hle | hle
  · rwa [Nat.max_eq_left hle]
  · rwa [Nat.max_eq_right hle]

end Source

/-- The error is at a span of the text and at the position where that starts. -/
structure SyntaxError.Located (src : Source) (e : SyntaxError) : Prop where
  ordered : e.span.start ≤ e.span.stop
  inside : e.span.stop ≤ src.size
  start : src.IsBoundary e.span.start
  stop : src.IsBoundary e.span.stop
  position : e.position = src.positionFor e.span.start

theorem Source.Marks.located {src : Source} {span : Span} (h : src.Marks span) (message : String) :
    (src.error message span).Located src where
  ordered := h.1
  inside := h.2.2.le_size
  start := h.2.1
  stop := h.2.2
  position := rfl

namespace Tree

theorem FaultAt.located {src : Source} {span : Span} {e : SyntaxError} (h : FaultAt src span e)
    (hspan : src.Marks span) : e.Located src := by
  obtain ⟨f, -, rfl⟩ := h
  exact hspan.located _

namespace OpenElements

variable {src : Source} {s t : OpenElements}

def startTags (s : OpenElements) : List Span :=
  s.frames.filterMap fun
    | (_, .element e) => some e.startTag
    | (_, .body _) => none

@[simp] theorem startTags_append (s : OpenElements) (node : Statement) :
    (s.append node).startTags = s.startTags := by
  rcases s with ⟨_ | ⟨⟨id, _ | e⟩, frames⟩, nextId⟩ <;> rfl

@[simp] theorem startTags_push_body (s : OpenElements) (children : List Statement) :
    (s.push (.body children)).2.startTags = s.startTags := rfl

@[simp] theorem startTags_push_element (s : OpenElements) (e : OpenElement) :
    (s.push (.element e)).2.startTags = e.startTag :: s.startTags := rfl

theorem startTags_popElement {e : OpenElement} (h : s.popElement? = some (e, t)) :
    s.startTags = e.startTag :: t.startTags := by
  unfold popElement? at h
  split at h
  · rename_i hframes
    cases h
    simp [startTags, hframes]
  · cases h

theorem startTags_popExpecting {id : Nat} {frame : Frame}
    (h : s.popExpecting src id = .ok (frame, t)) : t.startTags ⊆ s.startTags := by
  unfold popExpecting at h
  split at h
  · rename_i hframes
    split at h
    · cases h
      simp only [startTags, hframes]
      exact (List.Sublist.filterMap _ (List.sublist_cons_self _ _)).subset
    · split at h <;> simp [fault] at h
  · simp [fault] at h

theorem popExpecting_error {id : Nat} {e : SyntaxError} (h : s.popExpecting src id = .error e) :
    (∃ id' open' frames, s.frames = (id', .element open') :: frames
        ∧ e = src.error (Fault.unclosedElement open'.tag).message open'.startTag)
      ∨ e = src.error Fault.unbalancedBody.message (.empty src.size) := by
  unfold popExpecting at h
  split at h
  · rename_i id' frame frames hframes
    split at h
    · cases h
    · split at h
      · cases h
        exact .inl ⟨_, _, _, hframes, rfl⟩
      · cases h
        exact .inr rfl
  · cases h
    exact .inr rfl

end OpenElements

namespace Markup

structure Edged (src : Source) (m : Markup) : Prop where
  current : ∀ c, m.current = some c → src.IsBoundary c.start
  pending : ∀ a, m.pending = some a → src.IsBoundary a.start
  startTags : ∀ t ∈ m.stack.startTags, src.IsBoundary t.start ∧ src.IsBoundary t.stop

variable {src : Source} {m n : Markup}

theorem Edged.withCurrent (h : m.Edged src) {current : Option Current}
    (hc : ∀ c, current = some c → src.IsBoundary c.start) : { m with current }.Edged src :=
  ⟨hc, h.pending, h.startTags⟩

theorem Edged.mapAttribute (h : m.Edged src) {f : PendingAttribute → PendingAttribute}
    (hf : ∀ a, (f a).start = a.start) : (m.mapAttribute f).Edged src := by
  refine ⟨h.current, fun a ha => ?_, h.startTags⟩
  obtain ⟨p, hp, rfl⟩ := Option.map_eq_some_iff.mp ha
  exact hf p ▸ h.pending p hp

theorem Edged.append (h : m.Edged src) (node : Statement) : (m.append node).Edged src :=
  ⟨h.current, h.pending, fun t ht => h.startTags t (by simpa [Markup.append] using ht)⟩

theorem Edged.closeElement {name : List Char} {tagSpan : Span} {implicit : Bool}
    (h : m.Edged src) (hn : m.closeElement src name tagSpan implicit = .ok n) : n.Edged src := by
  obtain ⟨e, stack, hpop, -, rfl⟩ := closeElement_ok hn
  refine ⟨h.current, h.pending, fun t ht => h.startTags t ?_⟩
  rw [OpenElements.startTags_popElement hpop]
  exact List.mem_cons_of_mem _ (by simpa using ht)

theorem Edged.openElement {t : StartTag} {stop : Nat} (h : m.Edged src)
    (hstart : src.IsBoundary t.start) (hstop : src.IsBoundary stop)
    (hn : m.openElement src t stop = .ok n) : n.Edged src := by
  obtain ⟨kept, params, -, rfl | rfl⟩ := openElement_ok hn
  · refine ⟨h.current, h.pending, fun span hspan => ?_⟩
    simp only [OpenElements.startTags_push_element, List.mem_cons] at hspan
    rcases hspan with rfl | hspan
    · exact ⟨hstart, hstop⟩
    · exact h.startTags span hspan
  · refine ⟨h.current, h.pending, fun span hspan => h.startTags span ?_⟩
    rw [OpenElements.startTags_append] at hspan
    exact hspan

theorem Edged.withStartTag {span : Span} {f : StartTag → StartTag} (h : m.Edged src)
    (hf : ∀ t, (f t).start = t.start) (hn : m.withStartTag src span f = .ok n) : n.Edged src := by
  obtain ⟨t, ht, rfl⟩ := withStartTag_ok hn
  refine h.withCurrent ?_
  rintro c ⟨⟩
  have hstart := h.current _ ht
  simpa [Current.start, hf] using hstart

theorem Edged.finishValue {stop : Nat} (h : m.Edged src) (hn : m.finishValue src stop = .ok n) :
    n.Edged src := by
  cases ha : m.pending with
  | none =>
    rw [finishValue_none ha, Except.ok.injEq] at hn
    exact hn ▸ h
  | some a =>
    obtain ⟨t, value, ht, -, rfl⟩ := finishValue_ok ha hn
    refine ⟨?_, by simp, h.startTags⟩
    rintro c ⟨⟩
    have hstart : src.IsBoundary t.start := h.current _ ht
    exact hstart

theorem Edged.finishTag {stop : Nat} (h : m.Edged src) (hstop : src.IsBoundary stop)
    (hn : m.finishTag src stop = .ok n) : n.Edged src := by
  have hnone : { m with current := none }.Edged src := h.withCurrent (by simp)
  unfold Markup.finishTag at hn
  split at hn
  · rename_i t ht
    exact hnone.openElement (h.current _ ht) hstop hn
  · exact hnone.closeElement hn
  · cases hn
    exact h

theorem Edged.grow (h : m.Edged src) {c c' : Current} (hc : m.current = some c)
    (hstart : c'.start = c.start) : { m with current := some c' }.Edged src := by
  refine h.withCurrent ?_
  rintro _ ⟨⟩
  exact hstart ▸ h.current c hc

theorem Edged.finish (h : m.Edged src) (node : Statement) :
    ({ m with current := none }.append node).Edged src :=
  (h.withCurrent (by simp)).append node

theorem Edged.receive {event : Html.Event} (h : m.Edged src) (hn : m.receive src event = .ok n) :
    n.Edged src := by
  cases event with
  | reset =>
    cases hn
    exact ⟨by simp, by simp, h.startTags⟩
  | beginStartTag p | beginEndTag p | beginData p | beginComment p =>
    cases hn
    refine h.withCurrent ?_
    rintro _ ⟨⟩
    exact src.isBoundary_offsetFor p
  | tagName c =>
    cases hn
    unfold growTagName
    split
    · rename_i hc
      exact h.grow hc rfl
    · rename_i hc
      exact h.grow hc rfl
    · exact h
  | selfClosing =>
    simp only [Markup.receive, markSelfClosing] at hn
    split at hn
    · rename_i hc
      cases hn
      exact h.grow hc rfl
    · simp [fault] at hn
    · cases hn
      exact h
  | finishTag p => exact h.finishTag (src.isBoundary_offsetFor p) hn
  | beginAttribute p =>
    cases hn
    refine ⟨h.current, ?_, h.startTags⟩
    rintro _ ⟨⟩
    exact src.isBoundary_offsetFor p
  | attributeName c =>
    cases hn
    exact h.mapAttribute fun _ => rfl
  | beginAttributeValue quoted p =>
    cases hn
    exact h.mapAttribute fun _ => rfl
  | attributeValue text l =>
    cases hn
    exact h.mapAttribute fun _ => rfl
  | finishAttributeValue p => exact h.finishValue hn
  | data text | commentData text =>
    simp only [Markup.receive] at hn
    split at hn
    · rename_i hc
      cases hn
      exact h.grow hc rfl
    · cases hn
      exact h
  | finishData p | finishComment p =>
    simp only [Markup.receive] at hn
    split at hn
    · cases hn
      exact h.finish _
    · cases hn
      exact h
  | syntaxError f p => simp [Markup.receive, fault] at hn

theorem Edged.reports {reports : List Html.Emission} (h : m.Edged src)
    (hn : reports.foldlM (fun m e => m.receive src e.event) m = .ok n) : n.Edged src :=
  reports_keep (fun _ _ _ _ hm hn => hm.receive hn) hn h

end Markup

namespace Assembly

variable {src : Source} {a b : Assembly}

theorem edged_endAttribute (h : a.markup.Edged src) (hb : a.endAttribute src = .ok b) :
    b.markup.Edged src := by
  simp only [endAttribute, withMarkup, bind_eq_ok, pure_eq_ok] at hb
  obtain ⟨m, hm, rfl⟩ := hb
  have hbegin : (a.markup.beginValue false (a.offset src)).Edged src := h.mapAttribute fun _ => rfl
  exact hbegin.finishValue hm

private theorem edged_addModifier {d : Dynamic} (h : a.markup.Edged src)
    (hb : a.addModifier src d = .ok b) : b.markup.Edged src := by
  cases d with
  | call m =>
    simp only [addModifier, withMarkup, Markup.addModifier, bind_eq_ok, pure_eq_ok] at hb
    obtain ⟨n, hn, rfl⟩ := hb
    refine h.withStartTag ?_ hn
    exact fun _ => rfl
  | literal m => simp [addModifier, fault] at hb

private theorem edged_addTagComment {c : Comment} (h : a.markup.Edged src)
    (hb : a.withMarkup (·.addTagComment src c) = .ok b) : b.markup.Edged src := by
  simp only [withMarkup, Markup.addTagComment, bind_eq_ok, pure_eq_ok] at hb
  obtain ⟨n, hn, rfl⟩ := hb
  refine h.withStartTag ?_ hn
  exact fun _ => rfl

private theorem edged_addValuePart {m : Markup} (h : m.Edged src) (d : Dynamic) :
    (m.addValuePart d).Edged src := by
  refine h.mapAttribute fun p => ?_
  unfold PendingAttribute.addDynamic PendingAttribute.finishText
  split <;> rfl

private theorem edged_place {d : Dynamic} (h : a.markup.Edged src) (hb : a.place src d = .ok b) :
    b.markup.Edged src := by
  have hafter (hb : (do
      let b ← a.endAttribute src
      let b ← b.addModifier src d
      return b.become .beforeAttributeName) = Except.ok b) : b.markup.Edged src := by
    simp only [bind_eq_ok, pure_eq_ok] at hb
    obtain ⟨a₁, h₁, a₂, h₂, rfl⟩ := hb
    have hedged := edged_addModifier (edged_endAttribute h h₁) h₂
    exact hedged
  unfold Assembly.place at hb
  split at hb
  · simp [fault] at hb
  · simp [fault] at hb
  · exact edged_addModifier h hb
  · exact hafter hb
  · exact hafter hb
  · simp only [bind_eq_ok, pure_eq_ok] at hb
    obtain ⟨a₁, h₁, rfl⟩ := hb
    have hedged := edged_addModifier h h₁
    exact hedged
  · cases hb
    have hbegin : (a.markup.beginValue false (a.offset src)).Edged src :=
      h.mapAttribute fun _ => rfl
    exact edged_addValuePart hbegin d
  · cases hb
    exact edged_addValuePart h d
  · cases hb
    exact edged_addValuePart h d
  · cases hb
    exact edged_addValuePart h d
  · cases hb
    exact h.append _

private theorem edged_placeComment {c : Comment} (h : a.markup.Edged src)
    (hb : a.placeComment src c = .ok b) : b.markup.Edged src := by
  unfold Assembly.placeComment at hb
  split at hb
  · exact edged_addTagComment h hb
  · simp only [bind_eq_ok, pure_eq_ok] at hb
    obtain ⟨a₁, h₁, a₂, h₂, rfl⟩ := hb
    have hedged := edged_addTagComment (edged_endAttribute h h₁) h₂
    exact hedged
  · cases hb
    exact h.append _
  · cases hb
    exact h.append _
  · simp [fault] at hb

theorem edged_flat {s : Mustache.Statement}
    (hs : isSectioned s = false ∨ a.tokenizer.state.isComment = true)
    (h : a.markup.Edged src) (hb : statement src a s = .ok b) : b.markup.Edged src := by
  cases statement_ok hb with
  | content hb =>
    have hmarkup := (content_ok hb).1
    rw [List.foldlM_map] at hmarkup
    exact h.reports hmarkup
  | commented _ _ hb => exact h.reports (follow_ok hb).1
  | mustache _ _ hb => exact edged_place h hb
  | decorator _ _ => exact h.append _
  | comment _ hb => exact edged_placeComment h hb
  | partialCall _ _ => exact h.append _
  | block hblock =>
    have hdata := (block_ok hblock).1
    simp [isSectioned, Html.State.isComment_of_isData hdata] at hs
  | decoratorBlock hblock =>
    have hdata := (block_ok hblock).1
    simp [isSectioned, Html.State.isComment_of_isData hdata] at hs
  | partialBlock hcomment => simp [isSectioned, hcomment] at hs

def StaysEdged (src : Source) : RunProperty := fun a _ b =>
  a.markup.Edged src → b.markup.Edged src

theorem edged_pushBody (h : a.markup.Edged src) : a.pushBody.2.markup.Edged src :=
  ⟨h.current, h.pending, h.startTags⟩

theorem Inside.edged {fallback : Nat} {p : Mustache.Program Mustache.Statement}
    {nodes : Section Statement} (h : Inside src (StaysEdged src) a fallback p nodes b)
    (ha : a.markup.Edged src) : b.markup.Edged src := by
  obtain ⟨hsection, hinside⟩ := h
  obtain ⟨inside, frame, stack, hstatements, -, hpop, rfl, -⟩ := sectionOf_ok hsection
  have hedged := hinside inside hstatements (edged_pushBody ha)
  exact ⟨hedged.current, hedged.pending, fun t ht =>
    hedged.startTags t (OpenElements.startTags_popExpecting hpop ht)⟩

theorem Inside?.edged {fallback : Nat} {p : Option (Mustache.Program Mustache.Statement)}
    {nodes : Option (Section Statement)} (h : Inside? src (StaysEdged src) a fallback p nodes b)
    (ha : a.markup.Edged src) : b.markup.Edged src := by
  cases p with
  | none =>
    obtain ⟨-, rfl⟩ := h
    exact ha
  | some p =>
    obtain ⟨s, -, h⟩ := h
    exact h.edged ha

theorem staysEdged (src : Source) : Follows src (StaysEdged src) where
  nil _ h := h
  flat hs hb ih h := ih (edged_flat hs h hb)
  block _ _ _ hprogram hinverse _ _ _ _ ih h := ih ((hinverse.edged (hprogram.edged h)).append _)
  partialBlock _ _ hsection _ ih h := ih ((hsection.edged h).append _)

theorem Enters.edged {s : Mustache.Statement} {fallback : Nat}
    {p : Mustache.Program Mustache.Statement} (h : Enters src a s fallback p b)
    (ha : a.markup.Edged src) : b.markup.Edged src := by
  cases h with
  | program => exact ha
  | inverse _ _ _ hprogram _ => exact ((staysEdged src).inside? _ hprogram).edged ha
  | partialBlock => exact ha

end Assembly
end Tree

namespace Html

open HtmlTemplate.Tree (Ground Markup FaultAt)

variable {g : Ground} {x y z : Construct} {p q r : Position} {m : Markup} {e : Event}

theorem InStep.marks (h : InStep g x p m) (hm : Move x p (some e) y q) (hedged : m.Edged g.src)
    {span : Span} (hspan : m.faultSpan? g.src e = some span) : g.src.Marks span := by
  have hcurrent {c : Tree.Current} (hc : m.current = some c) :
      g.src.Marks ⟨c.start, g.src.offsetFor p⟩ :=
    ⟨(h.at_.current c hc).2.1, hedged.current c hc, g.src.isBoundary_offsetFor p⟩
  cases hm with
  | fault | refuse | refuseEnd =>
    cases hspan
    exact (g.src.isBoundary_offsetFor _).marks_empty
  | selfClosing =>
    obtain ⟨c, hc, rfl⟩ := Option.map_eq_some_iff.mp hspan
    exact (hedged.current c hc).marks_empty
  | finishTag =>
    obtain ⟨c, hc, rfl⟩ := Option.map_eq_some_iff.mp hspan
    exact hcurrent hc
  | finishValue =>
    obtain ⟨a, ha, rfl⟩ := Option.map_eq_some_iff.mp hspan
    obtain ⟨⟨c, hc, -⟩, -⟩ := h.at_.phase
    have hnested := h.at_.pending c a hc ha
    exact ⟨Nat.le_trans hnested.start_le hnested.valueStart_le, hedged.pending a ha,
      g.src.isBoundary_offsetFor p⟩
  | @beginStartTag | @beginEndTag | growName | beginText | beginBracket | data | finishText
  | beginComment | commentData | finishComment | beginAttribute | growAttribute | beginValue
  | valueText => cases hspan

theorem Moves.failsWith {src : Source} {I : Construct → Position → Markup → Prop}
    {P : SyntaxError → Prop}
    (hsilent : ∀ {x y p q m}, I x p m → Move x p none y q → I y q m)
    (hreceive : ∀ {x y p q m n e}, I x p m → Move x p (some e) y q →
      m.receive src e = .ok n → I y q n)
    (hfails : ∀ {x y p q m e}, I x p m → Move x p (some e) y q → FailsWith P (m.receive src e))
    {es : List Event} (h : Moves x p es y q) (hm : I x p m) :
    FailsWith P (es.foldlM (Markup.receive src) m) := by
  induction h with
  | refl => exact .pure _
  | @move _ _ _ _ _ es e hmoves hmove ih =>
    rw [List.foldlM_append]
    refine (ih hm).bind fun n hn => ?_
    cases e with
    | none => exact .pure _
    | some e =>
      have hlast := hfails (hmoves.keeps hsilent hreceive hm hn) hmove
      exact hlast.bind fun _ _ => .pure _

end Html

namespace Tree.Assembly

variable {src : Source} {a b : Assembly} {ts : List Mustache.Token}
  {ss : List Mustache.Statement}

private theorem content_reports (src : Source) (a : Assembly) (c : Mustache.Content) :
    a.content src c = ((a.report src (.content c)).map (·.event)).foldlM (Markup.receive src)
        a.markup >>= fun m => .ok ⟨readText a.tokenizer c, m⟩ := by
  have hfollow (a : Assembly) (step : List Html.Emission × Html.Tokenizer) :=
    follow_eq src a step.1 step.2
  rw [report, List.map_append, List.foldlM_append, bind_assoc]
  simp only [Prod.mk.eta] at hfollow
  simp only [content, hfollow, bind_assoc]
  rfl

theorem Settled.content_located {g : Ground} {lo : Position} {c : Mustache.Content}
    (h : Settled g (g.src.offsetFor lo) a) (hlo : 1 ≤ lo.line) (hstart : lo ≤ c.loc.start)
    (hedged : a.markup.Edged g.src) :
    FailsWith (SyntaxError.Located g.src) (a.content g.src c) := by
  obtain ⟨k, hmoves⟩ := report_moves g.src a c .start
  rw [content_reports]
  refine FailsWith.bind ?_ fun _ _ => .ok _
  refine hmoves.failsWith (I := fun x p m => Html.InStep g x p m ∧ m.Edged g.src)
    (fun h hm => ⟨h.1.silent hm, h.2⟩) (fun h hm hn => ⟨h.1.receive hm hn, h.2.receive hn⟩) ?_
    ⟨h.inStep hlo hstart .start, hedged⟩
  intro x y p q m e h hm
  refine (m.failsWith_receive e).mono ?_
  rintro err ⟨span, hspan, herr⟩
  exact herr.located (h.1.marks hm h.2 hspan)

theorem failsWith_commentText (src : Source) (a : Assembly) (l : Location)
    (P : SyntaxError → Prop) : FailsWith P (a.commentText src l) := by
  refine (Markup.failsWith_reports (fun e he m => ?_) _).bind fun _ _ => .pure _
  obtain ⟨text, hevent⟩ := Html.Tokenizer.events_appendComment he
  rw [hevent]
  refine (m.failsWith_receive _).mono ?_
  rintro err ⟨span, ⟨⟩, -⟩

theorem Laid.run (h : Laid src ts a ss) (hss : statements src a ss = .ok b) :
    Laid src ts b [] := by
  induction ss generalizing a with
  | nil =>
    rw [statements, Except.ok.injEq] at hss
    exact hss ▸ h
  | cons s ss ih =>
    obtain ⟨a', hs, hss⟩ := statements_cons_ok hss
    exact ih (h.tail hs) hss

theorem Laid.follow_finish (h : Laid src ts a ss) : a.follow src a.tokenizer.finish = .ok a := by
  obtain ⟨_, _, _, _, -, -, -, -, hsettled⟩ := h
  rw [Html.Tokenizer.finish, Html.Tokenizer.finishData, if_neg hsettled.notData]
  rfl

theorem finish_located (whole : Whole) {stop : Nat} (hedged : a.markup.Edged src)
    (hstop : src.IsBoundary stop) :
    FailsWith (SyntaxError.Located src)
      (a.markup.finish src a.tokenizer.state whole stop) := by
  refine (a.markup.failsWith_finish _ _ _).mono ?_
  rintro e ⟨start, hstart, he⟩
  refine he.located ⟨Nat.min_le_right _ _, ?_, hstop⟩
  rcases hstart with rfl | ⟨c, hc, rfl⟩
  · exact hstop.min hstop
  · exact (hedged.current c hc).min hstop

theorem popBody_located (hlaid : Laid src ts a []) (hedged : a.markup.Edged src) (id : Nat) :
    FailsWith (SyntaxError.Located src) (a.popBody src id) := by
  refine FailsWith.bind ?_ fun _ _ => .pure _
  intro e he
  rcases OpenElements.popExpecting_error he with ⟨id', open', frames, hframes, rfl⟩ | rfl
  · obtain ⟨bottom, base, lo, hi, -, -, -, -, hsettled⟩ := hlaid
    have hframed := hsettled.at_.framed
    have hmem : open'.startTag ∈ a.markup.stack.startTags := by
      simp [OpenElements.startTags, hframes]
    rw [hframes] at hframed
    cases hframed with
    | element _ _ helement =>
      exact Source.Marks.located ⟨helement.start_le, hedged.startTags _ hmem⟩ _
  · exact (src.isBoundary_size.marks_empty).located _

theorem errs_located (src : Source) (ts : List Mustache.Token) :
    Errs src (fun a ss => Laid src ts a ss ∧ a.markup.Edged src) (SyntaxError.Located src) where
  head h := ⟨h.1.head, h.2⟩
  tail {a b s ss} h hs := by
    have hedged : StaysEdged src a [s] b := (staysEdged src).head s hs id
    exact ⟨h.1.tail hs, hedged h.2⟩
  inside h he := ⟨h.1.inside he, edged_pushBody (he.edged h.2)⟩
  location he := he.elim fun l he => he.located (src.marks_spanFor l)
  content h := by
    obtain ⟨⟨bottom, base, lo, hi, hlo, hordered, -, -, hsettled⟩, hedged⟩ := h
    exact hsettled.content_located hlo hordered.1.1 hedged
  comment _ _ := failsWith_commentText _ _ _ _
  name {a s e} h he := by
    obtain ⟨⟨bottom, base, lo, hi, -, -, -, -, hsettled⟩, hedged⟩ := h
    obtain ⟨hnaming, p, hp, he⟩ := he
    exact he.located ⟨(hsettled.naming hnaming).2 p hp, hedged.pending p hp,
      src.isBoundary_offsetFor _⟩
  close {a inside body} h hinside := by
    have hedged := (staysEdged src).statements body hinside h.2
    exact (finish_located _ hedged (src.isBoundary_offsetFor _)).bind fun _ _ =>
      popBody_located (h.1.run hinside) hedged _

theorem edged_initial (src : Source) (mode : Html.Mode) : (initial mode).markup.Edged src where
  current := by rintro _ ⟨⟩
  pending := by rintro _ ⟨⟩
  startTags := by rintro _ ⟨⟩

end Tree.Assembly

open HtmlTemplate.Tree (Assembly)

theorem preprocess_located (text : List Char) (options : Options) :
    FailsWith (SyntaxError.Located ⟨text, options.moduleName⟩) (preprocess text options) := by
  unfold preprocess
  dsimp only
  split
  · rename_i fault hparse
    rintro _ ⟨⟩
    exact (Source.isBoundary_offsetFor _ _).marks_empty.located _
  · rename_i program hparse
    obtain ⟨ts, -, -, hlaid⟩ := laid_initial hparse
    have hedged := Assembly.edged_initial ⟨text, options.moduleName⟩ options.mode
    refine ((Assembly.errs_located _ ts).statements program.body ⟨hlaid, hedged⟩).bind
      fun a ha => ?_
    have hlaid' := hlaid.run ha
    have hedged' := (Assembly.staysEdged _).statements program.body ha hedged
    rw [hlaid'.follow_finish]
    exact (Assembly.finish_located _ hedged' (Source.isBoundary_size _)).bind fun _ _ =>
      (Assembly.popBody_located hlaid' hedged' _).bind fun _ _ => .pure _

end HtmlTemplate
