import HtmlTemplate.Proofs.Bodies
import HtmlTemplate.Proofs.Phase

/-! The faults that reading a template can end with, and the spans they are at. A body that
does not come back would be one of them, but bodies are always there when their end comes.
What is to be shown of every error of a run is shown of one operation at a time. -/

namespace HtmlTemplate

/-- Whatever goes wrong has a property. -/
def FailsWith {ε α : Type} (P : ε → Prop) (x : Except ε α) : Prop :=
  ∀ e, x = .error e → P e

namespace FailsWith

variable {ε α β : Type} {P : ε → Prop}

theorem ok (a : α) : FailsWith P (.ok a : Except ε α) := by
  intro e h
  cases h

theorem pure (a : α) : FailsWith P (Pure.pure a : Except ε α) := ok a

theorem mono {Q : ε → Prop} {x : Except ε α} (h : FailsWith P x) (hPQ : ∀ e, P e → Q e) :
    FailsWith Q x :=
  fun e he => hPQ e (h e he)

theorem bind {x : Except ε α} {f : α → Except ε β} (hx : FailsWith P x)
    (hf : ∀ a, x = .ok a → FailsWith P (f a)) : FailsWith P (x >>= f) := by
  intro e h
  rcases bind_eq_error.mp h with h | ⟨a, ha, h⟩
  · exact hx e h
  · exact hf a ha e h

theorem map {x : Except ε α} (f : α → β) (hx : FailsWith P x) : FailsWith P (x.map f) := by
  intro e h
  cases x with
  | error e' =>
    cases h
    exact hx _ rfl
  | ok a => cases h

end FailsWith

namespace Tree

def Balanced (e : SyntaxError) : Prop := e.message ≠ Fault.unbalancedBody.message

private theorem append_ne_unbalanced {s t : String}
    (h : (s.toList ++ t.toList).take 3 ≠ ['U', 'n', 'b']) :
    s ++ t ≠ Fault.unbalancedBody.message := by
  rw [← String.toList_append] at h
  intro hs
  rw [hs] at h
  exact h (by decide)

theorem message_ne_unbalanced {f : Fault} (hf : f ≠ .unbalancedBody) :
    f.message ≠ Fault.unbalancedBody.message := by
  cases f with
  | unbalancedBody => exact (hf rfl).elim
  | notCallable l =>
    apply append_ne_unbalanced
    cases l <;> simp [String.toList_append, Literal.typeName]
  | html f =>
    cases f with
    | characterInName c =>
      apply append_ne_unbalanced
      simp
    | _ => decide
  | literalModifier | commentPlace | unexpectedEnd | voidEndTag | mismatchedEndTag | endTagAlone
  | unclosedElement | malformedParams | invalidParam | unclosedStartTag | unclosedEndTag =>
    apply append_ne_unbalanced
    simp [String.toList_append]
  | _ => decide

theorem mustacheMessage_ne_unbalanced (f : Mustache.Fault) :
    f.message ≠ Fault.unbalancedBody.message := by
  cases f with
  | unexpectedCharacter | expected | unclosedBlock | invalidPath =>
    apply append_ne_unbalanced
    simp [String.toList_append]
  | mismatchedClose opened closed =>
    -- The names may be anything, but there is an apostrophe between them.
    intro h
    have hmem : '\'' ∈
        ((String.ofList opened ++ " doesn't match ") ++ String.ofList closed).toList := by
      simp [String.toList_append]
    change '\'' ∈ (Mustache.Fault.mismatchedClose opened closed).message.toList at hmem
    rw [h] at hmem
    revert hmem
    decide
  | _ => decide

variable {src : Source} {span : Span} {e : SyntaxError}

def FaultAt (src : Source) (span : Span) (e : SyntaxError) : Prop :=
  ∃ f, f ≠ Fault.unbalancedBody ∧ e = src.error f.message span

def FaultAtLocation (src : Source) (e : SyntaxError) : Prop :=
  ∃ l, FaultAt src (src.spanFor l) e

theorem FaultAt.balanced (h : FaultAt src span e) : Balanced e := by
  obtain ⟨f, hf, rfl⟩ := h
  exact message_ne_unbalanced hf

theorem failsWith_fault {α : Type} {f : Fault} (hf : f ≠ .unbalancedBody) :
    FailsWith (FaultAt src span) (fault src f span : Except SyntaxError α) := by
  rintro _ ⟨⟩
  exact ⟨f, hf, rfl⟩

theorem failsWith_faultAtLocation {α : Type} {f : Fault} {l : Location}
    (hf : f ≠ .unbalancedBody) :
    FailsWith (FaultAtLocation src) (fault src f (src.spanFor l) : Except SyntaxError α) :=
  (failsWith_fault hf).mono fun _ he => ⟨l, he⟩

theorem Path.segments?_ne {p : Mustache.Path} {f : Fault} (h : Path.segments? p = .error f) :
    f ≠ .unbalancedBody := by
  unfold Path.segments? at h
  rintro rfl
  repeat' split at h
  all_goals cases h

theorem Path.split?_ne {p : Mustache.Path} {span : Span} {f : Fault}
    (h : Path.split? p span = .error f) : f ≠ .unbalancedBody := by
  unfold Path.split? at h
  rcases bind_eq_error.mp h with h | ⟨parts, _, h⟩
  · exact Path.segments?_ne h
  · rintro rfl
    repeat' split at h
    all_goals simp [pure, Except.pure] at h

private theorem failsWith_resolve (p : Mustache.Path) :
    FailsWith (FaultAtLocation src) (Path.resolve src p) := by
  unfold Path.resolve
  dsimp only
  split
  · exact .ok _
  · rename_i hf
    exact failsWith_faultAtLocation (Path.split?_ne hf)

theorem literal_of_expression {e : Mustache.Expression} {l : Literal}
    (h : expression src e = .ok (.literal l span)) : ∃ loc, span = src.spanFor loc := by
  cases e with
  | path p =>
    simp only [expression, map_eq_ok] at h
    obtain ⟨_, _, ⟨⟩⟩ := h
  | literal l' loc =>
    rw [expression] at h
    cases h
    exact ⟨loc, rfl⟩
  | call c loc =>
    simp only [expression, map_eq_ok] at h
    obtain ⟨_, _, ⟨⟩⟩ := h

private theorem failsWith_callable {e : Mustache.Expression} {e' : Expression}
    (h : expression src e = .ok e') : FailsWith (FaultAtLocation src) (callable src e') := by
  cases e' with
  | literal l span =>
    obtain ⟨loc, rfl⟩ := literal_of_expression h
    exact failsWith_faultAtLocation (by simp)
  | path p => exact .ok _
  | call c span => exact .ok _

mutual

theorem failsWith_expression :
    (e : Mustache.Expression) → FailsWith (FaultAtLocation src) (expression src e)
  | .path p => by
    rw [expression]
    exact (failsWith_resolve p).map _
  | .literal l loc => by
    rw [expression]
    exact .ok _
  | .call c loc => by
    rw [expression]
    exact (failsWith_call c).map _

theorem failsWith_call :
    (c : Mustache.Call Mustache.Expression) → FailsWith (FaultAtLocation src) (call src c)
  | ⟨callee, params, none⟩ => by
    rw [call]
    exact (failsWith_expression callee).bind fun _ hcallee =>
      (failsWith_callable hcallee).bind fun _ _ =>
        (failsWith_expressions params).bind fun _ _ => .pure _
  | ⟨callee, params, some ⟨pairs, loc⟩⟩ => by
    rw [call]
    exact (failsWith_expression callee).bind fun _ hcallee =>
      (failsWith_callable hcallee).bind fun _ _ =>
        (failsWith_expressions params).bind fun _ _ =>
          (failsWith_hashPairs pairs).bind fun _ _ => .pure _

theorem failsWith_expressions :
    (es : List Mustache.Expression) → FailsWith (FaultAtLocation src) (expressions src es)
  | [] => by
    rw [expressions]
    exact .ok _
  | e :: es => by
    rw [expressions]
    exact (failsWith_expression e).bind fun _ _ =>
      (failsWith_expressions es).bind fun _ _ => .pure _

theorem failsWith_hashPairs :
    (ps : List (Mustache.Pair Mustache.Expression)) →
      FailsWith (FaultAtLocation src) (hashPairs src ps)
  | [] => by
    rw [hashPairs]
    exact .ok _
  | ⟨key, value, loc⟩ :: ps => by
    rw [hashPairs]
    exact (failsWith_expression value).bind fun _ _ =>
      (failsWith_hashPairs ps).bind fun _ _ => .pure _

end

theorem failsWith_partialName (c : Mustache.Call Mustache.Expression) :
    FailsWith (FaultAtLocation src) (partialName src c) := by
  unfold partialName
  refine (failsWith_expression c.callee).bind fun _ _ =>
    (failsWith_expressions c.params).bind fun _ _ => ?_
  split
  · exact .pure _
  · exact (failsWith_hashPairs _).bind fun _ _ => .pure _

theorem failsWith_dynamic (m : Mustache.Interpolation) :
    FailsWith (FaultAtLocation src) (dynamic src m) := by
  unfold dynamic
  refine (failsWith_expression m.call.callee).bind fun callee hcallee => ?_
  split
  · split
    · exact .pure _
    · obtain ⟨loc, rfl⟩ := literal_of_expression hcallee
      exact failsWith_faultAtLocation (by simp)
  · exact (failsWith_call m.call).bind fun _ _ => .pure _

/-- A mustache is where it has been read. -/
theorem dynamic_span {m : Mustache.Interpolation} {d : Dynamic} (h : dynamic src m = .ok d) :
    d.span = src.spanFor m.loc := by
  obtain ⟨_, _, -, rfl⟩ | ⟨_, -, rfl⟩ := dynamic_ok h <;> rfl

namespace Markup

theorem failsWith_closeElement (m : Markup) (name : List Char) (tagSpan : Span)
    (implicit : Bool) :
    FailsWith (FaultAt src tagSpan) (m.closeElement src name tagSpan implicit) := by
  unfold closeElement
  split
  · exact failsWith_fault (by simp)
  · split
    · exact failsWith_fault (by simp)
    · split
      · exact .ok _
      · exact failsWith_fault (by simp)

private theorem paramNames_ne {names : List (List Char)} {f : Fault}
    (h : paramNames names = .error f) :
    f ≠ .unbalancedBody := by
  induction names with
  | nil => simp [paramNames] at h
  | cons name names ih =>
    simp only [paramNames] at h
    split at h
    · exact ih h
    · split at h
      · cases h
        simp
      · cases hnames : paramNames names with
        | error f' =>
          rw [hnames] at h
          cases h
          exact ih hnames
        | ok params =>
          rw [hnames] at h
          cases h

private theorem blockParams?_ne {names : List (List Char)} {f : Fault}
    (h : blockParams? names = .error f) :
    f ≠ .unbalancedBody := by
  unfold blockParams? at h
  dsimp only at h
  split at h
  · split at h
    · cases h
      simp
    · cases h
  · split at h
    · cases h
    · split at h
      · cases h
        simp
      · split at h
        · rename_i hnames
          cases h
          exact paramNames_ne hnames
        · cases h
          simp
        · cases h

private theorem failsWith_openElement (m : Markup) (t : StartTag) (stop : Nat) :
    FailsWith (FaultAt src ⟨t.start, stop⟩) (m.openElement src t stop) := by
  unfold openElement
  dsimp only
  split
  · exact failsWith_fault (by simp)
  · split
    · rename_i hparams
      exact failsWith_fault (blockParams?_ne hparams)
    · split
      · exact failsWith_closeElement _ _ _ _
      · exact .ok _

theorem failsWith_withStartTag (m : Markup) (span : Span) (f : StartTag → StartTag) :
    FailsWith (FaultAt src span) (m.withStartTag src span f) := by
  unfold withStartTag
  split
  · exact .ok _
  · exact failsWith_fault (by simp)

private theorem value?_ne {a : PendingAttribute} {span : Span} {f : Fault}
    (h : a.value? span = .error f) : f ≠ .unbalancedBody := by
  unfold PendingAttribute.value? at h
  rintro rfl
  repeat' split at h
  all_goals cases h

theorem failsWith_finishValue (m : Markup) (stop : Nat) :
    FailsWith (fun e => ∃ a, m.pending = some a ∧ FaultAt src ⟨a.start, stop⟩ e)
      (m.finishValue src stop) := by
  unfold finishValue
  split
  · exact .ok _
  · rename_i a ha
    have hstart : a.finishText.start = a.start := by
      unfold PendingAttribute.finishText
      split <;> rfl
    refine FailsWith.mono (P := FaultAt src ⟨a.start, stop⟩) ?_ fun _ he => ⟨a, ha, he⟩
    dsimp only
    rw [hstart]
    split
    · exact (failsWith_fault (by simp)).bind fun _ h => absurd h (by simp [fault])
    · split
      · rename_i hvalue
        exact failsWith_fault (value?_ne hvalue)
      · exact failsWith_withStartTag _ _ _

private theorem failsWith_finishTag (m : Markup) (stop : Nat) :
    FailsWith (fun e => ∃ c, m.current = some c ∧ FaultAt src ⟨c.start, stop⟩ e)
      (m.finishTag src stop) := by
  unfold finishTag
  split
  · rename_i t hcurrent
    exact (failsWith_openElement _ t stop).mono fun _ he => ⟨_, hcurrent, he⟩
  · rename_i name start hcurrent
    exact (failsWith_closeElement _ name ⟨start, stop⟩ false).mono fun _ he => ⟨_, hcurrent, he⟩
  · exact .ok _

def faultSpan? (src : Source) (m : Markup) : Html.Event → Option Span
  | .selfClosing => m.current.map fun c => ⟨c.start, c.start⟩
  | .finishTag p => m.current.map fun c => ⟨c.start, src.offsetFor p⟩
  | .finishAttributeValue p => m.pending.map fun a => ⟨a.start, src.offsetFor p⟩
  | .syntaxError _ p => some (.empty (src.offsetFor p))
  | _ => none

theorem failsWith_receive (m : Markup) (event : Html.Event) :
    FailsWith (fun e => ∃ span, m.faultSpan? src event = some span ∧ FaultAt src span e)
      (m.receive src event) := by
  cases event with
  | selfClosing =>
    show FailsWith _ (m.markSelfClosing src)
    unfold markSelfClosing
    split
    · exact .ok _
    · rename_i name start hcurrent
      exact (failsWith_fault (by simp)).mono fun _ he =>
        ⟨_, by simp [faultSpan?, hcurrent, Current.start], he⟩
    · exact .ok _
  | finishTag p =>
    refine (failsWith_finishTag m (src.offsetFor p)).mono ?_
    rintro e ⟨c, hc, he⟩
    exact ⟨_, by simp [faultSpan?, hc], he⟩
  | finishAttributeValue p =>
    refine (failsWith_finishValue m (src.offsetFor p)).mono ?_
    rintro e ⟨a, ha, he⟩
    exact ⟨_, by simp [faultSpan?, ha], he⟩
  | syntaxError f p => exact (failsWith_fault (by simp)).mono fun _ he => ⟨_, rfl, he⟩
  | data | finishData | commentData | finishComment =>
    simp only [receive]
    split <;> exact .ok _
  | _ => exact .ok _

theorem failsWith_reports {P : SyntaxError → Prop} {reports : List Html.Emission}
    (h : ∀ e ∈ reports, ∀ m : Markup, FailsWith P (m.receive src e.event)) (m : Markup) :
    FailsWith P (reports.foldlM (fun m e => m.receive src e.event) m) := by
  induction reports generalizing m with
  | nil => exact .pure _
  | cons e reports ih =>
    rw [List.foldlM_cons]
    exact (h e List.mem_cons_self m).bind fun m' _ =>
      ih (fun e' he' => h e' (List.mem_cons_of_mem _ he')) m'

theorem failsWith_finish (m : Markup) (state : Html.State) (whole : Whole) (stop : Nat) :
    FailsWith (fun e => ∃ start, (start = stop ∨ ∃ c, m.current = some c ∧ c.start = start)
        ∧ FaultAt src ⟨min start stop, stop⟩ e)
      (m.finish src state whole stop) := by
  unfold finish
  split
  · exact .ok _
  · cases hcurrent : m.current with
    | none => exact (failsWith_fault (by simp)).mono fun _ he => ⟨stop, .inl rfl, he⟩
    | some c =>
      cases c with
      | text chars start =>
        exact (failsWith_fault (by simp)).mono fun _ he => ⟨stop, .inl rfl, he⟩
      | comment value start =>
        exact (failsWith_fault (by simp)).mono fun _ he => ⟨start, .inr ⟨_, rfl, rfl⟩, he⟩
      | startTag t =>
        exact (failsWith_fault (by simp)).mono fun _ he => ⟨t.start, .inr ⟨_, rfl, rfl⟩, he⟩
      | endTag name start =>
        exact (failsWith_fault (by simp)).mono fun _ he => ⟨start, .inr ⟨_, rfl, rfl⟩, he⟩

end Markup

namespace Assembly

theorem failsWith_follow (a : Assembly) (step : List Html.Emission × Html.Tokenizer) :
    FailsWith Balanced (a.follow src step) := by
  refine (Markup.failsWith_reports (fun e _ m => ?_) _).bind fun _ _ => .pure _
  refine (Markup.failsWith_receive m e.event).mono ?_
  rintro err ⟨span, -, herr⟩
  exact herr.balanced

def FaultAtName (src : Source) (a : Assembly) (e : SyntaxError) : Prop :=
  Phase.of a.tokenizer.state = .naming
    ∧ ∃ p, a.markup.pending = some p ∧ FaultAt src ⟨p.start, a.offset src⟩ e

theorem FaultAtName.balanced {a : Assembly} (h : a.FaultAtName src e) : Balanced e := by
  obtain ⟨-, p, -, he⟩ := h
  exact he.balanced

theorem failsWith_endAttribute {a : Assembly} (h : Phase.of a.tokenizer.state = .naming) :
    FailsWith (a.FaultAtName src) (a.endAttribute src) := by
  refine FailsWith.bind ?_ fun _ _ => .pure _
  refine (Markup.failsWith_finishValue _ _).mono ?_
  rintro e ⟨p, hp, he⟩
  simp only [Markup.beginValue, Markup.mapAttribute, Option.map_eq_some_iff] at hp
  obtain ⟨p, hp, rfl⟩ := hp
  exact ⟨h, p, hp, he⟩

private theorem failsWith_addModifier (a : Assembly) (d : Dynamic) :
    FailsWith (FaultAt src d.span) (a.addModifier src d) := by
  cases d with
  | call m => exact (Markup.failsWith_withStartTag _ _ _).bind fun _ _ => .pure _
  | literal m => exact failsWith_fault (by simp)

private theorem failsWith_addTagComment (a : Assembly) (c : Comment) :
    FailsWith (FaultAt src c.span) (a.withMarkup (·.addTagComment src c)) :=
  (Markup.failsWith_withStartTag _ _ _).bind fun _ _ => .pure _

theorem failsWith_place (a : Assembly) (d : Dynamic) :
    FailsWith (fun e => FaultAt src d.span e ∨ a.FaultAtName src e) (a.place src d) := by
  have hafter (hnaming : Phase.of a.tokenizer.state = .naming) :
      FailsWith (fun e => FaultAt src d.span e ∨ a.FaultAtName src e) (do
        let b ← a.endAttribute src
        let b ← b.addModifier src d
        return b.become .beforeAttributeName) :=
    ((failsWith_endAttribute hnaming).mono fun _ => .inr).bind fun _ _ =>
      ((failsWith_addModifier _ d).mono fun _ => .inl).bind fun _ _ => .pure _
  unfold place
  split
  · exact (failsWith_fault (by simp)).mono fun _ => .inl
  · exact (failsWith_fault (by simp)).mono fun _ => .inl
  · exact (failsWith_addModifier a d).mono fun _ => .inl
  · rename_i hstate
    exact hafter (congrArg Phase.of hstate)
  · rename_i hstate
    exact hafter (congrArg Phase.of hstate)
  · exact ((failsWith_addModifier a d).mono fun _ => .inl).bind fun _ _ => .pure _
  all_goals exact .ok _

theorem failsWith_placeComment (a : Assembly) (c : Comment) :
    FailsWith (fun e => FaultAt src c.span e ∨ a.FaultAtName src e) (a.placeComment src c) := by
  unfold placeComment
  split
  · exact (failsWith_addTagComment a c).mono fun _ => .inl
  · rename_i hstate
    exact ((failsWith_endAttribute (congrArg Phase.of hstate)).mono fun _ => .inr).bind fun _ _ =>
      ((failsWith_addTagComment _ c).mono fun _ => .inl).bind fun _ _ => .pure _
  · exact .ok _
  · exact .ok _
  · exact (failsWith_fault (by simp)).mono fun _ => .inl

private theorem failsWith_decorator (a : Assembly) (m : Mustache.Interpolation) :
    FailsWith (FaultAtLocation src) (a.decorator src m) := by
  simp only [decorator]
  split
  · exact (failsWith_faultAtLocation (by simp)).bind fun _ _ =>
      (failsWith_call _).bind fun _ _ => .pure _
  · exact (failsWith_call _).bind fun _ _ => .pure _

private theorem failsWith_partialCall (a : Assembly) (p : Mustache.PartialCall) :
    FailsWith (FaultAtLocation src) (a.partialCall src p) :=
  (failsWith_partialName _).bind fun _ _ => .pure _

/-- What has to be shown for every error of a run to have a property, given what is known
where a statement begins. -/
structure Errs (src : Source) (I : Assembly → List Mustache.Statement → Prop)
    (P : SyntaxError → Prop) : Prop where
  head {a : Assembly} {s : Mustache.Statement} {ss : List Mustache.Statement} :
    I a (s :: ss) → I a [s]
  tail {a b : Assembly} {s : Mustache.Statement} {ss : List Mustache.Statement} :
    I a (s :: ss) → statement src a s = .ok b → I b ss
  inside {a b : Assembly} {s : Mustache.Statement} {fallback : Nat}
    {p : Mustache.Program Mustache.Statement} :
    I a [s] → Enters src a s fallback p b → I b.pushBody.2 p.body
  location {e : SyntaxError} : FaultAtLocation src e → P e
  content {a : Assembly} {c : Mustache.Content} :
    I a [.content c] → FailsWith P (a.content src c)
  comment {a : Assembly} {s : Mustache.Statement} {l : Location} :
    I a [s] → a.tokenizer.state.isComment = true → FailsWith P (a.commentText src l)
  name {a : Assembly} {s : Mustache.Statement} {e : SyntaxError} :
    I a [s] → a.FaultAtName src e → P e
  close {a inside : Assembly} {body : List Mustache.Statement} :
    I a.pushBody.2 body → statements src a.pushBody.2 body = .ok inside →
      FailsWith P (inside.closeBody src a.markup.stack.nextId)

section
variable {I : Assembly → List Mustache.Statement → Prop} {P : SyntaxError → Prop}

theorem Errs.placed (h : Errs src I P) {a : Assembly} {s : Mustache.Statement} (hi : I a [s])
    {l : Location} (he : FaultAt src (src.spanFor l) e ∨ a.FaultAtName src e) : P e :=
  he.elim (fun he => h.location ⟨l, he⟩) fun he => h.name hi he

mutual

theorem Errs.statement (h : Errs src I P) {a : Assembly} :
    (s : Mustache.Statement) → I a [s] → FailsWith P (statement src a s)
  | .content c, hi => by
    rw [Assembly.statement]
    exact h.content hi
  | .mustache m, hi => by
    rw [Assembly.statement]
    split
    · rename_i hcomment
      exact h.comment hi hcomment
    · refine ((failsWith_dynamic m).mono fun _ => h.location).bind fun d hd => ?_
      refine (failsWith_place a d).mono fun _ he => ?_
      rw [dynamic_span hd] at he
      exact h.placed hi he
  | .decorator m, hi => by
    rw [Assembly.statement]
    split
    · rename_i hcomment
      exact h.comment hi hcomment
    · exact (failsWith_decorator a m).mono fun _ => h.location
  | .comment c, hi => by
    rw [Assembly.statement]
    split
    · rename_i hcomment
      exact h.comment hi hcomment
    · exact (failsWith_placeComment a _).mono fun _ => h.placed hi
  | .partialCall p, hi => by
    rw [Assembly.statement]
    split
    · rename_i hcomment
      exact h.comment hi hcomment
    · exact (failsWith_partialCall a p).mono fun _ => h.location
  | .block m, hi => by
    rw [Assembly.statement]
    split
    · rename_i hcomment
      exact h.comment hi hcomment
    · exact (h.block m (.inl rfl) hi).bind fun _ _ => .pure _
  | .decoratorBlock m, hi => by
    rw [Assembly.statement]
    split
    · rename_i hcomment
      exact h.comment hi hcomment
    · exact (h.block m (.inr rfl) hi).bind fun _ _ => .pure _
  | .partialBlock ⟨c, program, openStrip, closeStrip, loc⟩, hi => by
    rw [Assembly.statement]
    split
    · rename_i hcomment
      exact h.comment hi hcomment
    · rename_i hcomment
      refine ((failsWith_partialName c).mono fun _ => h.location).bind fun c' hc => ?_
      have henters : Enters src a (.partialBlock ⟨c, program, openStrip, closeStrip, loc⟩)
          (src.spanFor loc).start program a := .partialBlock (by simpa using hcomment) hc
      exact (h.sectionOf program (h.inside hi henters)).bind fun _ _ => .pure _

theorem Errs.statements (h : Errs src I P) {a : Assembly} :
    (ss : List Mustache.Statement) → I a ss → FailsWith P (statements src a ss)
  | [], _ => by
    rw [Assembly.statements]
    exact .ok _
  | s :: ss, hi => by
    rw [Assembly.statements]
    exact (h.statement s (h.head hi)).bind fun b hb => h.statements ss (h.tail hi hb)

theorem Errs.sectionOf (h : Errs src I P) {a : Assembly} {fallback : Nat} :
    (p : Mustache.Program Mustache.Statement) → I a.pushBody.2 p.body →
      FailsWith P (sectionOf src a fallback p)
  | ⟨body, params, chained⟩, hi => by
    rw [Assembly.sectionOf]
    exact (h.statements body hi).bind fun inside hinside =>
      (h.close hi hinside).bind fun _ _ => .pure _

theorem Errs.sectionOf? (h : Errs src I P) {a : Assembly} {fallback : Nat} :
    (p : Option (Mustache.Program Mustache.Statement)) →
      (∀ q, p = some q → I a.pushBody.2 q.body) → FailsWith P (sectionOf? src a fallback p)
  | none, _ => by
    rw [Assembly.sectionOf?]
    exact .ok _
  | some p, hi => by
    rw [Assembly.sectionOf?]
    exact (h.sectionOf p (hi p rfl)).bind fun _ _ => .pure _

theorem Errs.block (h : Errs src I P) {a : Assembly} {s : Mustache.Statement} :
    (m : Mustache.Block Mustache.Statement) → s = .block m ∨ s = .decoratorBlock m → I a [s] →
      FailsWith P (block src a m)
  | ⟨c, program, inverse, openStrip, inverseStrip, closeStrip, loc⟩, hs, hi => by
    rw [Assembly.block]
    dsimp only
    split
    · exact ((failsWith_faultAtLocation (by simp)).mono fun _ => h.location).bind fun _ hfault =>
        absurd hfault (by simp [fault])
    · rename_i hdata
      have hdata' : a.tokenizer.state.isData = true := by simpa using hdata
      refine ((failsWith_call c).mono fun _ => h.location).bind fun c' hc => ?_
      refine (h.sectionOf? program fun p hp => ?_).bind fun read hread => ?_
      · exact h.inside hi (.program hs hdata' hc hp)
      obtain ⟨nodes, mid⟩ := read
      refine (h.sectionOf? inverse fun p hp => ?_).bind fun _ _ => .pure _
      exact h.inside hi (.inverse hs hdata' hc hread hp)

end

end

end Assembly

end Tree
end HtmlTemplate
