import HtmlTemplate.Proofs.Boundaries
import HtmlTemplate.Proofs.Runs

/-! Nothing that is handed to the tree is overlooked. Between two statements the state of
the machine says what is under way, and whatever is reported or put into a value while a
statement is read finds what it belongs to. -/

namespace HtmlTemplate.Tree

open Html (Tokenizer State Move Moves)

/-- What is handed to the nodes under way: an event, or a part of an attribute value. -/
inductive Input where
  | event (e : Html.Event)
  | part (d : Dynamic)

/-- What an input adds to or ends, unless it begins something. -/
inductive Topic where
  | tag
  | text
  | comment
  | attribute

def topic? : Html.Event → Option Topic
  | .tagName _ | .selfClosing | .finishTag _ => some .tag
  | .data _ | .finishData _ => some .text
  | .commentData _ | .finishComment _ => some .comment
  | .attributeName _ | .beginAttributeValue .. | .attributeValue .. | .finishAttributeValue _ =>
    some .attribute
  | _ => none

def Input.topic? : Input → Option Topic
  | .event e => Tree.topic? e
  | .part _ => some .attribute

namespace Markup

def take (src : Source) (m : Markup) : Input → Except SyntaxError Markup
  | .event e => m.receive src e
  | .part d => .ok (m.addValuePart d)

/-- Nothing of the kind is under way. -/
def Lacks (m : Markup) : Topic → Prop
  | .tag => ∀ c, m.current = some c → ¬ (c.IsStartTag ∨ c.IsEndTag)
  | .text => ∀ c, m.current = some c → ¬ c.IsText
  | .comment => ∀ c, m.current = some c → ¬ c.IsComment
  | .attribute => m.pending = none

/-- There is nothing under way that the input belongs to. -/
def Ignores (m : Markup) (i : Input) : Prop :=
  ∃ topic ∈ i.topic?, m.Lacks topic

variable {src : Source} {m n : Markup}

theorem not_ignores {i : Input} {topic : Topic} (hi : i.topic? = some topic)
    (h : ¬ m.Lacks topic) : ¬ m.Ignores i := by
  rintro ⟨topic', htopic', hlacks⟩
  rw [hi, Option.mem_some_iff] at htopic'
  exact h (htopic' ▸ hlacks)

/-- An input that is ignored is lost: it changes nothing and is no fault. -/
theorem Ignores.take {i : Input} (h : m.Ignores i) : m.take src i = .ok m := by
  obtain ⟨topic, htopic, hlacks⟩ := h
  obtain ⟨stack, current, pending⟩ := m
  cases i with
  | part d =>
    cases htopic
    obtain rfl : pending = none := hlacks
    rfl
  | event e =>
    cases e with
    | tagName | selfClosing | finishTag | data | finishData | commentData | finishComment =>
      cases htopic
      rcases current with _ | (_ | _ | _ | _)
      all_goals
        first
        | rfl
        | simp [Lacks, Current.IsText, Current.IsComment, Current.IsStartTag,
            Current.IsEndTag] at hlacks
    | attributeName | beginAttributeValue | attributeValue | finishAttributeValue =>
      cases htopic
      obtain rfl : pending = none := hlacks
      rfl
    | _ => cases htopic

end Markup

end HtmlTemplate.Tree

namespace HtmlTemplate.Html

open HtmlTemplate.Tree (Markup Ground)

theorem InStep.heeds {g : Ground} {x y : Construct} {p q : Position} {e : Event} {m : Markup}
    (h : InStep g x p m) (hm : Move x p (some e) y q) : ¬ m.Ignores (.event e) := by
  have hphase := h.at_.phase
  cases hm with
  | fault | refuse | refuseEnd | beginText | beginBracket | beginComment | beginStartTag
  | beginEndTag | beginAttribute =>
    rintro ⟨topic, htopic, -⟩
    cases htopic
  | data | finishText | commentData | finishComment | selfClosing | finishTag =>
    obtain ⟨⟨c, hc, hkind⟩, -⟩ := hphase
    exact Markup.not_ignores rfl fun hlacks => hlacks c hc hkind
  | @growName k =>
    cases k with
    | start =>
      obtain ⟨⟨c, hc, hkind⟩, -⟩ := hphase
      exact Markup.not_ignores rfl fun hlacks => hlacks c hc (.inl hkind)
    | stop =>
      obtain ⟨⟨c, hc, hkind⟩, -⟩ := hphase
      exact Markup.not_ignores rfl fun hlacks => hlacks c hc (.inr hkind)
  | growAttribute | beginValue =>
    obtain ⟨-, a, ha, -⟩ := hphase
    exact Markup.not_ignores rfl fun hlacks => by simp [Markup.Lacks, ha] at hlacks
  | valueText | finishValue =>
    obtain ⟨-, a, ha⟩ := hphase
    exact Markup.not_ignores rfl fun hlacks => by simp [Markup.Lacks, ha] at hlacks

end HtmlTemplate.Html

namespace HtmlTemplate.Tree

open Html (Tokenizer State)

namespace Assembly

/-- What ends an attribute without a value. -/
def endInputs (a : Assembly) : List Input :=
  [.event (.beginAttributeValue false a.tokenizer.position),
    .event (.finishAttributeValue a.tokenizer.position)]

/-- What a mustache hands to the nodes under way, in each state. -/
def placeInputs (a : Assembly) (d : Dynamic) : List Input :=
  match a.tokenizer.state with
  | .attributeName | .afterAttributeName => a.endInputs
  | .beforeAttributeValue =>
    [.event (.beginAttributeValue false a.tokenizer.position), .part d]
  | .attributeValueDoubleQuoted | .attributeValueSingleQuoted | .attributeValueUnquoted =>
    [.part d]
  | _ => []

/-- Everything that is handed to the nodes under way while a statement is read, sections
aside. -/
def inputs (src : Source) (a : Assembly) (s : Mustache.Statement) : List Input :=
  (a.report src s).map (fun e => .event e.event)
    ++ if a.tokenizer.state.isComment then [] else
      match s with
      | .mustache m =>
        match dynamic src m with
        | .ok d => a.placeInputs d
        | .error _ => []
      | .comment _ => if a.tokenizer.state = .afterAttributeName then a.endInputs else []
      | _ => []

/-- Something is handed over one after the other, and none of it is ignored. -/
def Heeds (src : Source) (m : Markup) (inputs : List Input) : Prop :=
  ∀ before i after n, inputs = before ++ i :: after →
    before.foldlM (Markup.take src) m = .ok n → ¬ n.Ignores i

variable {src : Source} {g : Ground} {now : Nat} {a b : Assembly} {m : Markup}

theorem heeds_nil : Heeds src m [] := by
  intro before i after n h
  simp at h

theorem heeds_cons {i : Input} {is : List Input} :
    Heeds src m (i :: is) ↔ ¬ m.Ignores i ∧ ∀ n, m.take src i = .ok n → Heeds src n is := by
  constructor
  · intro h
    refine ⟨h [] i is m rfl rfl, fun n hn before i' after k his hk => ?_⟩
    refine h (i :: before) i' after k (by rw [his]; rfl) ?_
    simp only [List.foldlM_cons, bind_eq_ok]
    exact ⟨n, hn, hk⟩
  · rintro ⟨hfirst, hrest⟩ before i' after n his hn
    cases before with
    | nil =>
      obtain ⟨rfl, rfl⟩ := List.cons.inj (his : i :: is = i' :: after)
      obtain rfl := pure_eq_ok.mp hn
      exact hfirst
    | cons first before =>
      obtain ⟨rfl, rfl⟩ := List.cons.inj (his : i :: is = first :: (before ++ i' :: after))
      simp only [List.foldlM_cons, bind_eq_ok] at hn
      obtain ⟨k, hk, hn⟩ := hn
      exact hrest k hk before i' after n rfl hn

private theorem foldlM_events (src : Source) (m : Markup) (es : List Html.Event) :
    (es.map Input.event).foldlM (Markup.take src) m = es.foldlM (Markup.receive src) m :=
  List.foldlM_map ..

theorem heeds_of_moves {x y : Html.Construct} {p q : Position} {es : List Html.Event}
    (h : Html.InStep g x p m) (hes : Html.Moves x p es y q) :
    Heeds g.src m (es.map .event) := by
  intro before i after n hinputs hn
  obtain ⟨before, rest, rfl, rfl, hrest⟩ := List.map_eq_append_iff.mp hinputs
  obtain ⟨e, after, rfl, rfl, -⟩ := List.map_eq_cons_iff.mp hrest
  obtain ⟨_, _, _, _, hbefore, hmove⟩ := hes.split
  rw [foldlM_events] at hn
  exact (hbefore.keeps (I := Html.InStep g) Html.InStep.silent Html.InStep.receive h hn).heeds hmove

theorem not_ignores_of_pending {i : Input} {p : PendingAttribute}
    (hi : i.topic? = some .attribute) (hp : m.pending = some p) : ¬ m.Ignores i :=
  Markup.not_ignores hi fun hlacks => by simp [Markup.Lacks, hp] at hlacks

theorem not_ignores_of_beginValue {i : Input} {p : PendingAttribute} {quoted : Bool} {offset : Nat}
    (hi : i.topic? = some .attribute) (hp : m.pending = some p) :
    ¬ (m.beginValue quoted offset).Ignores i := by
  have hbegun : (m.beginValue quoted offset).pending
      = some { p with quoted, valueStart := offset, text := none } := by
    simp [Markup.beginValue, Markup.mapAttribute, hp]
  exact not_ignores_of_pending hi hbegun

theorem heeds_endInputs {p : PendingAttribute} (hp : m.pending = some p) :
    Heeds src m a.endInputs := by
  refine heeds_cons.mpr ⟨not_ignores_of_pending rfl hp, fun n hn => ?_⟩
  cases hn
  exact heeds_cons.mpr ⟨not_ignores_of_beginValue rfl hp, fun _ _ => heeds_nil⟩

theorem Settled.heeds_place (h : Settled g now a) (d : Dynamic) :
    Heeds src a.markup (a.placeInputs d) := by
  unfold placeInputs
  split
  · rename_i hstate
    obtain ⟨-, p, hp, -⟩ := (h.at_of_state hstate).phase
    exact heeds_endInputs hp
  · rename_i hstate
    obtain ⟨-, p, hp, -⟩ := (h.at_of_state hstate).phase
    exact heeds_endInputs hp
  · rename_i hstate
    obtain ⟨-, p, hp, -⟩ := (h.at_of_state hstate).phase
    refine heeds_cons.mpr ⟨not_ignores_of_pending rfl hp, fun n hn => ?_⟩
    cases hn
    exact heeds_cons.mpr ⟨not_ignores_of_beginValue rfl hp, fun _ _ => heeds_nil⟩
  · rename_i hstate
    obtain ⟨-, p, hp⟩ := (h.at_of_state hstate).phase
    exact heeds_cons.mpr ⟨not_ignores_of_pending rfl hp, fun _ _ => heeds_nil⟩
  · rename_i hstate
    obtain ⟨-, p, hp⟩ := (h.at_of_state hstate).phase
    exact heeds_cons.mpr ⟨not_ignores_of_pending rfl hp, fun _ _ => heeds_nil⟩
  · rename_i hstate
    obtain ⟨-, p, hp⟩ := (h.at_of_state hstate).phase
    exact heeds_cons.mpr ⟨not_ignores_of_pending rfl hp, fun _ _ => heeds_nil⟩
  · exact heeds_nil

private theorem heeds_commentDatas {es : List Html.Emission}
    (hes : ∀ {e}, e ∈ es → ∃ text, e.event = .commentData text) (hat : At g now .comment m) :
    Heeds g.src m (es.map fun e => .event e.event) := by
  intro before i after n hinputs hn
  obtain ⟨before, rest, rfl, rfl, hrest⟩ := List.map_eq_append_iff.mp hinputs
  obtain ⟨e, after, rfl, rfl, -⟩ := List.map_eq_cons_iff.mp hrest
  rw [List.foldlM_map] at hn
  have hbefore := hat.commentDatas (fun he => hes (List.mem_append_left _ he)) hn
  obtain ⟨⟨c, hc, hcomment⟩, -⟩ := hbefore.phase
  obtain ⟨text, he⟩ := hes (List.mem_append_right _ List.mem_cons_self)
  rw [he]
  exact Markup.not_ignores rfl fun hlacks => hlacks c hc hcomment

variable {ts : List Mustache.Token} {s : Mustache.Statement}

theorem Laid.heeds (h : Laid src ts a [s]) : Heeds src a.markup (a.inputs src s) := by
  obtain ⟨bottom, base, lo, hi, hlo, ⟨hloc, -, -⟩, -, -, ha⟩ := h
  by_cases hcontent : ∃ c, s = .content c
  · obtain ⟨c, rfl⟩ := hcontent
    obtain ⟨k, hmoves⟩ := report_moves src a c .start
    have hheeds := heeds_of_moves (ha.inStep hlo hloc.1 .start) hmoves
    rw [List.map_map] at hheeds
    unfold inputs
    simpa [Function.comp_def] using hheeds
  · have hne : ∀ c, s ≠ .content c := fun c hc => hcontent ⟨c, hc⟩
    unfold inputs
    rw [report_of_ne hne]
    by_cases hcomment : a.tokenizer.state.isComment = true
    · have hat := ha.at_
      rw [phase_of_isComment hcomment] at hat
      simpa [hcomment] using heeds_commentDatas Tokenizer.events_appendComment hat
    · simp only [hcomment, Bool.false_eq_true, if_false, List.map_nil, List.nil_append]
      split
      · split
        · exact ha.heeds_place _
        · exact heeds_nil
      · split
        · rename_i hstate
          obtain ⟨-, p, hp, -⟩ := (ha.at_of_state hstate).phase
          exact heeds_endInputs hp
        · exact heeds_nil
      · exact heeds_nil

/-- A markup and what a statement may add to it in the end. -/
inductive Adds (src : Source) (m : Markup) : Markup → Prop
  | nothing : Adds src m m
  | node (s : Statement) : Adds src m (m.append s)
  | modifier {x : Modifier} {n : Markup} : m.addModifier src x = .ok n → Adds src m n
  | tagComment {c : Comment} {n : Markup} : m.addTagComment src c = .ok n → Adds src m n

private theorem addModifier_adds {d : Dynamic} (h : a.addModifier src d = .ok b) :
    Adds src a.markup b.markup := by
  cases d with
  | call m =>
    simp only [addModifier, withMarkup, bind_eq_ok, pure_eq_ok] at h
    obtain ⟨n, hn, rfl⟩ := h
    exact .modifier hn
  | literal m => simp [addModifier, fault] at h

theorem endAttribute_inputs (h : a.endAttribute src = .ok b) :
    a.endInputs.foldlM (Markup.take src) a.markup = .ok b.markup := by
  simp only [endAttribute, withMarkup, bind_eq_ok, pure_eq_ok] at h
  obtain ⟨n, hn, rfl⟩ := h
  simp only [endInputs, List.foldlM_cons, List.foldlM_nil, bind_eq_ok, pure_eq_ok]
  exact ⟨_, rfl, n, hn, rfl⟩

private theorem place_inputs {d : Dynamic} (h : a.place src d = .ok b) :
    ∃ m, (a.placeInputs d).foldlM (Markup.take src) a.markup = .ok m ∧ Adds src m b.markup := by
  unfold place at h
  split at h
  · simp [fault] at h
  · simp [fault] at h
  · rename_i hstate
    rw [placeInputs, hstate]
    exact ⟨a.markup, rfl, addModifier_adds h⟩
  · rename_i hstate
    simp only [bind_eq_ok, pure_eq_ok] at h
    obtain ⟨a₁, h₁, a₂, h₂, rfl⟩ := h
    rw [placeInputs, hstate]
    exact ⟨a₁.markup, endAttribute_inputs h₁, addModifier_adds (b := a₂) h₂⟩
  · rename_i hstate
    simp only [bind_eq_ok, pure_eq_ok] at h
    obtain ⟨a₁, h₁, a₂, h₂, rfl⟩ := h
    rw [placeInputs, hstate]
    exact ⟨a₁.markup, endAttribute_inputs h₁, addModifier_adds (b := a₂) h₂⟩
  · rename_i hstate
    simp only [bind_eq_ok, pure_eq_ok] at h
    obtain ⟨a₁, h₁, rfl⟩ := h
    rw [placeInputs, hstate]
    exact ⟨a.markup, rfl, addModifier_adds (b := a₁) h₁⟩
  · rename_i hstate
    cases h
    rw [placeInputs, hstate]
    exact ⟨_, rfl, .nothing⟩
  · rename_i hstate
    cases h
    rw [placeInputs, hstate]
    exact ⟨_, rfl, .nothing⟩
  · rename_i hstate
    cases h
    rw [placeInputs, hstate]
    exact ⟨_, rfl, .nothing⟩
  · rename_i hstate
    cases h
    rw [placeInputs, hstate]
    exact ⟨_, rfl, .nothing⟩
  · cases h
    have hinputs : a.placeInputs d = [] := by
      unfold placeInputs
      split
      all_goals first | rfl | contradiction
    rw [hinputs]
    exact ⟨a.markup, rfl, .node _⟩

private theorem placeComment_inputs {c : Comment} (h : a.placeComment src c = .ok b) :
    ∃ m, (if a.tokenizer.state = .afterAttributeName then a.endInputs else []).foldlM
        (Markup.take src) a.markup = .ok m ∧ Adds src m b.markup := by
  unfold placeComment at h
  split at h
  · rename_i hstate
    simp only [withMarkup, bind_eq_ok, pure_eq_ok] at h
    obtain ⟨n, hn, rfl⟩ := h
    simp only [hstate, reduceCtorEq, if_false]
    exact ⟨a.markup, rfl, .tagComment hn⟩
  · rename_i hstate
    simp only [withMarkup, bind_eq_ok, pure_eq_ok] at h
    obtain ⟨a₁, h₁, a₂, ⟨n, hn, rfl⟩, rfl⟩ := h
    simp only [hstate, if_true]
    exact ⟨a₁.markup, endAttribute_inputs h₁, .tagComment hn⟩
  · rename_i hstate
    cases h
    simp only [hstate, reduceCtorEq, if_false]
    exact ⟨a.markup, rfl, .node _⟩
  · rename_i hstate
    cases h
    simp only [hstate, reduceCtorEq, if_false]
    exact ⟨a.markup, rfl, .node _⟩
  · simp [fault] at h

theorem statement_inputs (hs : isSectioned s = false ∨ a.tokenizer.state.isComment = true)
    (h : statement src a s = .ok b) :
    ∃ m, (a.inputs src s).foldlM (Markup.take src) a.markup = .ok m ∧ Adds src m b.markup := by
  unfold inputs
  cases statement_ok h with
  | content h =>
    obtain ⟨hmarkup, -⟩ := content_ok h
    refine ⟨b.markup, ?_, .nothing⟩
    rw [List.foldlM_map] at hmarkup
    simpa [List.foldlM_map, Markup.take] using hmarkup
  | commented hne hcomment h =>
    obtain ⟨hmarkup, -⟩ := follow_ok h
    refine ⟨b.markup, ?_, .nothing⟩
    rw [report_of_ne hne, if_pos hcomment, if_pos hcomment]
    simpa [List.foldlM_map, Markup.take] using hmarkup
  | mustache hcomment hd h =>
    rw [report_of_ne (by simp)]
    simpa [hcomment, hd] using place_inputs h
  | decorator hdata _ =>
    have hcomment := State.isComment_of_isData hdata
    rw [report_of_ne (by simp)]
    simp only [hcomment]
    exact ⟨a.markup, rfl, .node _⟩
  | comment hcomment h =>
    rw [report_of_ne (by simp)]
    simpa [hcomment] using placeComment_inputs h
  | partialCall hcomment _ =>
    rw [report_of_ne (by simp)]
    simp only [hcomment]
    exact ⟨a.markup, rfl, .node _⟩
  | block hblock | decoratorBlock hblock =>
    have hcomment := State.isComment_of_isData (block_ok hblock).1
    simp [isSectioned, hcomment] at hs
  | partialBlock hcomment _ _ => simp [isSectioned, hcomment] at hs

end Assembly

end HtmlTemplate.Tree

namespace HtmlTemplate

open HtmlTemplate.Tree (Phase Assembly)

/-- While a template is read the nodes under way are those that the state says, and none of
what is handed to them is ignored. -/
structure Attentive (text : List Char) (options : Options) : Prop where
  shown : ∀ s a, Passes text options (.reads s a) →
    (Phase.of a.tokenizer.state).Shows a.markup ∧ a.tokenizer.state ≠ .data
  shownLast : ∀ a, Passes text options (.done a) →
    (Phase.of a.tokenizer.state).Shows a.markup ∧ a.tokenizer.state ≠ .data
  heeds : ∀ s a, Passes text options (.reads s a) →
    Assembly.Heeds ⟨text, options.moduleName⟩ a.markup (a.inputs ⟨text, options.moduleName⟩ s)
  /-- Nothing else is handed over while a statement is read. -/
  complete : ∀ s a b, Passes text options (.reads s a) →
    Assembly.isSectioned s = false ∨ a.tokenizer.state.isComment = true →
    Assembly.statement ⟨text, options.moduleName⟩ a s = .ok b →
      ∃ m, (a.inputs ⟨text, options.moduleName⟩ s).foldlM
          (Tree.Markup.take ⟨text, options.moduleName⟩) a.markup = .ok m
        ∧ Assembly.Adds ⟨text, options.moduleName⟩ m b.markup
  /-- Nor is anything at the end. -/
  finished : ∀ a, Passes text options (.done a) → a.tokenizer.finish.1 = []

theorem Tree.Assembly.Laid.shown {src : Source} {ts : List Mustache.Token} {a : Assembly}
    {ss : List Mustache.Statement} (h : Assembly.Laid src ts a ss) :
    (Phase.of a.tokenizer.state).Shows a.markup ∧ a.tokenizer.state ≠ .data := by
  obtain ⟨_, _, _, _, _, _, _, _, ha⟩ := h
  exact ⟨ha.at_.phase, ha.notData⟩

/-- The machine and the tree stay in step through every run, whether it succeeds or not. -/
theorem attentive (text : List Char) (options : Options) : Attentive text options := by
  have hreads {s : Mustache.Statement} {a : Assembly} (h : Passes text options (.reads s a)) :
      ∃ ts, Assembly.Laid ⟨text, options.moduleName⟩ ts a [s] := by
    cases h with
    | statements hparse h =>
      obtain ⟨ts, -, -, hlaid⟩ := laid_initial hparse
      exact ⟨ts, h.laid hlaid⟩
  have hdone {a : Assembly} (h : Passes text options (.done a)) :
      (Phase.of a.tokenizer.state).Shows a.markup ∧ a.tokenizer.state ≠ .data := by
    cases h with
    | statements hparse h =>
      obtain ⟨ts, -, -, hlaid⟩ := laid_initial hparse
      exact (h.laid_done hlaid).shown
  refine ⟨fun s a h => ?_, fun a h => hdone h, fun s a h => ?_,
    fun s a b _ hs h => Assembly.statement_inputs hs h, fun a h => ?_⟩
  · obtain ⟨ts, hlaid⟩ := hreads h
    exact hlaid.shown
  · obtain ⟨ts, hlaid⟩ := hreads h
    exact hlaid.heeds
  · rw [Html.Tokenizer.finish, Html.Tokenizer.finishData, if_neg (hdone h).2]

end HtmlTemplate
