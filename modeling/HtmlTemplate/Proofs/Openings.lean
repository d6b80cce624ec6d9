import HtmlTemplate.Proofs.Chunks
import HtmlTemplate.Proofs.Report
import HtmlTemplate.Proofs.TagSteps

/-! The start tags opened while a template is read. The name that the machine keeps is that of
the start tag under way, so after a run in which some names are never opened it is none of
them where text is read. -/

namespace HtmlTemplate

/-- The name of the start tag under way once something has been reported, given the name
before. -/
def Html.Event.startTagName? (name : Option (List Char)) : Html.Event → Option (List Char)
  | .beginStartTag _ => some []
  | .tagName c => name.map (· ++ [c])
  | .reset | .beginEndTag _ | .beginData _ | .beginComment _ | .finishTag _ => none
  | _ => name

namespace Tree.Markup

variable {src : Source} {m n : Markup}

theorem startTagName?_finishValue {stop : Nat} (h : m.finishValue src stop = .ok n) :
    n.startTagName? = m.startTagName? := by
  cases hpending : m.pending with
  | none =>
    rw [finishValue_none hpending, Except.ok.injEq] at h
    rw [h]
  | some a =>
    obtain ⟨t, value, ht, -, rfl⟩ := finishValue_ok hpending h
    simp [startTagName?, ht]

private theorem startTagName?_markSelfClosing (h : m.markSelfClosing src = .ok n) :
    n.startTagName? = m.startTagName? := by
  unfold markSelfClosing at h
  split at h
  · rename_i t ht
    rw [← Except.ok.inj h]
    simp [startTagName?, ht]
  · cases h
  · rw [Except.ok.inj h]

private theorem startTagName?_closeElement {name : List Char} {span : Span} {implicit : Bool}
    (h : m.closeElement src name span implicit = .ok n) : n.startTagName? = m.startTagName? := by
  obtain ⟨e, stack, -, -, rfl⟩ := closeElement_ok h
  rfl

private theorem startTagName?_openElement {t : StartTag} {stop : Nat}
    (h : m.openElement src t stop = .ok n) : n.startTagName? = m.startTagName? := by
  obtain ⟨kept, params, -, rfl | rfl⟩ := openElement_ok h
  · rfl
  · rfl

private theorem startTagName?_finishTag {stop : Nat} (h : m.finishTag src stop = .ok n) :
    n.startTagName? = none := by
  unfold finishTag at h
  split at h
  · rw [startTagName?_openElement h]
    rfl
  · rw [startTagName?_closeElement h]
    rfl
  · rename_i hstart _
    rw [← Except.ok.inj h]
    unfold startTagName?
    split
    · rename_i t ht
      exact absurd ht (hstart t)
    · rfl

theorem startTagName?_receive {e : Html.Event} (h : m.receive src e = .ok n) :
    n.startTagName? = e.startTagName? m.startTagName? := by
  obtain ⟨stack, current, pending⟩ := m
  cases e with
  | selfClosing => exact startTagName?_markSelfClosing h
  | finishTag p => exact startTagName?_finishTag h
  | finishAttributeValue p => exact startTagName?_finishValue h
  | syntaxError f p => cases h
  | tagName c | data | finishData | commentData | finishComment =>
    rcases current with _ | (_ | _ | _ | _)
    all_goals
      rw [← Except.ok.inj h]
      rfl
  | _ =>
    rw [← Except.ok.inj h]
    rfl

end Tree.Markup

namespace Html

def Tokenizer.Named (names : List (List Char)) (name : Option (List Char)) (t : Tokenizer) :
    Prop :=
  match t.state with
  | .tagName => name = some t.tagName
  | .endTagName => True
  | state => if state.isInTag then t.tagName = [] ∨ name = some t.tagName else t.tagName ∉ names

theorem Tokenizer.named_of_tagName {names : List (List Char)} {name : Option (List Char)}
    {t : Tokenizer} (h : t.state = .tagName) : t.Named names name ↔ name = some t.tagName := by
  unfold Named
  rw [h]

theorem Tokenizer.named_of_endTagName {names : List (List Char)} {name : Option (List Char)}
    {t : Tokenizer} (h : t.state = .endTagName) : t.Named names name := by
  unfold Named
  rw [h]
  trivial

theorem Tokenizer.named_of_isInTag {names : List (List Char)} {name : Option (List Char)}
    {t : Tokenizer} (h : t.state.isInTag = true) :
    t.Named names name ↔ t.tagName = [] ∨ name = some t.tagName := by
  unfold Named
  split
  · simp_all [State.isInTag]
  · simp_all [State.isInTag]
  · simp [h]

theorem Tokenizer.Named.outside {names : List (List Char)} {name : Option (List Char)}
    {t : Tokenizer} (h : t.Named names name)
    (hstate : t.state.isData = true ∨ t.state.isComment = true) : t.tagName ∉ names := by
  unfold Named at h
  split at h
  · simp_all [State.isData, State.isComment]
  · simp_all [State.isData, State.isComment]
  · split at h
    · rename_i hin
      revert hstate hin
      cases t.state <;> simp [State.isData, State.isComment, State.isInTag]
    · exact h

/-- No start tag of certain names ends with some reports. -/
def Shuns (names : List (List Char)) (name : Option (List Char)) : List Event → Prop
  | [] => True
  | e :: es => ((∃ p, e = .finishTag p) → ∀ n ∈ names, name ≠ some n)
      ∧ Shuns names (e.startTagName? name) es

def nameAfter (name : Option (List Char)) (es : List Event) : Option (List Char) :=
  es.foldl (fun name e => e.startTagName? name) name

variable {names : List (List Char)} {name : Option (List Char)}

theorem Event.startTagName?_part {e : Event} (h : e.isTagPart = true) :
    e.startTagName? name = name := by
  cases e with
  | selfClosing | beginAttribute | attributeName | beginAttributeValue | attributeValue
  | finishAttributeValue | syntaxError => rfl
  | _ => cases h

theorem nameAfter_parts {es : List Event} (h : ∀ e ∈ es, e.isTagPart = true) :
    nameAfter name es = name := by
  induction es with
  | nil => rfl
  | cons e es ih =>
    obtain ⟨he, hes⟩ := List.forall_mem_cons.mp h
    show nameAfter (e.startTagName? name) es = name
    rw [Event.startTagName?_part he, ih hes]

theorem Shuns.last {es : List Event} {p : Position} (h : ∀ e ∈ es, e.isTagPart = true)
    (hshuns : Shuns names name (es ++ [.finishTag p])) : ∀ n ∈ names, name ≠ some n := by
  induction es with
  | nil => exact hshuns.1 ⟨p, rfl⟩
  | cons e es ih =>
    obtain ⟨he, hes⟩ := List.forall_mem_cons.mp h
    have hrest := hshuns.2
    rw [Event.startTagName?_part he] at hrest
    exact ih hes hrest

def Step.Named (names : List (List Char)) (name : Option (List Char)) (s : Step) : Prop :=
  Shuns names name s.events → s.now.Named names (nameAfter name s.events)

theorem Tokenizer.named_of_not_isTag {t : Tokenizer} (h : t.state.isTag = false) :
    t.Named names name ↔ t.tagName ∉ names := by
  unfold Named
  simp only [State.isTag, Bool.or_eq_false_iff, beq_eq_false_iff_ne] at h
  split
  · exact absurd ‹_› h.1.1
  · exact absurd ‹_› h.1.2
  · simp [h.2]

theorem Tokenizer.Named.kept {t : Tokenizer} (h : t.Named names name)
    (ht : t.state.isTag = true) : t.keptName = [] ∨ name = some t.keptName := by
  unfold keptName
  split
  · exact .inl rfl
  · rename_i hend
    unfold Named at h
    split at h
    · exact .inr h
    · exact absurd ‹_› hend
    · rename_i hstart _
      have hin : t.state.isInTag = true := by
        simp only [State.isTag, Bool.or_eq_true, beq_iff_eq, or_assoc] at ht
        exact (ht.resolve_left hstart).resolve_left hend
      rwa [if_pos hin] at h

theorem Tokenizer.step_named {t : Tokenizer} (hempty : [] ∉ names) (h : t.Named names name)
    (c : Char) (rest : List Char) : (t.step c rest).Named names name := by
  intro hshuns
  cases t.step_tagStep c rest with
  | outside ht hs hevents hname =>
    refine (named_of_not_isTag hs).mpr ?_
    rcases hname with hsame | hnone
    · rw [hsame]
      exact (named_of_not_isTag ht).mp h
    · rw [hnone]
      exact hempty
  | begins k ht hs hevents hname =>
    rw [hevents]
    cases k with
    | start =>
      rw [named_of_tagName hs, hname]
      rfl
    | stop => exact named_of_endTagName hs
  | grows k ht hs hevents hname =>
    rw [hevents]
    cases k with
    | start =>
      obtain rfl := (named_of_tagName ht).mp h
      rw [named_of_tagName hs, hname]
      rfl
    | stop => exact named_of_endTagName hs
  | goes ht hgoes =>
    have hkept := h.kept ht
    cases hgoes with
    | within hs htag =>
      rw [nameAfter_parts htag.parts]
      refine (named_of_isInTag hs).mpr ?_
      rwa [htag.name]
    | ends _ _ hs hname hevents hparts =>
      -- if it is a start tag that ends, its name is none of the names
      rw [hevents] at hshuns
      have hnone := Shuns.last hparts hshuns
      refine (named_of_not_isTag (by rw [hs]; rfl)).mpr fun hmem => ?_
      rw [hname] at hmem
      rcases hkept with hnil | hsome
      · exact hempty (hnil ▸ hmem)
      · exact hnone _ hmem hsome

end Html

namespace Tree.Markup

/-- The names of the start tags among some reports that open elements. -/
def openedNames (src : Source) (m : Markup) : List Html.Event → List (List Char)
  | [] => []
  | e :: es =>
    match m.receive src e with
    | .error _ => []
    | .ok n =>
      let opened := match e with
        | .finishTag _ => m.startTagName?.toList
        | _ => []
      opened ++ n.openedNames src es

def Spares (src : Source) (names : List (List Char)) (m : Markup) (reports : List Html.Event) :
    Prop :=
  ∀ name ∈ names, name ∉ m.openedNames src reports

variable {src : Source} {names : List (List Char)} {m n : Markup} {es es' : List Html.Event}

private theorem openedNames_append (hes : es.foldlM (receive src) m = .ok n) :
    m.openedNames src (es ++ es') = m.openedNames src es ++ n.openedNames src es' := by
  induction es generalizing m with
  | nil =>
    rw [Except.ok.inj hes]
    rfl
  | cons e es ih =>
    simp only [List.foldlM_cons, bind_eq_ok] at hes
    obtain ⟨m', he, hes⟩ := hes
    simp only [List.cons_append, openedNames, he, ih hes, List.append_assoc]

private theorem openedNames_isPrefix (src : Source) (m : Markup) (es es' : List Html.Event) :
    m.openedNames src es <+: m.openedNames src (es ++ es') := by
  induction es generalizing m with
  | nil => exact List.nil_prefix
  | cons e es ih =>
    simp only [List.cons_append, openedNames]
    cases m.receive src e with
    | error _ => exact List.prefix_refl _
    | ok n => exact (List.prefix_append_right_inj _).mpr (ih n)

theorem Spares.left (h : m.Spares src names (es ++ es')) : m.Spares src names es :=
  fun name hname hmem => h name hname ((openedNames_isPrefix src m es es').subset hmem)

theorem Spares.right (h : m.Spares src names (es ++ es'))
    (hes : es.foldlM (receive src) m = .ok n) : n.Spares src names es' := by
  intro name hname hmem
  refine h name hname ?_
  rw [openedNames_append hes]
  exact List.mem_append_right _ hmem

theorem Spares.shuns (h : m.Spares src names es) (hes : es.foldlM (receive src) m = .ok n) :
    Html.Shuns names m.startTagName? es ∧ n.startTagName? = Html.nameAfter m.startTagName? es := by
  induction es generalizing m with
  | nil =>
    rw [Except.ok.inj hes]
    exact ⟨trivial, rfl⟩
  | cons e es ih =>
    simp only [List.foldlM_cons, bind_eq_ok] at hes
    obtain ⟨m', he, hes⟩ := hes
    have hrest : m'.Spares src names es := by
      intro name hname hmem
      refine h name hname ?_
      simp only [openedNames, he]
      exact List.mem_append_right _ hmem
    obtain ⟨hshuns, hlast⟩ := ih hrest hes
    rw [startTagName?_receive he] at hshuns hlast
    refine ⟨⟨?_, hshuns⟩, hlast⟩
    rintro ⟨p, rfl⟩ name hname hm
    refine h name hname ?_
    simp [openedNames, he, hm]

end Tree.Markup

/-- The element of a start tag of some name is opened while a template is read, even if it
fails later on. -/
def Opens (text : List Char) (options : Options) (name : List Char) : Prop :=
  ∃ s a, Passes text options (.reads s a)
    ∧ name ∈ a.markup.openedNames ⟨text, options.moduleName⟩
      ((a.report ⟨text, options.moduleName⟩ s).map (·.event))

end HtmlTemplate
