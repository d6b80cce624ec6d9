import HtmlTemplate.Proofs.Bodies
import HtmlTemplate.Proofs.OpenTags
import HtmlTemplate.Proofs.Runs

/-! Statements that the machine does not read. It stands still, or stays in the tag that is under
way, and no element is opened or closed. -/

namespace HtmlTemplate.Tree.Assembly

open Html (State)

/-- The machine stands still or stays in the tag, the tag under way is the same and so are the open
elements. -/
structure Steady (a b : Assembly) : Prop where
  tokenizer : ∃ state, b.tokenizer = a.tokenizer.become state
    ∧ (state = a.tokenizer.state ∨ a.tokenizer.state.isInTag = true ∧ state.isInTag = true)
  head : b.markup.head? = a.markup.head?
  names : b.markup.names = a.markup.names

variable {src : Source} {a b c : Assembly}

theorem steady_of_eq (htokenizer : b.tokenizer = a.tokenizer)
    (hhead : b.markup.head? = a.markup.head?) (hnames : b.markup.names = a.markup.names) :
    Steady a b :=
  ⟨⟨a.tokenizer.state, htokenizer, .inl rfl⟩, hhead, hnames⟩

theorem Steady.trans (h : Steady a b) (h' : Steady b c) : Steady a c where
  tokenizer := by
    obtain ⟨state, hb, hstate⟩ := h.tokenizer
    obtain ⟨state', hc, hstate'⟩ := h'.tokenizer
    rw [hb] at hc hstate'
    refine ⟨state', hc, ?_⟩
    rcases hstate' with rfl | ⟨hin, hin'⟩
    · exact hstate
    · rcases hstate with rfl | ⟨hstart, -⟩
      · exact .inr ⟨hin, hin'⟩
      · exact .inr ⟨hstart, hin'⟩
  head := h'.head.trans h.head
  names := h'.names.trans h.names

private theorem steady_become {state : State} (hstate : a.tokenizer.state.isInTag = true)
    (hstate' : state.isInTag = true) : Steady a (a.become state) :=
  ⟨⟨state, rfl, .inr ⟨hstate, hstate'⟩⟩, rfl, rfl⟩

theorem Steady.become (h : Steady a b) {state : State} (hstate : a.tokenizer.state.isInTag = true)
    (hstate' : state.isInTag = true) : Steady a (b.become state) := by
  refine h.trans (steady_become ?_ hstate')
  obtain ⟨before, hb, rfl | ⟨-, hin⟩⟩ := h.tokenizer
  · rw [hb]
    exact hstate
  · rw [hb]
    exact hin

theorem steady_append (a : Assembly) (node : Statement) : Steady a (a.append node) :=
  steady_of_eq rfl rfl (openNames_append _ _)

theorem steady_withStartTag {span : Span} {f : StartTag → StartTag}
    (hf : ∀ t, (f t).name = t.name ∧ (f t).selfClosing = t.selfClosing)
    (h : a.withMarkup (·.withStartTag src span f) = .ok b) : Steady a b := by
  simp only [withMarkup, bind_eq_ok, pure_eq_ok] at h
  obtain ⟨n, hn, rfl⟩ := h
  refine steady_of_eq rfl (Markup.head?_withStartTag hf hn) ?_
  obtain ⟨t, -, rfl⟩ := Markup.withStartTag_ok hn
  rfl

theorem steady_endAttribute (h : a.endAttribute src = .ok b) : Steady a b := by
  simp only [endAttribute, withMarkup, bind_eq_ok, pure_eq_ok] at h
  obtain ⟨n, hn, rfl⟩ := h
  have hhead := Markup.head?_finishValue hn
  have hnames := Markup.names_finishValue hn
  exact steady_of_eq rfl hhead hnames

private theorem steady_addModifier {d : Dynamic} (h : a.addModifier src d = .ok b) :
    Steady a b := by
  cases d with
  | call m =>
    exact steady_withStartTag (f := fun t => { t with modifiers := t.modifiers ++ [_] })
      (fun _ => ⟨rfl, rfl⟩) h
  | literal m => cases h

private theorem steady_addTagComment {x : Comment}
    (h : a.withMarkup (·.addTagComment src x) = .ok b) :
    Steady a b :=
  steady_withStartTag (f := fun t => { t with comments := t.comments ++ [x] })
    (fun _ => ⟨rfl, rfl⟩) h

theorem steady_place {d : Dynamic} (h : a.place src d = .ok b) : Steady a b := by
  unfold place at h
  split at h
  · cases h
  · cases h
  · exact steady_addModifier h
  · rename_i hstate
    simp only [bind_eq_ok, pure_eq_ok] at h
    obtain ⟨a', ha', a'', ha'', rfl⟩ := h
    exact ((steady_endAttribute ha').trans (steady_addModifier ha'')).become (by rw [hstate]; rfl)
      rfl
  · rename_i hstate
    simp only [bind_eq_ok, pure_eq_ok] at h
    obtain ⟨a', ha', a'', ha'', rfl⟩ := h
    exact ((steady_endAttribute ha').trans (steady_addModifier ha'')).become (by rw [hstate]; rfl)
      rfl
  · rename_i hstate
    simp only [bind_eq_ok, pure_eq_ok] at h
    obtain ⟨a', ha', rfl⟩ := h
    exact (steady_addModifier ha').become (by rw [hstate]; rfl) rfl
  · rename_i hstate
    obtain rfl := Except.ok.inj h
    have hvalue : Steady a
        { a with markup := (a.markup.beginValue false (a.offset src)).addValuePart d } :=
      steady_of_eq rfl rfl rfl
    exact hvalue.become (by rw [hstate]; rfl) rfl
  · obtain rfl := Except.ok.inj h
    exact steady_of_eq rfl rfl rfl
  · obtain rfl := Except.ok.inj h
    exact steady_of_eq rfl rfl rfl
  · obtain rfl := Except.ok.inj h
    exact steady_of_eq rfl rfl rfl
  · obtain rfl := Except.ok.inj h
    exact steady_append a _

theorem steady_placeComment {x : Comment} (h : a.placeComment src x = .ok b) : Steady a b := by
  unfold placeComment at h
  split at h
  · exact steady_addTagComment h
  · rename_i hstate
    simp only [bind_eq_ok, pure_eq_ok] at h
    obtain ⟨a', ha', a'', ha'', rfl⟩ := h
    exact ((steady_endAttribute ha').trans (steady_addTagComment ha'')).become (by rw [hstate]; rfl)
      rfl
  · obtain rfl := Except.ok.inj h
    exact steady_append a _
  · obtain rfl := Except.ok.inj h
    exact steady_append a _
  · cases h

private theorem names_popExpecting {s t : OpenElements} {id : Nat} {children : List Statement}
    (h : s.popExpecting src id = .ok (.body children, t)) :
    openNames t.frames = openNames s.frames := by
  unfold OpenElements.popExpecting at h
  split at h
  · rename_i hframes
    split at h
    · obtain ⟨rfl, rfl⟩ := Prod.mk.inj (Except.ok.inj h)
      rw [hframes]
      rfl
    · split at h <;> cases h
  · cases h

theorem sectionOf_steady {fallback : Nat} {p : Mustache.Program Mustache.Statement}
    {nodes : Section Statement} (h : sectionOf src a fallback p = .ok (nodes, b)) :
    ∃ inside, statements src a.pushBody.2 p.body = .ok inside ∧ Steady inside b := by
  obtain ⟨inside, frame, stack, hinside, -, hpop, rfl, -⟩ := sectionOf_ok h
  obtain ⟨-, hfills⟩ := statements_keepsFilling p.body hinside
  obtain ⟨-, -, children, rfl⟩ :=
    (hfills _ _ (OpenElements.fills_pushBody a.markup.stack)).popExpecting_ok hpop
  exact ⟨inside, hinside, steady_of_eq rfl rfl (names_popExpecting hpop)⟩

/-- A statement without sections is text, or it is put into an HTML comment as text, or the machine
does not read it. -/
theorem flat_ok {s : Mustache.Statement} (h : statement src a s = .ok b)
    (hflat : isSectioned s = false ∨ a.tokenizer.state.isComment = true) :
    (∃ c, s = .content c ∧ a.content src c = .ok b)
      ∨ (∀ c, s ≠ .content c) ∧ a.tokenizer.state.isComment = true
          ∧ a.commentText src s.loc = .ok b
      ∨ (∀ c, s ≠ .content c) ∧ a.tokenizer.state.isComment = false ∧ Steady a b := by
  have hdata (hdata : a.tokenizer.state.isData = true) : a.tokenizer.state.isComment = false :=
    State.isComment_of_isData hdata
  cases statement_ok h with
  | content hc => exact .inl ⟨_, rfl, hc⟩
  | commented hne hcomment hb => exact .inr (.inl ⟨hne, hcomment, hb⟩)
  | mustache hcomment _ hplace =>
    exact .inr (.inr ⟨by simp, hcomment, steady_place hplace⟩)
  | decorator hstate _ =>
    exact .inr (.inr ⟨by simp, hdata hstate, steady_append a _⟩)
  | comment hcomment hplace =>
    exact .inr (.inr ⟨by simp, hcomment, steady_placeComment hplace⟩)
  | partialCall hcomment _ =>
    exact .inr (.inr ⟨by simp, hcomment, steady_append a _⟩)
  | block hblock | decoratorBlock hblock =>
    rcases hflat with hflat | hcomment
    · cases hflat
    · simp [hdata (block_ok hblock).1] at hcomment
  | partialBlock hcomment _ _ =>
    rcases hflat with hflat | hcomment'
    · cases hflat
    · simp [hcomment] at hcomment'

end HtmlTemplate.Tree.Assembly
