import HtmlTemplate.Proofs.Erasure
import HtmlTemplate.Proofs.Modes
import HtmlTemplate.Proofs.Openings
import HtmlTemplate.Proofs.Report
import HtmlTemplate.Proofs.Steady

/-! Templates read in the two modes. As long as no element is opened whose first newline one of
the modes drops, both runs go on alike, and what they put into their trees differs in the
characters of texts only. -/

namespace HtmlTemplate

/-- Both fail alike, or both succeed with results that are related. -/
inductive Agree {ε α β : Type} (R : α → β → Prop) : Except ε α → Except ε β → Prop
  | ok {a : α} {b : β} : R a b → Agree R (.ok a) (.ok b)
  | error (e : ε) : Agree R (.error e) (.error e)

namespace Agree

variable {ε α β γ δ : Type} {R : α → β → Prop} {S : γ → δ → Prop} {x : Except ε α} {y : Except ε β}

theorem bind (h : Agree R x y) {f : α → Except ε γ} {g : β → Except ε δ}
    (hfg : ∀ {a b}, x = .ok a → y = .ok b → R a b → Agree S (f a) (g b)) :
    Agree S (x >>= f) (y >>= g) := by
  cases h with
  | ok hR => exact hfg rfl rfl hR
  | error e => exact .error e

theorem mono (h : Agree R x y) {T : α → β → Prop}
    (hT : ∀ {a b}, x = .ok a → y = .ok b → R a b → T a b) : Agree T x y := by
  cases h with
  | ok hR => exact .ok (hT rfl rfl hR)
  | error e => exact .error e

theorem of_map_eq {f : α → γ} {g : β → γ} (h : x.map f = y.map g) :
    Agree (fun a b => f a = g b) x y := by
  cases x with
  | error e =>
    cases y with
    | error e' => exact Except.error.inj h ▸ .error e
    | ok b => cases h
  | ok a =>
    cases y with
    | error e => cases h
    | ok b => exact .ok (Except.ok.inj h)

theorem map_eq (h : Agree R x y) {f : α → γ} {g : β → γ} (hR : ∀ {a b}, R a b → f a = g b) :
    x.map f = y.map g := by
  cases h with
  | ok h => exact congrArg Except.ok (hR h)
  | error e => rfl

theorem eq_map {f : β → α} (h : Agree (fun a b => a = f b) x y) : x = y.map f := by
  cases h with
  | ok h => exact congrArg Except.ok h
  | error e => rfl

theorem refl (x : Except ε α) : Agree Eq x x := by
  cases x with
  | ok a => exact .ok rfl
  | error e => exact .error e

theorem eq {x y : Except ε α} (h : Agree Eq x y) : x = y := by
  cases h with
  | ok h => exact congrArg Except.ok h
  | error e => rfl

end Agree

namespace Tree

open Html (Emission Tokenizer)

namespace Markup

variable {src : Source} {m n : Markup}

theorem receive_textEvent (src : Source) (m : Markup) (s : Html.State) (text text' : List Char)
    (p q r : Position) :
    ∃ n, m.receive src (s.textEvent text ⟨p, q⟩) = .ok n
      ∧ n.receive src (s.textEvent text' ⟨q, r⟩)
        = m.receive src (s.textEvent (text ++ text') ⟨p, r⟩) := by
  obtain ⟨stack, current, pending⟩ := m
  unfold Html.State.textEvent
  split
  · refine ⟨_, rfl, congrArg Except.ok ?_⟩
    rcases pending with _ | ⟨name, start, valueStart, quoted, dynamic, parts, _ | t⟩
    all_goals simp [mapAttribute, PendingAttribute.addText]
  · rcases current with _ | (_ | _ | _ | _)
    all_goals exact ⟨_, rfl, by simp [receive]⟩

theorem foldlM_textEvents (src : Source) (m : Markup) (s : Html.State) (p : Position) (c : Char)
    (cs : List Char) :
    (s.textEvents p (c :: cs)).foldlM (receive src) m
      = m.receive src (s.textEvent (c :: cs) ⟨p, p.after (c :: cs)⟩) := by
  induction cs generalizing m p c with
  | nil => simp [Html.State.textEvents, Position.after]
  | cons d cs ih =>
    obtain ⟨n, hn, hjoin⟩ := m.receive_textEvent src s [c] (d :: cs) p (p.next c)
      ((p.next c).after (d :: cs))
    rw [Html.State.textEvents, List.foldlM_cons, hn]
    exact (ih n (p.next c) d).trans hjoin

theorem foldlM_agree (h : m.erase = n.erase) (es : List Html.Event) :
    Agree (fun m n => erase m = erase n) (es.foldlM (receive src) m)
      (es.foldlM (receive src) n) := by
  refine .of_map_eq ?_
  rw [← foldlM_receive_erase, h, foldlM_receive_erase]

private theorem receive_agree (h : m.erase = n.erase) {e e' : Html.Event}
    (he : e.erase = e'.erase) :
    Agree (fun m n => erase m = erase n) (m.receive src e) (n.receive src e') := by
  refine .of_map_eq ?_
  rw [← receive_erase, h, he, receive_erase]

theorem reference_agree (h : m.erase = n.erase) (es : List Html.Event) (s : Html.State) (d : Char)
    (p : Position) (c : Char) (cs : List Char) :
    Agree (fun m n => erase m = erase n)
      ((es ++ [s.textEvent [d] ⟨p, p.after (c :: cs)⟩]).foldlM (receive src) m)
      ((es ++ s.textEvents p (c :: cs)).foldlM (receive src) n) := by
  rw [List.foldlM_append, List.foldlM_append]
  refine (foldlM_agree h es).bind fun _ _ h => ?_
  simp only [foldlM_textEvents, List.foldlM_cons, List.foldlM_nil, bind_pure]
  refine receive_agree h ?_
  unfold Html.State.textEvent
  split <;> rfl

end Markup

namespace Assembly

variable (src : Source) (a : Assembly)

def erase : Assembly :=
  ⟨a.tokenizer.inMode .codemod, a.markup.erase⟩

theorem bind_erase {x : Except SyntaxError Assembly} {f : Assembly → Except SyntaxError Assembly}
    (hf : ∀ a, f a.erase = (f a).map erase) : x.map erase >>= f = (x >>= f).map erase := by
  cases x with
  | error e => rfl
  | ok a => exact hf a

theorem follow_erase {es es' : List Emission} {t t' : Tokenizer}
    (hes : es'.map (·.event) = (es.map (·.event)).map Html.Event.erase)
    (ht : t' = t.inMode .codemod) :
    a.erase.follow src (es', t') = (a.follow src (es, t)).map erase := by
  rw [follow_eq, follow_eq, hes, ht]
  show ((es.map (·.event)).map Html.Event.erase).foldlM (Markup.receive src) a.markup.erase >>= _
    = _
  rw [Markup.foldlM_receive_erase]
  cases (es.map (·.event)).foldlM (Markup.receive src) a.markup with
  | error e => rfl
  | ok m => rfl

theorem followFinish_erase :
    a.erase.follow src a.erase.tokenizer.finishData
      = (a.follow src a.tokenizer.finishData).map erase := by
  have hstate : a.erase.tokenizer.state = a.tokenizer.state := rfl
  simp only [Html.Tokenizer.finishData, hstate]
  split
  · exact a.follow_erase src rfl rfl
  · exact a.follow_erase src rfl rfl

theorem commentText_erase (loc : Location) :
    a.erase.commentText src loc = (a.commentText src loc).map erase := by
  have hstate : a.erase.tokenizer.state = a.tokenizer.state := rfl
  simp only [commentText, Html.Tokenizer.appendComment, hstate]
  split
  all_goals exact a.follow_erase src rfl rfl

theorem withMarkup_erase {f : Markup → Except SyntaxError Markup}
    (hf : ∀ m, f m.erase = (f m).map Markup.erase) :
    a.erase.withMarkup f = (a.withMarkup f).map erase := by
  show (f a.markup.erase >>= fun m => pure { a.erase with markup := m }) = _
  rw [hf]
  simp only [withMarkup]
  cases f a.markup with
  | error e => rfl
  | ok m => rfl

theorem endAttribute_erase : a.erase.endAttribute src = (a.endAttribute src).map erase := by
  refine a.withMarkup_erase fun m => ?_
  show ((m.erase.beginValue false (a.offset src)).finishValue src (a.offset src)) = _
  rw [← Markup.beginValue_erase, Markup.finishValue_erase]
  rfl

theorem addModifier_erase (d : Dynamic) :
    a.erase.addModifier src d = (a.addModifier src d).map erase := by
  cases d with
  | call c =>
    exact a.withMarkup_erase (f := fun m => m.addModifier src ⟨c.call, c.span⟩) fun m =>
      m.addModifier_erase src _
  | literal m =>
    show fault src (.literalModifier (a.markup.erase.startTagName?.getD []) m.value) m.span = _
    rw [Markup.startTagName?_erase]
    rfl

theorem append_erase (node : Statement) : (a.append node).erase = a.erase.append node.erase := by
  simp [append, erase, Markup.append_erase]

theorem place_erase (d : Dynamic) : a.erase.place src d = (a.place src d).map erase := by
  have hstate : a.erase.tokenizer.state = a.tokenizer.state := rfl
  have hbecome (d : Dynamic) (a : Assembly) :
      (a.erase.addModifier src d >>= fun a => return a.become .beforeAttributeName)
        = (a.addModifier src d >>= fun a => return a.become .beforeAttributeName).map erase := by
    rw [addModifier_erase]
    exact bind_erase fun _ => rfl
  unfold place
  rw [hstate]
  split
  · rfl
  · rfl
  · exact a.addModifier_erase src d
  · rw [endAttribute_erase]
    exact bind_erase fun a => hbecome d a
  · rw [endAttribute_erase]
    exact bind_erase fun a => hbecome d a
  · exact hbecome d a
  · refine congrArg Except.ok ?_
    show become ⟨_, (a.markup.erase.beginValue false (a.offset src)).addValuePart d⟩ _ = _
    rw [← Markup.beginValue_erase, ← Markup.addValuePart_erase]
    rfl
  all_goals refine congrArg Except.ok ?_
  · show (⟨_, a.markup.erase.addValuePart d⟩ : Assembly) = _
    rw [← Markup.addValuePart_erase]
    rfl
  · show (⟨_, a.markup.erase.addValuePart d⟩ : Assembly) = _
    rw [← Markup.addValuePart_erase]
    rfl
  · show (⟨_, a.markup.erase.addValuePart d⟩ : Assembly) = _
    rw [← Markup.addValuePart_erase]
    rfl
  · exact (a.append_erase (.dynamic d)).symm

theorem placeComment_erase (c : Comment) :
    a.erase.placeComment src c = (a.placeComment src c).map erase := by
  have hstate : a.erase.tokenizer.state = a.tokenizer.state := rfl
  have hcomment (a : Assembly) : a.erase.withMarkup (·.addTagComment src c)
      = (a.withMarkup (·.addTagComment src c)).map erase :=
    a.withMarkup_erase fun m => m.addTagComment_erase src c
  unfold placeComment
  rw [hstate]
  split
  · exact hcomment a
  · rw [endAttribute_erase]
    refine bind_erase fun a => ?_
    rw [hcomment]
    exact bind_erase fun _ => rfl
  · exact congrArg Except.ok (a.append_erase (.mustacheComment c)).symm
  · exact congrArg Except.ok (a.append_erase (.mustacheComment c)).symm
  · rfl

theorem decorator_erase (m : Mustache.Interpolation) :
    a.erase.decorator src m = (a.decorator src m).map erase := by
  have hstate : a.erase.tokenizer.state = a.tokenizer.state := rfl
  simp only [decorator, hstate]
  split
  · rfl
  · cases call src m.call with
    | error e => rfl
    | ok c => exact congrArg Except.ok (a.append_erase (.decorator _)).symm

theorem partialCall_erase (p : Mustache.PartialCall) :
    a.erase.partialCall src p = (a.partialCall src p).map erase := by
  simp only [partialCall]
  cases partialName src p.call with
  | error e => rfl
  | ok c => exact congrArg Except.ok (a.append_erase (.partialCall _)).symm

theorem pushBody_erase : a.erase.pushBody = (a.pushBody.1, a.pushBody.2.erase) := rfl

theorem popBody_erase (id : Nat) : a.erase.popBody src id
    = (a.popBody src id).map fun (nodes, a) => (eraseAll nodes, a.erase) := by
  have hpop := a.markup.stack.popExpecting_erase src id
  show (a.markup.stack.erase.popExpecting src id >>= _) = _
  rw [hpop]
  simp only [popBody]
  cases a.markup.stack.popExpecting src id with
  | error e => rfl
  | ok popped =>
    obtain ⟨frame, stack⟩ := popped
    cases frame <;> rfl

theorem closeBody_erase (id : Nat) : a.erase.closeBody src id
    = (a.closeBody src id).map fun (nodes, a) => (eraseAll nodes, a.erase) := by
  simp only [closeBody, popBody_erase]
  show (a.markup.erase.finish src _ _ _ >>= _) = _
  rw [Markup.finish_erase]
  show (a.markup.finish src a.tokenizer.state .block (a.offset src) >>= _) = _
  cases a.markup.finish src a.tokenizer.state .block (a.offset src) with
  | error e => rfl
  | ok _ => rfl

variable {src a} {b c : Assembly}

def Named (a : Assembly) : Prop :=
  a.tokenizer.Named Html.preformattedElements a.markup.startTagName?

structure Keeps (a b : Assembly) : Prop where
  mode : b.tokenizer.mode = a.tokenizer.mode
  named : a.Named → b.Named

structure Stays (a b : Assembly) : Prop where
  tokenizer : b.tokenizer = a.tokenizer
  name : b.markup.startTagName? = a.markup.startTagName?

theorem Stays.keeps (h : Stays a b) : Keeps a b where
  mode := congrArg Tokenizer.mode h.tokenizer
  named := by
    unfold Named
    rw [h.tokenizer, h.name]
    exact id

theorem Steady.keeps (h : Steady a b) : Keeps a b where
  mode := by
    obtain ⟨state, hb, -⟩ := h.tokenizer
    rw [hb]
    rfl
  named ha := by
    obtain ⟨state, hb, hstate⟩ := h.tokenizer
    unfold Named
    rw [hb, Markup.startTagName?_eq, h.head, ← Markup.startTagName?_eq]
    rcases hstate with rfl | ⟨hin, hin'⟩
    · exact ha
    · exact (Tokenizer.named_of_isInTag hin').mpr ((Tokenizer.named_of_isInTag hin).mp ha)

theorem keeps_commentText {loc : Location} (hcomment : a.tokenizer.state.isComment = true)
    (h : a.commentText src loc = .ok b) : Keeps a b := by
  obtain ⟨-, htokenizer⟩ := follow_ok h
  rw [Html.Tokenizer.now_appendComment] at htokenizer
  refine ⟨by rw [htokenizer], fun ha => ?_⟩
  have hname := Tokenizer.Named.outside (t := a.tokenizer) ha (.inr hcomment)
  unfold Named
  rw [htokenizer]
  exact hname

theorem keeps_followFinish (h : a.follow src a.tokenizer.finishData = .ok b) : Keeps a b := by
  obtain ⟨hmarkup, htokenizer⟩ := follow_ok h
  unfold Html.Tokenizer.finishData at hmarkup htokenizer
  split at htokenizer
  · rename_i hstate
    refine ⟨by rw [htokenizer]; rfl, fun ha => ?_⟩
    have hname := Tokenizer.Named.outside (t := a.tokenizer) ha (.inl (by rw [hstate]; rfl))
    unfold Named
    rw [htokenizer]
    exact hname
  · rename_i hstate
    rw [if_neg hstate] at hmarkup
    exact Stays.keeps ⟨htokenizer, congrArg Markup.startTagName? (Except.ok.inj hmarkup).symm⟩

theorem stays_popBody {id : Nat} {nodes : List Statement}
    (h : a.popBody src id = .ok (nodes, b)) : Stays a b := by
  simp only [popBody, bind_eq_ok, pure_eq_ok, Prod.mk.injEq] at h
  obtain ⟨_, _, _, rfl⟩ := h
  exact ⟨rfl, rfl⟩

theorem stays_closeBody {id : Nat} {nodes : List Statement}
    (h : a.closeBody src id = .ok (nodes, b)) : Stays a b := by
  simp only [closeBody, bind_eq_ok] at h
  obtain ⟨_, _, h⟩ := h
  exact stays_popBody h

structure Alike (a b : Assembly) : Prop where
  mode : a.tokenizer.mode = .precompile
  tokenizer : b.tokenizer = a.tokenizer.inMode .codemod
  markup : a.markup.erase = b.markup.erase
  named : a.Named

theorem Alike.erase (h : Alike a b) : a.erase = b.erase := by
  show (⟨_, a.markup.erase⟩ : Assembly) = ⟨_, b.markup.erase⟩
  rw [h.tokenizer, h.markup]
  rfl

theorem Alike.state (h : Alike a b) : b.tokenizer.state = a.tokenizer.state := by
  rw [h.tokenizer]
  rfl

theorem Alike.next {a' b' : Assembly} (h : Alike a b) (ha : Keeps a a') (hb : Keeps b b')
    (herase : a'.erase = b'.erase) : Alike a' b' where
  mode := ha.mode.trans h.mode
  tokenizer := by
    have hmode : b'.tokenizer.mode = .codemod := by
      rw [hb.mode, h.tokenizer]
      rfl
    calc
      b'.tokenizer = b'.tokenizer.inMode .codemod := by rw [← hmode]; rfl
      _ = a'.tokenizer.inMode .codemod := (congrArg Assembly.tokenizer herase).symm
  markup := congrArg Assembly.markup herase
  named := ha.named h.named

theorem Alike.does {f : Assembly → Except SyntaxError Assembly} (h : Alike a b)
    (herase : ∀ a, f a.erase = (f a).map Assembly.erase)
    (hkeeps : ∀ {c d}, c.tokenizer.state = a.tokenizer.state → f c = .ok d → Keeps c d) :
    Agree Alike (f a) (f b) := by
  have hmap : (f a).map Assembly.erase = (f b).map Assembly.erase := by
    rw [← herase, h.erase, herase]
  exact (Agree.of_map_eq hmap).mono fun ha hb => h.next (hkeeps rfl ha) (hkeeps h.state hb)

theorem Alike.append (h : Alike a b) {node node' : Statement} (hnode : node.erase = node'.erase) :
    Alike (a.append node) (b.append node') := by
  refine h.next (Stays.keeps ⟨rfl, rfl⟩) (Stays.keeps ⟨rfl, rfl⟩) ?_
  rw [append_erase, append_erase, h.erase, hnode]

theorem Alike.pushBody (h : Alike a b) : a.pushBody.1 = b.pushBody.1
    ∧ Alike a.pushBody.2 b.pushBody.2 := by
  have hpush : (a.pushBody.1, a.pushBody.2.erase) = (b.pushBody.1, b.pushBody.2.erase) := by
    rw [← pushBody_erase, h.erase, pushBody_erase]
  obtain ⟨hid, herase⟩ := Prod.mk.inj hpush
  exact ⟨hid, h.next (Stays.keeps ⟨rfl, rfl⟩) (Stays.keeps ⟨rfl, rfl⟩) herase⟩

theorem Alike.closes {f : Assembly → Except SyntaxError (List Statement × Assembly)}
    (h : Alike a b)
    (herase : ∀ a, f a.erase = (f a).map fun (nodes, a) => (eraseAll nodes, a.erase))
    (hstays : ∀ {a nodes b}, f a = .ok (nodes, b) → Stays a b) :
    Agree (fun x y => eraseAll x.1 = eraseAll y.1 ∧ Alike x.2 y.2) (f a) (f b) := by
  have hmap : (f a).map (fun (nodes, a) => (eraseAll nodes, a.erase))
      = (f b).map fun (nodes, a) => (eraseAll nodes, a.erase) := by
    rw [← herase, h.erase, herase]
  refine (Agree.of_map_eq hmap).mono fun ha hb herase => ?_
  obtain ⟨hnodes, herase⟩ := Prod.mk.inj herase
  exact ⟨hnodes, h.next (hstays ha).keeps (hstays hb).keeps herase⟩

theorem Alike.advance {text rest : List Char} {t : Tokenizer} {es es' : List Html.Event}
    (h : Alike a b)
    (hspares : a.markup.Spares src Html.preformattedElements
      ((a.tokenizer.feed text).1.map (·.event)))
    (ha : (a.tokenizer.feed text).1.map (·.event) = es ++ (t.feed rest).1.map (·.event)
      ∧ (a.tokenizer.feed text).2 = (t.feed rest).2)
    (hb : (b.tokenizer.feed text).1.map (·.event)
        = es' ++ ((t.inMode .codemod).feed rest).1.map (·.event)
      ∧ (b.tokenizer.feed text).2 = ((t.inMode .codemod).feed rest).2)
    (hmode : t.mode = a.tokenizer.mode)
    (hnamed : Html.Shuns Html.preformattedElements a.markup.startTagName? es →
      t.Named Html.preformattedElements (Html.nameAfter a.markup.startTagName? es))
    (hes : Agree (fun m n => Markup.erase m = Markup.erase n)
      (es.foldlM (Markup.receive src) a.markup) (es'.foldlM (Markup.receive src) b.markup))
    (ih : ∀ {m n}, Alike ⟨t, m⟩ ⟨t.inMode .codemod, n⟩ →
      m.Spares src Html.preformattedElements ((t.feed rest).1.map (·.event)) →
      Agree Alike ((⟨t, m⟩ : Assembly).follow src (t.feed rest))
        ((⟨t.inMode .codemod, n⟩ : Assembly).follow src ((t.inMode .codemod).feed rest))) :
    Agree Alike (a.follow src (a.tokenizer.feed text)) (b.follow src (b.tokenizer.feed text)) := by
  rw [ha.1] at hspares
  rw [follow_eq, follow_eq, ha.1, ha.2, hb.1, hb.2, List.foldlM_append, List.foldlM_append,
    bind_assoc, bind_assoc]
  refine hes.bind fun {m n} hm hn herase => ?_
  obtain ⟨hshuns, hname⟩ := hspares.left.shuns hm
  have halike : Alike ⟨t, m⟩ ⟨t.inMode .codemod, n⟩ :=
    ⟨hmode.trans h.mode, rfl, herase, by
      show t.Named _ m.startTagName?
      rw [hname]
      exact hnamed hshuns⟩
  have hrest := ih halike (hspares.right hm)
  rw [follow_eq, follow_eq] at hrest
  exact hrest

theorem Alike.feed {text : List Char} (h : Alike a b)
    (hspares : a.markup.Spares src Html.preformattedElements
      ((a.tokenizer.feed text).1.map (·.event))) :
    Agree Alike (a.follow src (a.tokenizer.feed text)) (b.follow src (b.tokenizer.feed text)) := by
  -- A reference is read in one step in one mode only, so the induction is on the text.
  induction hlength : text.length using Nat.strongRecOn generalizing a b text with
  | _ length ih =>
    cases text with
    | nil =>
      rw [Html.Tokenizer.feed_nil, Html.Tokenizer.feed_nil]
      exact .ok h
    | cons c cs =>
      have hstep := a.tokenizer.step_traced c cs
      have ha := a.tokenizer.events_feed_cons c cs
      have hlt : (cs.drop (a.tokenizer.step c cs).ahead).length < length := by
        rw [← hlength, List.length_drop, List.length_cons]
        omega
      have hnamed := Html.Tokenizer.step_named (by decide) h.named c cs
      by_cases href : a.tokenizer.readsReferences = true ∧ c = '&'
          ∧ (Html.Reference.decode? cs).isSome = true
      · obtain ⟨hreads, rfl, hsome⟩ := href
        obtain ⟨⟨d, n⟩, hdecode⟩ := Option.isSome_iff_exists.mp hsome
        obtain ⟨hahead, -, hevents⟩ := Html.Tokenizer.step_reference h.mode hreads hdecode
        have hb := Html.Tokenizer.feed_reference h.mode hreads hdecode
        rw [← h.tokenizer] at hb
        rw [hahead] at ha hlt
        refine h.advance hspares ha hb hstep.mode hnamed ?_ fun halike hspares =>
          ih _ hlt halike hspares rfl
        rw [hevents]
        exact Markup.reference_agree h.markup _ _ _ _ _ _
      · have hother : b.tokenizer.step c cs = (a.tokenizer.step c cs).inMode .codemod := by
          rw [h.tokenizer]
          refine a.tokenizer.step_inMode .codemod c cs ?_ ?_
          · intro hstate _
            exact Tokenizer.Named.outside h.named (.inl (by rw [hstate]; rfl))
          · intro hreads hc
            simpa [hreads, hc] using href
        have hb := b.tokenizer.events_feed_cons c cs
        rw [hother, Html.Step.events_inMode] at hb
        exact h.advance hspares ha hb hstep.mode hnamed (Markup.foldlM_agree h.markup _)
          fun halike hspares => ih _ hlt halike hspares rfl

end Assembly

end Tree
end HtmlTemplate
