import HtmlTemplate.Proofs.Agreement
import HtmlTemplate.Proofs.Evaluation

/-! Whole templates read in the two modes. -/

namespace HtmlTemplate

open Html (preformattedElements)

namespace Tree

theorem eraseSection_getD {s s' : Option (Section Statement)} (d : Section Statement)
    (h : eraseSection? s = eraseSection? s') :
    eraseSection (s.getD d) = eraseSection (s'.getD d) := by
  cases s with
  | none =>
    cases s' with
    | none => rfl
    | some _ => cases h
  | some _ =>
    cases s' with
    | none => cases h
    | some _ => exact Option.some.inj h

namespace Assembly

variable {src : Source} {names : List (List Char)} {a b : Assembly} {s : Mustache.Statement}
  {ss : List Mustache.Statement}

def Spares (src : Source) (names : List (List Char)) (a : Assembly)
    (ss : List Mustache.Statement) : Prop :=
  ∀ s b, Passes src a ss (.reads s b) →
    b.markup.Spares src names ((b.report src s).map (·.event))

theorem Spares.head (h : Spares src names a (s :: ss)) : Spares src names a [s] := by
  intro t c ht
  cases ht with
  | reads => exact h s a .reads
  | inside henters ht => exact h t c (.inside henters ht)
  | later _ ht => cases ht

theorem Spares.tail (h : Spares src names a (s :: ss)) (hs : statement src a s = .ok b) :
    Spares src names b ss :=
  fun t c ht => h t c (.later hs ht)

theorem Spares.inside (h : Spares src names a [s]) {fallback : Nat}
    {p : Mustache.Program Mustache.Statement} (henters : Enters src a s fallback p b) :
    Spares src names b.pushBody.2 p.body :=
  fun t c ht => h t c (.inside henters ht)

theorem Alike.content (h : Alike a b) {c : Mustache.Content}
    (hspares : Spares src preformattedElements a [.content c]) :
    Agree Alike (a.content src c) (b.content src c) := by
  have hreport := hspares _ _ .reads
  simp only [report, List.map_append] at hreport
  have hmoved : Alike
      ⟨a.tokenizer.moveTo (c.loc.start.shift (.ofTrimmed c.written c.value)), a.markup⟩
      ⟨b.tokenizer.moveTo (c.loc.start.shift (.ofTrimmed c.written c.value)), b.markup⟩ :=
    ⟨h.mode, by rw [h.tokenizer]; rfl, h.markup, h.named⟩
  refine (hmoved.feed hreport.left).bind fun _ _ h => ?_
  exact h.does (f := fun a => a.follow src a.tokenizer.finishData)
    (fun a => a.followFinish_erase src) fun _ => keeps_followFinish

theorem Alike.commentText (h : Alike a b) (hcomment : a.tokenizer.state.isComment = true)
    (loc : Location) : Agree Alike (a.commentText src loc) (b.commentText src loc) :=
  h.does (f := fun a => a.commentText src loc) (fun a => a.commentText_erase src loc)
    fun hstate => keeps_commentText (hstate ▸ hcomment)

theorem Alike.place (h : Alike a b) (d : Dynamic) : Agree Alike (a.place src d) (b.place src d) :=
  h.does (f := fun a => a.place src d) (fun a => a.place_erase src d)
    fun _ h => (steady_place h).keeps

theorem Alike.placeComment (h : Alike a b) (c : Comment) :
    Agree Alike (a.placeComment src c) (b.placeComment src c) :=
  h.does (f := fun a => a.placeComment src c) (fun a => a.placeComment_erase src c)
    fun _ h => (steady_placeComment h).keeps

theorem Alike.decorator (h : Alike a b) (m : Mustache.Interpolation) :
    Agree Alike (a.decorator src m) (b.decorator src m) := by
  refine h.does (f := fun a => a.decorator src m) (fun a => a.decorator_erase src m) fun _ hd => ?_
  obtain ⟨-, c, -, rfl⟩ := decorator_ok hd
  exact Stays.keeps ⟨rfl, rfl⟩

theorem Alike.partialCall (h : Alike a b) (p : Mustache.PartialCall) :
    Agree Alike (a.partialCall src p) (b.partialCall src p) := by
  refine h.does (f := fun a => a.partialCall src p) (fun a => a.partialCall_erase src p)
    fun _ hd => ?_
  simp only [Assembly.partialCall, bind_eq_ok, pure_eq_ok] at hd
  obtain ⟨c, -, rfl⟩ := hd
  exact Stays.keeps ⟨rfl, rfl⟩

theorem Alike.closeBody (h : Alike a b) (id : Nat) :
    Agree (fun x y => eraseAll x.1 = eraseAll y.1 ∧ Alike x.2 y.2) (a.closeBody src id)
      (b.closeBody src id) :=
  h.closes (f := fun a => a.closeBody src id) (fun a => a.closeBody_erase src id) stays_closeBody

def SameBlock (x y : Block Statement × Assembly) : Prop :=
  (Statement.block x.1).erase = (Statement.block y.1).erase
    ∧ (Statement.decoratorBlock x.1).erase = (Statement.decoratorBlock y.1).erase ∧ Alike x.2 y.2

def SameSection (x y : Section Statement × Assembly) : Prop :=
  eraseSection x.1 = eraseSection y.1 ∧ Alike x.2 y.2

def SameSection? (x y : Option (Section Statement) × Assembly) : Prop :=
  eraseSection? x.1 = eraseSection? y.1 ∧ Alike x.2 y.2

mutual

theorem Alike.statement {a b : Assembly} (h : Alike a b) : (s : Mustache.Statement) →
    Spares src preformattedElements a [s] →
      Agree Alike (Assembly.statement src a s) (Assembly.statement src b s)
  | .content c, hspares => by
    rw [Assembly.statement, Assembly.statement]
    exact h.content hspares
  | .mustache m, _ => by
    rw [Assembly.statement, Assembly.statement, h.state]
    split
    · exact h.commentText ‹_› m.loc
    · exact (Agree.refl _).bind fun _ _ hd => hd ▸ h.place _
  | .decorator m, _ => by
    rw [Assembly.statement, Assembly.statement, h.state]
    split
    · exact h.commentText ‹_› m.loc
    · exact h.decorator m
  | .comment c, _ => by
    rw [Assembly.statement, Assembly.statement, h.state]
    split
    · exact h.commentText ‹_› c.loc
    · exact h.placeComment _
  | .partialCall p, _ => by
    rw [Assembly.statement, Assembly.statement, h.state]
    split
    · exact h.commentText ‹_› p.loc
    · exact h.partialCall p
  | .block m, hspares => by
    rw [Assembly.statement, Assembly.statement, h.state]
    split
    · exact h.commentText ‹_› m.loc
    · exact (h.block m (.inl rfl) hspares).bind fun _ _ ⟨hblock, _, h⟩ => .ok (h.append hblock)
  | .decoratorBlock m, hspares => by
    rw [Assembly.statement, Assembly.statement, h.state]
    split
    · exact h.commentText ‹_› m.loc
    · exact (h.block m (.inr rfl) hspares).bind fun _ _ ⟨_, hblock, h⟩ => .ok (h.append hblock)
  | .partialBlock ⟨c, program, openStrip, closeStrip, loc⟩, hspares => by
    rw [Assembly.statement, Assembly.statement, h.state]
    split
    · exact h.commentText ‹_› loc
    · rename_i hcomment
      refine (Agree.refl _).bind fun {callee _} hcallee _ hc => ?_
      subst hc
      have hinside := hspares.inside (.partialBlock (b := ⟨c, program, openStrip, closeStrip, loc⟩)
        (by simpa using hcomment) hcallee)
      refine (h.sectionOf _ program hinside).bind fun _ _ ⟨hsection, h⟩ => .ok (h.append ?_)
      simp only [Statement.erase, hsection]

theorem Alike.statements {a b : Assembly} (h : Alike a b) : (ss : List Mustache.Statement) →
    Spares src preformattedElements a ss →
      Agree Alike (Assembly.statements src a ss) (Assembly.statements src b ss)
  | [], _ => by
    rw [Assembly.statements, Assembly.statements]
    exact .ok h
  | s :: ss, hspares => by
    rw [Assembly.statements, Assembly.statements]
    exact (h.statement s hspares.head).bind fun hs _ h => h.statements ss (hspares.tail hs)

theorem Alike.sectionOf {a b : Assembly} (h : Alike a b) (fallback : Nat) :
    (p : Mustache.Program Mustache.Statement) →
      Spares src preformattedElements a.pushBody.2 p.body →
        Agree SameSection (Assembly.sectionOf src a fallback p)
          (Assembly.sectionOf src b fallback p)
  | ⟨body, params, chained⟩, hspares => by
    obtain ⟨hid, hpush⟩ := h.pushBody
    rw [Assembly.sectionOf, Assembly.sectionOf]
    show Agree _ (Assembly.statements src a.pushBody.2 body >>= _)
      (Assembly.statements src b.pushBody.2 body >>= _)
    refine (hpush.statements body hspares).bind fun _ _ h => ?_
    show Agree _ (Assembly.closeBody src _ a.pushBody.1 >>= _)
      (Assembly.closeBody src _ b.pushBody.1 >>= _)
    rw [← hid]
    refine (h.closeBody _).bind fun _ _ ⟨hnodes, h⟩ => .ok ⟨?_, h⟩
    simp only [eraseSection, hnodes]

theorem Alike.sectionOf? {a b : Assembly} (h : Alike a b) (fallback : Nat) :
    (p : Option (Mustache.Program Mustache.Statement)) →
      (∀ q, p = some q → Spares src preformattedElements a.pushBody.2 q.body) →
        Agree SameSection? (Assembly.sectionOf? src a fallback p)
          (Assembly.sectionOf? src b fallback p)
  | none, _ => by
    rw [Assembly.sectionOf?, Assembly.sectionOf?]
    exact .ok ⟨rfl, h⟩
  | some p, hspares => by
    rw [Assembly.sectionOf?, Assembly.sectionOf?]
    refine (h.sectionOf fallback p (hspares p rfl)).bind fun _ _ ⟨hsection, h⟩ => .ok ⟨?_, h⟩
    simp only [eraseSection?, hsection]

theorem Alike.block {a b : Assembly} (h : Alike a b) {s : Mustache.Statement} :
    (m : Mustache.Block Mustache.Statement) → s = .block m ∨ s = .decoratorBlock m →
      Spares src preformattedElements a [s] →
        Agree SameBlock (Assembly.block src a m) (Assembly.block src b m)
  | ⟨c, program, inverse, openStrip, inverseStrip, closeStrip, loc⟩, hs, hspares => by
    simp only [Assembly.block, h.state]
    split
    · exact .error _
    · rename_i hdata
      have hdata : a.tokenizer.state.isData = true := by simpa using hdata
      show Agree _ (Tree.call src c >>= _) (Tree.call src c >>= _)
      refine (Agree.refl _).bind fun {callee _} hcallee _ hc => ?_
      subst hc
      refine (h.sectionOf? (src.spanFor loc).start program fun p hp =>
        hspares.inside (.program hs hdata hcallee hp)).bind fun {x y} hx _ hprogram => ?_
      refine (hprogram.2.sectionOf? (src.spanFor loc).start inverse fun p hp =>
        hspares.inside (.inverse hs hdata hcallee hx hp)).bind fun _ _ hinverse => ?_
      refine .ok ⟨?_, ?_, hinverse.2⟩
      · simp only [Statement.erase, eraseSection_getD _ hprogram.1, hinverse.1]
      · simp only [Statement.erase, eraseSection_getD _ hprogram.1, hinverse.1]

end

theorem alike_initial : Alike (initial .precompile) (initial .codemod) where
  mode := rfl
  tokenizer := rfl
  markup := rfl
  named := by
    show [] ∉ preformattedElements
    decide

end Assembly

theorem assemble_agree {src : Source} (locals : List (List Char))
    {program : Mustache.Program Mustache.Statement}
    (h : Assembly.Spares src preformattedElements (.initial .precompile) program.body) :
    Agree (fun t t' => t.erase = t'.erase) (assemble src .precompile locals program)
      (assemble src .codemod locals program) := by
  refine (Assembly.alike_initial.statements program.body h).bind fun {a b} _ _ h => ?_
  refine (h.does (f := fun a => a.follow src a.tokenizer.finish)
    (fun a => a.followFinish_erase src) fun _ => Assembly.keeps_followFinish).bind
      fun {a b} _ _ h => ?_
  have hfinish : a.markup.finish src a.tokenizer.state .template src.size
      = b.markup.finish src b.tokenizer.state .template src.size := by
    rw [← a.markup.finish_erase, h.markup, h.state, b.markup.finish_erase]
  rw [hfinish]
  refine (Agree.refl _).bind fun _ _ _ => ?_
  refine (h.closes (f := fun a => a.popBody src 0) (fun a => a.popBody_erase src 0)
    Assembly.stays_popBody).bind fun {x y} _ _ ⟨hbody, _⟩ => .ok ?_
  simp only [Template.erase, hbody]

end Tree

theorem preprocess_modes (text : List Char) (options : Options)
    (h : ∀ name ∈ preformattedElements,
      ¬ Opens text { options with mode := .precompile } name) :
    (preprocess text { options with mode := .precompile }).map Tree.Template.erase
      = (preprocess text { options with mode := .codemod }).map Tree.Template.erase := by
  unfold preprocess
  dsimp only
  split
  · rfl
  · rename_i program hparse
    refine (Tree.assemble_agree options.locals fun s a hreads name hname hopens => ?_).map_eq id
    exact h name hname ⟨s, a, .statements hparse hreads, hopens⟩

/-- Two references that are read in one of the modes only. -/
theorem preprocess_modes_references :
    (∀ name ∈ preformattedElements, ¬ Opens "<b c='&lt;'>&amp;</b>".toList {} name)
      ∧ (preprocess "<b c='&lt;'>&amp;</b>".toList {}).map Tree.Template.erase
        = (preprocess "<b c='&lt;'>&amp;</b>".toList { mode := .codemod }).map
          Tree.Template.erase := by
  have hscan : Mustache.scan "<b c='&lt;'>&amp;</b>".toList = .ok
      [.onLine (.content "<b c='&lt;'>&amp;</b>".toList) 0 21, .onLine .endOfInput 21 21] := by
    decide +kernel
  have hparse := Mustache.parse_of_tokens false hscan (by cbv)
  have hopens : ∀ name ∈ preformattedElements,
      ¬ Opens "<b c='&lt;'>&amp;</b>".toList {} name := by
    rintro name hname ⟨s, a, hreads, hopens⟩
    cases hreads with
    | statements hprogram hreads =>
      obtain rfl := Except.ok.inj (hparse.symm.trans hprogram)
      cases hreads with
      | reads =>
        revert name
        decide +kernel
      | inside henters =>
        cases henters with
        | program hs | inverse hs => simp at hs
      | later _ hreads => cases hreads
  exact ⟨hopens, preprocess_modes _ {} hopens⟩

end HtmlTemplate
