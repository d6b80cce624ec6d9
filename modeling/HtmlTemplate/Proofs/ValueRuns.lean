import HtmlTemplate.Proofs.ValueSteps

/-! The values of the attributes of a template. Statements are read in the order of the text, so a
part is put into a value after those that are in it, and it is known of everything that has been
read since an attribute began whether a mustache begins there. -/

namespace HtmlTemplate.Tree

namespace Assembly

variable {src : Source} {ts : List Mustache.Token} {D : Dynamic → Prop} {now now' : Nat}
  {a b : Assembly} {lo : Position}

def Forms (src : Source) (ts : List Mustache.Token) (D : Dynamic → Prop) (a : Assembly)
    (now : Nat) : Prop :=
  a.markup.Forms src ts D a.tokenizer now

theorem Idle.forms (h : a.Idle) : a.Forms src ts D now := by
  refine .settled ?_ h.pending (by rw [h.state]; rfl)
  rw [Markup.attributes, h.current]
  exact allFormed_nil src ts D

theorem Forms.append (h : a.Forms src ts D now) (node : Statement) :
    (a.append node).Forms src ts D now :=
  Markup.Forms.congr h rfl rfl

private theorem content_forms {c : Mustache.Content} (h : a.Forms src ts D (src.offsetFor lo))
    (hlo : 1 ≤ lo.line) (hstart : lo ≤ c.loc.start)
    (hstop : c.loc.start.after c.written ≤ c.loc.stop) (hc : c.Stood src)
    (hunbroken : Unbroken src ts (src.offsetFor lo) (src.offsetFor c.loc.stop))
    (hb : a.content src c = .ok b) :
    b.Forms src ts D (src.offsetFor c.loc.stop)
      ∧ ∀ tag ∈ endedTags src a (.content c), AllFormed src ts D tag.attributes := by
  obtain ⟨hmarkup, htokenizer⟩ := content_ok hb
  rw [report, List.map_append, List.foldlM_append, bind_eq_ok] at hmarkup
  obtain ⟨k, hfed, hfinished⟩ := hmarkup
  obtain ⟨before, after, hwritten, -⟩ := hc.shortens
  have hend : (textStart c).after c.value ≤ c.loc.stop :=
    le_trans (Position.shift_ofTrimmed_after_le c.loc.start ⟨before, after, hwritten.symm⟩) hstop
  have hbegin : lo ≤ textStart c := le_textStart hstart
  have hline := Position.one_le_line_of_le hbegin hlo
  have hfrom := src.offsetFor_mono hlo hbegin
  have hafter := Position.le_after (textStart c) c.value
  have hread := src.offsetFor_mono hline hafter
  have hto := src.offsetFor_mono (Position.one_le_line_of_le hafter hline) hend
  have hmoved : a.markup.Forms src ts D (a.tokenizer.moveTo (textStart c))
      (src.offsetFor (textStart c)) :=
    h.moveTo hfrom (hunbroken.mono (le_refl _) (hread.trans hto))
  obtain ⟨hk, hends⟩ := hmoved.feed hc.covers_value (fun _ => hunbroken.mono hfrom hto) hfed
  obtain ⟨hn, hends'⟩ := hk.finishData hfinished
  rw [Html.Tokenizer.position_feed] at hn
  refine ⟨?_, ?_⟩
  · rw [Forms, htokenizer]
    exact hn.later hto (hunbroken.mono (hfrom.trans hread) (le_refl _))
  · rw [endedTags, told, report, List.map_append, Markup.endedIn_append hfed]
    exact List.forall_mem_append.mpr ⟨hends, hends'⟩

private theorem commentText_forms {loc : Location} (h : a.Forms src ts D now)
    (hcomment : a.tokenizer.state.isComment = true) (hb : a.commentText src loc = .ok b) :
    b.Forms src ts D now'
      ∧ ∀ tag ∈ a.markup.endedIn src
          ((a.tokenizer.appendComment (src.slice (src.spanFor loc))).1.map (·.event)),
        AllFormed src ts D tag.attributes := by
  have hapart := Html.State.isInAttribute_of_isComment hcomment
  obtain ⟨hmarkup, htokenizer⟩ := follow_told hb
  obtain ⟨hformed, hnone, hends⟩ := Markup.reports_apart (allFormed_nil src ts D)
    (Html.Tokenizer.isAttributePart_appendComment _ _) h.attributes
    (h.gathers.pending_none hapart) hmarkup
  refine ⟨?_, hends⟩
  rw [Forms, htokenizer]
  exact .settled hformed hnone (by rw [Html.Tokenizer.now_appendComment]; rfl)

theorem Puts.forms (hputs : Puts src a b) (h : a.Forms src ts D now) : b.Forms src ts D now' := by
  cases hputs with
  | apart hbefore hafter hattributes hpending =>
    exact .settled (hattributes ▸ h.attributes)
      (hpending.trans (h.gathers.pending_none hbefore)) hafter
  | ends hnaming hends hattributes hpending hafter =>
    obtain ⟨p, hsome, huntouched, -, hnow, hunbroken⟩ := h.gathers.pending_naming hnaming
    simp only [endAttribute, withMarkup, bind_eq_ok, pure_eq_ok] at hends
    obtain ⟨m, hm, rfl⟩ := hends
    obtain ⟨hformed, hnone⟩ := Markup.finishBare_forms h.attributes hsome huntouched
      (hunbroken.mono (le_refl _) hnow) hm
    exact .settled (hattributes ▸ hformed) (hpending.trans hnone) hafter

private theorem place_forms {d : Dynamic} (h : a.Forms src ts D now) (hd : D d)
    (hstart : now ≤ d.span.start) (hle : d.span.start ≤ d.span.stop) (hstop : d.span.stop ≤ now')
    (hb : a.place src d = .ok b) : b.Forms src ts D now' := by
  rcases place_puts hb with hputs | ⟨hstate, rfl⟩ | ⟨hstate, rfl⟩
  · exact hputs.forms h
  · obtain ⟨p, hpending, huntouched, hbegin, hnow, -⟩ :=
      h.gathers.pending_naming (by rw [hstate]; rfl)
    have hfilled : PendingAttribute.Filled src D none now
        { p with quoted := false, valueStart := a.offset src, text := none } :=
      huntouched.filled (fun _ hc => by cases hc) hbegin hnow
    exact ⟨h.attributes, .valuing rfl
      (Markup.pending_mapAttribute (Markup.pending_mapAttribute hpending _) _)
      (hfilled.addDynamic hd hstart hle hstop) fun hdynamic => by cases hdynamic⟩
  · obtain ⟨p, hpending, hfilled, -⟩ := h.gathers.pending_valuing hstate
    exact ⟨h.attributes, .valuing hstate (Markup.pending_mapAttribute hpending _)
      (hfilled.addDynamic hd hstart hle hstop) fun hdynamic => by cases hdynamic⟩

variable {body ss : List Mustache.Statement} {s : Mustache.Statement}

private theorem statement_forms (hscan : Mustache.scan src.text = .ok ts)
    (h : a.Forms src ts D (src.offsetFor lo)) (hlaid : Laid src ts a (s :: ss))
    (hjoined : s.Joined src) (hlo : 1 ≤ lo.line) (hread : Mustache.ReadAfter ts lo s)
    (hstart : lo ≤ s.loc.start) (hstop : s.loc.start ≤ s.loc.stop)
    (hD : ∀ m d, s = .mustache m → dynamic src m = .ok d → D d)
    (hb : statement src a s = .ok b) :
    b.Forms src ts D (src.offsetFor s.loc.stop)
      ∧ ∀ tag ∈ endedTags src a s, AllFormed src ts D tag.attributes := by
  have hline := Position.one_le_line_of_le hstart hlo
  have hle := src.offsetFor_mono hlo (le_trans hstart hstop)
  have hidle (hdata : b.tokenizer.state.isData = true) :
      b.Forms src ts D (src.offsetFor s.loc.stop) :=
    ((hlaid.tail hb).idle hdata).forms
  have hquiet (hcomment : a.tokenizer.state.isComment = false) (hne : ∀ c, s ≠ .content c) :
      ∀ tag ∈ endedTags src a s, AllFormed src ts D tag.attributes := by
    rw [endedTags, told_eq_nil hcomment hne]
    exact List.forall_mem_nil _
  have hunbroken (hquiet : Mustache.Quiet ts lo s.loc.stop) :
      Unbroken src ts (src.offsetFor lo) (src.offsetFor s.loc.stop) :=
    hquiet.unbroken hscan (Position.one_le_line_of_le hstop hline)
  cases statement_ok hb with
  | @content c _ hb =>
    obtain ⟨bottom, base, lo', hi', -, ⟨-, hnested, -⟩, -⟩ := hlaid
    exact content_forms h hlo hstart hnested hjoined (hunbroken hread.content) hb
  | commented hne hcomment hb =>
    obtain ⟨hn, hends⟩ : b.Forms src ts D (src.offsetFor s.loc.stop) ∧ _ :=
      commentText_forms h hcomment hb
    refine ⟨hn, ?_⟩
    rw [endedTags, told, report_of_ne hne, if_pos hcomment]
    exact hends
  | @mustache m d _ hcomment hd hplace =>
    have hspan : d.span = ⟨src.offsetFor m.loc.start, src.offsetFor m.loc.stop⟩ :=
      (dynamic_span hd).trans (src.spanFor_eq hline hstop)
    refine ⟨place_forms h (hD m d rfl hd) ?_ ?_ ?_ hplace, hquiet hcomment (by simp)⟩
    · rw [hspan]
      exact src.offsetFor_mono hlo hstart
    · rw [hspan]
      exact src.offsetFor_mono hline hstop
    · rw [hspan]
      exact le_refl _
  | decorator hdata _ =>
    exact ⟨hidle hdata, hquiet (Html.State.isComment_of_isData hdata) (by simp)⟩
  | comment hcomment hplace =>
    exact ⟨(placeComment_puts hplace).forms h, hquiet hcomment (by simp)⟩
  | partialCall hcomment _ =>
    exact ⟨(h.append _).later hle (hunbroken hread.partialCall), hquiet hcomment (by simp)⟩
  | block hblock | decoratorBlock hblock =>
    have hdata := block_isData hblock
    exact ⟨hidle hdata, hquiet (Html.State.isComment_of_isData (block_ok hblock).1) (by simp)⟩
  | partialBlock hcomment _ hsection =>
    have hdata := sectionOf_isData hsection
    exact ⟨hidle hdata, hquiet hcomment (by simp)⟩

/-- Where the statements to be read stand in the text, and what is known of the attributes there.
The section of an `{{else if}}` holds just a block, which stands between tags. -/
structure Arrives (src : Source) (ts : List Mustache.Token) (D : Dynamic → Prop)
    (body : List Mustache.Statement) (a : Assembly) (ss : List Mustache.Statement) : Prop where
  laid : Laid src ts a ss
  tail : Mustache.Tail body ss
  forms : (∃ lo, 1 ≤ lo.line ∧ Mustache.Threaded ts lo ss ∧ a.Forms src ts D (src.offsetFor lo))
    ∨ a.Idle ∧ ∀ s ∈ ss, ∃ b, s = .block b

namespace Arrives

theorem statement (h : Arrives src ts D body a (s :: ss))
    (hscan : Mustache.scan src.text = .ok ts) (hjoined : Mustache.allJoined src body)
    (hD : ∀ m d, s = .mustache m → dynamic src m = .ok d → D d)
    (hb : Assembly.statement src a s = .ok b) :
    Arrives src ts D body b ss
      ∧ ∀ tag ∈ endedTags src a s, AllFormed src ts D tag.attributes := by
  have hlaid := h.laid.tail hb
  rcases h.forms with ⟨lo, hlo, hthreaded, hforms⟩ | ⟨hidle, hblocks⟩
  · obtain ⟨hread, hstart, hstop, hrest⟩ := hthreaded.cons
    obtain ⟨hn, hends⟩ := statement_forms hscan hforms h.laid (h.tail.joined hjoined).1 hlo hread
      hstart hstop hD hb
    have hline := Position.one_le_line_of_le (le_trans hstart hstop) hlo
    exact ⟨⟨hlaid, h.tail.later, .inl ⟨s.loc.stop, hline, hrest, hn⟩⟩, hends⟩
  · obtain ⟨⟨m, rfl⟩, hmore⟩ := List.forall_mem_cons.mp hblocks
    have hcomment := Html.State.isComment_of_isData hidle.isData
    cases statement_ok hb with
    | commented _ hcomment' => simp [hcomment] at hcomment'
    | block hblock =>
      have hdata := block_isData hblock
      refine ⟨⟨hlaid, h.tail.later, .inr ⟨hlaid.idle hdata, hmore⟩⟩, ?_⟩
      rw [endedTags, told_eq_nil hcomment (by simp)]
      exact List.forall_mem_nil _

theorem inside {fallback : Nat} {p : Mustache.Program Mustache.Statement}
    (h : Arrives src ts D body a (s :: ss)) (hscan : Mustache.scan src.text = .ok ts)
    (he : Enters src a s fallback p b) : Arrives src ts D body b.pushBody.2 p.body := by
  refine ⟨h.laid.inside he, h.tail.inside he.sections, ?_⟩
  obtain ⟨bottom, base, lo, hi, hlo, hordered, hfits, htagged, ha⟩ := h.laid
  obtain ⟨-, -, -, hbody, hidle | ⟨rfl, -, q, rfl⟩⟩ :=
    he.settled hlo hordered.1 hordered.2.1 hfits.1 htagged.1 ha
  · have hpushed : Idle b.pushBody.2 := ⟨hidle.state, hidle.current, hidle.pending⟩
    obtain ⟨nodes, params, chained⟩ := p
    obtain ⟨⟨-, m, rfl⟩ | ⟨opening, closing, hbetween⟩, -⟩ := hbody
    · exact .inr ⟨hpushed, List.forall_mem_singleton.mpr ⟨m, rfl⟩⟩
    · have hsorted := Mustache.scan_sorted hscan
      have hthreaded := hbetween.threaded hsorted
      obtain ⟨before, inside, after, written, hle, rfl, -⟩ := hbetween
      exact .inl ⟨_, Position.one_le_line_of_le hsorted.after.1 (Nat.le_refl 1), hthreaded,
        hpushed.forms⟩
  · obtain rfl := List.mem_singleton.mp he.sections
    rcases h.forms with ⟨lo, hlo, hthreaded, hforms⟩ | ⟨-, hblocks⟩
    · obtain ⟨hi, hle, hquiet, hinside⟩ := hthreaded.cons.1.partialBlock
      have hline := Position.one_le_line_of_le hle hlo
      have hentered : b.Forms src ts D (src.offsetFor hi) :=
        hforms.later (src.offsetFor_mono hlo hle) (hquiet.unbroken hscan hline)
      exact .inl ⟨hi, hline, hinside, hentered.congr rfl rfl⟩
    · obtain ⟨m, hm⟩ := hblocks _ List.mem_cons_self
      cases hm

end Arrives

theorem Arrives.mustache {m : Mustache.Interpolation}
    (h : Arrives src ts D body a (.mustache m :: ss)) :
    1 ≤ m.loc.start.line ∧ m.loc.start ≤ m.loc.stop
      ∧ ∃ t ∈ ts, t.symbol.opensMustache = true ∧ t.loc.start = m.loc.start := by
  rcases h.forms with ⟨lo, hlo, hthreaded, -⟩ | ⟨-, hblocks⟩
  · obtain ⟨hread, hstart, hstop, -⟩ := hthreaded.cons
    exact ⟨Position.one_le_line_of_le hstart hlo, hstop, hread.mustache.2⟩
  · obtain ⟨b, hb⟩ := hblocks _ List.mem_cons_self
    cases hb

theorem Passes.arrives (h : Passes src a ss (.reads s b)) (ha : Arrives src ts D body a ss)
    (hscan : Mustache.scan src.text = .ok ts) (hjoined : Mustache.allJoined src body)
    (hD : ∀ m c d, Passes src a ss (.reads (.mustache m) c) → dynamic src m = .ok d → D d) :
    ∃ rest, Arrives src ts D body b (s :: rest) := by
  obtain ⟨rest, hb, -⟩ := h.kept
    (I := fun a ss => Arrives src ts D body a ss
      ∧ ∀ m c d, Passes src a ss (.reads (.mustache m) c) → dynamic src m = .ok d → D d)
    (by
      rintro _ _ _ _ _ _ ⟨ha, hD⟩ he
      exact ⟨ha.inside hscan he, fun m c d hm => hD m c d (.inside he hm)⟩)
    (by
      rintro _ _ _ _ ⟨ha, hD⟩ hs
      refine ⟨(ha.statement hscan hjoined (fun m d hm => ?_) hs).1,
        fun m c d hm => hD m c d (.later hs hm)⟩
      rw [hm] at hD
      exact hD m _ d .reads)
    ⟨ha, hD⟩
  exact ⟨rest, hb⟩

end Assembly

end HtmlTemplate.Tree
