import HtmlTemplate.Proofs.Layout

/-! Statements are laid out as their tokens are: what is read from tokens in order is in
order, and every body is between the tags that its tokens make up. -/

namespace HtmlTemplate.Mustache

variable {lo hi : Position} {ts : List Token}

private theorem names_leaves (hts : Sorted lo ts) : ∃ hi, Leaves lo ts hi (names ts).rest := by
  induction ts generalizing lo with
  | nil => exact ⟨lo, .refl hts⟩
  | cons t ts ih =>
    unfold names
    split
    · obtain ⟨hi, hleaves⟩ := ih hts.2.2
      exact ⟨hi, (Leaves.one hts).trans hleaves⟩
    · exact ⟨lo, .refl hts⟩

private theorem blockParams_leaves {r : ParsedAny ts (List (List Char))}
    (h : blockParams ts = .ok r)
    (hts : Sorted lo ts) : ∃ hi, Leaves lo ts hi r.rest := by
  cases ts with
  | nil =>
    cases h
    exact ⟨lo, .refl hts⟩
  | cons t ts =>
    simp only [blockParams] at h
    split at h
    · split at h
      · simp [unexpected, faultAt, bind_eq_ok] at h
      · simp only [bind_eq_ok, pure_eq_ok] at h
        obtain ⟨⟨close, rest, hrest⟩, hclose, rfl⟩ := h
        obtain ⟨mid, hnames⟩ := names_leaves hts.2.2
        obtain ⟨hleaves, -⟩ := expect_leaves hclose hnames.sorted
        exact ⟨_, ((Leaves.one hts).trans hnames).trans hleaves⟩
    · cases h
      exact ⟨lo, .refl hts⟩

/-- The tag that opens a body ends with a token of its own, right before the body. -/
theorem Head.Read.leaves {t : Token} {opened : Head} {rest : List Token}
    (h : Head.Read t ts opened rest) (hts : Sorted lo (t :: ts)) :
    ∃ close, close.symbol = .close ∧ close :: rest <:+ t :: ts
      ∧ Leaves lo (t :: ts) close.loc.stop rest
      ∧ opened.start = t.loc.start ∧ opened.call.Within t.loc.stop close.loc.stop
      ∧ t.loc.stop ≤ close.loc.stop := by
  obtain ⟨hcall, hparams, hclosing⟩ := h
  obtain ⟨mid₁, hleaves₁, hwithin⟩ := hcall.within hts.2.2
  obtain ⟨mid₂, hleaves₂⟩ := blockParams_leaves hparams hleaves₁.sorted
  have hleaves₃ := Leaves.one hleaves₂.sorted
  have hleaves := (hleaves₁.trans hleaves₂).trans hleaves₃
  exact ⟨_, hclosing, ((Leaves.one hts).trans (hleaves₁.trans hleaves₂)).suffix,
    (Leaves.one hts).trans hleaves, rfl,
    hwithin.mono (le_refl _) (le_trans hleaves₂.le hleaves₃.le), hleaves.le⟩

namespace Closer.Read

variable {opened : Head} {closed : Closer} {rest : List Token}

theorem starts (h : Closer.Read opened ts closed rest) :
    ∃ t after, ts = t :: after ∧ t.symbol = .opener .endBlock := by
  obtain ⟨hopening, -⟩ := h
  exact ⟨_, _, rfl, hopening⟩

theorem leaves (h : Closer.Read opened ts closed rest) (hts : Sorted lo ts) :
    Leaves lo ts closed.stop rest ∧ lo ≤ closed.start ∧ closed.start ≤ closed.stop := by
  obtain ⟨-, hname, -⟩ := h
  have ht := Leaves.one hts
  obtain ⟨mid, hleaves₁, -⟩ := hname.within ht.sorted
  have hleaves := hleaves₁.trans (Leaves.one hleaves₁.sorted)
  exact ⟨ht.trans hleaves, hts.1, le_trans hts.2.1.1 hleaves.le⟩

end Closer.Read

theorem CallTag.within {t : Token} {ending : Symbol} {c : Call Expression} {strip : Strip}
    {loc : Location} {rest : List Token} (h : CallTag t ending ts c strip loc rest)
    (hts : Sorted lo (t :: ts)) :
    ∃ hi, Leaves lo (t :: ts) hi rest ∧ loc.Within lo hi ∧ c.Within loc.start loc.stop := by
  obtain ⟨hcall, -⟩ := h
  obtain ⟨mid, hleaves₁, hwithin⟩ := hcall.within hts.2.2
  have hleaves₂ := Leaves.one hleaves₁.sorted
  have hleaves := hleaves₁.trans hleaves₂
  exact ⟨_, (Leaves.one hts).trans hleaves, ⟨hts.1, le_trans hts.2.1.1 hleaves.le, le_refl _⟩,
    hwithin.mono hts.2.1.1 hleaves₂.le⟩

structure Body (ts : List Token) (lo hi : Position) (ss : List Statement) : Prop where
  ordered : Ordered lo hi ss
  fits : allFit ss
  tagged : allTagged ts ss
  between : ∃ opening closing, Between ts ss opening closing

def SectionsWithin (ts : List Token) (hi : Position) (last : Option (Strip × List Statement)) :
    Position → List (Head × List Statement) → Prop
  | lo, [] => ∀ strip body, last = some (strip, body) → Body ts lo hi body
  | lo, (head, body) :: more =>
    lo ≤ head.start ∧ head.start ≤ hi ∧ head.call.Within head.start hi
      ∧ Body ts head.start hi body ∧ SectionsWithin ts hi last head.start more

theorem Body.mono {ts' : List Token} {lo' hi' : Position} {ss : List Statement}
    (h : Body ts lo hi ss) (hts : ts <:+ ts') (hlo : lo' ≤ lo) (hhi : hi ≤ hi') :
    Body ts' lo' hi' ss := by
  obtain ⟨hordered, hfits, htagged, opening, closing, hbetween⟩ := h
  exact ⟨hordered.mono hlo hhi, hfits, htagged.mono hts _, opening, closing, hbetween.mono hts⟩

theorem SectionsWithin.mono {ts' : List Token} {lo' hi' : Position}
    {last : Option (Strip × List Statement)} {chain : List (Head × List Statement)}
    (h : SectionsWithin ts hi last lo chain) (hts : ts <:+ ts') (hlo : lo' ≤ lo)
    (hhi : hi ≤ hi') : SectionsWithin ts' hi' last lo' chain := by
  induction chain generalizing lo lo' with
  | nil => exact fun strip body hlast => (h strip body hlast).mono hts hlo hhi
  | cons section_ more ih =>
    obtain ⟨hstart, hle, hcall, hbody, hmore⟩ := h
    exact ⟨le_trans hlo hstart, le_trans hle hhi, hcall.mono (le_refl _) hhi,
      hbody.mono hts (le_refl _) hhi, ih hmore (le_refl _)⟩

theorem Body.program {ss : List Statement} (h : Body ts lo hi ss) (params : List (List Char)) :
    Program.Within lo hi ⟨ss, params, false⟩ ∧ Program.Fits ⟨ss, params, false⟩
      ∧ Program.Tagged ts ⟨ss, params, false⟩ :=
  ⟨h.ordered, h.fits, .inr h.between, h.tagged⟩

private theorem inverse?_laid {close : Closer} {last : Option (Strip × List Statement)}
    {chain : List (Head × List Statement)} (first : Bool)
    (h : SectionsWithin ts close.start last lo chain) :
    sectionWithin lo close.start ((Sections.inverse? close last first chain).map (·.2))
      ∧ sectionFits ((Sections.inverse? close last first chain).map (·.2))
      ∧ sectionTagged ts ((Sections.inverse? close last first chain).map (·.2)) := by
  induction chain generalizing lo first with
  | nil =>
    cases last with
    | none => exact ⟨trivial, trivial, trivial⟩
    | some last => exact (h last.1 last.2 rfl).program []
  | cons section_ more ih =>
    obtain ⟨head, body⟩ := section_
    obtain ⟨hstart, hle, hcall, hbody, hmore⟩ := h
    obtain ⟨hwithin, hfits, htagged⟩ := ih false hmore
    obtain ⟨hwithin', hfits', htagged'⟩ := hbody.program head.params
    exact ⟨⟨⟨hstart, hle, le_refl _⟩, ⟨hcall, hwithin', hwithin⟩, trivial⟩,
      ⟨⟨hfits', hfits⟩, trivial⟩, .inl ⟨rfl, _, rfl⟩, ⟨⟨htagged', htagged⟩, trivial⟩⟩

private theorem ofSections_laid {head : Head} {inverted : Bool} {body : List Statement}
    {more : Sections} {close : Closer} (hcall : head.call.Within head.start close.stop)
    (hbody : Body ts head.start close.stop body)
    (hmore : SectionsWithin ts close.start more.last head.start more.chain)
    (hclose : close.start ≤ close.stop) :
    Block.Nested (.ofSections head inverted body more close)
      ∧ Block.Fits (.ofSections head inverted body more close)
      ∧ Statement.Tagged ts (.block (.ofSections head inverted body more close)) := by
  obtain ⟨hwithin, hfits, htagged⟩ := hbody.program head.params
  obtain ⟨hwithin', hfits', htagged'⟩ := inverse?_laid true hmore
  have hwithin' := hwithin'.mono (le_refl _) hclose
  cases inverted with
  | false => exact ⟨⟨hcall, hwithin, hwithin'⟩, ⟨hfits, hfits'⟩, htagged, htagged'⟩
  | true => exact ⟨⟨hcall, hwithin', hwithin⟩, ⟨hfits', hfits⟩, htagged', htagged⟩

theorem bodyRead.body {opening : Token} {rest rest' : List Token} {ss : List Statement}
    (h : bodyRead rest ss rest') (hopening : opening.OpensBody) (hsuffix : opening :: rest <:+ ts)
    (hleaves : Leaves lo rest hi rest')
    (hend : ∃ closing after, rest' = closing :: after ∧ closing.ClosesBody)
    (hordered : Ordered lo hi ss) (hfits : allFit ss) (htagged : allTagged rest ss) :
    Body ts lo hi ss := by
  have htagged' := htagged.mono ((List.suffix_cons opening rest).trans hsuffix)
  obtain ⟨closing, after, rfl, hclosing⟩ := hend
  obtain ⟨inside, rfl⟩ := hleaves.suffix
  obtain ⟨before, hbefore⟩ := hsuffix
  obtain ⟨hlength, hread⟩ := h.gives
  exact ⟨hordered, hfits, htagged', opening, closing, before, inside, after, ss, hlength,
    hbefore.symm, hopening, hclosing, hread, rfl⟩

theorem block_laid {t close : Token} {head : Head} {inverted : Bool} {first : List Statement}
    {more : Sections} {closer : Closer} {mid : Position} (hts : Sorted lo (t :: ts))
    (hstart : head.start = t.loc.start) (hcall : head.call.Within t.loc.stop close.loc.stop)
    (hopen : t.loc.stop ≤ close.loc.stop) (hbody : Body (t :: ts) close.loc.stop mid first)
    (hmid : close.loc.stop ≤ mid) (hmore : SectionsWithin (t :: ts) hi more.last mid more.chain)
    (hhi : mid ≤ hi) (hclose : hi ≤ closer.start) (hstop : closer.start ≤ closer.stop) :
    (Block.ofSections head inverted first more closer).loc.Within lo closer.stop
      ∧ Block.Nested (.ofSections head inverted first more closer)
      ∧ Block.Fits (.ofSections head inverted first more closer)
      ∧ Statement.Tagged (t :: ts) (.block (.ofSections head inverted first more closer)) := by
  have hstart' : head.start ≤ t.loc.stop := hstart ▸ hts.2.1.1
  have hlo : lo ≤ head.start := hstart ▸ hts.1
  have hmid' : mid ≤ closer.stop := le_trans hhi (le_trans hclose hstop)
  refine ⟨⟨hlo, ?_, le_refl _⟩, ofSections_laid ?_ ?_ ?_ hstop⟩
  · exact le_trans hstart' (le_trans hopen (le_trans hmid hmid'))
  · exact hcall.mono hstart' (le_trans hmid hmid')
  · exact hbody.mono (List.suffix_refl _) (le_trans hstart' hopen) hmid'
  · exact hmore.mono (List.suffix_refl _) (le_trans hstart' (le_trans hopen hmid)) hclose

mutual

theorem bodyRead.laid {lo : Position} {ts rest : List Token} {ss : List Statement} :
    bodyRead ts ss rest → Sorted lo ts →
      ∃ hi, Leaves lo ts hi rest ∧ Ordered lo hi ss ∧ allFit ss ∧ allTagged ts ss
  | .nil _, hts => ⟨lo, .refl hts, trivial, trivial, trivial⟩
  | .cons _ hs hss, hts => by
    obtain ⟨mid, hleaves₁, hloc, hnested, hfits, htagged⟩ := hs.laid hts
    obtain ⟨hi, hleaves₂, hordered, hfits', htagged'⟩ := hss.laid hleaves₁.sorted
    exact ⟨hi, hleaves₁.trans hleaves₂, ⟨hloc.mono (le_refl _) hleaves₂.le, hnested,
      hordered.mono hloc.2.2 (le_refl _)⟩, ⟨hfits, hfits'⟩, htagged,
      htagged'.mono hleaves₁.suffix⟩

theorem Statement.Read.laid {lo : Position} {ts rest : List Token} {s : Statement} :
    Statement.Read ts s rest → Sorted lo ts →
      ∃ hi, Leaves lo ts hi rest ∧ s.loc.Within lo hi ∧ s.Nested ∧ s.Fits ∧ s.Tagged ts
  | .content hsymbol, hts =>
    ⟨_, .one hts, hts.within, hts.2.1.2 _ hsymbol, List.infix_refl _, trivial⟩
  | .comment _, hts => ⟨_, .one hts, hts.within, trivial, trivial, trivial⟩
  | .mustache _ _ htag, hts => by
    obtain ⟨hi, hleaves, hloc, hcall⟩ := htag.within hts
    exact ⟨hi, hleaves, hloc, hcall, trivial, trivial⟩
  | .decorator _ htag, hts => by
    obtain ⟨hi, hleaves, hloc, hcall⟩ := htag.within hts
    exact ⟨hi, hleaves, hloc, hcall, trivial, trivial⟩
  | .partialCall _ htag, hts => by
    obtain ⟨hi, hleaves, hloc, hcall⟩ := htag.within hts
    exact ⟨hi, hleaves, hloc, hcall, trivial, trivial⟩
  | .block _ _ hhead hfirst hmore hcloser, hts => by
    obtain ⟨close, hclosing, hsuffix, hleaves₁, hstart, hcall, hopen⟩ := hhead.leaves hts
    obtain ⟨mid, hleaves₂, hordered, hfits, htagged⟩ := hfirst.laid hleaves₁.sorted
    obtain ⟨hend, hi, hleaves₃, hsections⟩ := hmore.laid hleaves₂.sorted hcloser.starts
    obtain ⟨hleaves₄, hclose, hstop⟩ := hcloser.leaves hleaves₃.sorted
    have hbody := hfirst.body (.inl hclosing) hsuffix hleaves₂ hend
      hordered hfits htagged
    have hsections' := hsections.mono (hleaves₁.trans hleaves₂).suffix (le_refl _) (le_refl _)
    exact ⟨_, ((hleaves₁.trans hleaves₂).trans hleaves₃).trans hleaves₄,
      block_laid hts hstart hcall hopen hbody hleaves₂.le hsections' hleaves₃.le hclose hstop⟩
  | .decoratorBlock _ hhead hfirst hcloser, hts => by
    obtain ⟨close, hclosing, hsuffix, hleaves₁, hstart, hcall, hopen⟩ := hhead.leaves hts
    obtain ⟨mid, hleaves₂, hordered, hfits, htagged⟩ := hfirst.laid hleaves₁.sorted
    obtain ⟨hleaves₃, hclose, hstop⟩ := hcloser.leaves hleaves₂.sorted
    obtain ⟨c, after, hrest, hc⟩ := hcloser.starts
    have hbody := hfirst.body (.inl hclosing) hsuffix hleaves₂
      ⟨c, after, hrest, .inl hc⟩ hordered hfits htagged
    exact ⟨_, (hleaves₁.trans hleaves₂).trans hleaves₃,
      block_laid hts hstart hcall hopen hbody hleaves₂.le (fun _ _ h => nomatch h) (le_refl _)
        hclose hstop⟩
  | .partialBlock _ hhead hfirst hcloser, hts => by
    obtain ⟨close, hclosing, hsuffix, hleaves₁, hstart, hcall, hopen⟩ := hhead.leaves hts
    obtain ⟨mid, hleaves₂, hordered, hfits, htagged⟩ := hfirst.laid hleaves₁.sorted
    obtain ⟨hleaves₃, hclose, hstop⟩ := hcloser.leaves hleaves₂.sorted
    obtain ⟨c, after, hrest, hc⟩ := hcloser.starts
    have hbody := hfirst.body (.inl hclosing) hsuffix hleaves₂
      ⟨c, after, hrest, .inl hc⟩ hordered hfits htagged
    have hmid := le_trans hclose hstop
    have hstart' := hstart ▸ hts.2.1.1
    obtain ⟨-, hfits', htagged'⟩ := hbody.program []
    exact ⟨_, (hleaves₁.trans hleaves₂).trans hleaves₃,
      ⟨hstart ▸ hts.1, le_trans hstart' (le_trans hopen (le_trans hleaves₂.le hmid)), le_refl _⟩,
      ⟨hcall.mono hstart' (le_trans hleaves₂.le hmid), hordered.mono (le_trans hstart' hopen) hmid⟩,
      hfits', htagged'⟩

theorem Sections.Read.laid {inverted : Bool} {lo : Position} {ts rest : List Token}
    {more : Sections} :
    Sections.Read inverted ts more rest → Sorted lo ts →
      (∃ t after, rest = t :: after ∧ t.symbol = .opener .endBlock) →
        (∃ t after, ts = t :: after ∧ t.ClosesBody)
          ∧ ∃ hi, Leaves lo ts hi rest ∧ SectionsWithin ts hi more.last lo more.chain
  | .nil _ _, hts, ⟨t, after, hrest, ht⟩ =>
    ⟨⟨t, after, hrest, .inl ht⟩, lo, .refl hts, fun _ _ h => nomatch h⟩
  | .chain hsymbol hhead hfirst hmore, hts, hend => by
    obtain ⟨close, hclose, hsuffix, hleaves₁, hstart, hcall, hopen⟩ := hhead.leaves hts
    obtain ⟨mid, hleaves₂, hordered, hfits, htagged⟩ := hfirst.laid hleaves₁.sorted
    obtain ⟨hend', hi, hleaves₃, hsections⟩ := hmore.laid hleaves₂.sorted hend
    have hbody := hfirst.body (.inl hclose) hsuffix hleaves₂ hend'
      hordered hfits htagged
    have hstart' := hstart ▸ hts.2.1.1
    have hmid : close.loc.stop ≤ hi := le_trans hleaves₂.le hleaves₃.le
    refine ⟨⟨_, _, rfl, .inr (.inr hsymbol)⟩, hi, (hleaves₁.trans hleaves₂).trans hleaves₃,
      hstart ▸ hts.1, le_trans hstart' (le_trans hopen hmid), hcall.mono hstart' hmid,
      hbody.mono (List.suffix_refl _) (le_trans hstart' hopen) hleaves₃.le, ?_⟩
    exact hsections.mono (hleaves₁.trans hleaves₂).suffix
      (le_trans hstart' (le_trans hopen hleaves₂.le)) (le_refl _)
  | .last hsymbol hlast, hts, ⟨c, after, hrest, hc⟩ => by
    have ht := Leaves.one hts
    obtain ⟨hi, hleaves, hordered, hfits, htagged⟩ := hlast.laid ht.sorted
    have hbody := hlast.body (.inr hsymbol) (List.suffix_refl _) hleaves ⟨c, after, hrest, .inl hc⟩
      hordered hfits htagged
    refine ⟨⟨_, _, rfl, .inr (.inl hsymbol)⟩, hi, ht.trans hleaves, fun strip body hsome => ?_⟩
    cases hsome
    exact hbody.mono (List.suffix_refl _) ht.le (le_refl _)

end

/-- The tree of a template is what its tokens are read as, but for trimmed texts. -/
theorem parse_written {text : List Char} {keepLines : Bool} {p : Program Statement}
    (h : parse text keepLines = .ok p) :
    ∃ ts body rest, scan text = .ok ts ∧ bodyRead ts body rest
      ∧ (peek rest).symbol = .endOfInput ∧ Trims body p.body := by
  obtain ⟨ts, body, rest, hscan, hbody, hend, rfl⟩ := parse_read h
  exact ⟨ts, body, rest, hscan, hbody, hend,
    (trims_controlAll keepLines _).trans (trims_settle true keepLines _)⟩

/-- The tree of a template is laid out as its tokens are. -/
theorem parse_laid {text : List Char} {keepLines : Bool} {p : Program Statement}
    (h : parse text keepLines = .ok p) :
    ∃ ts hi, scan text = .ok ts ∧ Sorted .first ts ∧ .first ≤ hi ∧ Ordered .first hi p.body
      ∧ allFit p.body ∧ allTagged ts p.body := by
  obtain ⟨ts, body, rest, hscan, hbody, -, htrims⟩ := parse_written h
  have hsorted := scan_sorted hscan
  obtain ⟨hi, hleaves, hordered, hfits, htagged⟩ := hbody.laid hsorted
  exact ⟨ts, hi, hscan, hsorted, hleaves.le, htrims.ordered hordered, htrims.2 hfits,
    htrims.allTagged htagged⟩

end HtmlTemplate.Mustache
