import HtmlTemplate.Proofs.Evaluation
import HtmlTemplate.Proofs.Lines
import HtmlTemplate.Proofs.Neighbours
import Mathlib.Data.List.Permutation

/-! Whitespace control without markers. Every text loses the end of a line, or its indent, exactly
where the tag next to it stands alone on that line, in templates where the tags of an inverse
block and the closing tag of a chain are told to by the sections next to them. -/

namespace HtmlTemplate

open Mustache

/-- Whether a tag that begins with a symbol takes the line that it is alone on. -/
def Mustache.Symbol.takesLine : Symbol → Bool
  | .comment _ | .elseTag => true
  | .opener o =>
    match o with
    | .block | .inverse | .elseChain | .endBlock | .decoratorBlock | .partialBlock
    | .partialCall => true
    | .escaped | .raw | .ampersand | .decorator => false
  | _ => false

/-- Whether a tag stands alone on a line of the template. -/
def Source.alone (src : Source) (tag : List Token) : Bool :=
  tag.head?.any (fun t => t.symbol.takesLine && src.startsLine t.loc.start)
    && tag.getLast?.any (fun t => src.endsLine t.loc.stop)

namespace Mustache

/-- A tag takes the line that it is alone on from the texts next to it. -/
def lineSides (src : Source) : Sides := fun _ tag _ => ⟨src.alone tag, src.alone tag⟩

theorem IsTag.head {symbol : Symbol} {tag : List Token} (h : IsTag symbol tag) :
    ∃ t, tag.head? = some t ∧ t.symbol = symbol ∧ t.symbol.startsTag = true := by
  cases h with
  | comment h | elseTag h => exact ⟨_, rfl, h, by rw [h]; rfl⟩
  | braces hopener => exact ⟨_, rfl, hopener, by rw [hopener]; rfl⟩

theorem IsTag.last {symbol : Symbol} {tag : List Token} (h : IsTag symbol tag) :
    ∃ init t, tag = init ++ [t] ∧ t.symbol.endsTag = true ∧ ∀ text, t.symbol ≠ .content text := by
  cases h with
  | comment h | elseTag h =>
    exact ⟨[], _, rfl, by rw [h]; rfl, fun _ heq => by rw [h] at heq; cases heq⟩
  | @braces o opener closer inner hopener hinner hcloser =>
    refine ⟨opener :: inner, closer, rfl, ?_, fun _ heq => ?_⟩
    · obtain h | h := hcloser <;> rw [h] <;> rfl
    · obtain h | h := hcloser <;> rw [h] at heq <;> cases heq

def InLines (src : Source) (all : List Token) : Prop :=
  ∀ (pre post : List Token) (t : Token), all = pre ++ t :: post → t.InLine src pre.reverse post

section

variable {src : Source} {all pre post tag : List Token} {symbol : Symbol}

theorem IsTag.startsLine_eq (h : IsTag symbol tag) (hlines : InLines src all)
    (hall : all = pre ++ (tag ++ post)) {p : Position}
    (hp : ∃ t, tag.head? = some t ∧ t.loc.start = p) :
    src.startsLine p = lineStart pre.reverse := by
  obtain ⟨t, ht, -, hstarts⟩ := h.head
  obtain ⟨t', ht', rfl⟩ := hp
  obtain rfl : t = t' := Option.some.inj (ht.symm.trans ht')
  obtain ⟨more, rfl⟩ := List.head?_eq_some_iff.mp ht
  exact (hlines _ _ _ hall).start hstarts

theorem IsTag.endsLine_eq (h : IsTag symbol tag) (hlines : InLines src all)
    (hall : all = pre ++ (tag ++ post)) {p : Position}
    (hp : ∃ t, tag.getLast? = some t ∧ t.loc.stop = p) : src.endsLine p = lineEnd post := by
  obtain ⟨init, t, rfl, hends, -⟩ := h.last
  obtain ⟨t', ht', rfl⟩ := hp
  rw [List.getLast?_concat] at ht'
  obtain rfl : t = t' := Option.some.inj ht'
  exact (hlines (pre ++ init) post t (by simpa using hall)).stop hends

theorem IsTag.alone (h : IsTag symbol tag) (hlines : InLines src all)
    (hall : all = pre ++ (tag ++ post)) :
    src.alone tag = (symbol.takesLine && lineStart pre.reverse && lineEnd post) := by
  obtain ⟨t, ht, rfl, -⟩ := h.head
  obtain ⟨init, t', htag, -⟩ := h.last
  have ht' : tag.getLast? = some t' := by rw [htag, List.getLast?_concat]
  rw [Source.alone, ht, ht', Option.any_some, Option.any_some,
    h.startsLine_eq hlines hall ⟨t, ht, rfl⟩, h.endsLine_eq hlines hall ⟨t', ht', rfl⟩]

end

/-- The statements before a place in a body, from the nearest on, leave of the line what the tokens
before it do. -/
structure Behind (root : Bool) (before : List Statement) (pre : List Token) : Prop where
  line : lineStart pre.reverse = startsLine root before
  first : pre.isEmpty = (root && before.isEmpty)

structure Ahead (root : Bool) (post : List Token) : Prop where
  line : lineEnd post = root
  last : decide ((peek post).symbol = .endOfInput) = root

section

variable {root : Bool} {ts pre post tag : List Token} {before ss : List Statement} {symbol : Symbol}

theorem IsTag.behind (h : IsTag symbol tag) (pre : List Token)
    (hbefore : startsLine root before = false) (hfirst : (root && before.isEmpty) = false) :
    Behind root before (pre ++ tag) := by
  obtain ⟨init, t, rfl, -, hother⟩ := h.last
  refine ⟨?_, ?_⟩
  · rw [hbefore, ← List.append_assoc, List.reverse_concat]
    exact lineStart_other hother
  · rw [hfirst, ← List.append_assoc]
    exact List.isEmpty_eq_false_iff.mpr (List.concat_ne_nil _ _)

theorem IsTag.behind_body (h : IsTag symbol tag) (pre : List Token) :
    Behind false [] (pre ++ tag) :=
  h.behind pre rfl rfl

theorem IsTag.behind_cons (h : IsTag symbol tag) (pre : List Token) {s : Statement}
    (hs : ∀ c, s ≠ .content c) : Behind root (s :: before) (pre ++ tag) := by
  refine h.behind pre ?_ (Bool.and_false _)
  cases s with
  | content c => exact absurd rfl (hs c)
  | _ => rfl

theorem IsTag.ahead (h : IsTag symbol tag) (post : List Token) : Ahead false (tag ++ post) := by
  obtain ⟨t, ht, -, hstarts⟩ := h.head
  obtain ⟨more, rfl⟩ := List.head?_eq_some_iff.mp ht
  have hend : t.symbol ≠ .endOfInput := fun heq => by
    rw [heq] at hstarts
    cases hstarts
  refine ⟨lineEnd_other (fun text heq => ?_) hend, decide_eq_false hend⟩
  rw [heq] at hstarts
  cases hstarts

theorem Spells.peek_eq (h : Spells ts (.body ss)) (hpost : Ahead root post) :
    decide ((peek (ts ++ post)).symbol = .endOfInput) = (root && ss.isEmpty) := by
  cases ss with
  | nil =>
    cases h
    rw [List.isEmpty_nil, Bool.and_true]
    exact hpost.last
  | cons s ss =>
    rw [List.isEmpty_cons, Bool.and_false, decide_eq_false_iff_not]
    by_cases hcontent : ∃ c, s = .content c
    · obtain ⟨c, rfl⟩ := hcontent
      cases h with
      | content hsymbol hafter =>
        rename_i t _ _
        show t.symbol ≠ .endOfInput
        rw [hsymbol]
        exact Symbol.noConfusion
      | oneTag htag hs hafter => cases hs
    · obtain ⟨o, symbol, tag, after, -, htag, rfl, -⟩ :=
        h.first_tag fun c hc => hcontent ⟨c, hc⟩
      rw [List.append_assoc]
      exact of_decide_eq_false (htag.ahead _).last

theorem Spells.ahead (h : Spells ts (.body ss)) (hpost : Ahead root post) :
    lineEnd (ts ++ post) = endsLine root ss := by
  cases ss with
  | nil =>
    cases h
    exact hpost.line
  | cons s ss =>
    by_cases hcontent : ∃ c, s = .content c
    · obtain ⟨c, rfl⟩ := hcontent
      cases h with
      | content hsymbol hafter =>
        rw [List.cons_append, lineEnd_content hsymbol, hafter.peek_eq hpost, Bool.and_comm]
        rfl
      | oneTag htag hs hafter => cases hs
    · obtain ⟨o, symbol, tag, after, -, htag, rfl, -⟩ :=
        h.first_tag fun c hc => hcontent ⟨c, hc⟩
      rw [List.append_assoc, (htag.ahead _).line]
      cases s with
      | content c => exact absurd ⟨c, rfl⟩ hcontent
      | _ => rfl

theorem Spells.behind (h : Spells ts (.body ss)) (hpre : Behind root before pre) :
    Behind root (ss.reverse ++ before) (pre ++ ts) := by
  generalize hportion : Portion.body ss = portion at h
  induction h generalizing ss before pre with
  | nil =>
    cases hportion
    rwa [List.append_nil]
  | @content t text after ss' hsymbol hafter ih =>
    cases hportion
    have hnext : Behind root (.content { value := text, written := text, loc := t.loc } :: before)
        (pre ++ [t]) := by
      refine ⟨?_, ?_⟩
      · rw [List.reverse_concat, lineStart_content hsymbol, List.isEmpty_reverse, hpre.first,
          Bool.and_comm]
        rfl
      · simp
    simpa using ih hnext rfl
  | @oneTag symbol tag after s ss' htag hs hafter ih =>
    cases hportion
    have hnext : Behind root (s :: before) (pre ++ tag) := htag.behind_cons pre fun c hc => by
      subst hc
      cases hs
    simpa using ih hnext rfl
  | @block opening main rest closing after call body ss' params strip inverse loc hopening hclosing
      hloc hbody hinverse hafter ihbody ihinverse ih
  | @inverseBlock opening main rest closing after call body ss' params strip inverse loc hopening
      hclosing hloc hbody hinverse hplain hafter ihbody ihinverse ih =>
    cases hportion
    simpa using ih (hclosing.behind_cons (pre ++ (opening ++ (main ++ rest)))
      fun _ => Statement.noConfusion) rfl
  | @decoratorBlock opening main closing after call body ss' params loc hopening hclosing hbody
      hafter ihbody ih
  | @partialBlock opening main closing after call body ss' loc hopening hclosing hbody hafter ihbody
      ih =>
    cases hportion
    simpa using ih (hclosing.behind_cons (pre ++ (opening ++ main))
      fun _ => Statement.noConfusion) rfl
  | noInverse | elseSection | chain => cases hportion

end

/-- The body right before the tag that closes the block, at the end of a chain of `{{else if}}`. -/
def Program.lastBody : Program Statement → List Statement
  | ⟨.block ⟨_, _, some next, _, _, _, _⟩ :: _, _, true⟩ => lastBody next
  | ⟨.block ⟨_, program, none, _, _, _, _⟩ :: _, _, true⟩ => program.elim [] (·.body)
  | p => p.body

def endsIndented (body : List Statement) : Prop :=
  ∃ c, body.getLast? = some (.content c) ∧ Text.dropEndIndent c.written ≠ c.written

/-- Which of the tags around and between two sections stand alone on their lines, given whether
the line starts before the first tag and ends after the last one. -/
def tagsAlone (starts ends : Bool) (first second : List Statement) : List Bool :=
  [starts && endsLine false first, startsLine false first.reverse && endsLine false second,
    startsLine false second.reverse && ends]

/-- Two things make tags take lines that they are not alone on, or leave those that they are. The
tags of an inverse block with an `{{else}}` are told to by its sections in the other order, and the
closing tag of a chain by the section after the first `{{else if}}`, while the last section keeps
its indent. Neither is felt if all tags of the inverse block do the same, in either order, and if
the first section of the chain ends like the last one, which has no indent for the closing tag. -/
structure Block.LinesAgree (src : Source) (ts : List Token) (b : Block Statement) : Prop where
  inverse : b.IsInverse ts → ∀ p ∈ b.program, ∀ q ∈ b.inverse, ∃ alone, ∀ x ∈
    tagsAlone (src.startsLine b.loc.start) (src.endsLine b.loc.stop) p.body q.body
      ++ tagsAlone (src.startsLine b.loc.start) (src.endsLine b.loc.stop) q.body p.body, x = alone
  chain : ∀ q ∈ b.inverse, q.chained = true → src.endsLine b.loc.stop = true →
    startsLine false q.firstBody.reverse = startsLine false q.lastBody.reverse
      ∧ (startsLine false q.lastBody.reverse = true → ¬endsIndented q.lastBody)

section

variable {root lead : Bool} {before ss ss' : List Statement} {p p' : Program Statement}

theorem Content.Cut.unindented {c c' : Content} (h : c.Cut .line lead false c')
    (hindent : Text.dropEndIndent c.written = c.written) : c.Cut .line lead true c' := by
  refine ⟨h.written, h.loc, ?_, h.lead, fun _ => rfl⟩
  rw [h.value]
  cases lead with
  | false => exact hindent.symm
  | true =>
    show Text.dropBlankLine c.written = Text.dropEndIndent (Text.dropBlankLine c.written)
    rw [Text.dropEndIndent_dropBlankLine, hindent]

theorem allCut.unindented (h : allCut .line root before lead false ss ss')
    (hindent : ¬endsIndented ss) : allCut .line root before lead true ss ss' := by
  induction ss generalizing ss' before lead with
  | nil => exact h
  | cons s after ih =>
    obtain ⟨s', after', rfl, hs, hafter⟩ := h
    cases after with
    | nil =>
      refine ⟨s', after', rfl, ?_, hafter⟩
      obtain ⟨c, c', rfl, rfl, hc⟩ | ⟨hne, hne'⟩ := hs.content_or
      · exact ⟨c', rfl, hc.unindented (not_not.mp fun hne => hindent ⟨c, rfl, hne⟩)⟩
      · exact hs.other hne _ _
    | cons n more =>
      refine ⟨s', after', rfl, hs, ih hafter fun ⟨c, hc, hne⟩ => hindent ⟨c, ?_, hne⟩⟩
      rw [List.getLast?_cons_cons]
      exact hc

theorem plainCut.unindented {q : Option (Program Statement)}
    (h : plainCut .line lead false (some p) q) (hindent : ¬endsIndented p.body) :
    plainCut .line lead true (some p) q := by
  obtain ⟨body, params, chained⟩ := p
  obtain ⟨p', rfl, hchained, body', rfl, hbody⟩ := h
  exact ⟨_, rfl, hchained, body', rfl, hbody.unindented hindent⟩

theorem Program.Cut.unindented (h : p.Cut .line lead false p')
    (hindent : ¬endsIndented p.lastBody) : p.Cut .line lead true p' := by
  fun_induction Program.lastBody p generalizing p' lead with
  | case1 call program next openStrip inverseStrip closeStrip loc rest params ih =>
    obtain ⟨b, b', params, heq, rfl, hsome, hb⟩ | hplain := h.chain_or
    · cases heq
      obtain ⟨program', inverse', rfl, hprogram, hinverse⟩ := hb
      obtain ⟨p, rfl⟩ := Option.isSome_iff_exists.mp hsome
      obtain ⟨q', rfl, hq⟩ := hinverse
      have hq' : next.Cut .line (inverseStrip.closing || takesElseLine .line (some p) (some next))
          (closeStrip.opening || true) q' := by
        cases hclose : closeStrip.opening <;> rw [hclose] at hq
        · exact ih hq hindent
        · exact hq
      have hb' : Block.Cut .line lead true ⟨call, some p, some next, openStrip, inverseStrip,
          closeStrip, loc⟩ _ := ⟨_, _, rfl, hprogram, _, rfl, hq'⟩
      exact .of_chain rfl hb' params
    · cases hplain.1
  | case2 call program openStrip inverseStrip closeStrip loc rest params =>
    obtain ⟨b, b', params, heq, rfl, hsome, hb⟩ | hplain := h.chain_or
    · cases heq
      obtain ⟨program', inverse', rfl, hprogram, hinverse⟩ := hb
      obtain ⟨p, rfl⟩ := Option.isSome_iff_exists.mp hsome
      have hprogram' : plainCut .line (openStrip.closing || lead) (closeStrip.opening || true)
          (some p) program' := by
        cases hclose : closeStrip.opening <;> rw [hclose] at hprogram
        · exact plainCut.unindented hprogram hindent
        · exact hprogram
      have hb' : Block.Cut .line lead true ⟨call, some p, none, openStrip, inverseStrip,
          closeStrip, loc⟩ _ := ⟨_, _, rfl, hprogram', hinverse⟩
      exact .of_chain rfl hb' params
    · cases hplain.1
  | case3 p hnext hlast =>
    obtain ⟨b, b', params, rfl, rfl, -, -⟩ | hplain := h.chain_or
    · obtain ⟨call, program, _ | next, openStrip, inverseStrip, closeStrip, loc⟩ := b
      · exact (hlast _ _ _ _ _ _ _ _ rfl).elim
      · exact (hnext _ _ _ _ _ _ _ _ _ rfl).elim
    · obtain ⟨body, params, chained⟩ := p
      obtain ⟨rfl, body', rfl, hbody⟩ := hplain
      exact ⟨_, rfl, hbody.unindented hindent⟩

end

section

variable (root : Bool) (before after : List Statement) {s : Statement}

theorem reach_oneTag {symbol : Symbol} (hs : s.IsOneTag symbol {}) :
    (!(reach root false before s after).before.isEmpty)
        = (symbol.takesLine && startsLine root before && endsLine root after)
      ∧ (!(reach root false before s after).after.isEmpty)
        = (symbol.takesLine && startsLine root before && endsLine root after) := by
  cases hs with
  | mustache ho hs =>
    simp only [reach, Statement.outline?, hs]
    obtain rfl | rfl | rfl := ho <;> exact ⟨rfl, rfl⟩
  | decorator hs =>
    simp only [reach, Statement.outline?, hs]
    exact ⟨rfl, rfl⟩
  | comment hs | partialCall hindent hs =>
    simp only [reach, Statement.outline?, hs]
    cases startsLine root before <;> cases endsLine root after <;> exact ⟨rfl, rfl⟩

theorem reach_ofBodies (opened closed : List Statement)
    (ho : s.outline? = some (.ofBodies {} {} opened closed)) :
    (reach root false before s after).opensLine = (startsLine root before && endsLine false opened)
      ∧ (reach root false before s after).closesLine
        = (startsLine false closed.reverse && endsLine root after)
      ∧ (!(reach root false before s after).before.isEmpty)
        = (reach root false before s after).opensLine
      ∧ (!(reach root false before s after).after.isEmpty)
        = (reach root false before s after).closesLine := by
  simp only [reach, ho, Outline.ofBodies]
  refine ⟨Bool.and_comm _ _, rfl, ?_, ?_⟩
  · cases endsLine false opened <;> cases startsLine root before <;> rfl
  · cases startsLine false closed.reverse <;> cases endsLine root after <;> rfl

end

section

variable {ts pre post : List Token} {strip : Strip} {counts : Option Strip}
  {inverse : Option (Program Statement)} {q : Program Statement}

theorem firstBody_plain (h : q.chained = false) : q.firstBody = q.body := by
  unfold Program.firstBody
  split
  · cases h
  · rfl

theorem lastBody_plain (h : q.chained = false) : q.lastBody = q.body := by
  unfold Program.lastBody
  split
  · cases h
  · cases h
  · rfl

theorem Spells.ahead_sections (h : Spells ts (.inverse strip counts inverse))
    (hpost : Ahead false post) : Ahead false (ts ++ post) := by
  cases inverse with
  | none => rwa [h.eq_nil, List.nil_append]
  | some q =>
    obtain ⟨symbol, tag, after, rfl, htag, -⟩ := h.inverse_tag
    rw [List.append_assoc]
    exact htag.ahead _

theorem Spells.behind_last (h : Spells ts (.inverse strip counts (some q))) (pre : List Token) :
    Behind false q.lastBody.reverse (pre ++ ts) := by
  generalize hportion : Portion.inverse strip counts (some q) = portion at h
  induction h generalizing strip counts q pre with
  | @elseSection t main body counts hsymbol hbody =>
    cases hportion
    rw [lastBody_plain rfl]
    have htag : IsTag .elseTag [t] := .elseTag hsymbol
    simpa using hbody.behind (htag.behind_body pre)
  | @chain tag main rest call body params strip inverse loc counts htag hbody hinverse ihbody
      ihinverse =>
    cases hportion
    cases inverse with
    | none =>
      rw [hinverse.eq_nil]
      have hbehind := hbody.behind (htag.behind_body pre)
      simpa [Program.lastBody] using hbehind
    | some next =>
      have hbehind := ihinverse (pre ++ (tag ++ main)) rfl
      simpa [Program.lastBody] using hbehind
  | _ => cases hportion

theorem Spells.unmarked (h : Spells ts (.inverse strip counts inverse))
    (hts : ∀ t ∈ ts, t.markers = {}) : strip = {} :=
  (h.controlled fun _ => hts).1 rfl

end

/-- The texts of a portion that has been trimmed stand among its tokens, and have lost what the
tags next to them take that are alone on their lines. The text before it is told whether the
portion begins with such a tag. -/
def Portion.Lined (src : Source) (all ts : List Token) : Portion → Prop
  | .body ss => ∀ (pre post : List Token) {root : Bool} {before : List Statement}
      {lead trail : Bool} {ss' : List Statement}, all = pre ++ (ts ++ post) →
      allCut .line root before lead trail ss ss' → Behind root before pre → Ahead root post →
      LosesStart (lineSides src) (ts ++ post) pre lead →
      LosesEnd (lineSides src) (pre ++ ts) post trail →
      (∀ b ∈ blocksAll ss, b.LinesAgree src all) →
      LosesEnd (lineSides src) pre (ts ++ post) (takesEnd .line root before trail ss)
        ∧ ∀ c ∈ contentsAll ss', c.Shown .line (lineSides src) pre ts post
  | .inverse _ counts p => ∀ (pre post : List Token) {lead trail : Bool}
      {p' : Option (Program Statement)}, all = pre ++ (ts ++ post) →
      sectionCut .line lead trail p p' →
      (∀ q ∈ p, lead = (lineStart pre.reverse && endsLine false q.firstBody)) →
      (∀ s ∈ counts, s = {}) → Ahead false post →
      LosesEnd (lineSides src) (pre ++ ts) post trail →
      (∀ b ∈ sectionBlocks p, b.LinesAgree src all) →
      LosesEnd (lineSides src) pre (ts ++ post) (if p.isSome then lead else trail)
        ∧ ∀ c ∈ sectionContents p', c.Shown .line (lineSides src) pre ts post

section

variable {src : Source} {all pre post tag main rest : List Token} {symbol : Symbol}
  {body body' : List Statement} {strip : Strip} {counts : Option Strip}
  {inverse inverse' : Option (Program Statement)} {trail : Bool}

theorem Portion.Lined.sections (mid : Bool) (ihmain : Portion.Lined src all main (.body body))
    (ihrest : Portion.Lined src all rest (.inverse strip counts inverse))
    (hmain : Spells main (.body body)) (hrest : Spells rest (.inverse strip counts inverse))
    (htag : IsTag symbol tag) (hall : all = pre ++ (tag ++ (main ++ (rest ++ post))))
    (hfirst : allCut .line false [] (src.alone tag) (if inverse.isSome then mid else trail) body
      body')
    (hmore : sectionCut .line mid trail inverse inverse')
    (hmid : ∀ q ∈ inverse, mid = (startsLine false body.reverse && endsLine false q.firstBody))
    (hcounts : ∀ s ∈ counts, s = {}) (hpost : Ahead false post)
    (hend : LosesEnd (lineSides src) (pre ++ (tag ++ (main ++ rest))) post trail)
    (hagree : ∀ b ∈ blocksAll body, b.LinesAgree src all)
    (hagree' : ∀ b ∈ sectionBlocks inverse, b.LinesAgree src all) :
    ∀ c ∈ contentsAll body' ++ sectionContents inverse',
      c.Shown .line (lineSides src) pre (tag ++ (main ++ rest)) post := by
  have hbehind := hmain.behind (htag.behind_body pre)
  have hline : lineStart (pre ++ (tag ++ main)).reverse = startsLine false body.reverse := by
    rw [← List.append_assoc, hbehind.line, List.append_nil]
  obtain ⟨hends, hrestShown⟩ := ihrest (pre ++ (tag ++ main)) post (by simpa using hall) hmore
    (fun q hq => by rw [hline]; exact hmid q hq) hcounts hpost (by simpa using hend) hagree'
  obtain ⟨-, hmainShown⟩ := ihmain (pre ++ tag) (rest ++ post) (by simpa using hall)
    hfirst (htag.behind_body pre) (hrest.ahead_sections hpost) (.tag htag)
    (by simpa only [List.append_assoc] using hends) hagree
  intro c hc
  obtain hc | hc := List.mem_append.mp hc
  · exact ((hmainShown c hc).append rest).prepend tag
  · simpa only [List.append_assoc] using (hrestShown c hc).prepend (tag ++ main)

theorem lined_noInverse (strip : Strip) (counts : Option Strip) :
    Portion.Lined src all [] (.inverse strip counts none) := by
  intro pre post lead trail p' hall hcut hlead hcounts hpost hend hagree
  obtain rfl := hcut
  rw [List.append_nil] at hend
  exact ⟨hend, by rintro _ ⟨⟩⟩

theorem losesEnd_tag {toks : List Token} {root last : Bool} {s : Statement}
    {before ss : List Statement} (htag : IsTag symbol tag)
    (hopens : (!(reach root false before s ss).before.isEmpty) = src.alone tag) :
    LosesEnd (lineSides src) pre (tag ++ toks) (takesEnd .line root before last (s :: ss)) := by
  rw [takesEnd, Trim.keepsLines, hopens]
  exact .tag htag

theorem Portion.Lined.enclosed (mid : Bool) {opening closing after : List Token} {symbol' : Symbol}
    {root last : Bool} {s : Statement} {before ss ss' : List Statement}
    (ihmain : Portion.Lined src all main (.body body))
    (ihrest : Portion.Lined src all rest (.inverse strip counts inverse))
    (ihafter : Portion.Lined src all after (.body ss)) (hmain : Spells main (.body body))
    (hrest : Spells rest (.inverse strip counts inverse)) (hopening : IsTag symbol opening)
    (hclosing : IsTag symbol' closing)
    (hall : all = pre ++ (opening ++ (main ++ (rest ++ (closing ++ (after ++ post))))))
    (hopens : (!(reach root false before s ss).before.isEmpty) = src.alone opening)
    (hcloses : (!(reach root false before s ss).after.isEmpty) = src.alone closing)
    (hfirst : allCut .line false [] (src.alone opening)
      (if inverse.isSome then mid else src.alone closing) body body')
    (hmore : sectionCut .line mid (src.alone closing) inverse inverse')
    (hmid : ∀ q ∈ inverse, mid = (startsLine false body.reverse && endsLine false q.firstBody))
    (hcounts : ∀ s ∈ counts, s = {}) (hs : ∀ c, s ≠ .content c)
    (hafter : allCut .line root (s :: before) (!(reach root false before s ss).after.isEmpty) last
      ss ss')
    (hpost : Ahead root post)
    (hend : LosesEnd (lineSides src)
      (pre ++ (opening ++ (main ++ (rest ++ (closing ++ after))))) post last)
    (hagree : ∀ b ∈ blocksAll body, b.LinesAgree src all)
    (hagree' : ∀ b ∈ sectionBlocks inverse, b.LinesAgree src all)
    (hagree'' : ∀ b ∈ blocksAll ss, b.LinesAgree src all) :
    LosesEnd (lineSides src) pre (opening ++ (main ++ (rest ++ (closing ++ after))) ++ post)
        (takesEnd .line root before last (s :: ss))
      ∧ ∀ c ∈ contentsAll body' ++ sectionContents inverse' ++ contentsAll ss',
        c.Shown .line (lineSides src) pre
          (opening ++ (main ++ (rest ++ (closing ++ after)))) post := by
  rw [hcloses] at hafter
  refine ⟨?_, fun c hc => ?_⟩
  · rw [List.append_assoc]
    exact losesEnd_tag hopening hopens
  obtain hc | hc := List.mem_append.mp hc
  · have hshown := Portion.Lined.sections mid ihmain ihrest hmain hrest hopening hall hfirst
      hmore hmid hcounts (hclosing.ahead _) (.tag hclosing) hagree hagree' c hc
    rw [← List.append_assoc closing after post] at hshown
    simpa only [List.append_assoc] using hshown.append (closing ++ after)
  · have hbehind : Behind root (s :: before) (pre ++ (opening ++ (main ++ rest)) ++ closing) :=
      hclosing.behind_cons _ hs
    obtain ⟨-, hshown⟩ := ihafter _ post (by simpa using hall) hafter hbehind hpost (.tag hclosing)
      (by simpa only [List.append_assoc] using hend) hagree''
    have hshown' := hshown c hc
    rw [List.append_assoc] at hshown'
    simpa only [List.append_assoc] using
      Content.Shown.prepend (opening ++ (main ++ (rest ++ closing)))
        (by simpa only [List.append_assoc] using hshown')

theorem closes_sections {q : Program Statement} {mid ends : Bool} {q' : Option (Program Statement)}
    (hchain : q.chained = true → ends = true →
      startsLine false q.firstBody.reverse = startsLine false q.lastBody.reverse
        ∧ (startsLine false q.lastBody.reverse = true → ¬endsIndented q.lastBody))
    (hcut : sectionCut .line mid (startsLine false q.firstBody.reverse && ends && !q.chained)
      (some q) q') :
    (startsLine false q.firstBody.reverse && ends) = (startsLine false q.lastBody.reverse && ends)
      ∧ sectionCut .line mid (startsLine false q.lastBody.reverse && ends) (some q) q' := by
  cases hchained : q.chained with
  | false =>
    rw [hchained, Bool.not_false, Bool.and_true, firstBody_plain hchained,
      ← lastBody_plain hchained] at hcut
    exact ⟨by rw [firstBody_plain hchained, lastBody_plain hchained], hcut⟩
  | true =>
    rw [hchained, Bool.not_true, Bool.and_false] at hcut
    cases hends : ends with
    | false => exact ⟨by simp only [Bool.and_false], by rwa [Bool.and_false]⟩
    | true =>
      obtain ⟨heq, hindent⟩ := hchain hchained hends
      refine ⟨by rw [heq], ?_⟩
      cases hstarts : startsLine false q.lastBody.reverse with
      | false => exact hcut
      | true =>
        obtain ⟨p', rfl, hp⟩ := hcut
        exact ⟨p', rfl, hp.unindented (hindent hstarts)⟩

end

section

variable {src : Source} {all ts : List Token}

theorem markers_tag {pre tag post : List Token} (hmarkers : ∀ t ∈ all, t.markers = {})
    (hall : all = pre ++ (tag ++ post)) : markers tag = {} :=
  markers_eq_empty fun t ht => hmarkers t (by
    rw [hall]
    exact List.mem_append_right _ (List.mem_append_left _ ht))

theorem alone_opening {pre opening main after : List Token} {symbol : Symbol} {root : Bool}
    {before body : List Statement} (hopening : IsTag symbol opening)
    (hsymbol : symbol.takesLine = true) (hlines : InLines src all)
    (hall : all = pre ++ (opening ++ (main ++ after))) (hbehind : Behind root before pre)
    (hmain : Spells main (.body body)) (hafter : Ahead false after) :
    src.alone opening = (startsLine root before && endsLine false body) := by
  rw [hopening.alone hlines hall, hsymbol, Bool.true_and, hbehind.line, hmain.ahead hafter]

theorem alone_closing {pre closing after post : List Token} {symbol : Symbol} {root : Bool}
    {last ss : List Statement} (hclosing : IsTag symbol closing)
    (hsymbol : symbol.takesLine = true) (hlines : InLines src all)
    (hall : all = pre ++ (closing ++ (after ++ post))) (hbehind : Behind false last pre)
    (hafter : Spells after (.body ss)) (hahead : Ahead root post) :
    src.alone closing = (startsLine false last && endsLine root ss) := by
  rw [hclosing.alone hlines hall, hsymbol, Bool.true_and, hbehind.line, hafter.ahead hahead]

theorem markers_block {pre opening main rest closing after : List Token} {strip : Strip}
    {counts : Option Strip} {inverse : Option (Program Statement)}
    (hmarkers : ∀ t ∈ all, t.markers = {}) (hrest : Spells rest (.inverse strip counts inverse))
    (hall : all = pre ++ (opening ++ (main ++ (rest ++ (closing ++ after))))) :
    markers opening = {} ∧ strip = {} ∧ markers closing = {} := by
  have hall' : all = pre ++ (opening ++ (main ++ rest)) ++ (closing ++ after) := by
    simpa using hall
  exact ⟨markers_tag hmarkers hall, hrest.unmarked fun t ht => hmarkers t (by simp [hall, ht]),
    markers_tag hmarkers hall'⟩

section

variable {pre post opening main rest closing after : List Token} {symbol symbol' : Symbol}
  {root trail : Bool} {before body body' ss ss' : List Statement} {s : Statement}
  {call : Call Expression} {params : List (List Char)} {counts : Option Strip}
  {q : Program Statement} {q' : Option (Program Statement)} {loc : Location}

theorem Portion.Lined.afterTag {tag : List Token} (hlines : InLines src all)
    (ih : Portion.Lined src all after (.body ss)) (hss : Spells after (.body ss))
    (htag : IsTag symbol tag) (hs : s.IsOneTag symbol {})
    (hall : all = pre ++ (tag ++ (after ++ post))) (hbehind : Behind root before pre)
    (hahead : Ahead root post)
    (hafter : allCut .line root (s :: before) (!(reach root false before s ss).after.isEmpty) trail
      ss ss')
    (hend : LosesEnd (lineSides src) (pre ++ (tag ++ after)) post trail)
    (hagree : ∀ b ∈ blocksAll ss, b.LinesAgree src all) :
    LosesEnd (lineSides src) pre (tag ++ after ++ post) (takesEnd .line root before trail (s :: ss))
      ∧ ∀ c ∈ contentsAll ss', c.Shown .line (lineSides src) pre (tag ++ after) post := by
  have hne (c : Content) : s ≠ .content c := fun hc => by
    subst hc
    cases hs
  have halone : src.alone tag
      = (symbol.takesLine && startsLine root before && endsLine root ss) := by
    rw [htag.alone hlines hall, hbehind.line, hss.ahead hahead]
  obtain ⟨hopens, hcloses⟩ := reach_oneTag root before ss hs
  rw [hcloses, ← halone] at hafter
  obtain ⟨-, hshown⟩ := ih (pre ++ tag) post (by simpa using hall) hafter
    (htag.behind_cons pre hne) hahead (.tag htag) (by rwa [List.append_assoc]) hagree
  refine ⟨?_, fun c hc => (hshown c hc).prepend tag⟩
  rw [List.append_assoc]
  exact losesEnd_tag htag (hopens.trans halone.symm)

theorem Portion.Lined.oneSection (hlines : InLines src all)
    (ihmain : Portion.Lined src all main (.body body))
    (ih : Portion.Lined src all after (.body ss)) (hmain : Spells main (.body body))
    (hss : Spells after (.body ss)) (hopening : IsTag symbol opening)
    (hsymbol : symbol.takesLine = true) (hclosing : IsTag symbol' closing)
    (hsymbol' : symbol'.takesLine = true) (ho : s.outline? = some (.ofBodies {} {} body body))
    (hall : all = pre ++ (opening ++ (main ++ (closing ++ (after ++ post)))))
    (hbehind : Behind root before pre) (hahead : Ahead root post)
    (hfirst : allCut .line false [] (reach root false before s ss).opensLine
      (reach root false before s ss).closesLine body body')
    (hafter : allCut .line root (s :: before) (!(reach root false before s ss).after.isEmpty) trail
      ss ss')
    (hend : LosesEnd (lineSides src) (pre ++ (opening ++ (main ++ (closing ++ after)))) post trail)
    (hagree : ∀ b ∈ blocksAll body, b.LinesAgree src all)
    (hagree' : ∀ b ∈ blocksAll ss, b.LinesAgree src all) :
    LosesEnd (lineSides src) pre (opening ++ (main ++ (closing ++ after)) ++ post)
        (takesEnd .line root before trail (s :: ss))
      ∧ ∀ c ∈ contentsAll body' ++ contentsAll ss',
        c.Shown .line (lineSides src) pre (opening ++ (main ++ (closing ++ after))) post := by
  have hall' : all = pre ++ (opening ++ main) ++ (closing ++ (after ++ post)) := by
    simpa using hall
  have halone := alone_opening hopening hsymbol hlines hall hbehind hmain (hclosing.ahead _)
  have halone' := alone_closing hclosing hsymbol' hlines hall'
    (by simpa using hmain.behind (hopening.behind_body pre)) hss hahead
  obtain ⟨hopens, hcloses, hbefore, hafter'⟩ := reach_ofBodies root before ss body body ho
  rw [hopens, ← halone] at hbefore hfirst
  rw [hcloses, ← halone'] at hafter' hfirst
  have hs (c : Content) : s ≠ .content c := fun hc => by
    rw [hc] at ho
    cases ho
  have hshown :=
    Portion.Lined.enclosed false ihmain (lined_noInverse {} none) ih hmain (.noInverse none)
    hopening hclosing hall hbefore hafter' hfirst rfl (by rintro _ ⟨⟩) (by rintro _ ⟨⟩) hs hafter
    hahead hend hagree (by rintro _ ⟨⟩) hagree'
  simpa only [sectionContents, List.append_nil, List.nil_append] using hshown

theorem Portion.Lined.moreSections (hlines : InLines src all)
    (ihmain : Portion.Lined src all main (.body body))
    (ihrest : Portion.Lined src all rest (.inverse {} counts (some q)))
    (ih : Portion.Lined src all after (.body ss)) (hmain : Spells main (.body body))
    (hrest : Spells rest (.inverse {} counts (some q))) (hss : Spells after (.body ss))
    (hopening : IsTag symbol opening) (hsymbol : symbol.takesLine = true)
    (hclosing : IsTag symbol' closing) (hsymbol' : symbol'.takesLine = true)
    (hstop : ∃ t, closing.getLast? = some t ∧ t.loc.stop = loc.stop)
    (hall : all = pre ++ (opening ++ (main ++ (rest ++ (closing ++ (after ++ post))))))
    (hs : s = .block ⟨call, some ⟨body, params, false⟩, some q, {}, {}, {}, loc⟩)
    (hcounts : ∀ s ∈ counts, s = {}) (hbehind : Behind root before pre) (hahead : Ahead root post)
    (hfirst : allCut .line false [] (reach root false before s ss).opensLine
      (takesElseLine .line (some ⟨body, params, false⟩) (some q)) body body')
    (hmore : sectionCut .line (takesElseLine .line (some ⟨body, params, false⟩) (some q))
      ((reach root false before s ss).closesLine && !q.chained) (some q) q')
    (hafter : allCut .line root (s :: before) (!(reach root false before s ss).after.isEmpty) trail
      ss ss')
    (hend : LosesEnd (lineSides src)
      (pre ++ (opening ++ (main ++ (rest ++ (closing ++ after))))) post trail)
    (hblock : Block.LinesAgree src all
      ⟨call, some ⟨body, params, false⟩, some q, {}, {}, {}, loc⟩)
    (hagree : ∀ b ∈ blocksAll body, b.LinesAgree src all)
    (hagree' : ∀ b ∈ sectionBlocks (some q), b.LinesAgree src all)
    (hagree'' : ∀ b ∈ blocksAll ss, b.LinesAgree src all) :
    LosesEnd (lineSides src) pre (opening ++ (main ++ (rest ++ (closing ++ after))) ++ post)
        (takesEnd .line root before trail (s :: ss))
      ∧ ∀ c ∈ contentsAll body' ++ sectionContents q' ++ contentsAll ss',
        c.Shown .line (lineSides src) pre
          (opening ++ (main ++ (rest ++ (closing ++ after)))) post := by
  have hall' : all = pre ++ (opening ++ (main ++ rest)) ++ (closing ++ (after ++ post)) := by
    simpa using hall
  have halone := alone_opening hopening hsymbol hlines hall hbehind hmain
    (hrest.ahead_sections (hclosing.ahead _))
  have halone' := alone_closing hclosing hsymbol' hlines hall'
    (by simpa using hrest.behind_last (pre ++ (opening ++ main))) hss hahead
  have hends : src.endsLine loc.stop = endsLine root ss :=
    (hclosing.endsLine_eq hlines hall' hstop).trans (hss.ahead hahead)
  obtain ⟨hopens, hcloses, hbefore, hafter'⟩ := reach_ofBodies root before ss (s := s) body
    q.firstBody (by rw [hs]; rfl)
  rw [hopens, ← halone] at hbefore hfirst
  rw [hcloses] at hmore hafter'
  obtain ⟨hsame, hmore⟩ := closes_sections
    (fun hchained hlast => hblock.chain q rfl hchained (hends.trans hlast)) hmore
  rw [hsame, ← halone'] at hafter'
  rw [← halone'] at hmore
  exact Portion.Lined.enclosed _ ihmain ihrest ih hmain hrest hopening hclosing hall hbefore hafter'
    hfirst hmore (fun q' hq' => by cases hq'; rfl) hcounts (by rintro c rfl; cases hs) hafter hahead
    hend hagree hagree' hagree''

theorem Portion.Lined.inverseSections (hlines : InLines src all)
    (ihmain : Portion.Lined src all main (.body body))
    (ihrest : Portion.Lined src all rest (.inverse {} counts (some q)))
    (ih : Portion.Lined src all after (.body ss)) (hmain : Spells main (.body body))
    (hrest : Spells rest (.inverse {} counts (some q))) (hplain : q.chained = false)
    (hss : Spells after (.body ss)) (hopening : IsTag (.opener .inverse) opening)
    (hclosing : IsTag symbol' closing) (hsymbol' : symbol'.takesLine = true)
    (hloc : Encloses opening closing loc)
    (hall : all = pre ++ (opening ++ (main ++ (rest ++ (closing ++ (after ++ post))))))
    (hs : s = .block ⟨call, some q, some ⟨body, params, false⟩, {}, {}, {}, loc⟩)
    (hcounts : ∀ s ∈ counts, s = {}) (hbehind : Behind root before pre) (hahead : Ahead root post)
    (hfirst : allCut .line false [] (takesElseLine .line (some q) (some ⟨body, params, false⟩))
      (reach root false before s ss).closesLine body body')
    (hmore : plainCut .line (reach root false before s ss).opensLine
      (takesElseLine .line (some q) (some ⟨body, params, false⟩)) (some q) q')
    (hafter : allCut .line root (s :: before) (!(reach root false before s ss).after.isEmpty) trail
      ss ss')
    (hend : LosesEnd (lineSides src)
      (pre ++ (opening ++ (main ++ (rest ++ (closing ++ after))))) post trail)
    (hblock : Block.LinesAgree src all
      ⟨call, some q, some ⟨body, params, false⟩, {}, {}, {}, loc⟩)
    (hagree : ∀ b ∈ blocksAll body, b.LinesAgree src all)
    (hagree' : ∀ b ∈ sectionBlocks (some q), b.LinesAgree src all)
    (hagree'' : ∀ b ∈ blocksAll ss, b.LinesAgree src all) :
    LosesEnd (lineSides src) pre (opening ++ (main ++ (rest ++ (closing ++ after))) ++ post)
        (takesEnd .line root before trail (s :: ss))
      ∧ ∀ c ∈ contentsAll body' ++ sectionContents q' ++ contentsAll ss',
        c.Shown .line (lineSides src) pre
          (opening ++ (main ++ (rest ++ (closing ++ after)))) post := by
  have hall' : all = pre ++ (opening ++ (main ++ rest)) ++ (closing ++ (after ++ post)) := by
    simpa using hall
  have halone := alone_opening hopening rfl hlines hall hbehind hmain
    (hrest.ahead_sections (hclosing.ahead _))
  have halone' := alone_closing hclosing hsymbol' hlines hall'
    (by simpa using hrest.behind_last (pre ++ (opening ++ main))) hss hahead
  have hstarts := (hopening.startsLine_eq hlines hall hloc.1).trans hbehind.line
  have hends := (hclosing.endsLine_eq hlines hall' hloc.2).trans (hss.ahead hahead)
  obtain ⟨a, hsame⟩ := hblock.inverse (hall ▸ isInverse_of_tag hopening hloc.1) q rfl _ rfl
  simp only [tagsAlone, hstarts, hends, List.cons_append, List.nil_append,
    List.forall_mem_cons] at hsame
  obtain ⟨hopens', hmid', hcloses', hopens'', hmid, hcloses'', -⟩ := hsame
  obtain ⟨hopens, hcloses, hbefore, hafter'⟩ := reach_ofBodies root before ss (s := s) q.body body
    (by
      rw [hs]
      exact congrArg (fun closed => some (Outline.ofBodies {} {} q.body closed))
        (firstBody_plain (q := ⟨body, params, false⟩) rfl))
  rw [hopens''] at halone
  rw [lastBody_plain hplain, hcloses''] at halone'
  rw [hopens, hopens', ← halone] at hbefore
  rw [hcloses, hcloses', ← halone'] at hafter'
  simp only [hopens, hcloses, takesElseLine, Trim.keepsLines, Bool.not_false, Bool.true_and,
    Block.elseAlone, firstBody_plain, hopens', hcloses', hmid'] at hfirst hmore
  exact Portion.Lined.enclosed a ihmain ihrest ih hmain hrest hopening hclosing hall hbefore hafter'
    (by rwa [halone]) (by rw [halone']; exact sectionCut_of_plainCut hmore)
    (fun q' hq' => by
      cases hq'
      rw [firstBody_plain hplain, hmid]) hcounts (by rintro c rfl; cases hs) hafter hahead hend
    hagree hagree' hagree''

variable {strip : Strip} {inverse : Option (Program Statement)}

theorem Portion.Lined.content {t : Token} {text : List Char} (hsymbol : t.symbol = .content text)
    (ih : Portion.Lined src all after (.body ss)) :
    Portion.Lined src all (t :: after)
      (.body (.content { value := text, written := text, loc := t.loc } :: ss)) := by
  intro pre post root before lead trail ss' hall hcut hbehind hahead hstart hend hagree
  obtain ⟨_, after', rfl, ⟨c', rfl, hc'⟩, hafter'⟩ := hcut
  refine ⟨.text hsymbol, ?_⟩
  have hnext := (Spells.content hsymbol .nil).behind hbehind
  obtain ⟨hends, hshown⟩ := ih (pre ++ [t]) post (by simpa using hall) hafter' hnext hahead
    (.text hsymbol) (by rwa [List.append_assoc]) fun b hb => hagree b (List.mem_append_right _ hb)
  intro c hc
  obtain rfl | hc := List.mem_cons.mp hc
  · exact hc'.shown hsymbol rfl hstart hends
  · exact (hshown c hc).prepend [t]

theorem Portion.Lined.elseSection {t : Token} (ih : Portion.Lined src all main (.body body))
    (hlines : InLines src all) (hsymbol : t.symbol = .elseTag) (hmain : Spells main (.body body)) :
    Portion.Lined src all (t :: main) (.inverse t.strip counts (some ⟨body, [], false⟩)) := by
  intro pre post lead trail p' hall hcut hlead hcounts hahead hend hagree
  obtain ⟨_, rfl, body', rfl, hfirst⟩ := hcut
  have htag : IsTag .elseTag [t] := .elseTag hsymbol
  have hall' : all = pre ++ ([t] ++ (main ++ post)) := hall
  have halone : src.alone [t] = lead := by
    rw [htag.alone hlines hall', hmain.ahead hahead, hlead _ rfl, firstBody_plain rfl]
    rfl
  refine ⟨?_, ?_⟩
  · rw [Option.isSome_some, if_pos rfl, ← halone]
    exact .tag htag
  · rw [if_neg Bool.false_ne_true, ← halone] at hfirst
    have hshown := Portion.Lined.sections false ih (lined_noInverse {} none) hmain (.noInverse none)
      htag (by simpa using hall) hfirst rfl (by rintro _ ⟨⟩) (by rintro _ ⟨⟩) hahead
      (by simpa using hend) hagree (by rintro _ ⟨⟩)
    simpa [sectionContents, Program.contents] using hshown

variable (hlines : InLines src all) (hmarkers : ∀ t ∈ all, t.markers = {})

include hlines hmarkers

theorem Portion.Lined.oneTag {tag : List Token} (ih : Portion.Lined src all after (.body ss))
    (htag : IsTag symbol tag) (hs : s.IsOneTag symbol (markers tag))
    (hafter : Spells after (.body ss)) :
    Portion.Lined src all (tag ++ after) (.body (s :: ss)) := by
  intro pre post root before lead trail ss' hall hcut hbehind hahead hstart hend hagree
  obtain ⟨s', after', rfl, hs', hafter'⟩ := hcut
  rw [List.append_assoc] at hall
  rw [markers_tag hmarkers hall] at hs
  obtain ⟨hends, hshown⟩ := ih.afterTag hlines hafter htag hs hall hbehind hahead hafter' hend
    fun b hb => hagree b (List.mem_append_right _ hb)
  refine ⟨hends, fun c hc => hshown c ?_⟩
  cases hs with
  | mustache ho hs | decorator hs | comment hs =>
    obtain rfl := hs'
    exact hc
  | partialCall hindent hs =>
    obtain ⟨_, rfl⟩ := hs'
    exact hc

theorem Portion.Lined.block (ihmain : Portion.Lined src all main (.body body))
    (ihrest : Portion.Lined src all rest (.inverse strip (some (markers closing)) inverse))
    (ih : Portion.Lined src all after (.body ss)) (hopening : IsTag (.opener .block) opening)
    (hclosing : IsTag (.opener .endBlock) closing) (hloc : Encloses opening closing loc)
    (hmain : Spells main (.body body))
    (hrest : Spells rest (.inverse strip (some (markers closing)) inverse))
    (hafter : Spells after (.body ss)) :
    Portion.Lined src all (opening ++ (main ++ (rest ++ (closing ++ after))))
      (.body (.block ⟨call, some ⟨body, params, false⟩, inverse, markers opening, strip,
        markers closing, loc⟩ :: ss)) := by
  intro pre post root before lead trail ss' hall hcut hbehind hahead hstart hend hagree
  obtain ⟨_, after', rfl, ⟨_, rfl, _, inverse', rfl, ⟨_, rfl, -, body', rfl, hfirst⟩, hmore⟩,
    hafter'⟩ := hcut
  simp only [List.append_assoc] at hall
  obtain ⟨hopen, rfl, hclose⟩ := markers_block hmarkers hrest hall
  simp only [blocksAll, Statement.blocks, sectionBlocks, Program.blocks, Bool.false_eq_true,
    ↓reduceIte, List.forall_mem_append, List.forall_mem_cons] at hagree
  obtain ⟨⟨hblock, hagree, hagree'⟩, hagree''⟩ := hagree
  simp only [hopen, hclose, Bool.false_or, Trim.keepsLines, Statement.endsChain,
    chainedSection] at hfirst hmore hafter' hblock hrest ihrest ⊢
  cases inverse with
  | none =>
    obtain rfl := hrest.eq_nil
    obtain rfl := hmore
    simp only [Bool.not_false, Bool.and_true, List.nil_append] at hfirst hall hend ⊢
    obtain ⟨hends, hshown⟩ := ihmain.oneSection hlines ih hmain hafter hopening rfl hclosing rfl
      rfl hall hbehind hahead hfirst hafter' hend hagree hagree''
    exact ⟨hends, by simpa [contentsAll, Statement.contents, sectionContents, Program.contents]
      using hshown⟩
  | some q =>
    exact ihmain.moreSections hlines ihrest ih hmain hrest hafter hopening rfl hclosing rfl
      hloc.2 hall rfl (by rintro _ ⟨⟩; rfl) hbehind hahead hfirst hmore hafter' hend hblock
      hagree hagree' hagree''

theorem Portion.Lined.inverseBlock (ihmain : Portion.Lined src all main (.body body))
    (ihrest : Portion.Lined src all rest (.inverse strip (some (markers closing)) inverse))
    (ih : Portion.Lined src all after (.body ss)) (hopening : IsTag (.opener .inverse) opening)
    (hclosing : IsTag (.opener .endBlock) closing) (hloc : Encloses opening closing loc)
    (hmain : Spells main (.body body))
    (hrest : Spells rest (.inverse strip (some (markers closing)) inverse))
    (hplain : ∀ p ∈ inverse, p.chained = false) (hafter : Spells after (.body ss)) :
    Portion.Lined src all (opening ++ (main ++ (rest ++ (closing ++ after))))
      (.body (.block ⟨call, inverse, some ⟨body, params, false⟩, markers opening, strip,
        markers closing, loc⟩ :: ss)) := by
  intro pre post root before lead trail ss' hall hcut hbehind hahead hstart hend hagree
  obtain ⟨_, after', rfl, ⟨_, rfl, program', inverse', rfl, hprogram, hinverse⟩, hafter'⟩ := hcut
  simp only [List.append_assoc] at hall
  obtain ⟨hopen, rfl, hclose⟩ := markers_block hmarkers hrest hall
  simp only [blocksAll, Statement.blocks, sectionBlocks, Program.blocks, Bool.false_eq_true,
    ↓reduceIte, List.forall_mem_append, List.forall_mem_cons] at hagree
  obtain ⟨⟨hblock, hagree', hagree⟩, hagree''⟩ := hagree
  simp only [hopen, hclose, Bool.false_or, Trim.keepsLines, Statement.endsChain, chainedSection,
    Bool.not_false, Bool.and_true] at hprogram hinverse hafter' hblock hrest ihrest ⊢
  cases inverse with
  | none =>
    obtain rfl := hrest.eq_nil
    obtain rfl := hprogram
    obtain ⟨_, rfl, -, body', rfl, hfirst⟩ := hinverse
    simp only [List.nil_append] at hall hend ⊢
    obtain ⟨hends, hshown⟩ := ihmain.oneSection hlines ih hmain hafter hopening rfl hclosing rfl
      rfl hall hbehind hahead hfirst hafter' hend hagree hagree''
    exact ⟨hends, by simpa [contentsAll, Statement.contents, sectionContents, Program.contents]
      using hshown⟩
  | some q =>
    obtain ⟨_, rfl, body', rfl, hfirst⟩ := hinverse
    obtain ⟨hends, hshown⟩ := ihmain.inverseSections hlines ihrest ih hmain hrest (hplain q rfl)
      hafter hopening hclosing rfl hloc hall rfl (by rintro _ ⟨⟩; rfl) hbehind hahead hfirst
      hprogram hafter' hend hblock hagree hagree' hagree''
    refine ⟨hends, fun c hc => hshown c ?_⟩
    simp only [contentsAll, Statement.contents, sectionContents, Program.contents,
      List.mem_append] at hc ⊢
    exact hc.imp_left Or.symm

theorem Portion.Lined.decoratorBlock (ihmain : Portion.Lined src all main (.body body))
    (ih : Portion.Lined src all after (.body ss))
    (hopening : IsTag (.opener .decoratorBlock) opening)
    (hclosing : IsTag (.opener .endBlock) closing) (hmain : Spells main (.body body))
    (hafter : Spells after (.body ss)) :
    Portion.Lined src all (opening ++ (main ++ (closing ++ after)))
      (.body (.decoratorBlock ⟨call, some ⟨body, params, false⟩, none, markers opening, {},
        markers closing, loc⟩ :: ss)) := by
  intro pre post root before lead trail ss' hall hcut hbehind hahead hstart hend hagree
  obtain ⟨_, after', rfl, ⟨_, rfl, _, _, rfl, ⟨_, rfl, -, body', rfl, hfirst⟩, rfl⟩, hafter'⟩ :=
    hcut
  simp only [List.append_assoc] at hall
  obtain ⟨hopen, -, hclose⟩ := markers_block hmarkers (.noInverse none) hall
  simp only [blocksAll, Statement.blocks, sectionBlocks, Program.blocks, Bool.false_eq_true,
    ↓reduceIte, List.append_nil, List.forall_mem_append] at hagree
  simp only [hopen, hclose, Bool.false_or, Trim.keepsLines, Statement.endsChain, chainedSection,
    Bool.not_false, Bool.and_true] at hfirst hafter' ⊢
  obtain ⟨hends, hshown⟩ := ihmain.oneSection hlines ih hmain hafter hopening rfl hclosing rfl
    rfl hall hbehind hahead hfirst hafter' hend hagree.1 hagree.2
  exact ⟨hends, by simpa [contentsAll, Statement.contents, sectionContents, Program.contents]
    using hshown⟩

theorem Portion.Lined.partialBlock (ihmain : Portion.Lined src all main (.body body))
    (ih : Portion.Lined src all after (.body ss)) (hopening : IsTag (.opener .partialBlock) opening)
    (hclosing : IsTag (.opener .endBlock) closing) (hmain : Spells main (.body body))
    (hafter : Spells after (.body ss)) :
    Portion.Lined src all (opening ++ (main ++ (closing ++ after)))
      (.body (.partialBlock ⟨call, ⟨body, [], false⟩, markers opening, markers closing, loc⟩ :: ss))
      := by
  intro pre post root before lead trail ss' hall hcut hbehind hahead hstart hend hagree
  obtain ⟨_, after', rfl, ⟨_, rfl, -, body', rfl, hfirst⟩, hafter'⟩ := hcut
  simp only [List.append_assoc] at hall
  obtain ⟨hopen, -, hclose⟩ := markers_block hmarkers (.noInverse none) hall
  simp only [blocksAll, Statement.blocks, Program.blocks, Bool.false_eq_true, ↓reduceIte,
    List.forall_mem_append] at hagree
  simp only [hopen, hclose, Bool.false_or, Trim.keepsLines, Statement.endsChain, Bool.not_false,
    Bool.and_true] at hfirst hafter' ⊢
  obtain ⟨hends, hshown⟩ := ihmain.oneSection hlines ih hmain hafter hopening rfl hclosing rfl
    rfl hall hbehind hahead hfirst hafter' hend hagree.1 hagree.2
  exact ⟨hends, by simpa [contentsAll, Statement.contents, sectionContents, Program.contents]
    using hshown⟩

theorem Portion.Lined.chain {tag : List Token} (ihmain : Portion.Lined src all main (.body body))
    (ihrest : Portion.Lined src all rest (.inverse strip none inverse))
    (htag : IsTag (.opener .elseChain) tag) (hmain : Spells main (.body body))
    (hrest : Spells rest (.inverse strip none inverse)) :
    Portion.Lined src all (tag ++ (main ++ rest)) (.inverse (markers tag) counts
      (some ⟨[.block ⟨call, some ⟨body, params, false⟩, inverse, markers tag, strip,
        counts.getD strip, loc⟩], [], true⟩)) := by
  intro pre post lead trail p' hall hcut hlead hcounts hahead hend hagree
  obtain ⟨_, rfl, _, rfl, -, _, rfl, _, rfl, _, inverse', rfl, ⟨_, rfl, -, body', rfl, hfirst⟩,
    hmore⟩ := hcut
  simp only [List.append_assoc] at hall
  have hstrip : strip = {} := hrest.unmarked fun t ht => hmarkers t (by simp [hall, ht])
  have hclose : counts.getD {} = {} := by
    cases counts with
    | none => rfl
    | some s => exact hcounts s rfl
  have halone : src.alone tag = lead := by
    rw [htag.alone hlines hall, hmain.ahead (hrest.ahead_sections hahead), hlead _ rfl]
    rfl
  simp only [markers_tag hmarkers hall, hclose, hstrip, Bool.false_or, ← halone] at hfirst hmore
  simp only [sectionBlocks, Program.blocks, blocksAll, Statement.blocks, ↓reduceIte,
    List.append_nil, List.tail_cons, List.forall_mem_append] at hagree
  refine ⟨?_, ?_⟩
  · rw [Option.isSome_some, if_pos rfl, ← halone, List.append_assoc]
    exact .tag htag
  · have hshown := Portion.Lined.sections _ ihmain ihrest hmain hrest htag hall hfirst hmore
      (fun q hq => by cases hq; rfl) (by rintro _ ⟨⟩) hahead hend hagree.1 hagree.2
    simpa [sectionContents, Program.contents, contentsAll, Statement.contents] using hshown

end

theorem Spells.lined {portion : Portion} (h : Spells ts portion) (hlines : InLines src all)
    (hmarkers : ∀ t ∈ all, t.markers = {}) : portion.Lined src all ts := by
  induction h with
  | nil =>
    intro pre post root before lead trail ss' hall hcut hbehind hahead hstart hend hagree
    obtain rfl := hcut
    rw [List.append_nil] at hend
    exact ⟨hend, by rintro _ ⟨⟩⟩
  | content hsymbol _ ih => exact ih.content hsymbol
  | oneTag htag hs hafter ih => exact ih.oneTag hlines hmarkers htag hs hafter
  | block hopening hclosing hloc hmain hrest hafter ihmain ihrest ih =>
    exact ihmain.block hlines hmarkers ihrest ih hopening hclosing hloc hmain hrest hafter
  | inverseBlock hopening hclosing hloc hmain hrest hplain hafter ihmain ihrest ih =>
    exact ihmain.inverseBlock hlines hmarkers ihrest ih hopening hclosing hloc hmain hrest hplain
      hafter
  | decoratorBlock hopening hclosing hmain hafter ihmain ih =>
    exact ihmain.decoratorBlock hlines hmarkers ih hopening hclosing hmain hafter
  | partialBlock hopening hclosing hmain hafter ihmain ih =>
    exact ihmain.partialBlock hlines hmarkers ih hopening hclosing hmain hafter
  | noInverse counts => exact lined_noInverse _ _
  | elseSection _ hsymbol hmain ih => exact ih.elseSection hlines hsymbol hmain
  | chain _ htag hmain hrest ihmain ihrest =>
    exact ihmain.chain hlines hmarkers ihrest htag hmain hrest

end

/-- In a template without markers each text loses a blank line at its start if the tag before it
stands alone on its line, and the indent at its end if the tag after it does. -/
theorem parse_lines {src : Source} {ts : List Token} {written : Program Statement}
    (hscan : scan src.text = .ok ts) (hwritten : parseWritten src.text = .ok written)
    (hmarkers : ∀ t ∈ ts, t.markers = {}) (hagree : ∀ b ∈ written.blocks, b.LinesAgree src ts) :
    ∃ program, parse src.text false = .ok program ∧ ∀ c ∈ program.contents,
      ∃ before token after lead trail, ts = before ++ token :: after
        ∧ token.symbol = .content c.written ∧ token.loc = c.loc
        ∧ LosesStart (lineSides src) (token :: after) before lead
        ∧ LosesEnd (lineSides src) (before ++ [token]) after trail
        ∧ c.value
          = applyIf trail Text.dropEndIndent (applyIf lead Text.dropBlankLine c.written) := by
  obtain ⟨toks, rest, body, hscan', hend, hspells, rfl⟩ := parseWritten_spelled hwritten
  obtain rfl : toks ++ rest = ts := Except.ok.inj (hscan'.symm.trans hscan)
  refine ⟨Program.control false ⟨body, [], false⟩, by rw [parse, hwritten]; rfl, fun c hc => ?_⟩
  have hlines : InLines src (toks ++ rest) := fun pre post t hall =>
    scan_inLine src.name (hall ▸ hscan)
  have hcut := hspells.control_cut (t := .line) fun _ t ht =>
    hmarkers t (List.mem_append_left _ ht)
  have hahead : Ahead true rest := by
    refine ⟨?_, decide_eq_true hend⟩
    cases rest with
    | nil => rfl
    | cons t rest =>
      have hend' : t.symbol = .endOfInput := hend
      simp only [lineEnd, hend']
  obtain ⟨-, hshown⟩ := hspells.lined hlines hmarkers [] rest rfl hcut ⟨rfl, rfl⟩ hahead .first
    (.last hend) hagree
  obtain ⟨before, token, after, lead, trail, rfl, hsymbol, hloc, hstart, hend, hvalue⟩ :=
    hshown c hc
  exact ⟨before, token, after ++ rest, lead, trail, by simp, hsymbol, hloc, hstart, hend, hvalue⟩

/-- An inverse block whose tags all stand alone. -/
theorem parse_lines_inverse :
    ∃ (src : Source) (ts : List Token) (program : Program Statement),
      src.text = "{{^x}}\na\n{{else}}\nb\n{{/x}}".toList
        ∧ scan src.text = .ok ts ∧ parse src.text false = .ok program ∧ ∀ c ∈ program.contents,
          ∃ before token after lead trail, ts = before ++ token :: after
            ∧ token.symbol = .content c.written ∧ token.loc = c.loc
            ∧ LosesStart (lineSides src) (token :: after) before lead
            ∧ LosesEnd (lineSides src) (before ++ [token]) after trail
            ∧ c.value
              = applyIf trail Text.dropEndIndent (applyIf lead Text.dropBlankLine c.written) := by
  let src : Source := ⟨"{{^x}}\na\n{{else}}\nb\n{{/x}}".toList, none⟩
  have hscan : scan src.text = .ok
      [.onLine (.opener .inverse) 0 3, .onLine (.name ['x'] false) 3 4, .onLine .close 4 6,
        { symbol := .content "\na\n".toList, loc := ⟨⟨1, 6⟩, ⟨3, 0⟩⟩ },
        { symbol := .elseTag, loc := ⟨⟨3, 0⟩, ⟨3, 8⟩⟩ },
        { symbol := .content "\nb\n".toList, loc := ⟨⟨3, 8⟩, ⟨5, 0⟩⟩ },
        { symbol := .opener .endBlock, loc := ⟨⟨5, 0⟩, ⟨5, 3⟩⟩ },
        { symbol := .name ['x'] false, loc := ⟨⟨5, 3⟩, ⟨5, 4⟩⟩ },
        { symbol := .close, loc := ⟨⟨5, 4⟩, ⟨5, 6⟩⟩ },
        { symbol := .endOfInput, loc := ⟨⟨5, 6⟩, ⟨5, 6⟩⟩ }] := by decide +kernel
  have hwritten := parseWritten_of_tokens hscan (by cbv)
  obtain ⟨program, hparse, hcontents⟩ := parse_lines hscan hwritten (by decide) fun b hb => by
    obtain rfl := List.mem_singleton.mp hb
    refine ⟨fun _ p hp q hq => ⟨true, ?_⟩, fun q hq hchained => ?_⟩
    · cases hp
      cases hq
      decide +kernel
    · cases hq
      cases hchained
  exact ⟨src, _, program, rfl, hscan, hparse, hcontents⟩

/-- The tag of an inverse block that is alone on its line leaves the rest of that line, since the
text after its `{{else}}` begins on that one's line. -/
theorem inverse_line_left :
    ∃ (src : Source) (program : Program Statement),
      src.text = "{{^x}}\na{{else}}b{{/x}}".toList
        ∧ src.startsLine ⟨1, 0⟩ = true ∧ src.endsLine ⟨1, 6⟩ = true
        ∧ parse src.text false = .ok program
        ∧ program.contents.map (·.value) = [['b'], ['\n', 'a']] := by
  have hscan : scan "{{^x}}\na{{else}}b{{/x}}".toList = .ok
      [.onLine (.opener .inverse) 0 3, .onLine (.name ['x'] false) 3 4, .onLine .close 4 6,
        { symbol := .content "\na".toList, loc := ⟨⟨1, 6⟩, ⟨2, 1⟩⟩ },
        { symbol := .elseTag, loc := ⟨⟨2, 1⟩, ⟨2, 9⟩⟩ },
        { symbol := .content ['b'], loc := ⟨⟨2, 9⟩, ⟨2, 10⟩⟩ },
        { symbol := .opener .endBlock, loc := ⟨⟨2, 10⟩, ⟨2, 13⟩⟩ },
        { symbol := .name ['x'] false, loc := ⟨⟨2, 13⟩, ⟨2, 14⟩⟩ },
        { symbol := .close, loc := ⟨⟨2, 14⟩, ⟨2, 16⟩⟩ },
        { symbol := .endOfInput, loc := ⟨⟨2, 16⟩, ⟨2, 16⟩⟩ }] := by decide +kernel
  have hparse := parse_of_tokens false hscan (by cbv)
  exact ⟨⟨_, none⟩, _, rfl, by decide +kernel, by decide +kernel, hparse, rfl⟩

end Mustache
end HtmlTemplate
