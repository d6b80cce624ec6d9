import HtmlTemplate.Proofs.Evaluation
import HtmlTemplate.Proofs.Neighbours
import Mathlib.Data.List.Permutation

/-! Whitespace control where lines are kept. Every text is trimmed exactly where the tag next to
it has a marker on that side, in templates whose inverse blocks and chains have markers that
agree. -/

namespace HtmlTemplate.Mustache

mutual

/-- Whether the tag that is taken to close a block, or one of those in the chain that it ends
with, has a marker on its left. -/
def Statement.marksEnd : Statement → Bool
  | .block ⟨_, _, inverse, _, _, closeStrip, _⟩ => closeStrip.opening || sectionMarksEnd inverse
  | .decoratorBlock _ => false
  | .partialBlock _ => false
  | .mustache _ => false
  | .decorator _ => false
  | .content _ => false
  | .comment _ => false
  | .partialCall _ => false

def anyMarksEnd : List Statement → Bool
  | [] => false
  | s :: ss => s.marksEnd || anyMarksEnd ss

def Program.marksEnd : Program Statement → Bool
  | ⟨body, _, chained⟩ => chained && anyMarksEnd body

def sectionMarksEnd : Option (Program Statement) → Bool
  | none => false
  | some p => Program.marksEnd p

end

/-- Two things make markers count for texts that they are not next to. The sections of an inverse
block with an `{{else}}` are trimmed by each other's tags, and the last section of a chain by the
tags after the second `{{else if}}` as well. Neither is felt where the markers agree. -/
structure Block.MarkersAgree (ts : List Token) (b : Block Statement) : Prop where
  inverse : b.IsInverse ts → b.program.isSome = true →
    b.openStrip.closing = b.inverseStrip.closing ∧ b.inverseStrip.opening = b.closeStrip.opening
  chain : sectionMarksEnd b.inverse = true → b.closeStrip.opening = true

/-- With lines kept, a tag trims the texts next to it by its markers. -/
def markerSides : Sides := fun _ tag _ => markers tag

variable {ts : List Token} {root trail : Bool} {before pre post : List Token}

theorem reach_all {before : List Statement} {s : Statement} {after : List Statement} {o : Outline}
    (ho : s.outline? = some o) :
    (!(reach root true before s after).before.isEmpty) = o.strip.opening
      ∧ (!(reach root true before s after).after.isEmpty) = o.strip.closing := by
  obtain ⟨⟨opening, closing⟩, inline, opens, closes⟩ := o
  simp only [reach, ho, Bool.not_true, Bool.false_and, Bool.or_self, Bool.false_eq_true, ↓reduceIte,
    List.append_nil]
  cases opening <;> cases closing <;> exact ⟨rfl, rfl⟩

theorem reach_all_after {before : List Statement} {s : Statement} {after : List Statement}
    {closing : Bool} (h : s.outline?.map (·.strip.closing) = some closing) :
    (!(reach root true before s after).after.isEmpty) = closing := by
  obtain ⟨o, ho, rfl⟩ := Option.map_eq_some_iff.mp h
  exact (reach_all ho).2

@[simp] theorem takesElseLine_all (p q : Option (Program Statement)) :
    takesElseLine .all p q = false := by
  cases p <;> cases q <;> rfl

theorem allCut_cons {s : Statement} {ss ss' before : List Statement} {lead : Bool}
    (h : allCut .all root before lead trail (s :: ss) ss') :
    ∃ s' after', ss' = s' :: after'
      ∧ s.Cut .all lead (takesEnd .all root (s :: before) trail ss) false false s'
      ∧ allCut .all root (s :: before)
          (!(reach root true before s ss).after.isEmpty) trail ss after' := by
  obtain ⟨s', after', rfl, hs, hafter⟩ := h
  rw [(reach_keepsLines root before s ss).1, (reach_keepsLines root before s ss).2,
    Bool.false_and] at hs
  exact ⟨s', after', rfl, hs, hafter⟩

theorem sectionMarksEnd_plain {p : Program Statement} (h : p.chained = false) :
    sectionMarksEnd (some p) = false := by
  obtain ⟨body, params, chained⟩ := p
  obtain rfl : chained = false := h
  rfl

theorem losesEnd_takesEnd {ss before' : List Statement} (h : Spells ts (.body ss))
    (hend : ts = [] → LosesEnd markerSides before post trail) :
    LosesEnd markerSides before (ts ++ post) (takesEnd .all root before' trail ss) := by
  cases ss with
  | nil =>
    cases h
    exact hend rfl
  | cons s ss =>
    by_cases hcontent : ∃ c, s = .content c
    · obtain ⟨c, rfl⟩ := hcontent
      cases h with
      | content hsymbol hafter => exact .text hsymbol
      | oneTag htag hs hafter => cases hs
    · obtain ⟨o, symbol, tag, after, ho, htag, rfl, hopening⟩ :=
        h.first_tag fun c hc => hcontent ⟨c, hc⟩
      rw [takesEnd, Trim.keepsLines, (reach_all ho).1, hopening, List.append_assoc]
      exact .tag htag

def Portion.Shown (ts : List Token) : Portion → Prop
  | .body ss => ∀ (pre post : List Token) {root : Bool} {before : List Statement}
      {lead trail : Bool} {ss' : List Statement},
      allCut .all root before lead trail ss ss' →
      LosesStart markerSides (ts ++ post) pre lead → LosesEnd markerSides (pre ++ ts) post trail →
      (∀ b ∈ blocksAll ss, b.MarkersAgree (pre ++ (ts ++ post))) →
      ∀ c ∈ contentsAll ss', c.Shown .all markerSides pre ts post
  | .inverse strip _ p => ∀ (pre post : List Token) {trail : Bool}
      {p' : Option (Program Statement)},
      sectionCut .all strip.closing trail p p' → LosesEnd markerSides (pre ++ ts) post trail →
      (sectionMarksEnd p = true → trail = true) →
      (∀ b ∈ sectionBlocks p, b.MarkersAgree (pre ++ (ts ++ post))) →
      ∀ c ∈ sectionContents p', c.Shown .all markerSides pre ts post

theorem Portion.Shown.after_tag {body body' : List Statement} (h : Portion.Shown ts (.body body))
    {symbol : Symbol} {tag : List Token} (htag : IsTag symbol tag) (post : List Token)
    (hcut : allCut .all false [] (markers tag).closing trail body body')
    (hend : LosesEnd markerSides (pre ++ (tag ++ ts)) post trail)
    (hagree : ∀ b ∈ blocksAll body, b.MarkersAgree (pre ++ (tag ++ (ts ++ post)))) :
    ∀ c ∈ contentsAll body', c.Shown .all markerSides (pre ++ tag) ts post := by
  refine h _ _ hcut (.tag htag) ?_ ?_
  · rwa [List.append_assoc]
  · simpa only [List.append_assoc] using hagree

theorem Portion.Shown.rest {ss ss' before : List Statement} {tag : List Token} {symbol : Symbol}
    {lead : Bool} (h : Portion.Shown ts (.body ss)) (seg : List Token) (htag : IsTag symbol tag)
    (hcut : allCut .all root before lead trail ss ss') (hlead : lead = (markers tag).closing)
    (hend : LosesEnd markerSides (pre ++ (seg ++ (tag ++ ts))) post trail)
    (hagree : ∀ b ∈ blocksAll ss, b.MarkersAgree (pre ++ (seg ++ (tag ++ (ts ++ post))))) :
    ∀ c ∈ contentsAll ss', c.Shown .all markerSides pre (seg ++ (tag ++ ts)) post := by
  subst hlead
  intro c hc
  have hstart : LosesStart markerSides (ts ++ post) (pre ++ seg ++ tag) (markers tag).closing :=
    .tag htag
  have hshown := h (pre ++ seg ++ tag) post hcut hstart
    (by simpa only [List.append_assoc] using hend)
    (by simpa only [List.append_assoc] using hagree) c hc
  exact (hshown.prepend tag).prepend seg

theorem losesEnd_section {rest : List Token} {strip : Strip} {counts : Option Strip}
    {inverse : Option (Program Statement)} (h : Spells rest (.inverse strip counts inverse))
    (hend : rest = [] → LosesEnd markerSides before post trail) :
    LosesEnd markerSides before (rest ++ post)
      (if inverse.isSome then strip.opening else trail) := by
  cases inverse with
  | none =>
    rw [h.eq_nil]
    exact hend h.eq_nil
  | some p =>
    obtain ⟨symbol, tag, more, rfl, htag, rfl⟩ := h.inverse_tag
    rw [List.append_assoc]
    exact .tag htag

section

variable {opening main rest closing after : List Token} {body body' : List Statement}
  {strip : Strip} {counts : Option Strip} {inverse inverse' : Option (Program Statement)}
  {symbol symbol' : Symbol} {lead : Bool} {c : Content}

theorem Portion.Shown.firstSection (h : Portion.Shown main (.body body))
    (hopening : IsTag symbol opening) (rest : List Token)
    (hinverse : Spells rest (.inverse strip counts inverse)) (hclosing : IsTag symbol' closing)
    (hcut : allCut .all false [] lead trail body body') (hlead : lead = (markers opening).closing)
    (htrail : trail = if inverse.isSome then strip.opening else (markers closing).opening)
    (hagree : ∀ b ∈ blocksAll body,
      b.MarkersAgree (pre ++ (opening ++ (main ++ (rest ++ (closing ++ (after ++ post)))))))
    (hc : c ∈ contentsAll body') :
    c.Shown .all markerSides pre (opening ++ (main ++ (rest ++ (closing ++ after)))) post := by
  subst hlead htrail
  have hshown := h.after_tag hopening (rest ++ (closing ++ (after ++ post))) hcut
    (losesEnd_section hinverse fun _ => .tag hclosing) hagree c hc
  exact (Content.Shown.append (rest ++ (closing ++ after))
    (by simpa only [List.append_assoc] using hshown)).prepend opening

theorem Portion.Shown.moreSections (h : Portion.Shown rest (.inverse strip counts inverse))
    (hclosing : IsTag symbol closing) (hcut : sectionCut .all lead trail inverse inverse')
    (hlead : lead = strip.closing) (htrail : trail = (markers closing).opening)
    (hchain : sectionMarksEnd inverse = true → (markers closing).opening = true)
    (hagree : ∀ b ∈ sectionBlocks inverse,
      b.MarkersAgree (pre ++ (opening ++ (main ++ (rest ++ (closing ++ (after ++ post)))))))
    (hc : c ∈ sectionContents inverse') :
    c.Shown .all markerSides pre (opening ++ (main ++ (rest ++ (closing ++ after)))) post := by
  subst hlead htrail
  have hshown := h (pre ++ (opening ++ main)) (closing ++ (after ++ post)) hcut
    (.tag hclosing) hchain (by simpa only [List.append_assoc] using hagree) c hc
  have hshown' := (Content.Shown.append (closing ++ after)
    (by simpa only [List.append_assoc] using hshown)).prepend (opening ++ main)
  simpa only [List.append_assoc] using hshown'

theorem Portion.Shown.afterBlock {s : Statement} {before ss ss' : List Statement}
    (h : Portion.Shown after (.body ss)) (rest : List Token) (hclosing : IsTag symbol closing)
    (hs : s.outline?.map (·.strip.closing) = some (markers closing).closing)
    (hcut : allCut .all root (s :: before) (!(reach root true before s ss).after.isEmpty) trail
      ss ss')
    (hend : LosesEnd markerSides
      (pre ++ (opening ++ (main ++ (rest ++ (closing ++ after))))) post trail)
    (hagree : ∀ b ∈ blocksAll ss,
      b.MarkersAgree (pre ++ (opening ++ (main ++ (rest ++ (closing ++ (after ++ post)))))))
    (hc : c ∈ contentsAll ss') :
    c.Shown .all markerSides pre (opening ++ (main ++ (rest ++ (closing ++ after)))) post := by
  have hshown := h.rest (opening ++ (main ++ rest)) hclosing hcut (reach_all_after hs)
    (by simpa only [List.append_assoc] using hend)
    (by simpa only [List.append_assoc] using hagree) c hc
  simpa only [List.append_assoc] using hshown

theorem Portion.Shown.oneSection {s : Statement} {before ss ss' : List Statement}
    (hbody : Portion.Shown main (.body body)) (h : Portion.Shown after (.body ss))
    (hopening : IsTag symbol opening) (hclosing : IsTag symbol' closing)
    (hs : s.outline?.map (·.strip.closing) = some (markers closing).closing)
    (hfirst : allCut .all false [] (markers opening).closing (markers closing).opening body body')
    (hcut : allCut .all root (s :: before) (!(reach root true before s ss).after.isEmpty) trail
      ss ss')
    (hend : LosesEnd markerSides (pre ++ (opening ++ (main ++ (closing ++ after)))) post trail)
    (hagree : ∀ b ∈ blocksAll body ++ blocksAll ss,
      b.MarkersAgree (pre ++ (opening ++ (main ++ (closing ++ (after ++ post))))))
    (hc : c ∈ contentsAll body' ++ contentsAll ss') :
    c.Shown .all markerSides pre (opening ++ (main ++ (closing ++ after))) post := by
  obtain ⟨hmain, hagree⟩ := List.forall_mem_append.mp hagree
  obtain hc | hc := List.mem_append.mp hc
  · exact hbody.firstSection hopening [] (.noInverse none) hclosing hfirst rfl rfl hmain hc
  · exact h.afterBlock [] hclosing hs hcut hend hagree hc

variable {call : Call Expression} {params : List (List Char)} {loc : Location}

theorem Portion.Shown.content {t : Token} {text : List Char} {ss : List Statement}
    (ih : Portion.Shown after (.body ss)) (hsymbol : t.symbol = .content text)
    (hafter : Spells after (.body ss)) :
    Portion.Shown (t :: after)
      (.body (.content { value := text, written := text, loc := t.loc } :: ss)) := by
  intro pre post root before lead trail ss' hcut hstart hend hagree c hc
  obtain ⟨_, after', rfl, ⟨c', rfl, hc'⟩, hafter'⟩ := hcut
  obtain rfl | hc := List.mem_cons.mp hc
  · refine hc'.shown hsymbol rfl hstart (losesEnd_takesEnd hafter fun hnil => ?_)
    rwa [hnil] at hend
  · have hshown := ih (pre ++ [t]) post hafter' (.text hsymbol)
      (by rwa [List.append_assoc]) (fun b hb => by simpa using hagree b hb) c hc
    exact hshown.prepend [t]

theorem Portion.Shown.oneTag {tag : List Token} {s : Statement} {ss : List Statement}
    (ih : Portion.Shown after (.body ss)) (htag : IsTag symbol tag)
    (hs : s.IsOneTag symbol (markers tag)) : Portion.Shown (tag ++ after) (.body (s :: ss)) := by
  intro pre post root before lead trail ss' hcut hstart hend hagree c hc
  obtain ⟨s', after', rfl, hs', hafter'⟩ := allCut_cons hcut
  have hagree' (b : Block Statement) (hb : b ∈ blocksAll ss) :=
    hagree b (List.mem_append_right _ hb)
  rw [List.append_assoc] at hagree'
  have hrest (hclosing : s.outline?.map (·.strip.closing) = some (markers tag).closing) :=
    ih.rest [] htag hafter' (reach_all_after hclosing) hend hagree' c
  cases hs with
  | mustache ho hs | decorator hs | comment hs =>
    obtain rfl := hs'
    exact hrest (congrArg (fun s : Strip => some s.closing) hs) hc
  | partialCall hindent hs =>
    obtain ⟨_, rfl⟩ := hs'
    exact hrest (congrArg (fun s : Strip => some s.closing) hs) hc

theorem Portion.Shown.block {ss : List Statement} (ihbody : Portion.Shown main (.body body))
    (ihinverse : Portion.Shown rest (.inverse strip (some (markers closing)) inverse))
    (ih : Portion.Shown after (.body ss)) (hopening : IsTag (.opener .block) opening)
    (hclosing : IsTag (.opener .endBlock) closing)
    (hinverse : Spells rest (.inverse strip (some (markers closing)) inverse)) :
    Portion.Shown (opening ++ (main ++ (rest ++ (closing ++ after))))
      (.body (.block ⟨call, some ⟨body, params, false⟩, inverse, markers opening, strip,
        markers closing, loc⟩ :: ss)) := by
  intro pre post root before lead trail ss' hcut hstart hend hagree c hc
  obtain ⟨_, after', rfl, ⟨_, rfl, _, inverse', rfl, ⟨_, rfl, -, body', rfl, hbody'⟩, hinverse'⟩,
    hafter'⟩ := allCut_cons hcut
  simp only [takesElseLine_all, Bool.or_false] at hbody' hinverse'
  simp only [List.append_assoc] at hagree hend
  simp only [blocksAll, Statement.blocks, sectionBlocks, Program.blocks, Bool.false_eq_true,
    ↓reduceIte, List.forall_mem_append, List.forall_mem_cons] at hagree
  obtain ⟨⟨hblock, hmain, hrest⟩, hagree⟩ := hagree
  simp only [contentsAll, Statement.contents, sectionContents, Program.contents,
    List.mem_append] at hc
  obtain (hc | hc) | hc := hc
  · exact ihbody.firstSection hopening rest hinverse hclosing hbody' rfl rfl hmain hc
  · exact ihinverse.moreSections hclosing hinverse' rfl rfl hblock.chain hrest hc
  · exact ih.afterBlock rest hclosing rfl hafter' hend hagree hc

theorem Portion.Shown.inverseBlock {ss : List Statement}
    (ihbody : Portion.Shown main (.body body))
    (ihinverse : Portion.Shown rest (.inverse strip (some (markers closing)) inverse))
    (ih : Portion.Shown after (.body ss)) (hopening : IsTag (.opener .inverse) opening)
    (hclosing : IsTag (.opener .endBlock) closing) (hloc : Encloses opening closing loc)
    (hinverse : Spells rest (.inverse strip (some (markers closing)) inverse))
    (hplain : ∀ p ∈ inverse, p.chained = false) :
    Portion.Shown (opening ++ (main ++ (rest ++ (closing ++ after))))
      (.body (.block ⟨call, inverse, some ⟨body, params, false⟩, markers opening, strip,
        markers closing, loc⟩ :: ss)) := by
  intro pre post root before lead trail ss' hcut hstart hend hagree c hc
  obtain ⟨_, after', rfl, ⟨_, rfl, program', inverse', rfl, hprogram', hinverse'⟩, hafter'⟩ :=
    allCut_cons hcut
  simp only [takesElseLine_all, Bool.or_false] at hprogram' hinverse'
  simp only [List.append_assoc] at hagree hend
  simp only [blocksAll, Statement.blocks, sectionBlocks, Program.blocks, Bool.false_eq_true,
    ↓reduceIte, List.forall_mem_append, List.forall_mem_cons] at hagree
  obtain ⟨⟨hblock, hrest, hmain⟩, hagree⟩ := hagree
  simp only [contentsAll, Statement.contents, List.mem_append] at hc
  obtain hc | hc := hc
  · cases inverse with
    | none =>
      obtain rfl := hprogram'
      obtain ⟨_, rfl, -, body', rfl, hbody'⟩ := hinverse'
      simp only [sectionContents, Program.contents, List.not_mem_nil, false_or] at hc
      exact ihbody.firstSection hopening rest hinverse hclosing hbody' rfl rfl hmain hc
    | some q =>
      obtain ⟨_, rfl, body', rfl, hbody'⟩ := hinverse'
      obtain ⟨hopen, hclose⟩ := hblock.inverse (isInverse_of_tag hopening hloc.1) rfl
      have hchain : sectionMarksEnd (some q) = true → (markers closing).opening = true := by
        rw [sectionMarksEnd_plain (hplain q rfl)]
        rintro ⟨⟩
      obtain hc | hc := hc
      · exact ihinverse.moreSections hclosing (sectionCut_of_plainCut hprogram') hopen hclose
          hchain hrest hc
      · exact ihbody.firstSection hopening rest hinverse hclosing hbody' hopen.symm hclose.symm
          hmain hc
  · exact ih.afterBlock rest hclosing rfl hafter' hend hagree hc

theorem Portion.Shown.decoratorBlock {ss : List Statement}
    (ihbody : Portion.Shown main (.body body)) (ih : Portion.Shown after (.body ss))
    (hopening : IsTag (.opener .decoratorBlock) opening)
    (hclosing : IsTag (.opener .endBlock) closing) :
    Portion.Shown (opening ++ (main ++ (closing ++ after)))
      (.body (.decoratorBlock ⟨call, some ⟨body, params, false⟩, none, markers opening, {},
        markers closing, loc⟩ :: ss)) := by
  intro pre post root before lead trail ss' hcut hstart hend hagree c hc
  obtain ⟨_, after', rfl, ⟨_, rfl, _, _, rfl, ⟨_, rfl, -, body', rfl, hbody'⟩, rfl⟩, hafter'⟩ :=
    allCut_cons hcut
  simp only [Bool.or_false] at hbody'
  simp only [List.append_assoc] at hagree hend
  simp only [blocksAll, Statement.blocks, sectionBlocks, Program.blocks, Bool.false_eq_true,
    ↓reduceIte, List.append_nil] at hagree
  simp only [contentsAll, Statement.contents, sectionContents, Program.contents,
    List.append_nil] at hc
  exact ihbody.oneSection ih hopening hclosing rfl hbody' hafter' hend hagree hc

theorem Portion.Shown.partialBlock {ss : List Statement}
    (ihbody : Portion.Shown main (.body body)) (ih : Portion.Shown after (.body ss))
    (hopening : IsTag (.opener .partialBlock) opening)
    (hclosing : IsTag (.opener .endBlock) closing) :
    Portion.Shown (opening ++ (main ++ (closing ++ after)))
      (.body (.partialBlock ⟨call, ⟨body, [], false⟩, markers opening, markers closing, loc⟩ :: ss))
      := by
  intro pre post root before lead trail ss' hcut hstart hend hagree c hc
  obtain ⟨_, after', rfl, ⟨_, rfl, -, body', rfl, hbody'⟩, hafter'⟩ := allCut_cons hcut
  simp only [Bool.or_false] at hbody'
  simp only [List.append_assoc] at hagree hend
  simp only [blocksAll, Statement.blocks, Program.blocks, Bool.false_eq_true, ↓reduceIte]
    at hagree
  simp only [contentsAll, Statement.contents, Program.contents] at hc
  exact ihbody.oneSection ih hopening hclosing rfl hbody' hafter' hend hagree hc

theorem Portion.Shown.elseSection {t : Token} (ih : Portion.Shown main (.body body))
    (hsymbol : t.symbol = .elseTag) :
    Portion.Shown (t :: main) (.inverse t.strip counts (some ⟨body, [], false⟩)) := by
  intro pre post trail p' hcut hend hlast hagree c hc
  obtain ⟨_, rfl, body', rfl, hbody'⟩ := hcut
  have htag : IsTag .elseTag [t] := .elseTag hsymbol
  have hstrip : t.strip.closing = (markers [t]).closing := by
    simp only [markers, List.getLast?_singleton, Option.any_some, Token.markers, hsymbol]
  rw [if_neg Bool.false_ne_true, hstrip] at hbody'
  exact (ih.after_tag htag post hbody' hend hagree c hc).prepend [t]

theorem Portion.Shown.chain {tag : List Token} (ihbody : Portion.Shown main (.body body))
    (ihinverse : Portion.Shown rest (.inverse strip none inverse))
    (htag : IsTag (.opener .elseChain) tag) (hinverse : Spells rest (.inverse strip none inverse)) :
    Portion.Shown (tag ++ (main ++ rest)) (.inverse (markers tag) counts
      (some ⟨[.block ⟨call, some ⟨body, params, false⟩, inverse, markers tag, strip,
        counts.getD strip, loc⟩], [], true⟩)) := by
  intro pre post trail p' hcut hend hlast hagree c hc
  obtain ⟨_, rfl, _, rfl, -, _, rfl, _, rfl, _, inverse', rfl, ⟨_, rfl, -, body', rfl, hbody'⟩,
    hinverse'⟩ := hcut
  simp only [sectionMarksEnd, Program.marksEnd, anyMarksEnd, Statement.marksEnd, Bool.true_and,
    Bool.or_false, Bool.or_eq_true] at hlast
  have htrail : ((counts.getD strip).opening || trail) = trail := by
    cases hmarked : (counts.getD strip).opening with
    | false => rfl
    | true => rw [hlast (.inl hmarked), Bool.or_self]
  simp only [takesElseLine_all, Bool.or_false, Bool.or_self, htrail] at hbody' hinverse'
  simp only [sectionBlocks, Program.blocks, blocksAll, Statement.blocks, ↓reduceIte,
    List.tail_cons, List.append_nil, List.append_assoc, List.forall_mem_append] at hagree
  simp only [sectionContents, Program.contents, contentsAll, Statement.contents, List.append_nil,
    List.mem_append] at hc
  obtain hc | hc := hc
  · have hshown := ihbody.after_tag htag (rest ++ post) hbody'
      (losesEnd_section hinverse fun hnil => by simpa [hnil] using hend)
      (by simpa only [Bool.false_eq_true, ↓reduceIte] using hagree.1) c hc
    exact (hshown.append rest).prepend tag
  · have hshown := ihinverse (pre ++ (tag ++ main)) post hinverse'
      (by simpa only [List.append_assoc] using hend) (fun h => hlast (.inr h))
      (by simpa only [List.append_assoc] using hagree.2) c hc
    simpa only [List.append_assoc] using hshown.prepend (tag ++ main)

end

theorem Spells.shown {portion : Portion} (h : Spells ts portion) : portion.Shown ts := by
  induction h with
  | nil =>
    intro pre post root before lead trail ss' hcut hstart hend hagree c hc
    obtain rfl := hcut
    cases hc
  | content hsymbol hafter ih => exact ih.content hsymbol hafter
  | oneTag htag hs _ ih => exact ih.oneTag htag hs
  | block hopening hclosing _ _ hinverse _ ihbody ihinverse ih =>
    exact ihbody.block ihinverse ih hopening hclosing hinverse
  | inverseBlock hopening hclosing hloc _ hinverse hplain _ ihbody ihinverse ih =>
    exact ihbody.inverseBlock ihinverse ih hopening hclosing hloc hinverse hplain
  | decoratorBlock hopening hclosing _ _ ihbody ih =>
    exact ihbody.decoratorBlock ih hopening hclosing
  | partialBlock hopening hclosing _ _ ihbody ih => exact ihbody.partialBlock ih hopening hclosing
  | noInverse closing =>
    intro pre post trail p' hcut hend hlast hagree c hc
    obtain rfl := hcut
    cases hc
  | elseSection _ hsymbol _ ih => exact ih.elseSection hsymbol
  | chain _ htag _ hinverse ihbody ihinverse => exact ihbody.chain ihinverse htag hinverse

/-- Where lines are kept, each text of a template loses the blanks at its start if the tag before
it has a marker on its right, and those at its end if the tag after it has one on its left. -/
theorem parse_trimmed {text : List Char} {ts : List Token} {written : Program Statement}
    (hscan : scan text = .ok ts) (hwritten : parseWritten text = .ok written)
    (hagree : ∀ b ∈ written.blocks, b.MarkersAgree ts) :
    ∃ program, parse text true = .ok program ∧ ∀ c ∈ program.contents,
      ∃ before token after lead trail, ts = before ++ token :: after
        ∧ token.symbol = .content c.written ∧ token.loc = c.loc
        ∧ LosesStart markerSides (token :: after) before lead
        ∧ LosesEnd markerSides (before ++ [token]) after trail
        ∧ c.value = applyIf trail Text.trimEnd (applyIf lead Text.trimStart c.written) := by
  obtain ⟨toks, rest, body, hscan', hend, hspells, rfl⟩ := parseWritten_spelled hwritten
  obtain rfl : toks ++ rest = ts := Except.ok.inj (hscan'.symm.trans hscan)
  refine ⟨Program.control true ⟨body, [], false⟩, by rw [parse, hwritten]; rfl, fun c hc => ?_⟩
  have hcut := hspells.control_cut (t := .all) (by rintro ⟨⟩)
  have hshown := hspells.shown [] rest hcut .first (.last hend) hagree c hc
  obtain ⟨before, token, after, lead, trail, rfl, hsymbol, hloc, hstart, hend, hvalue⟩ := hshown
  exact ⟨before, token, after ++ rest, lead, trail, by simp, hsymbol, hloc, hstart, hend, hvalue⟩

/-- An inverse block whose markers agree. -/
theorem parse_trimmed_inverse :
    ∃ (text : List Char) (ts : List Token) (program : Program Statement),
      text = "{{^x~}} a{{else~}} b{{/x}}".toList
      ∧ scan text = .ok ts ∧ parse text true = .ok program ∧ ∀ c ∈ program.contents,
        ∃ before token after lead trail, ts = before ++ token :: after
          ∧ token.symbol = .content c.written ∧ token.loc = c.loc
          ∧ LosesStart markerSides (token :: after) before lead
          ∧ LosesEnd markerSides (before ++ [token]) after trail
          ∧ c.value = applyIf trail Text.trimEnd (applyIf lead Text.trimStart c.written) := by
  have hscan : scan "{{^x~}} a{{else~}} b{{/x}}".toList = .ok
      [.onLine (.opener .inverse) 0 3, .onLine (.name ['x'] false) 3 4,
        .onLine .close 4 7 ⟨false, true⟩, .onLine (.content " a".toList) 7 9,
        .onLine .elseTag 9 18 ⟨false, true⟩, .onLine (.content " b".toList) 18 20,
        .onLine (.opener .endBlock) 20 23, .onLine (.name ['x'] false) 23 24, .onLine .close 24 26,
        .onLine .endOfInput 26 26] := by decide +kernel
  have hwritten := parseWritten_of_tokens hscan (by cbv)
  obtain ⟨program, hparse, hcontents⟩ := parse_trimmed hscan hwritten fun b hb => by
    obtain rfl := List.mem_singleton.mp hb
    exact ⟨fun _ _ => ⟨rfl, rfl⟩, by rintro ⟨⟩⟩
  exact ⟨_, _, program, rfl, hscan, hparse, hcontents⟩

/-- The marker after the name of an inverse block trims the text after its `{{else}}`. -/
theorem inverse_marker_misplaced :
    ∃ (text : List Char) (program : Program Statement),
      text = "{{^x~}} a{{else}} b{{/x}}".toList
      ∧ parse text true = .ok program
      ∧ program.contents.map (·.written) = [[' ', 'b'], [' ', 'a']]
      ∧ program.contents.map (·.value) = [['b'], [' ', 'a']] := by
  have hscan : scan "{{^x~}} a{{else}} b{{/x}}".toList = .ok
      [.onLine (.opener .inverse) 0 3, .onLine (.name ['x'] false) 3 4,
        .onLine .close 4 7 ⟨false, true⟩, .onLine (.content " a".toList) 7 9,
        .onLine .elseTag 9 17, .onLine (.content " b".toList) 17 19,
        .onLine (.opener .endBlock) 19 22, .onLine (.name ['x'] false) 22 23, .onLine .close 23 25,
        .onLine .endOfInput 25 25] := by decide +kernel
  have hparse := parse_of_tokens true hscan (by cbv)
  exact ⟨_, _, rfl, hparse, rfl, rfl⟩

end HtmlTemplate.Mustache
