import HtmlTemplate.Proofs.Modes
import HtmlTemplate.Proofs.RawText
import HtmlTemplate.Proofs.Steps

/-! Raw elements as they are read. What stands in one is reported character by character as it is
written, whatever tags, comments and references it looks like, up to the first end tag of the
element's own name. -/

namespace HtmlTemplate.Html

def Tokenizer.Leads (t : Tokenizer) (cs more : List Char) (es : List Event) (t' : Tokenizer) :
    Prop :=
  (t.feed (cs ++ more)).1.map (·.event) = es ++ (t'.feed more).1.map (·.event)
    ∧ (t.feed (cs ++ more)).2 = (t'.feed more).2

namespace Tokenizer.Leads

variable {t t' t'' : Tokenizer} {c : Char} {cs ds more : List Char} {es fs : List Event}

theorem nil (t : Tokenizer) (more : List Char) : t.Leads [] more [] t := ⟨rfl, rfl⟩

theorem trans (h : t.Leads cs (ds ++ more) es t') (h' : t'.Leads ds more fs t'') :
    t.Leads (cs ++ ds) more (es ++ fs) t'' := by
  obtain ⟨hevents, hlast⟩ := h
  obtain ⟨hevents', hlast'⟩ := h'
  rw [Leads, List.append_assoc, List.append_assoc]
  exact ⟨by rw [hevents, hevents'], hlast.trans hlast'⟩

theorem one (hahead : (t.step c more).ahead = 0) (hevents : (t.step c more).events = es)
    (hnow : (t.step c more).now = t') : t.Leads [c] more es t' := by
  have hfeed := t.events_feed_cons c more
  rw [hahead, hnow, List.drop_zero] at hfeed
  rwa [← hevents]

theorem cons (h : t.Leads [c] (cs ++ more) es t') (h' : t'.Leads cs more fs t'') :
    t.Leads (c :: cs) more (es ++ fs) t'' :=
  h.trans h'

theorem feed_eq (h : t.Leads cs [] es t') :
    (t.feed cs).1.map (·.event) = es ∧ (t.feed cs).2 = t' := by
  simpa [Leads] using h

end Tokenizer.Leads

open Tokenizer (Leads)

section
variable {mode : Mode} {name cs more : List Char} {c : Char} {p start : Position}

def TagKind.opened : TagKind → State
  | .start => .tagOpen
  | .stop => .endTagOpen

def TagKind.begun : TagKind → Position → Event
  | .start => .beginStartTag
  | .stop => .beginEndTag

def TagKind.kept : TagKind → List Char → List Char
  | .start, name => name
  | .stop, _ => []

private theorem leads_name (k : TagKind) (hname : ∀ c ∈ cs, isSpace c = false ∧ c ≠ '/' ∧ c ≠ '>')
    (before : List Char) :
    Leads ⟨mode, k.naming, p, start, before⟩ cs more (cs.map .tagName)
      ⟨mode, k.naming, p.after cs, start, before ++ cs⟩ := by
  induction cs generalizing before p with
  | nil => simpa using Leads.nil _ more
  | cons c cs ih =>
    obtain ⟨⟨hspace, hslash, hgt⟩, hcs⟩ := List.forall_mem_cons.mp hname
    have hfirst : Leads ⟨mode, k.naming, p, start, before⟩ [c] (cs ++ more) [.tagName c]
        ⟨mode, k.naming, p.next c, start, before ++ [c]⟩ := by
      cases k
      all_goals
        apply Leads.one
        all_goals
          simp [TagKind.naming, Tokenizer.step, Step.tagName, Step.endTagName, hspace, hslash, hgt,
            Step.read, Step.growName, Step.emit, Step.events]
    simpa using hfirst.cons (ih hcs (before ++ [c]))

theorem leads_named (k : TagKind) (hname : RawName name) (before : List Char) :
    Leads ⟨mode, k.opened, p, start, before⟩ (name ++ ['>']) more
      (k.begun start :: name.map .tagName ++ [.finishTag (p.after (name ++ ['>']))])
      ⟨mode, .beforeData, p.after (name ++ ['>']), start, k.kept name⟩ := by
  obtain ⟨c, cs, rfl⟩ := List.exists_cons_of_ne_nil hname.nonempty
  obtain ⟨⟨hstarts, -, hslash, -⟩, hcs⟩ := List.forall_mem_cons.mp hname.chars
  have hmark : c ≠ '!' := by
    rintro rfl
    exact absurd hstarts (by decide)
  have hfirst (rest : List Char) : Leads ⟨mode, k.opened, p, start, before⟩ [c] rest
      [k.begun start, .tagName c] ⟨mode, k.naming, p.next c, start, [c]⟩ := by
    cases k
    all_goals
      apply Leads.one
      all_goals
        simp [TagKind.opened, TagKind.naming, TagKind.begun, Tokenizer.step, Step.tagOpen,
          Step.endTagOpen, hmark, hslash, hstarts, Step.read, Step.become, Step.forgetName,
          Step.growName, Step.emit, Step.events]
  have hgrow : Leads ⟨mode, k.naming, p.next c, start, [c]⟩ cs (['>'] ++ more) (cs.map .tagName)
      ⟨mode, k.naming, (p.next c).after cs, start, [c] ++ cs⟩ :=
    leads_name k (fun c hc => (hcs c hc).2) [c]
  have hclose (q : Position) : Leads ⟨mode, k.naming, q, start, c :: cs⟩ ['>'] more
      [.finishTag (q.next '>')] ⟨mode, .beforeData, q.next '>', start, k.kept (c :: cs)⟩ := by
    cases k
    all_goals
      apply Leads.one
      all_goals
        simp [TagKind.naming, TagKind.kept, Tokenizer.step, Step.tagName, Step.endTagName, isSpace,
          Step.read, Step.become, Step.forgetName, Step.closeTag, Step.emitHere, Step.emit,
          Step.events]
  simpa [Position.after_append] using (hfirst _).cons (hgrow.trans (hclose _))

theorem leads_startTag (hname : RawName name) {before : List Char}
    (hbefore : before ∉ rawElements) :
    Leads ⟨mode, .beforeData, p, start, before⟩ ('<' :: name ++ ['>']) more
      (.beginStartTag p :: name.map .tagName ++ [.finishTag (p.after ('<' :: name ++ ['>']))])
      ⟨mode, .beforeData, p.after ('<' :: name ++ ['>']), p, name⟩ := by
  have hopen (rest : List Char) : Leads ⟨mode, .beforeData, p, start, before⟩ ['<'] rest []
      ⟨mode, .tagOpen, p.next '<', p, before⟩ := by
    have hstep : Tokenizer.step ⟨mode, .beforeData, p, start, before⟩ '<' rest = _ :=
      Step.beforeData_bracket _ _ hbefore
    apply Leads.one
    all_goals rw [hstep]; rfl
  exact (hopen _).cons (leads_named .start hname before)

theorem leads_endTag (hraw : name ∈ rawElements) :
    Leads ⟨mode, .data, p, start, name⟩ (endTag name) more
      (.finishData p
        :: (.beginEndTag p :: name.map .tagName ++ [.finishTag (p.after (endTag name))]))
      ⟨mode, .beforeData, p.after (endTag name), p, []⟩ := by
  have hopen (rest : List Char) (hrest : endTag name <+: '<' :: rest) :
      Leads ⟨mode, .data, p, start, name⟩ ['<'] rest [.finishData p]
        ⟨mode, .tagOpen, p.next '<', p, name⟩ := by
    have hends : (endTag name).isPrefixOf ('<' :: rest) = true :=
      List.isPrefixOf_iff_prefix.mpr hrest
    apply Leads.one
    all_goals
      simp [Tokenizer.step, Step.data, Step.isRawText, hends, Step.read, Step.become, Step.openTag,
        Step.emitHere, Step.emit, Step.events]
  have hslash (rest : List Char) : Leads ⟨mode, .tagOpen, p.next '<', p, name⟩ ['/'] rest []
      ⟨mode, TagKind.stop.opened, (p.next '<').next '/', p, name⟩ := by
    apply Leads.one
    all_goals
      simp [TagKind.opened, Tokenizer.step, Step.tagOpen, Step.read, Step.become, Step.events]
  exact (hopen _ (List.prefix_append (endTag name) more)).cons
    ((hslash _).cons (leads_named .stop (rawName hraw) name))

def Keeps (mode : Mode) (name : List Char) : Prop :=
  name ∈ verbatimElements ∨ mode = .codemod ∧ name ∈ rawElements

theorem Keeps.raw (h : Keeps mode name) : name ∈ rawElements := by
  have hsubset : ∀ name ∈ verbatimElements, name ∈ rawElements := by decide
  exact h.elim (hsubset name) And.right

theorem Keeps.data (h : Keeps mode name) {s : Step} (hmode : s.now.mode = mode)
    (hname : s.now.tagName = name) (hends : ¬ endTag name <+: c :: cs) :
    s.data c cs = (s.read c).emit (.data [c]) := by
  have hprefix : (endTag name).isPrefixOf (c :: cs) = false :=
    Bool.eq_false_iff.mpr fun hends' => hends (List.isPrefixOf_iff_prefix.mp hends')
  unfold Step.data
  rw [if_neg (by simp [Step.isRawText, hname, h.raw, hprefix]), hname]
  rcases h with hverbatim | ⟨rfl, -⟩
  · rw [if_pos (by simpa using hverbatim)]
  · rw [Step.decode_codemod (s := s.read c) hmode]
    split <;> rfl

theorem Keeps.beforeData (h : Keeps mode name) {s : Step} (hmode : s.now.mode = mode)
    (hname : s.now.tagName = name) (hends : ¬ endTag name <+: c :: cs) :
    s.beforeData c cs = (((s.become .data).emitHere .beginData).read c).emit (.data [c]) := by
  have hprefix : (endTag name).isPrefixOf (c :: cs) = false :=
    Bool.eq_false_iff.mpr fun hends' => hends (List.isPrefixOf_iff_prefix.mp hends')
  unfold Step.beforeData
  rw [if_neg (by simp [Step.isRawText, hname, h.raw, hprefix]),
    if_neg (by simp [hname, (rawName h.raw).preformatted])]
  exact h.data hmode hname hends

theorem not_isPrefix_endTag (hname : RawName name) (h : ¬ endTag name <:+: c :: cs)
    (more : List Char) : ¬ endTag name <+: c :: cs ++ (endTag name ++ more) := by
  intro hends
  rcases List.prefix_or_prefix_of_prefix hends (List.prefix_append (c :: cs) _) with hin | ⟨u, hu⟩
  · exact h hin.isInfix
  cases u with
  | nil =>
    rw [List.append_nil] at hu
    exact h (hu ▸ List.infix_rfl)
  | cons d u =>
    -- What is left over of the tag would start with a `<` of its own.
    have hrest : d :: u <+: endTag name ++ more :=
      (List.prefix_append_right_inj (c :: cs)).mp (hu.symm ▸ hends)
    obtain ⟨rfl, -⟩ := List.cons_prefix_cons.mp hrest
    have htail : cs ++ '<' :: u = '/' :: name ++ ['>'] := (List.cons.inj hu).2
    have hmem : '<' ∈ '/' :: name ++ ['>'] := by
      rw [← htail]
      simp
    have hbracket : '<' ∈ name := by simpa using hmem
    exact absurd (hname.chars _ hbracket).1 (by decide)

private theorem leads_text (h : Keeps mode name) (hcs : ¬ endTag name <:+: cs) :
    Leads ⟨mode, .data, p, start, name⟩ cs (endTag name ++ more) (cs.map fun c => .data [c])
      ⟨mode, .data, p.after cs, start, name⟩ := by
  induction cs generalizing p with
  | nil => exact Leads.nil _ _
  | cons c cs ih =>
    have hstep : Tokenizer.step ⟨mode, .data, p, start, name⟩ c (cs ++ (endTag name ++ more)) = _ :=
      h.data rfl rfl (not_isPrefix_endTag (rawName h.raw) hcs more)
    have hfirst : Leads ⟨mode, .data, p, start, name⟩ [c] (cs ++ (endTag name ++ more)) [.data [c]]
        ⟨mode, .data, p.next c, start, name⟩ := by
      apply Leads.one
      all_goals rw [hstep]; rfl
    exact hfirst.cons (ih fun hin => hcs (hin.trans (List.suffix_cons c cs).isInfix))

private theorem leads_rawText (h : Keeps mode name) (hcs : ¬ endTag name <:+: c :: cs) :
    Leads ⟨mode, .beforeData, p, start, name⟩ (c :: cs) (endTag name ++ more)
      (.beginData p :: (c :: cs).map fun c => .data [c])
      ⟨mode, .data, p.after (c :: cs), start, name⟩ := by
  have hstep : Tokenizer.step ⟨mode, .beforeData, p, start, name⟩ c (cs ++ (endTag name ++ more))
      = _ := h.beforeData rfl rfl (not_isPrefix_endTag (rawName h.raw) hcs more)
  have hfirst : Leads ⟨mode, .beforeData, p, start, name⟩ [c] (cs ++ (endTag name ++ more))
      [.beginData p, .data [c]] ⟨mode, .data, p.next c, start, name⟩ := by
    apply Leads.one
    all_goals rw [hstep]; rfl
  exact hfirst.cons (leads_text h fun hin => hcs (hin.trans (List.suffix_cons c cs).isInfix))

theorem Keeps.of_name (h : name = "script".toList ∨ name = "style".toList
    ∨ name = "title".toList ∧ mode = .codemod) : Keeps mode name := by
  rcases h with rfl | rfl | ⟨rfl, rfl⟩
  · exact .inl (by decide)
  · exact .inl (by decide)
  · exact .inr ⟨rfl, by decide⟩

/-- A fresh machine reports an element of raw text as one start tag, one run of text with every
character of it as it is written, and one end tag, and keeps no name. -/
theorem feed_rawElement
    (hname : name = "script".toList ∨ name = "style".toList
      ∨ name = "title".toList ∧ mode = .codemod)
    (hcs : cs ≠ []) (hends : ¬ endTag name <:+: cs) :
    let p₁ := Position.first.after ('<' :: name ++ ['>'])
    let p₂ := p₁.after cs
    let p₃ := p₂.after (endTag name)
    let read := ({ mode } : Tokenizer).feed ('<' :: name ++ ['>'] ++ cs ++ endTag name)
    read.1.map (·.event)
        = (.beginStartTag .first :: name.map .tagName ++ [.finishTag p₁])
          ++ (.beginData p₁ :: (cs.map fun c => .data [c]) ++ [.finishData p₂])
          ++ (.beginEndTag p₂ :: name.map .tagName ++ [.finishTag p₃])
      ∧ read.2 = { mode, state := .beforeData, position := p₃, tagStart := p₂, tagName := [] } := by
  intro p₁ p₂ p₃ read
  have hkeeps := Keeps.of_name hname
  obtain ⟨c, cs, rfl⟩ := List.exists_cons_of_ne_nil hcs
  have hread : Leads { mode } ('<' :: name ++ ['>'] ++ (c :: cs) ++ endTag name) [] _ _ :=
    ((leads_startTag (rawName hkeeps.raw) (by decide)).trans (leads_rawText hkeeps hends)).trans
      (leads_endTag hkeeps.raw)
  obtain ⟨hevents, hlast⟩ := hread.feed_eq
  refine ⟨hevents.trans ?_, hlast⟩
  simp only [List.append_assoc, List.cons_append, List.nil_append]
  rfl

/-- A script with a reference, the start of a comment, other tags and what is almost its own end
tag. -/
theorem feed_rawElement_script :
    let cs := "a<b &amp; <!-- </scrip></br></script >".toList
    let name := "script".toList
    let p₁ := Position.first.after ('<' :: name ++ ['>'])
    let p₂ := p₁.after cs
    let p₃ := p₂.after (endTag name)
    let read := ({} : Tokenizer).feed ('<' :: name ++ ['>'] ++ cs ++ endTag name)
    cs ≠ [] ∧ ¬ endTag name <:+: cs ∧ p₁ = ⟨1, 8⟩ ∧ p₂ = ⟨1, 46⟩ ∧ p₃ = ⟨1, 55⟩
      ∧ read.1.map (·.event)
        = (.beginStartTag .first :: name.map .tagName ++ [.finishTag p₁])
          ++ (.beginData p₁ :: (cs.map fun c => .data [c]) ++ [.finishData p₂])
          ++ (.beginEndTag p₂ :: name.map .tagName ++ [.finishTag p₃])
      ∧ read.2 = { position := p₃, tagStart := p₂ } := by
  intro cs name p₁ p₂ p₃ read
  have hcs : cs ≠ [] := by decide +kernel
  have hends : ¬ endTag name <:+: cs := by decide +kernel
  exact ⟨hcs, hends, by decide +kernel, by decide +kernel, by decide +kernel,
    feed_rawElement (.inl rfl) hcs hends⟩

end

end HtmlTemplate.Html
