import HtmlTemplate.Preprocess
import HtmlTemplate.Proofs.Blocks
import HtmlTemplate.Proofs.Extents

/-! Reading back drafts. Each piece of a draft leads, wherever it stands, from one point
between tags to another, so pieces can be put in front of one another; the text of a whole
draft is read as its tree. -/

namespace HtmlTemplate.Draft

open Mustache
open HtmlTemplate.Tree (Assembly OpenElement Frame)

variable {src : Source} {p : Position} {start : Nat} {a b : Assembly} {text after piece : List Char}

def ReadsAs (src : Source) (piece : List Char) (delimited : Bool)
    (nodes : Nat → List Tree.Statement) : Prop :=
  ∀ ⦃p : Position⦄ ⦃start : Nat⦄ ⦃a : Assembly⦄ ⦃text after : List Char⦄, a.Ready →
    src.Stands p start (piece ++ (text ++ after)) → (delimited = true → Delimits text) →
    ∃ a', a.Grows (nodes start) a' ∧
      ∀ b, Leads src (p.after piece) a' text after b → Leads src p a (piece ++ text) after b

theorem readsAs_nil : ReadsAs src [] true (fun _ => []) :=
  fun _ _ a _ _ ha _ _ => ⟨a, Assembly.Grows.refl ha, fun _ hb => hb⟩

theorem ReadsAs.append {piece' : List Char} {delimited : Bool}
    {nodes nodes' : Nat → List Tree.Statement} (h : ReadsAs src piece delimited nodes)
    (h' : ReadsAs src piece' true nodes')
    (hdelimits : delimited = true → ∀ text, Delimits text → Delimits (piece' ++ text)) :
    ReadsAs src (piece ++ piece') true
      (fun start => nodes start ++ nodes' (start + byteLength piece)) := by
  intro p start a text after ha hstands htext
  rw [List.append_assoc, ← List.append_assoc piece'] at hstands
  obtain ⟨a₁, hgrows, hleads⟩ := h ha hstands fun hd => hdelimits hd text (htext rfl)
  have hafter := hstands.after
  rw [List.append_assoc] at hafter
  obtain ⟨a₂, hgrows', hleads'⟩ := h' hgrows.ready hafter htext
  -- what is ahead is put together from its end: first the second piece, then the first
  refine ⟨a₂, hgrows.trans hgrows', fun b hb => ?_⟩
  rw [Position.after_append] at hb
  rw [List.append_assoc]
  exact hleads b (hleads' b hb)

theorem readsAs_of_statement {nodes : Nat → List Tree.Statement}
    (h : ∀ {p : Position} {start : Nat} {a : Assembly} {rest : List Char}, a.Ready →
      src.Stands p start (piece ++ rest) →
      ∃ a' ts s, StatementReads src p a piece rest a' ts s ∧ a.Grows (nodes start) a') :
    ReadsAs src piece false nodes := by
  intro p start a text after ha hstands _
  obtain ⟨a', ts, s, hreads, hgrows⟩ := h ha hstands
  exact ⟨a', hgrows, fun b hb => hb.statement hreads⟩

theorem text_reads {chars : List Char} (hne : chars ≠ []) (hchars : chars.all isTextChar = true) :
    ReadsAs src chars true (fun start => [.text ⟨chars, span start chars⟩]) := by
  intro p start a text after ha hstands htext
  have hall : ∀ c ∈ chars, c ≠ '<' ∧ c ≠ '&' ∧ c ≠ '\n' := by
    intro c hc
    have hc := List.all_eq_true.mp hchars c hc
    simp only [isTextChar, Bool.and_eq_true, bne_iff_ne] at hc
    exact ⟨hc.1.1.1.1, hc.1.1.1.2, hc.2⟩
  obtain ⟨d, cs, rfl⟩ := List.exists_cons_of_ne_nil hne
  obtain ⟨b, hadvances, hgrows⟩ := Assembly.text_advances ha (hall d List.mem_cons_self).2.2
    (fun hmem => (hall _ hmem).1 rfl) (fun hmem => (hall _ hmem).2.1 rfl) hstands
  exact ⟨b, hgrows, fun b' hb => hb.html hne (plain_text hchars) hgrows.ready hadvances htext⟩

theorem ne_brace_of_isMarkupChar {c : Char} (h : isMarkupChar c = true) : '{' ≠ c := by
  rintro rfl
  exact absurd h (by decide)

theorem not_brace_of_isTag {tag : List Char} (h : isTag tag = true) : '{' ∉ tag := by
  obtain ⟨c, cs, rfl, hc, hcs, -⟩ := Assembly.chars_of_isTag h
  have hfirst : isMarkupChar c = true := by simp [isMarkupChar, Char.isAlphanum, hc]
  rw [List.mem_cons, not_or]
  exact ⟨ne_brace_of_isMarkupChar hfirst, fun hmem => ne_brace_of_isMarkupChar (hcs _ hmem) rfl⟩

private theorem not_brace_attributes {as : List (List Char × List Char)}
    (h : as.all isAttribute = true) :
    '{' ∉ attributesText as := by
  rw [attributesText, List.mem_flatMap]
  rintro ⟨pair, hpair, hmem⟩
  obtain ⟨-, -, -, hname, -, -, hvalue⟩ :=
    Assembly.chars_of_isAttribute (List.all_eq_true.mp h _ hpair)
  have hbrace : '{' ∉ pair.1 := fun hmem => ne_brace_of_isMarkupChar (hname _ hmem) rfl
  simp [attributeText, hbrace, hvalue] at hmem

theorem plain_startTag {tag : List Char} {as : List (List Char × List Char)}
    (htag : isTag tag = true) (has : as.all isAttribute = true) : Plain (startTagText tag as) :=
  plain_tag (by simp [not_brace_of_isTag htag, not_brace_attributes has])

private theorem plain_endTag {tag : List Char} (htag : isTag tag = true) :
    Plain (Assembly.endTagText tag) :=
  plain_tag (by simp [not_brace_of_isTag htag])

private theorem void_reads {tag : List Char} {as : List (List Char × List Char)}
    {children : List Node}
    (htag : isTag tag = true) (has : as.all isAttribute = true) (hvoid : Html.isVoid tag = true) :
    ReadsAs src (Node.element tag as children).written false
      (fun start => ((Node.element tag as children).statementAt start).toList) := by
  intro p start a text after ha hstands _
  have hwritten : (Node.element tag as children).written = startTagText tag as := by
    simp [Node.written, hvoid]
  rw [hwritten] at hstands ⊢
  obtain ⟨b, hadvances, hgrows⟩ := Assembly.voidTag_advances ha htag hvoid
    (List.all_eq_true.mp has) hstands false
  refine ⟨b, ?_, fun b' hb => hb.html (by simp [startTagText]) (plain_startTag htag has)
    hgrows.ready hadvances fun h => absurd h (by decide)⟩
  show a.Grows ((Node.element tag as children).statementAt start).toList b
  rw [Node.statementAt, hwritten]
  simp only [hvoid]
  exact hgrows

private theorem element_reads {tag : List Char} {as : List (List Char × List Char)}
    {children : List Node}
    (htag : isTag tag = true) (has : as.all isAttribute = true) (hvoid : Html.isVoid tag = false)
    (hchildren : ReadsAs src (nodesText children) true (nodesAt · children)) :
    ReadsAs src (Node.element tag as children).written false
      (fun start => ((Node.element tag as children).statementAt start).toList) := by
  intro p start a text after ha hstands _
  have hwritten : (Node.element tag as children).written
      = startTagText tag as ++ (nodesText children ++ Assembly.endTagText tag) := by
    simp [Node.written, hvoid, Assembly.endTagText]
  have hassoc : (Node.element tag as children).written ++ (text ++ after)
      = startTagText tag as
        ++ (nodesText children ++ ((Assembly.endTagText tag ++ text) ++ after)) := by
    simp [hwritten]
  rw [hassoc] at hstands
  obtain ⟨a₁, id, hopen, hready, hframes⟩ := Assembly.startTag_advances ha htag hvoid
    (List.all_eq_true.mp has) hstands false
  obtain ⟨a₂, hgrows, hleads⟩ := hchildren hready hstands.after fun _ => rfl
  have hclosing := hstands.after.after
  rw [List.append_assoc] at hclosing
  have hinside : a₂.markup.stack.frames = _ := hgrows.frames
  rw [hframes] at hinside
  obtain ⟨a₃, hclose, hready', hframes'⟩ :=
    Assembly.endTag_advances hgrows.ready htag hvoid rfl hinside hclosing false
  have hstop : start + byteLength (startTagText tag as) + byteLength (nodesText children)
      + byteLength (Assembly.endTagText tag)
        = start + byteLength (Node.element tag as children).written := by
    rw [hwritten, byteLength_append, byteLength_append]
    omega
  refine ⟨a₃, ⟨hready', ?_⟩, fun b hb => ?_⟩
  · show _ = Tree.extend ((Node.element tag as children).statementAt start).toList _
    rw [hframes', hstop, Node.statementAt]
    simp only [hvoid]
    rfl
  · rw [hwritten, Position.after_append, Position.after_append] at hb
    have hend := hb.html (List.cons_ne_nil _ _) (plain_endTag htag) hready' hclose
      fun h => absurd h (by decide)
    have hstart := (hleads b hend).html (List.cons_ne_nil _ _) (plain_startTag htag has) hready
      hopen fun h => absurd h (by decide)
    rw [hwritten, List.append_assoc, List.append_assoc]
    exact hstart

private theorem delimits_written {n : Node} (h : n.isText = false) (hwf : n.WellFormed)
    (text : List Char) : Delimits (n.written ++ text) := by
  cases n with
  | text => cases h
  | raw => exact hwf.elim
  | element => rfl
  | mustache trusting => cases trusting <;> rfl
  | literal => rfl
  | block => rfl

theorem body_reads {ns : List Node} (hns : ReadsAs src (nodesText ns) true (nodesAt · ns))
    (hwf : nodesWellFormed ns) (ha : a.Ready) (hstands : src.Stands p start (nodesText ns ++ after))
    (hbreaks : Breaks after) (fallback : Nat) :
    ∃ a' ts body, SectionReads src p a (nodesText ns) after fallback
      (fun params => sectionOf fallback params (nodesAt start ns)) a' ts body := by
  have hstands' : src.Stands p start (nodesText ns ++ ([] ++ after)) := hstands
  obtain ⟨b, hgrows, hleads⟩ := hns ha.pushBody hstands' fun _ => rfl
  have hbody := hleads b (leads_nil hbreaks)
  rw [List.append_nil] at hbody
  exact hbody.section hgrows hstands fun params => sectionOf_eq hwf start fallback params

-- The recursion is on the draft. A text is read up to the next `<` or `{`, so what stands
-- after it matters: no other text, by well-formedness, and a tag or a mustache delimits it.
mutual

theorem node_reads : (n : Node) → n.WellFormed →
    ReadsAs src n.written n.isText fun start => (n.statementAt start).toList
  | .text _, h => text_reads h.1 h.2
  | .raw _, h => h.elim
  | .element tag _ children, ⟨htag, has, hchildren⟩ => by
    cases hvoid : Html.isVoid tag with
    | true => exact void_reads htag has hvoid
    | false => exact element_reads htag has hvoid (nodes_read children (hchildren hvoid))
  | .mustache _ _, h => readsAs_of_statement (mustache_reads h)
  | .literal _, h => readsAs_of_statement (literal_reads h)
  | .block call body inverse, ⟨hcall, hbody, hinverse⟩ => readsAs_of_statement
    fun {p start a rest} ha hstands => by
      have hwritten : (Node.block call body inverse).written ++ rest = openText call
          ++ (nodesText body ++ (inverseText inverse ++ (closeText call.path ++ rest))) := by
        simp [Node.written, closeText]
      have hinside := hstands
      rw [hwritten] at hinside
      -- both bodies end where a mustache begins, so neither has to be delimited
      have hbreaks : Breaks (closeText call.path ++ rest) := .inr rfl
      have hbreaks' : Breaks (inverseText inverse ++ (closeText call.path ++ rest)) := by
        cases inverse with
        | none => exact hbreaks
        | some body => exact .inr rfl
      obtain ⟨a₁, tsB, mbody, hfirst⟩ :=
        body_reads (nodes_read body hbody) hbody ha hinside.after hbreaks' start
      obtain ⟨a₂, tsI, sections, minverse, hsecond⟩ :=
        inverse_reads inverse hinverse hfirst.grows.ready hinside.after.after hbreaks start
      exact block_reads hcall ha hstands hfirst hsecond

theorem inverse_reads : (inverse : Option (List Node)) → inverseWellFormed inverse →
    {p : Position} → {start : Nat} → {a : Assembly} → {after : List Char} → a.Ready →
    src.Stands p start (inverseText inverse ++ after) → Breaks after → (fallback : Nat) →
    ∃ a' ts sections minverse, InverseReads src p a (inverseText inverse) after fallback
      (inverseAt fallback start inverse) a' ts sections minverse
  | none, _, _, _, _, _, ha, _, _, _ => ⟨_, _, _, _, no_inverse_reads ha⟩
  | some body, h, p, start, a, after, ha, hstands, hbreaks, fallback => by
    have hstands : src.Stands p start (elseText ++ (nodesText body ++ after)) := by
      simpa [inverseText] using hstands
    obtain ⟨a', ts, body', hreads⟩ :=
      body_reads (nodes_read body h) h ha hstands.after hbreaks fallback
    exact ⟨_, _, _, _, hreads.inverse⟩

theorem nodes_read : (ns : List Node) → nodesWellFormed ns →
    ReadsAs src (nodesText ns) true (nodesAt · ns)
  | [], _ => readsAs_nil
  | n :: ns, ⟨hn, htexts, hns⟩ => by
    refine (node_reads n hn).append (nodes_read ns hns) fun htext text hdelimits => ?_
    cases ns with
    | nil => exact hdelimits
    | cons n' ns =>
      have hnext : n'.isText = false := by simpa using htexts htext
      rw [nodesText, List.append_assoc]
      exact delimits_written hnext hns.1 _

end

private theorem parse_ahead {chunk more : List Char} {ts : List Token}
    {ss : List Mustache.Statement}
    (h : Ahead src .first a text [] b chunk more ts ss) (keepLines : Bool) :
    Mustache.parse text keepLines = .ok { body := contents .first chunk ++ ss } := by
  have hscan : scan text
      = .ok (contentTokens .first chunk ++ ts ++ [endToken (.after .first text)]) := by
    have hscans := h.scansAll
    rw [Scans, List.append_nil] at hscans
    exact hscans
  exact parse_of_scan hscan (h.givesAll rfl) (Program.control_untrimmed h.untrimmedAll keepLines)

theorem ready_start (mode : Html.Mode) : (Assembly.pushBody ⟨{ mode }, {}⟩).2.Ready :=
  ⟨⟨rfl, rfl, rfl⟩, (by decide : [] ∉ Html.rawElements)⟩

theorem assemble_body {mode : Html.Mode} {locals : List (List Char)}
    {body : List Mustache.Statement} {nodes : List Tree.Statement}
    (hb : Assembly.statements src (Assembly.pushBody ⟨{ mode }, {}⟩).2 body = .ok b)
    (hgrows : (Assembly.pushBody ⟨{ mode }, {}⟩).2.Grows nodes b) :
    Tree.assemble src mode locals { body } = .ok ⟨nodes, locals, src.fullSpan⟩ := by
  obtain ⟨⟨mode', state, q, l, n⟩, ⟨⟨frames, nextId⟩, current, pending⟩⟩ := b
  obtain rfl : state = .beforeData := hgrows.ready.state
  have hframes : frames = [(0, .body nodes)] := hgrows.frames
  subst hframes
  have hfollow : Assembly.follow src ⟨⟨mode', .beforeData, q, l, n⟩, ⟨⟨[(0, .body nodes)], nextId⟩,
      current, pending⟩⟩ (Html.Tokenizer.finish ⟨mode', .beforeData, q, l, n⟩)
        = .ok ⟨⟨mode', .beforeData, q, l, n⟩,
          ⟨⟨[(0, .body nodes)], nextId⟩, current, pending⟩⟩ := rfl
  unfold Tree.assemble
  show (Assembly.statements src (Assembly.pushBody ⟨{ mode }, {}⟩).2 body >>= _) = _
  rw [hb]
  simp only [bind, Except.bind]
  rw [hfollow]
  rfl

/-- The text of a well formed draft is read as its tree, every span included. -/
theorem preprocess_nodesText (ns : List Node) (h : nodesWellFormed ns) :
    preprocess (nodesText ns) {} = .ok (template ns) := by
  have hstands : Source.Stands ⟨nodesText ns, none⟩ .first 0 (nodesText ns ++ ([] ++ [])) := by
    rw [List.append_nil, List.append_nil]
    exact Source.stands_first ⟨nodesText ns, none⟩
  obtain ⟨b, hgrows, hleads⟩ := nodes_read ns h (ready_start .precompile) hstands fun _ => rfl
  obtain ⟨chunk, more, ts, ss, hahead⟩ := hleads b (leads_nil (.inl rfl))
  rw [List.append_nil] at hahead
  unfold preprocess
  dsimp only
  rw [parse_ahead hahead]
  show Tree.assemble ⟨nodesText ns, none⟩ .precompile [] _ = _
  rw [assemble_body hahead.leads hgrows, template, span, Nat.zero_add]
  rfl

/-- A list with an element, a block with a name and an inverse, a mustache and a text. -/
def listDraft : List Node :=
  [.element "ul".toList [("id".toList, "a".toList)]
    [.block ⟨"each".toList, [.param (.path "items".toList), .params ["item".toList]]⟩
      [.mustache false ⟨"item".toList, []⟩] (some [.text "none".toList])]]

theorem preprocess_nodesText_listDraft :
    nodesWellFormed listDraft
      ∧ preprocess (nodesText listDraft) {} = .ok (template listDraft) :=
  ⟨by decide, preprocess_nodesText listDraft (by decide)⟩

end HtmlTemplate.Draft
