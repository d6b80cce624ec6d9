import HtmlTemplate.Proofs.Standing
import HtmlTemplate.Proofs.Steps
import HtmlTemplate.Tree.Assembly

/-! HTML text as the machine reads it into the tree, a character at a time. -/

namespace HtmlTemplate.Tree.Assembly

open Draft (isMarkupChar)
open Html (Tokenizer Step Emission)

variable {src : Source} {a b c : Assembly} {text text' : List Char}

def Feeds (src : Source) (a : Assembly) (text : List Char) (b : Assembly) : Prop :=
  ∀ rest, a.follow src (a.tokenizer.feed (text ++ rest)) = b.follow src (b.tokenizer.feed rest)

theorem Feeds.refl (src : Source) (a : Assembly) : Feeds src a [] a := fun _ => rfl

theorem Feeds.trans (h : Feeds src a text b) (h' : Feeds src b text' c) :
    Feeds src a (text ++ text') c := by
  intro rest
  rw [List.append_assoc, h, h']

theorem Feeds.cons {d : Char} (h : Feeds src a [d] b) (h' : Feeds src b text c) :
    Feeds src a (d :: text) c :=
  h.trans h'

private theorem follow_append (a : Assembly) (es es' : List Emission) (t : Tokenizer) :
    a.follow src (es ++ es', t)
      = (es.foldlM (fun m e => m.receive src e.event) a.markup >>= fun m =>
        (⟨a.tokenizer, m⟩ : Assembly).follow src (es', t)) := by
  unfold follow
  rw [List.foldlM_append]
  simp only [bind_assoc]

theorem Feeds.one {d : Char} {t t' : Tokenizer} {m m' : Markup} {s : Step}
    (hstep : ∀ rest, t.step d rest = s) (hahead : s.ahead = 0) (hnow : s.now = t')
    (hmarkup : s.emitted.foldlM (fun m e => m.receive src e.event) m = .ok m') :
    Feeds src ⟨t, m⟩ [d] ⟨t', m'⟩ := by
  intro rest
  rw [List.singleton_append, Html.Tokenizer.feed_cons]
  dsimp only
  rw [follow_append, hstep, hmarkup, hahead, hnow]
  rfl

section
variable {mode : Html.Mode} {p l : Position} {n chars name : List Char} {stack : OpenElements}
  {start : Nat} {d : Char} {tag : StartTag} {pending : PendingAttribute}

theorem feeds_firstChar (hlt : d ≠ '<') (hamp : d ≠ '&') (hline : d ≠ '\n') :
    Feeds src ⟨⟨mode, .beforeData, p, l, n⟩, ⟨stack, none, none⟩⟩ [d]
      ⟨⟨mode, .data, p.next d, l, n⟩, ⟨stack, some (.text [d] (src.offsetFor p)), none⟩⟩ :=
  Feeds.one (fun rest => Step.beforeData_of_ne _ rest hlt hamp hline) rfl rfl rfl

theorem feeds_nextChar (hlt : d ≠ '<') (hamp : d ≠ '&') :
    Feeds src ⟨⟨mode, .data, p, l, n⟩, ⟨stack, some (.text chars start), none⟩⟩ [d]
      ⟨⟨mode, .data, p.next d, l, n⟩, ⟨stack, some (.text (chars ++ [d]) start), none⟩⟩ :=
  Feeds.one (fun rest => Step.data_of_ne _ rest hlt hamp) rfl rfl rfl

theorem feeds_bracket (hraw : n ∉ Html.rawElements) :
    Feeds src ⟨⟨mode, .beforeData, p, l, n⟩, ⟨stack, none, none⟩⟩ ['<']
      ⟨⟨mode, .tagOpen, p.next '<', p, n⟩, ⟨stack, none, none⟩⟩ :=
  Feeds.one (fun rest => Step.beforeData_bracket _ rest hraw) rfl rfl rfl

theorem feeds_textBracket (hraw : n ∉ Html.rawElements) :
    Feeds src ⟨⟨mode, .data, p, l, n⟩, ⟨stack, some (.text chars start), none⟩⟩ ['<']
      ⟨⟨mode, .tagOpen, p.next '<', p, n⟩,
        ⟨stack.append (.text ⟨chars, ⟨start, src.offsetFor p⟩⟩), none, none⟩⟩ :=
  Feeds.one (fun rest => Step.data_bracket _ rest hraw) rfl rfl rfl

theorem feeds_tagStart (hd : d.isAlpha = true) :
    Feeds src ⟨⟨mode, .tagOpen, p, l, n⟩, ⟨stack, none, none⟩⟩ [d]
      ⟨⟨mode, .tagName, p.next d, l, [d]⟩,
        ⟨stack, some (.startTag { name := [d], start := src.offsetFor l }), none⟩⟩ :=
  Feeds.one (fun _ => Step.tagOpen_of_isAlpha _ hd) rfl rfl rfl

theorem feeds_tagChar (hd : isMarkupChar d = true) :
    Feeds src ⟨⟨mode, .tagName, p, l, n⟩, ⟨stack, some (.startTag tag), none⟩⟩ [d]
      ⟨⟨mode, .tagName, p.next d, l, n ++ [d]⟩,
        ⟨stack, some (.startTag { tag with name := tag.name ++ [d] }), none⟩⟩ :=
  Feeds.one (fun _ => Step.tagName_of_isMarkupChar _ hd) rfl rfl rfl

theorem feeds_space {state : Html.State}
    (hstate : state = .tagName ∨ state = .afterAttributeValueQuoted) :
    Feeds src ⟨⟨mode, state, p, l, n⟩, ⟨stack, some (.startTag tag), none⟩⟩ [' ']
      ⟨⟨mode, .beforeAttributeName, p.next ' ', l, n⟩, ⟨stack, some (.startTag tag), none⟩⟩ := by
  obtain rfl | rfl := hstate
  · exact Feeds.one (fun _ => rfl) rfl rfl rfl
  · exact Feeds.one (fun _ => rfl) rfl rfl rfl

theorem feeds_attributeStart (hd : isMarkupChar d = true) :
    Feeds src ⟨⟨mode, .beforeAttributeName, p, l, n⟩, ⟨stack, some (.startTag tag), none⟩⟩ [d]
      ⟨⟨mode, .attributeName, p.next d, l, n⟩, ⟨stack, some (.startTag tag),
        some { name := [d], start := src.offsetFor p, valueStart := src.offsetFor p }⟩⟩ :=
  Feeds.one (fun _ => Step.beforeAttributeName_of_isMarkupChar _ hd) rfl rfl rfl

theorem feeds_attributeChar (hd : isMarkupChar d = true) :
    Feeds src ⟨⟨mode, .attributeName, p, l, n⟩, ⟨stack, some (.startTag tag), some pending⟩⟩ [d]
      ⟨⟨mode, .attributeName, p.next d, l, n⟩, ⟨stack, some (.startTag tag),
        some { pending with name := pending.name ++ [d] }⟩⟩ :=
  Feeds.one (fun _ => Step.attributeName_of_isMarkupChar _ hd) rfl rfl rfl

theorem feeds_equals :
    Feeds src ⟨⟨mode, .attributeName, p, l, n⟩, ⟨stack, some (.startTag tag), some pending⟩⟩ ['=']
      ⟨⟨mode, .beforeAttributeValue, p.next '=', l, n⟩,
        ⟨stack, some (.startTag tag), some pending⟩⟩ :=
  Feeds.one (fun _ => rfl) rfl rfl rfl

theorem feeds_openQuote :
    Feeds src ⟨⟨mode, .beforeAttributeValue, p, l, n⟩,
        ⟨stack, some (.startTag tag), some pending⟩⟩ ['"']
      ⟨⟨mode, .attributeValueDoubleQuoted, p.next '"', l, n⟩, ⟨stack, some (.startTag tag),
        some { pending with quoted := true, valueStart := src.offsetFor p, text := none }⟩⟩ :=
  Feeds.one (fun _ => rfl) rfl rfl rfl

theorem feeds_valueChar (hquote : d ≠ '"') (hamp : d ≠ '&') :
    Feeds src ⟨⟨mode, .attributeValueDoubleQuoted, p, l, n⟩,
        ⟨stack, some (.startTag tag), some pending⟩⟩ [d]
      ⟨⟨mode, .attributeValueDoubleQuoted, p.next d, l, n⟩, ⟨stack, some (.startTag tag),
        some (pending.addText [d] ⟨src.offsetFor p, src.offsetFor (p.next d)⟩)⟩⟩ :=
  Feeds.one (fun rest => Step.quotedValue_of_ne _ rest hquote hamp) rfl rfl rfl

theorem feeds_closeQuote (hdynamic : pending.dynamic = false) (hparts : pending.parts = []) :
    Feeds src ⟨⟨mode, .attributeValueDoubleQuoted, p, l, n⟩,
        ⟨stack, some (.startTag tag), some pending⟩⟩ ['"']
      ⟨⟨mode, .afterAttributeValueQuoted, p.next '"', l, n⟩,
        ⟨stack, some (.startTag { tag with attributes := tag.attributes ++
          [⟨pending.name, .text ⟨pending.text.elim [] (·.chars),
            ⟨pending.valueStart, src.offsetFor (p.next '"')⟩⟩,
            ⟨pending.start, src.offsetFor (p.next '"')⟩⟩] }), none⟩⟩ := by
  obtain ⟨name, start, valueStart, quoted, dynamic, parts, text⟩ := pending
  obtain rfl : dynamic = false := hdynamic
  obtain rfl : parts = [] := hparts
  refine Feeds.one (fun _ => rfl) rfl rfl ?_
  cases text <;> rfl

theorem feeds_slash :
    Feeds src ⟨⟨mode, .tagOpen, p, l, n⟩, ⟨stack, none, none⟩⟩ ['/']
      ⟨⟨mode, .endTagOpen, p.next '/', l, n⟩, ⟨stack, none, none⟩⟩ :=
  Feeds.one (fun _ => rfl) rfl rfl rfl

theorem feeds_endTagStart (hd : d.isAlpha = true) :
    Feeds src ⟨⟨mode, .endTagOpen, p, l, n⟩, ⟨stack, none, none⟩⟩ [d]
      ⟨⟨mode, .endTagName, p.next d, l, [d]⟩,
        ⟨stack, some (.endTag [d] (src.offsetFor l)), none⟩⟩ :=
  Feeds.one (fun _ => Step.endTagOpen_of_isAlpha _ hd) rfl rfl rfl

theorem feeds_endTagChar (hd : isMarkupChar d = true) :
    Feeds src ⟨⟨mode, .endTagName, p, l, n⟩, ⟨stack, some (.endTag name start), none⟩⟩ [d]
      ⟨⟨mode, .endTagName, p.next d, l, n ++ [d]⟩,
        ⟨stack, some (.endTag (name ++ [d]) start), none⟩⟩ :=
  Feeds.one (fun _ => Step.endTagName_of_isMarkupChar _ hd) rfl rfl rfl

private theorem feeds_chars {text : List Char} (hlt : '<' ∉ text) (hamp : '&' ∉ text) :
    Feeds src ⟨⟨mode, .data, p, l, n⟩, ⟨stack, some (.text chars start), none⟩⟩ text
      ⟨⟨mode, .data, p.after text, l, n⟩, ⟨stack, some (.text (chars ++ text) start), none⟩⟩ := by
  induction text generalizing p chars with
  | nil =>
    rw [List.append_nil]
    exact Feeds.refl src _
  | cons d text ih =>
    rw [List.mem_cons, not_or] at hlt hamp
    rw [List.append_cons chars]
    exact (feeds_nextChar (Ne.symm hlt.1) (Ne.symm hamp.1)).cons (ih hlt.2 hamp.2)

theorem feeds_text (hd : d ≠ '\n') (hlt : '<' ∉ d :: text) (hamp : '&' ∉ d :: text) :
    Feeds src ⟨⟨mode, .beforeData, p, l, n⟩, ⟨stack, none, none⟩⟩ (d :: text)
      ⟨⟨mode, .data, p.after (d :: text), l, n⟩,
        ⟨stack, some (.text (d :: text) (src.offsetFor p)), none⟩⟩ := by
  rw [List.mem_cons, not_or] at hlt hamp
  exact (feeds_firstChar (Ne.symm hlt.1) (Ne.symm hamp.1) hd).cons (feeds_chars hlt.2 hamp.2)

private theorem feeds_tagChars {text : List Char} (h : ∀ d ∈ text, isMarkupChar d = true) :
    Feeds src ⟨⟨mode, .tagName, p, l, n⟩, ⟨stack, some (.startTag tag), none⟩⟩ text
      ⟨⟨mode, .tagName, p.after text, l, n ++ text⟩,
        ⟨stack, some (.startTag { tag with name := tag.name ++ text }), none⟩⟩ := by
  induction text generalizing p n tag with
  | nil =>
    rw [List.append_nil, List.append_nil]
    exact Feeds.refl src _
  | cons d text ih =>
    obtain ⟨hd, htext⟩ := List.forall_mem_cons.mp h
    rw [List.append_cons n, List.append_cons tag.name]
    exact (feeds_tagChar hd).cons (ih htext)

theorem feeds_tagName (hd : d.isAlpha = true) (htext : ∀ e ∈ text, isMarkupChar e = true) :
    Feeds src ⟨⟨mode, .tagOpen, p, l, n⟩, ⟨stack, none, none⟩⟩ (d :: text)
      ⟨⟨mode, .tagName, p.after (d :: text), l, d :: text⟩,
        ⟨stack, some (.startTag { name := d :: text, start := src.offsetFor l }), none⟩⟩ :=
  (feeds_tagStart hd).cons (feeds_tagChars htext)

private theorem feeds_endTagChars {text : List Char} (h : ∀ d ∈ text, isMarkupChar d = true) :
    Feeds src ⟨⟨mode, .endTagName, p, l, n⟩, ⟨stack, some (.endTag name start), none⟩⟩ text
      ⟨⟨mode, .endTagName, p.after text, l, n ++ text⟩,
        ⟨stack, some (.endTag (name ++ text) start), none⟩⟩ := by
  induction text generalizing p n name with
  | nil =>
    rw [List.append_nil, List.append_nil]
    exact Feeds.refl src _
  | cons d text ih =>
    obtain ⟨hd, htext⟩ := List.forall_mem_cons.mp h
    rw [List.append_cons n, List.append_cons name]
    exact (feeds_endTagChar hd).cons (ih htext)

theorem feeds_endTagName (hd : d.isAlpha = true) (htext : ∀ e ∈ text, isMarkupChar e = true) :
    Feeds src ⟨⟨mode, .endTagOpen, p, l, n⟩, ⟨stack, none, none⟩⟩ (d :: text)
      ⟨⟨mode, .endTagName, p.after (d :: text), l, d :: text⟩,
        ⟨stack, some (.endTag (d :: text) (src.offsetFor l)), none⟩⟩ :=
  (feeds_endTagStart hd).cons (feeds_endTagChars htext)

private theorem feeds_attributeChars {text : List Char} (h : ∀ d ∈ text, isMarkupChar d = true) :
    Feeds src ⟨⟨mode, .attributeName, p, l, n⟩, ⟨stack, some (.startTag tag), some pending⟩⟩ text
      ⟨⟨mode, .attributeName, p.after text, l, n⟩, ⟨stack, some (.startTag tag),
        some { pending with name := pending.name ++ text }⟩⟩ := by
  induction text generalizing p pending with
  | nil =>
    rw [List.append_nil]
    exact Feeds.refl src _
  | cons d text ih =>
    obtain ⟨hd, htext⟩ := List.forall_mem_cons.mp h
    rw [List.append_cons pending.name]
    exact (feeds_attributeChar hd).cons (ih htext)

private theorem feeds_valueChars {value : List Char} (hquote : '"' ∉ value) (hamp : '&' ∉ value) :
    ∃ text, text.elim [] (·.chars) = pending.text.elim [] (·.chars) ++ value ∧
      Feeds src ⟨⟨mode, .attributeValueDoubleQuoted, p, l, n⟩,
          ⟨stack, some (.startTag tag), some pending⟩⟩ value
        ⟨⟨mode, .attributeValueDoubleQuoted, p.after value, l, n⟩,
          ⟨stack, some (.startTag tag), some { pending with text }⟩⟩ := by
  induction value generalizing p pending with
  | nil => exact ⟨pending.text, (List.append_nil _).symm, Feeds.refl src _⟩
  | cons d value ih =>
    rw [List.mem_cons, not_or] at hquote hamp
    obtain ⟨text, htext, hmore⟩ := ih hquote.2 hamp.2
    refine ⟨text, ?_, (feeds_valueChar (Ne.symm hquote.1) (Ne.symm hamp.1)).cons hmore⟩
    rw [htext]
    cases htext : pending.text <;> simp [PendingAttribute.addText, htext]

private theorem attributesAt_single (start : Nat) (name value : List Char) :
    Draft.attributesAt start [(name, value)]
      = [⟨name, .text ⟨value, ⟨start + 1 + (byteLength name + 1),
          start + 1 + (byteLength name + 1) + byteLength ('"' :: value ++ ['"'])⟩⟩,
        ⟨start + 1, start + 1 + (byteLength name + 1) + byteLength ('"' :: value ++ ['"'])⟩⟩] := by
  have hmin : min (start + 1) (start + 1 + byteLength name + 1) = start + 1 := by omega
  have hmax : max (start + 1 + byteLength name)
      (start + 1 + byteLength name + 1 + byteLength ('"' :: value ++ ['"']))
        = start + 1 + byteLength name + 1 + byteLength ('"' :: value ++ ['"']) := by omega
  simp only [Draft.attributesAt, Draft.span, Span.merge, hmin, hmax]
  rfl

private theorem feeds_attribute {state : Html.State} {d : Char} {name value rest : List Char}
    (hstate : state = .tagName ∨ state = .afterAttributeValueQuoted)
    (hname : ∀ e ∈ d :: name, isMarkupChar e = true) (hquote : '"' ∉ value) (hamp : '&' ∉ value)
    (hstands : src.Stands p start (Draft.attributeText (d :: name, value) ++ rest)) :
    Feeds src ⟨⟨mode, state, p, l, n⟩, ⟨stack, some (.startTag tag), none⟩⟩
      (Draft.attributeText (d :: name, value))
      ⟨⟨mode, .afterAttributeValueQuoted, p.after (Draft.attributeText (d :: name, value)), l, n⟩,
        ⟨stack, some (.startTag { tag with attributes :=
          tag.attributes ++ Draft.attributesAt start [(d :: name, value)] }), none⟩⟩ := by
  obtain ⟨hd, hname⟩ := List.forall_mem_cons.mp hname
  have hopen : Feeds src ⟨⟨mode, state, p, l, n⟩, ⟨stack, some (.startTag tag), none⟩⟩
      (' ' :: [d] ++ name ++ ['='] ++ ['"']) _ :=
    ((((feeds_space hstate).cons (feeds_attributeStart hd)).trans
      (feeds_attributeChars hname)).trans feeds_equals).trans feeds_openQuote
  obtain ⟨text, htext, hvalue⟩ := feeds_valueChars hquote hamp
  have hall := hopen.trans (hvalue.trans (feeds_closeQuote rfl rfl))
  have htext' : ' ' :: [d] ++ name ++ ['='] ++ ['"'] ++ (value ++ ['"'])
      = Draft.attributeText (d :: name, value) := by
    simp [Draft.attributeText]
  rw [htext'] at hall
  have hname' : src.Stands (p.next ' ') (start + 1)
      ((d :: name ++ ['=']) ++ (('"' :: value ++ ['"']) ++ rest)) := by
    have hnext : src.Stands (p.next ' ') (start + 1)
        ((d :: name ++ '=' :: '"' :: value ++ ['"']) ++ rest) := hstands.next
    simpa using hnext
  have hvalue' := hname'.after
  have hstop := hvalue'.after.offsetFor
  have hvalueStart := hvalue'.offsetFor
  have hstart := hname'.offsetFor
  have hbytes : byteLength (d :: name ++ ['=']) = byteLength (d :: name) + 1 :=
    byteLength_append _ _
  rw [attributesAt_single, ← hbytes, ← hstop, ← hvalueStart, ← hstart]
  simpa [htext, Draft.attributeText, Position.after_append] using hall

theorem chars_of_isAttribute {a : List Char × List Char} (h : Draft.isAttribute a = true) :
    ∃ d name, a.1 = d :: name ∧ (∀ e ∈ a.1, isMarkupChar e = true) ∧ '"' ∉ a.2 ∧ '&' ∉ a.2
      ∧ '{' ∉ a.2 := by
  obtain ⟨name, value⟩ := a
  simp only [Draft.isAttribute, Bool.and_eq_true, Bool.not_eq_true', List.isEmpty_eq_false_iff,
    List.all_eq_true, bne_iff_ne] at h
  obtain ⟨⟨hne, hname⟩, hvalue⟩ := h
  obtain ⟨d, name, rfl⟩ := List.exists_cons_of_ne_nil hne
  exact ⟨d, name, rfl, hname, fun hmem => (hvalue _ hmem).1.1 rfl,
    fun hmem => (hvalue _ hmem).1.2 rfl, fun hmem => (hvalue _ hmem).2 rfl⟩

theorem attributesAt_cons (start : Nat) (a : List Char × List Char)
    (as : List (List Char × List Char)) :
    Draft.attributesAt start (a :: as) = Draft.attributesAt start [a]
      ++ Draft.attributesAt (start + byteLength (Draft.attributeText a)) as := by
  have hstop : start + byteLength (Draft.attributeText a)
      = start + 1 + byteLength a.1 + 1 + byteLength ('"' :: a.2 ++ ['"']) := by
    have hspace : ' '.utf8Size = 1 := rfl
    have hequals : '='.utf8Size = 1 := rfl
    simp only [Draft.attributeText, byteLength_append, byteLength_cons, List.cons_append, hspace,
      hequals]
    omega
  rw [hstop]
  rfl

theorem feeds_attributes {as : List (List Char × List Char)} {state : Html.State}
    {rest : List Char} (hstate : state = .tagName ∨ state = .afterAttributeValueQuoted)
    (has : ∀ a ∈ as, Draft.isAttribute a = true)
    (hstands : src.Stands p start (Draft.attributesText as ++ rest)) :
    ∃ state' : Html.State, (state' = .tagName ∨ state' = .afterAttributeValueQuoted) ∧
      Feeds src ⟨⟨mode, state, p, l, n⟩, ⟨stack, some (.startTag tag), none⟩⟩
        (Draft.attributesText as)
        ⟨⟨mode, state', p.after (Draft.attributesText as), l, n⟩,
          ⟨stack, some (.startTag { tag with attributes :=
            tag.attributes ++ Draft.attributesAt start as }), none⟩⟩ := by
  induction as generalizing p start state tag with
  | nil =>
    refine ⟨state, hstate, ?_⟩
    have hnil : tag.attributes ++ Draft.attributesAt start [] = tag.attributes := List.append_nil _
    rw [hnil]
    exact Feeds.refl src _
  | cons a as ih =>
    obtain ⟨ha, htail⟩ := List.forall_mem_cons.mp has
    obtain ⟨d, name, hname, hchars, hquote, hamp, -⟩ := chars_of_isAttribute ha
    obtain ⟨first, value⟩ := a
    obtain rfl : first = d :: name := hname
    have hstands : src.Stands p start
        (Draft.attributeText (d :: name, value) ++ (Draft.attributesText as ++ rest)) := by
      simpa [Draft.attributesText] using hstands
    obtain ⟨state', hstate', hmore⟩ := ih (.inr rfl) htail hstands.after
    refine ⟨state', hstate', ?_⟩
    have hall : Feeds src ⟨⟨mode, state, p, l, n⟩, ⟨stack, some (.startTag tag), none⟩⟩ _ _ :=
      (feeds_attribute hstate hchars hquote hamp hstands).trans hmore
    rw [List.append_assoc, ← attributesAt_cons, ← Position.after_append] at hall
    exact hall

theorem chars_of_isTag (h : Draft.isTag name = true) :
    ∃ d cs, name = d :: cs ∧ d.isAlpha = true ∧ (∀ e ∈ cs, isMarkupChar e = true)
      ∧ name ∉ Html.rawElements := by
  cases name with
  | nil => cases h
  | cons d cs =>
    simp only [Draft.isTag, Bool.and_eq_true, Bool.not_eq_true', List.all_eq_true] at h
    obtain ⟨⟨hd, hcs⟩, hraw⟩ := h
    refine ⟨d, cs, rfl, hd, hcs, fun hmem => ?_⟩
    have hlist : Html.rawElements = [['t', 'i', 't', 'l', 'e'], ['s', 't', 'y', 'l', 'e'],
      ['s', 'c', 'r', 'i', 'p', 't']] := by decide
    rw [hlist] at hmem
    rw [List.contains_iff_mem.mpr hmem] at hraw
    cases hraw

theorem blockParams?_plain {names : List (List Char)}
    (h : ∀ name ∈ names, startsWithBar name = false) :
    blockParams? names = .ok (names.length, []) := by
  have hlast : names.getLast?.elim false startsWithBar = false := by
    cases hlast : names.getLast? with
    | none => rfl
    | some name => exact h name (List.mem_of_getLast? hlast)
  unfold blockParams?
  dsimp only
  cases hdrop : names.drop (names.takeWhile (· != "as".toList)).length with
  | nil =>
    dsimp only
    rw [hlast, if_neg Bool.false_ne_true]
  | cons keyword after =>
    have hafter : after.head?.elim false startsWithBar = false := by
      cases after with
      | nil => rfl
      | cons name after =>
        have hmem : name ∈ names.drop (names.takeWhile (· != "as".toList)).length := by
          rw [hdrop]
          simp
        exact h name (List.mem_of_mem_drop hmem)
    dsimp only
    rw [hafter, Bool.not_false, if_pos rfl]

def plainElement (name : List Char) (attributes : List Attribute) (startTag : Span) :
    OpenElement :=
  { tag := name, selfClosing := false, attributes, params := [], modifiers := [], comments := []
    children := [], startTag }

theorem startsWithBar_attributes {as : List (List Char × List Char)}
    (has : ∀ a ∈ as, Draft.isAttribute a = true) (start : Nat) :
    ∀ name ∈ (Draft.attributesAt start as).map (·.name), startsWithBar name = false := by
  induction as generalizing start with
  | nil => simp [Draft.attributesAt]
  | cons a as ih =>
    obtain ⟨ha, has⟩ := List.forall_mem_cons.mp has
    obtain ⟨d, name, hname, hchars, -⟩ := chars_of_isAttribute ha
    have hbar : d ≠ '|' := fun heq =>
      absurd (hchars d (hname ▸ List.mem_cons_self)) (by rw [heq]; decide)
    rw [attributesAt_cons, List.map_append, List.forall_mem_append]
    refine ⟨?_, ih has _⟩
    simp [Draft.attributesAt, hname, startsWithBar, hbar]

theorem openElement_plain (src : Source) (stack : OpenElements) (start stop : Nat)
    {attributes : List Attribute} (hname : name ≠ [':']) (hvoid : Html.isVoid name = false)
    (hbars : ∀ name ∈ attributes.map (·.name), startsWithBar name = false) :
    Markup.openElement src ⟨stack, none, none⟩ { name, start, attributes } stop
      = .ok ⟨(stack.push (.element (plainElement name attributes ⟨start, stop⟩))).2,
        none, none⟩ := by
  unfold Markup.openElement
  rw [if_neg hname]
  dsimp only
  rw [blockParams?_plain hbars, List.length_map]
  simp only [List.take_length, hvoid]
  rfl

theorem openElement_void (src : Source) (stack : OpenElements) (start stop : Nat)
    {attributes : List Attribute} (hname : name ≠ [':']) (hvoid : Html.isVoid name = true)
    (hbars : ∀ name ∈ attributes.map (·.name), startsWithBar name = false) :
    Markup.openElement src ⟨stack, none, none⟩ { name, start, attributes } stop
      = .ok ⟨({ stack with nextId := stack.nextId + 1 } : OpenElements).append
          (.element ((plainElement name attributes ⟨start, stop⟩).finish stop)), none, none⟩ := by
  unfold Markup.openElement
  rw [if_neg hname]
  dsimp only
  rw [blockParams?_plain hbars, List.length_map]
  simp only [List.take_length, hvoid]
  simp [Markup.closeElement, OpenElements.push, OpenElements.popElement?, plainElement]

private theorem feeds_closeTag {state : Html.State} {m : Markup}
    (hstate : state = .tagName ∨ state = .afterAttributeValueQuoted)
    (hm : Markup.openElement src ⟨stack, none, none⟩ tag (src.offsetFor (p.next '>')) = .ok m) :
    Feeds src ⟨⟨mode, state, p, l, n⟩, ⟨stack, some (.startTag tag), none⟩⟩ ['>']
      ⟨⟨mode, .beforeData, p.next '>', l, n⟩, m⟩ := by
  obtain rfl | rfl := hstate
  all_goals
    refine Feeds.one (fun _ => rfl) rfl rfl ?_
    show Markup.openElement src ⟨stack, none, none⟩ tag (src.offsetFor (p.next '>')) >>= pure = _
    rw [hm]
    rfl

theorem feeds_startTag (mode : Html.Mode) (l : Position) {as : List (List Char × List Char)}
    {m : Markup} {rest : List Char} (htag : Draft.isTag name = true) (hraw : n ∉ Html.rawElements)
    (has : ∀ a ∈ as, Draft.isAttribute a = true)
    (hstands : src.Stands p start (Draft.startTagText name as ++ rest))
    (hm : Markup.openElement src ⟨stack, none, none⟩
      { name, start, attributes := Draft.attributesAt (start + 1 + byteLength name) as }
      (start + byteLength (Draft.startTagText name as)) = .ok m) :
    Feeds src ⟨⟨mode, .beforeData, p, l, n⟩, ⟨stack, none, none⟩⟩ (Draft.startTagText name as)
      ⟨⟨mode, .beforeData, p.after (Draft.startTagText name as), p, name⟩, m⟩ := by
  obtain ⟨d, cs, rfl, hd, hcs, -⟩ := chars_of_isTag htag
  have htext : Draft.startTagText (d :: cs) as
      = ('<' :: (d :: cs)) ++ (Draft.attributesText as ++ ['>']) := by
    simp [Draft.startTagText]
  rw [htext] at hstands hm ⊢
  have hstart : src.offsetFor p = start := hstands.offsetFor
  have hstop := hstands.after.offsetFor
  rw [List.append_assoc] at hstands
  have hinside := hstands.after
  rw [List.append_assoc] at hinside
  obtain ⟨state, hstate, hattributes⟩ := feeds_attributes (.inl rfl) has hinside
  have hnameBytes : start + byteLength ('<' :: (d :: cs)) = start + 1 + byteLength (d :: cs) := by
    have hbracket : '<'.utf8Size = 1 := rfl
    rw [byteLength_cons, hbracket]
    omega
  rw [hnameBytes] at hattributes
  have hname : Feeds src ⟨⟨mode, .beforeData, p, l, n⟩, ⟨stack, none, none⟩⟩
      ('<' :: (d :: cs)) _ := (feeds_bracket hraw).cons (feeds_tagName hd hcs)
  rw [hstart] at hname
  have hend : src.offsetFor
      (((p.after ('<' :: (d :: cs))).after (Draft.attributesText as)).next '>')
      = start + byteLength ('<' :: (d :: cs) ++ (Draft.attributesText as ++ ['>'])) := by
    rw [← hstop]
    simp [Position.after_append]
  rw [← hend] at hm
  have hall := hname.trans (hattributes.trans (feeds_closeTag hstate hm))
  have hafter : ((p.after ('<' :: (d :: cs))).after (Draft.attributesText as)).next '>'
      = p.after ('<' :: (d :: cs) ++ (Draft.attributesText as ++ ['>'])) := by
    simp [Position.after_append]
  rw [hafter] at hall
  exact hall

private theorem feeds_closeEndTag {m : Markup}
    (hm : Markup.closeElement src ⟨stack, none, none⟩ name
      ⟨start, src.offsetFor (p.next '>')⟩ false = .ok m) :
    Feeds src ⟨⟨mode, .endTagName, p, l, n⟩, ⟨stack, some (.endTag name start), none⟩⟩ ['>']
      ⟨⟨mode, .beforeData, p.next '>', l, []⟩, m⟩ := by
  refine Feeds.one (fun _ => rfl) rfl rfl ?_
  show Markup.closeElement src ⟨stack, none, none⟩ name
    ⟨start, src.offsetFor (p.next '>')⟩ false >>= pure = .ok m
  rw [hm]
  rfl

theorem feeds_endTag {frames : List (Nat × Frame)} {id nextId : Nat} {e : OpenElement}
    (htag : Draft.isTag name = true) (hvoid : Html.isVoid name = false)
    (hraw : n ∉ Html.rawElements) (he : e.tag = name) :
    Feeds src ⟨⟨mode, .beforeData, p, l, n⟩, ⟨⟨(id, .element e) :: frames, nextId⟩, none, none⟩⟩
      ('<' :: '/' :: name ++ ['>'])
      ⟨⟨mode, .beforeData, p.after ('<' :: '/' :: name ++ ['>']), p, []⟩,
        ⟨(⟨frames, nextId⟩ : OpenElements).append (.element (e.finish
          (src.offsetFor (p.after ('<' :: '/' :: name ++ ['>']))))), none, none⟩⟩ := by
  obtain ⟨d, cs, rfl, hd, hcs, -⟩ := chars_of_isTag htag
  have hname : Feeds src
      ⟨⟨mode, .beforeData, p, l, n⟩, ⟨⟨(id, .element e) :: frames, nextId⟩, none, none⟩⟩
      ('<' :: ['/'] ++ d :: cs) _ :=
    ((feeds_bracket hraw).cons feeds_slash).trans (feeds_endTagName hd hcs)
  have hclose : Markup.closeElement src ⟨⟨(id, .element e) :: frames, nextId⟩, none, none⟩ (d :: cs)
      ⟨src.offsetFor p, src.offsetFor (((p.after ['<', '/']).after (d :: cs)).next '>')⟩ false
        = .ok ⟨(⟨frames, nextId⟩ : OpenElements).append (.element (e.finish
          (src.offsetFor (((p.after ['<', '/']).after (d :: cs)).next '>')))), none, none⟩ := by
    unfold Markup.closeElement
    rw [hvoid]
    simp [OpenElements.popElement?, he]
  have hall := hname.trans (feeds_closeEndTag hclose)
  have htext : '<' :: '/' :: (d :: cs) ++ ['>'] = '<' :: ['/'] ++ d :: cs ++ ['>'] := rfl
  have hafter : ((p.after ['<', '/']).after (d :: cs)).next '>'
      = p.after ('<' :: '/' :: (d :: cs) ++ ['>']) := by
    simp [Position.after_append]
  rw [← hafter, htext]
  exact hall

end

end HtmlTemplate.Tree.Assembly
