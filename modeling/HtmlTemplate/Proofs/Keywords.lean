import HtmlTemplate.Proofs.Calls
import HtmlTemplate.Proofs.Segments
import Mathlib.Data.List.Flatten

/-! What is made of a path as it is written. The keywords among its segments are dropped, and the
text without brackets decides whether it is a path of `this`. -/

namespace HtmlTemplate.Mustache

def Segment.isThis (s : Segment) : Bool :=
  !s.bracketed && s.text == "this".toList

theorem Segment.isThis_iff {s : Segment} :
    s.isThis = true ↔ s.isKeyword = true ∧ s.text = "this".toList := by
  rw [isThis, isKeyword, Bool.and_eq_true, Bool.and_eq_true, beq_iff_eq]
  refine ⟨fun ⟨hbare, htext⟩ => ⟨⟨hbare, ?_⟩, htext⟩, fun ⟨⟨hbare, _⟩, htext⟩ => ⟨hbare, htext⟩⟩
  rw [htext]
  rfl

theorem Segment.text_ne_nil {s : Segment} (h : s.isKeyword = true) : s.text ≠ [] := by
  rintro heq
  rw [isKeyword, heq] at h
  simp [isPathKeyword] at h

namespace Writing

variable {w : Writing} {c : Char}

def spread (c : Char) (ss : List Segment) : List Char :=
  ss.flatMap (c :: ·.text)

theorem spread_map (c : Char) (ss : List Segment) :
    (ss.map (·.text)).flatMap (c :: ·) = spread c ss :=
  List.flatMap_map _ _ ss

theorem eq_of_spread {ss ss' : List Segment} (h : ss.Sublist ss')
    (heq : spread c ss = spread c ss') : ss = ss' := by
  induction h with
  | slnil => rfl
  | cons s h _ =>
    have hle := (h.flatMap (c :: ·.text)).length_le
    have hsize := congrArg List.length heq
    simp only [spread, List.flatMap_cons, List.length_append, List.length_cons] at hsize hle
    omega
  | cons_cons s _ ih => rw [ih (List.append_cancel_left heq)]

theorem names_sublist (w : Writing) : w.names.Sublist w.segments :=
  List.filter_sublist

theorem keywords_eq_nil_iff : w.keywords = [] ↔ w.names = w.segments := by
  rw [keywords, names, List.filter_eq_nil_iff, List.filter_eq_self]
  simp

theorem joinedText_eq (hc : ∀ s ∈ w.more, (if s.1 then '/' else '.') = c) :
    joinedText w.more = spread c (w.more.map (·.2)) := by
  rw [joinedText, spread, List.flatMap_map]
  exact List.flatMap_congr fun s hs => by rw [hc s hs]

theorem text_eq (hc : ∀ s ∈ w.more, (if s.1 then '/' else '.') = c) :
    w.text = w.sigil ++ List.intercalate [c] (w.segments.map (·.text)) := by
  rw [text, joinedText_eq hc, segments, List.map_cons, Draft.intercalate_cons, spread_map]

theorem intercalate_eq (c : Char) (s : Segment) (ss : List Segment) :
    c :: List.intercalate [c] ((s :: ss).map (·.text)) = spread c (s :: ss) := by
  rw [List.map_cons, Draft.intercalate_cons, spread_map]
  rfl

theorem intercalate_sublist (w : Writing) (c : Char) :
    (List.intercalate [c] (w.names.map (·.text))).Sublist
      (List.intercalate [c] (w.segments.map (·.text))) := by
  have hsub : (spread c w.names).Sublist (spread c w.segments) := w.names_sublist.flatMap _
  cases hnames : w.names with
  | nil => exact List.nil_sublist _
  | cons s ss =>
    rw [hnames, ← intercalate_eq, segments, ← intercalate_eq] at hsub
    exact List.cons_sublist_cons.mp hsub

theorem intercalate_eq_iff (w : Writing) (c : Char) :
    List.intercalate [c] (w.names.map (·.text)) = List.intercalate [c] (w.segments.map (·.text))
      ↔ w.keywords = [] := by
  rw [keywords_eq_nil_iff]
  refine ⟨fun heq => ?_, fun heq => by rw [heq]⟩
  cases hnames : w.names with
  | nil =>
    -- the first segment is a keyword, and there is something of it to be read
    have hkeyword : w.first.isKeyword = true := by
      simpa using List.filter_eq_nil_iff.mp hnames w.first List.mem_cons_self
    rw [hnames, segments, List.map_cons, Draft.intercalate_cons] at heq
    exact absurd (List.append_eq_nil_iff.mp heq.symm).1 (Segment.text_ne_nil hkeyword)
  | cons s ss =>
    rw [hnames] at heq
    have hspread : spread c w.names = spread c w.segments := by
      rw [hnames, segments, ← intercalate_eq, ← intercalate_eq, heq]
      rfl
    rw [← hnames]
    exact eq_of_spread w.names_sublist hspread

theorem isKeyword_first (hw : w.KeywordsFirst) (hkeywords : w.keywords ≠ []) :
    w.first.isKeyword = true := by
  obtain ⟨s, hs⟩ := List.exists_mem_of_ne_nil _ hkeywords
  obtain ⟨hmem, hs⟩ := List.mem_filter.mp hs
  rcases List.mem_cons.mp hmem with rfl | hmem
  · exact hs
  · exact (List.pairwise_cons.mp hw).1 s hmem hs

theorem keywords_of_first (h : w.first.isKeyword = true) :
    w.keywords = w.first :: (w.more.map (·.2)).filter (·.isKeyword) :=
  List.filter_cons_of_pos h

theorem names_of_first (h : w.first.isKeyword = true) :
    w.names = (w.more.map (·.2)).filter (!·.isKeyword) :=
  List.filter_cons_of_neg (by simpa using h)

theorem separator_mem {s : Bool × Segment} (hs : s ∈ w.more) :
    (if s.1 then '/' else '.') ∈ w.text := by
  have hjoined : (if s.1 then '/' else '.') ∈ joinedText w.more :=
    List.mem_flatMap.mpr ⟨s, hs, List.mem_cons_self⟩
  exact List.mem_append_right _ (List.mem_append_right _ hjoined)

theorem all_dots (h : '/' ∉ w.text) : ∀ s ∈ w.more, s.1 = false := by
  intro s hs
  by_contra hslash
  have hmem := separator_mem hs
  rw [if_pos (by simpa using hslash)] at hmem
  exact h hmem

theorem all_slashes (h : '.' ∉ w.text) : ∀ s ∈ w.more, s.1 = true := by
  intro s hs
  by_contra hdot
  have hmem := separator_mem hs
  rw [if_neg hdot] at hmem
  exact h hmem

end Writing

end HtmlTemplate.Mustache

namespace HtmlTemplate.Tree

def PathHead.text : PathHead → List Char
  | .self _ => "this".toList
  | .argument name _ => '@' :: name
  | .plain name _ => name

def PathHead.isSelf : PathHead → Bool
  | .self _ => true
  | .argument _ _ => false
  | .plain _ _ => false

/-- What is made of a path as it is written: the head and the segments after it. -/
inductive Takes (w : Mustache.Writing) : PathHead → List (List Char) → Prop
  /-- The segments that are no keywords come after `this`. -/
  | self {span : Span} (hsigil : w.sigil = []) (hdots : ∀ s ∈ w.more, s.1 = false)
    (hthis : "this".toList <+: w.first.text) : Takes w (.self span) (w.names.map (·.text))
  /-- Slashes make one name of all segments. -/
  | joined {head : PathHead} (hself : head.isSelf = false) (hslashes : ∀ s ∈ w.more, s.1 = true)
    (htext : head.text = w.sigil ++ List.intercalate ['/'] (w.names.map (·.text))) :
    Takes w head []
  | named {head : PathHead} {name : List Char} {tail : List (List Char)}
    (hself : head.isSelf = false) (hdots : ∀ s ∈ w.more, s.1 = false)
    (hnames : w.names.map (·.text) = name :: tail) (htext : head.text = w.sigil ++ name) :
    Takes w head tail

private theorem isPrefix_of_append {l cs ds : List Char} (h : l <+: cs ++ ds)
    (hds : ∀ d ∈ ds.head?, d ∉ l) : l <+: cs := by
  rcases List.prefix_or_prefix_of_prefix h (List.prefix_append cs ds) with h | ⟨more, rfl⟩
  · exact h
  · cases more with
    | nil => simp
    | cons d more =>
      obtain ⟨rest, rfl⟩ := (List.prefix_append_right_inj cs).mp h
      exact absurd (List.mem_append_right cs List.mem_cons_self) (hds d rfl)

theorem Path.isPrefix_of_isSelf {written : List Char} (h : isSelf written = true) :
    "this".toList <+: written ∧ ('/' ∈ written → '.' ∈ written) := by
  rw [isSelf, Bool.or_eq_true, Bool.and_eq_true, beq_iff_eq, List.isPrefixOf_iff_prefix] at h
  rcases h with rfl | ⟨⟨rest, rfl⟩, -⟩
  · exact ⟨List.prefix_refl _, by decide⟩
  · exact ⟨⟨'.' :: rest, rfl⟩, fun _ => List.mem_append_left _ (by decide)⟩

theorem Path.segments?_ok {p : Mustache.Path} {parts : List (List Char)}
    (h : segments? p = .ok parts) :
    '/' ∈ p.written ∧ '.' ∉ p.written ∧ parts = [List.intercalate ['/'] p.parts]
      ∨ '/' ∉ p.written ∧ parts = p.parts := by
  unfold segments? at h
  split at h
  · cases h
  split at h
  · rename_i hslash
    split at h
    · cases h
    split at h
    · cases h
    split at h
    · cases h
    · rename_i hdot
      cases h
      exact .inl ⟨by simpa using hslash, by simpa using hdot, rfl⟩
  · rename_i hslash
    split at h
    · cases h
    · cases h
      exact .inr ⟨by simpa using hslash, rfl⟩

theorem Path.split?_ok {p : Mustache.Path} {span : Span} {head : PathHead}
    {tail : List (List Char)} (h : split? p span = .ok (head, tail)) :
    head.span = headSpan span (byteLength head.text) ∧ head.isSelf = isSelf p.written
      ∧ ∃ parts, segments? p = .ok parts ∧
        if head.isSelf then tail = parts
        else ∃ name, parts = name :: tail ∧ head.text = (if p.data then ['@'] else []) ++ name := by
  simp only [split?, bind_eq_ok] at h
  obtain ⟨parts, hparts, h⟩ := h
  split at h
  · rename_i hself
    cases h
    exact ⟨rfl, hself.symm, _, hparts, rfl⟩
  · rename_i hself
    rw [Bool.not_eq_true] at hself
    split at h
    · rename_i name rest
      split at h
      · rename_i hdata
        cases h
        refine ⟨?_, hself.symm, _, hparts, name, rfl, by rw [hdata]; rfl⟩
        rw [PathHead.text, byteLength_cons, Nat.add_comm]
        rfl
      · rename_i hdata
        cases h
        exact ⟨rfl, hself.symm, _, hparts, name, rfl, by rw [if_neg hdata]; rfl⟩
    · cases h

theorem Path.isPrefix_first {w : Mustache.Writing} (h : "this".toList <+: w.text)
    (hdots : ∀ s ∈ w.more, s.1 = false) : w.sigil = [] ∧ "this".toList <+: w.first.text := by
  have hsigil : w.sigil = [] := by
    cases hdata : w.data with
    | false => rw [Mustache.Writing.sigil, hdata, if_neg (by decide)]
    | true =>
      rw [Mustache.Writing.text, Mustache.Writing.sigil, hdata] at h
      exact absurd (List.cons_prefix_cons.mp h).1 (by decide)
  rw [Mustache.Writing.text, hsigil, List.nil_append] at h
  refine ⟨hsigil, isPrefix_of_append h fun d hd => ?_⟩
  cases hmore : w.more with
  | nil =>
    rw [hmore] at hd
    cases hd
  | cons s more =>
    rw [hmore, Mustache.joinedText, List.flatMap_cons, hdots s (hmore ▸ List.mem_cons_self)] at hd
    cases hd
    decide

theorem Path.resolve_takes {src : Source} {p : Mustache.Path} {w : Mustache.Writing}
    {q : Path}
    (hp : p.ReadAs w) (h : resolve src p = .ok q) :
    Takes w q.head q.tail ∧ q.head.span = headSpan q.span (byteLength q.head.text)
      ∧ q.span = src.spanFor w.loc ∧ q.written = w.text := by
  unfold resolve at h
  dsimp only at h
  split at h
  case h_2 => simp [fault] at h
  rename_i head tail hsplit
  cases h
  obtain ⟨hspan, hself, parts, hparts, htail⟩ := split?_ok hsplit
  refine ⟨?_, hspan, congrArg src.spanFor hp.loc, hp.written⟩
  rw [hp.written] at hself
  have hsegments := segments?_ok hparts
  rw [hp.written, hp.parts] at hsegments
  cases hcase : head.isSelf with
  | true =>
    rw [hcase] at hself
    obtain ⟨hthis, hdot⟩ := isPrefix_of_isSelf hself.symm
    obtain ⟨hslash, hdot', -⟩ | ⟨hslash, rfl⟩ := hsegments
    · exact absurd (hdot hslash) hdot'
    · obtain ⟨span, rfl⟩ : ∃ span, head = .self span := by
        cases head with
        | self span => exact ⟨span, rfl⟩
        | argument name span => cases hcase
        | plain name span => cases hcase
      obtain rfl : tail = _ := htail
      have hdots := Mustache.Writing.all_dots hslash
      obtain ⟨hsigil, hthis⟩ := isPrefix_first hthis hdots
      exact .self hsigil hdots hthis
  | false =>
    rw [hcase] at htail
    obtain ⟨name, rfl, htext⟩ := htail
    rw [hp.data] at htext
    obtain ⟨-, hdot, heq⟩ | ⟨hslash, heq⟩ := hsegments
    · obtain ⟨rfl, rfl⟩ := List.cons.inj heq
      exact .joined hcase (Mustache.Writing.all_slashes hdot) htext
    · exact .named hcase (Mustache.Writing.all_dots hslash) heq.symm htext

/-- The head of a path and the segments after it put together again. -/
def Path.joined (q : Path) : List Char :=
  q.head.text ++ Draft.dotted q.tail

/-- A path says what is written: none of the segments is missing, and the head is `this` if the
word stands in front. -/
structure Path.Faithful (q : Path) (w : Mustache.Writing) : Prop where
  text : q.written = q.joined
  head : q.head.isSelf = true ↔ w.first.isThis = true

variable {q : Path} {w : Mustache.Writing}

theorem Path.faithful_iff_of_named {c : Char} (hself : q.head.isSelf = false)
    (hc : ∀ s ∈ w.more, (if s.1 then '/' else '.') = c) (hwritten : q.written = w.text)
    (hjoined : q.joined = w.sigil ++ List.intercalate [c] (w.names.map (·.text))) :
    q.Faithful w ↔ w.keywords = [] := by
  have htext : q.written = q.joined ↔ w.keywords = [] := by
    rw [hwritten, hjoined, w.text_eq hc, List.append_cancel_left_eq, eq_comm, w.intercalate_eq_iff]
  refine ⟨fun h => htext.mp h.text, fun h => ⟨htext.mpr h, ?_⟩⟩
  rw [hself]
  refine ⟨Bool.noConfusion, fun hthis => ?_⟩
  have hkeyword := (Mustache.Segment.isThis_iff.mp hthis).1
  rw [w.keywords_of_first hkeyword] at h
  cases h

theorem Path.faithful_iff_of_self (hw : w.KeywordsFirst) (hself : q.head.isSelf = true)
    (hsigil : w.sigil = []) (hc : ∀ s ∈ w.more, (if s.1 then '/' else '.') = '.')
    (hwritten : q.written = w.text)
    (hjoined : q.joined = "this".toList ++ Mustache.Writing.spread '.' w.names) :
    q.Faithful w ↔ w.keywords.map (·.text) = ["this".toList] := by
  have htext : w.text = w.first.text ++ Mustache.Writing.spread '.' (w.more.map (·.2)) := by
    rw [Mustache.Writing.text, hsigil, List.nil_append, w.joinedText_eq hc]
  constructor
  · rintro ⟨hsame, hhead⟩
    obtain ⟨hkeyword, hfirst⟩ := Mustache.Segment.isThis_iff.mp (hhead.mp hself)
    rw [← hwritten, hsame, hjoined, hfirst, w.names_of_first hkeyword] at htext
    have hrest := Mustache.Writing.eq_of_spread List.filter_sublist (List.append_cancel_left htext)
    rw [w.keywords_of_first hkeyword, ← hrest, List.filter_filter]
    simp [hfirst]
  · intro hkeywords
    have hkeyword : w.first.isKeyword = true := by
      refine w.isKeyword_first hw fun hnone => ?_
      rw [hnone] at hkeywords
      cases hkeywords
    rw [w.keywords_of_first hkeyword, List.map_cons] at hkeywords
    obtain ⟨hfirst, hrest⟩ := List.cons.inj hkeywords
    have hnames : w.names = w.more.map (·.2) := by
      rw [w.names_of_first hkeyword, List.filter_eq_self]
      simpa using List.filter_eq_nil_iff.mp (List.map_eq_nil_iff.mp hrest)
    refine ⟨?_, fun _ => Mustache.Segment.isThis_iff.mpr ⟨hkeyword, hfirst⟩, fun _ => hself⟩
    rw [hwritten, hjoined, hnames, htext, hfirst]

theorem Path.faithful_iff (hw : w.KeywordsFirst) (h : Takes w q.head q.tail)
    (hwritten : q.written = w.text) :
    q.Faithful w ↔
      w.keywords.map (·.text) = if q.head.isSelf then ["this".toList] else [] := by
  obtain ⟨written, head, tail, span⟩ := q
  cases h with
  | self hsigil hdots hthis =>
    exact Path.faithful_iff_of_self hw rfl hsigil (fun s hs => if_neg (by simp [hdots s hs]))
      hwritten (congrArg ("this".toList ++ ·) (Mustache.Writing.spread_map '.' w.names))
  | joined hself hslashes htext =>
    have hjoined : Path.joined ⟨written, head, [], span⟩
        = w.sigil ++ List.intercalate ['/'] (w.names.map (·.text)) :=
      (List.append_nil head.text).trans htext
    rw [Path.faithful_iff_of_named hself (fun s hs => if_pos (hslashes s hs)) hwritten hjoined,
      hself, if_neg (by decide), List.map_eq_nil_iff]
  | named hself hdots hnames htext =>
    have hjoined : Path.joined ⟨written, head, tail, span⟩
        = w.sigil ++ List.intercalate ['.'] (w.names.map (·.text)) := by
      rw [Path.joined, htext, hnames, Draft.intercalate_cons, List.append_assoc]
      rfl
    rw [Path.faithful_iff_of_named hself (fun s hs => if_neg (by simp [hdots s hs])) hwritten
      hjoined, hself, if_neg (by decide), List.map_eq_nil_iff]

end HtmlTemplate.Tree
