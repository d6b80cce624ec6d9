import HtmlTemplate.Proofs.Modes
import HtmlTemplate.Proofs.RawText
import HtmlTemplate.Proofs.Walk

/-! What reports do to the tag under way in the tree and to the names of the open elements. A raw
element that is open is the innermost one, and its start tag is the last tag. -/

namespace HtmlTemplate.Tree

open Html (Event Scribe TagHead TagKind Tokenizer Watched rawElements rawName)

def Current.head? : Current → Option TagHead
  | .startTag t => some ⟨.start, t.name, t.selfClosing⟩
  | .endTag name _ => some ⟨.stop, name, false⟩
  | .text .. | .comment .. => none

namespace Markup

variable {src : Source} {m n : Markup} {e : Event} {es : List Event}

/-- The tag under way. -/
def head? (m : Markup) : Option TagHead :=
  m.current.bind Current.head?

theorem startTagName?_eq (m : Markup) : m.startTagName?
    = m.head?.bind fun head => if head.kind = .start then some head.name else none := by
  obtain ⟨stack, _ | (_ | _ | _ | _), pending⟩ := m
  all_goals rfl

/-- The names of the open elements, innermost first, bodies passed over. -/
def names (m : Markup) : List (List Char) :=
  openNames m.stack.frames

private theorem receive_tagless (hm : m.head? = none) (he : e.isTagless = true)
    (h : m.receive src e = .ok n) : n.head? = none ∧ n.names = m.names := by
  obtain ⟨stack, current, pending⟩ := m
  cases e with
  | beginData | beginComment =>
    obtain rfl := Except.ok.inj h
    exact ⟨rfl, rfl⟩
  | data | commentData | finishData | finishComment =>
    rcases current with _ | (_ | _ | _ | _)
    all_goals cases hm
    all_goals
      obtain rfl := Except.ok.inj h
      exact ⟨rfl, by first | rfl | exact openNames_append _ _⟩
  | syntaxError => cases h
  | _ => cases he

theorem foldlM_tagless (hm : m.head? = none) (hes : ∀ e ∈ es, e.isTagless = true)
    (h : es.foldlM (receive src) m = .ok n) : n.head? = none ∧ n.names = m.names := by
  induction es generalizing m with
  | nil =>
    obtain rfl := pure_eq_ok.mp h
    exact ⟨hm, rfl⟩
  | cons e es ih =>
    obtain ⟨he, hes⟩ := List.forall_mem_cons.mp hes
    rw [List.foldlM_cons, bind_eq_ok] at h
    obtain ⟨k, hk, h⟩ := h
    obtain ⟨hhead, hnames⟩ := receive_tagless hm he hk
    obtain ⟨ihhead, ihnames⟩ := ih hhead hes h
    exact ⟨ihhead, ihnames.trans hnames⟩

theorem head?_withStartTag {span : Span} {f : StartTag → StartTag}
    (hf : ∀ t, (f t).name = t.name ∧ (f t).selfClosing = t.selfClosing)
    (h : m.withStartTag src span f = .ok n) : n.head? = m.head? := by
  obtain ⟨t, ht, rfl⟩ := withStartTag_ok h
  simp [head?, Current.head?, ht, hf]

theorem head?_finishValue {stop : Nat} (h : m.finishValue src stop = .ok n) :
    n.head? = m.head? := by
  cases hpending : m.pending with
  | none =>
    rw [finishValue_none hpending, Except.ok.injEq] at h
    rw [h]
  | some a =>
    obtain ⟨t, value, ht, -, rfl⟩ := finishValue_ok hpending h
    simp [head?, Current.head?, ht]

theorem names_finishValue {stop : Nat} (h : m.finishValue src stop = .ok n) :
    n.names = m.names := by
  cases hpending : m.pending with
  | none =>
    rw [finishValue_none hpending, Except.ok.injEq] at h
    rw [h]
  | some a =>
    obtain ⟨t, value, ht, -, rfl⟩ := finishValue_ok hpending h
    rfl

private theorem receive_part (he : e.isTagPart = true) (h : m.receive src e = .ok n) :
    n.head? = m.head?.map (·.after [e]) ∧ n.names = m.names := by
  have hafter : e ≠ .selfClosing → m.head?.map (·.after [e]) = m.head? := by
    intro hne
    simp [TagHead.after, hne.symm]
  cases e with
  | selfClosing =>
    obtain ⟨stack, _ | (_ | _ | t | _), pending⟩ := m
    all_goals cases h
    all_goals simp [head?, Current.head?, names, TagHead.after]
  | finishAttributeValue =>
    rw [hafter Event.noConfusion]
    exact ⟨head?_finishValue h, names_finishValue h⟩
  | syntaxError => cases h
  | beginAttribute | attributeName | beginAttributeValue | attributeValue =>
    rw [hafter Event.noConfusion]
    obtain rfl := Except.ok.inj h
    exact ⟨rfl, rfl⟩
  | _ => cases he

theorem foldlM_parts (hes : ∀ e ∈ es, e.isTagPart = true)
    (h : es.foldlM (receive src) m = .ok n) :
    n.head? = m.head?.map (·.after es) ∧ n.names = m.names := by
  induction es generalizing m with
  | nil =>
    obtain rfl := pure_eq_ok.mp h
    simp [TagHead.after]
  | cons e es ih =>
    obtain ⟨he, hes⟩ := List.forall_mem_cons.mp hes
    rw [List.foldlM_cons, bind_eq_ok] at h
    obtain ⟨k, hk, h⟩ := h
    obtain ⟨hhead, hnames⟩ := receive_part he hk
    obtain ⟨ihhead, ihnames⟩ := ih hes h
    refine ⟨?_, ihnames.trans hnames⟩
    rw [ihhead, hhead, Option.map_map]
    exact congrArg (m.head?.map ·) (funext fun h => TagHead.after_after h [e] es)

theorem receive_beginTag {k : TagKind} {p : Position} (h : m.receive src (.beginTag k p) = .ok n) :
    n.head? = some { kind := k } ∧ n.names = m.names := by
  cases k
  all_goals
    obtain rfl := Except.ok.inj h
    exact ⟨rfl, rfl⟩

theorem receive_tagName {c : Char} (h : m.receive src (.tagName c) = .ok n) :
    n.head? = m.head?.map (fun h => { h with name := h.name ++ [c] }) ∧ n.names = m.names := by
  obtain ⟨stack, _ | (_ | _ | _ | _), pending⟩ := m
  all_goals
    obtain rfl := Except.ok.inj h
    exact ⟨rfl, rfl⟩

private theorem openElement_names {t : StartTag} {stop : Nat}
    (h : m.openElement src t stop = .ok n) :
    n.current = m.current ∧ n.names
      = if t.selfClosing || Html.isVoid t.name then m.names else t.name :: m.names := by
  unfold openElement at h
  dsimp only at h
  split at h
  · cases h
  · split at h
    · cases h
    · split at h
      · rename_i hchildless
        obtain ⟨e, stack, hpop, -, rfl⟩ := closeElement_ok h
        simp only [OpenElements.popElement?, OpenElements.push, Option.some.injEq,
          Prod.mk.injEq] at hpop
        obtain ⟨-, rfl⟩ := hpop
        rw [if_pos hchildless]
        exact ⟨rfl, openNames_append _ _⟩
      · rename_i hchildren
        obtain rfl := Except.ok.inj h
        rw [if_neg hchildren]
        exact ⟨rfl, rfl⟩

private theorem closeElement_names {name : List Char} {span : Span} {implicit : Bool}
    (h : m.closeElement src name span implicit = .ok n) :
    n.current = m.current ∧ m.names = name :: n.names := by
  obtain ⟨e, stack, hpop, rfl, rfl⟩ := closeElement_ok h
  refine ⟨rfl, ?_⟩
  unfold OpenElements.popElement? at hpop
  split at hpop
  · rename_i hframes
    simp only [Option.some.injEq, Prod.mk.injEq] at hpop
    obtain ⟨rfl, rfl⟩ := hpop
    rw [names, names, openNames_append, hframes]
    rfl
  · cases hpop

theorem receive_finishTag {head : TagHead} {p : Position} (hm : m.head? = some head)
    (h : m.receive src (.finishTag p) = .ok n) :
    n.head? = none ∧
      match head.kind with
      | .start => n.names = if head.selfClosing || Html.isVoid head.name then m.names
          else head.name :: m.names
      | .stop => m.names = head.name :: n.names := by
  obtain ⟨stack, _ | (_ | _ | t | _), pending⟩ := m
  all_goals cases hm
  · obtain ⟨hcurrent, hnames⟩ := openElement_names h
    exact ⟨by rw [head?, hcurrent]; rfl, hnames⟩
  · obtain ⟨hcurrent, hnames⟩ := closeElement_names h
    exact ⟨by rw [head?, hcurrent]; rfl, hnames⟩

end Markup

/-- The tree, the machine and what has been written down of its reports, with a text left to
read: the same tag is under way, and the raw element that is open, if any, is the innermost one
and has just been opened. -/
structure Attuned (t : Tokenizer) (m : Markup) (s : Scribe) (rest : List Char) : Prop extends
    Watched t s rest where
  head : m.head? = s.head?
  opened : ∀ {name}, s.last? = some ⟨.start, name, false⟩ → name ∈ rawElements →
    m.names.head? = some name
  inner : ∀ {name}, m.names.head? = some name → name ∈ rawElements →
    s.last? = some ⟨.start, name, false⟩
  outer : ∀ name ∈ m.names.tail, name ∉ rawElements

namespace Attuned

variable {src : Source} {t : Tokenizer} {m n : Markup} {s : Scribe} {c : Char}
  {cs rest : List Char}

/-- Where text is read, the name that is kept of a raw element is that of the innermost element,
or that of the last tag, if it closes itself. -/
theorem tagName_eq_iff (h : Attuned t m s rest) (hdata : t.state.isData = true)
    {name : List Char} (hraw : name ∈ rawElements) :
    t.tagName = name ↔ m.names.head? = some name ∨ s.last? = some ⟨.start, name, true⟩ := by
  have hout : t.state.isTag = false := by
    revert hdata
    cases t.state <;> simp [Html.State.isData, Html.State.isTag, Html.State.isInTag]
  constructor
  · rintro rfl
    obtain ⟨b, hlast⟩ := h.name.last_eq hout (Html.rawName hraw).nonempty
    cases b with
    | false => exact .inl (h.opened hlast hraw)
    | true => exact .inr hlast
  · intro hname
    obtain ⟨b, hlast⟩ : ∃ b, s.last? = some ⟨.start, name, b⟩ := by
      rcases hname with hinner | hclosing
      · exact ⟨false, h.inner hinner hraw⟩
      · exact ⟨true, hclosing⟩
    have hcloses := h.raw hlast hraw
    unfold Tokenizer.Closes at hcloses
    revert hdata hcloses
    cases t.state <;> simp [Html.State.isData]

theorem not_raw_tagOpen (h : Attuned t m s (c :: cs)) (hstate : t.state = .tagOpen)
    (hslash : c ≠ '/') :
    t.tagName ∉ rawElements ∧ ∀ name ∈ rawElements, m.names.head? ≠ some name := by
  have hlast {name : List Char} {b : Bool} (hname : name ∈ rawElements) :
      s.last? ≠ some ⟨.start, name, b⟩ := by
    intro hlast
    have hcloses := h.raw hlast hname
    unfold Tokenizer.Closes at hcloses
    rw [hstate] at hcloses
    exact hslash (List.cons_prefix_cons.mp hcloses).1.symm
  refine ⟨fun hname => ?_, fun name hname hinner => hlast hname (h.inner hinner hname)⟩
  obtain ⟨b, hkept⟩ := h.name.last_eq (by rw [hstate]; rfl) (Html.rawName hname).nonempty
  exact hlast hname hkept

theorem of_same {t' : Tokenizer} {s' : Scribe} {rest' : List Char} (h : Attuned t m s rest)
    (hwatched : Watched t' s' rest') (hhead : n.head? = s'.head?) (hlast : s'.last? = s.last?)
    (hnames : n.names = m.names) : Attuned t' n s' rest' where
  toWatched := hwatched
  head := hhead
  opened := by
    rw [hlast, hnames]
    exact h.opened
  inner := by
    rw [hlast, hnames]
    exact h.inner
  outer := by
    rw [hnames]
    exact h.outer

theorem not_raw_names (h : Attuned t m s rest) {head : TagHead} (hhead : s.head? = some head)
    (hkind : head.kind = .start) : ∀ name ∈ m.names, name ∉ rawElements := by
  intro name hname hraw
  cases hnames : m.names with
  | nil => simp [hnames] at hname
  | cons first names =>
    rcases List.mem_cons.mp (hnames ▸ hname) with rfl | hmem
    · exact h.not_raw hhead hkind (h.inner (by rw [hnames]; rfl) hraw) hraw
    · exact h.outer name (by rwa [hnames]) hraw

theorem of_finishStart {t' : Tokenizer} {s' : Scribe} {rest' : List Char} {head : TagHead}
    (hbefore : ∀ name ∈ m.names, name ∉ rawElements) (hkind : head.kind = .start)
    (hwatched : Watched t' s' rest') (hhead : n.head? = s'.head?)
    (hlast : s'.last? = some head)
    (hnames : n.names = if head.selfClosing || Html.isVoid head.name then m.names
      else head.name :: m.names) : Attuned t' n s' rest' := by
  obtain ⟨kind, tagName, closing⟩ := head
  obtain rfl : kind = .start := hkind
  by_cases hopen : (closing || Html.isVoid tagName) = true
  · rw [if_pos hopen] at hnames
    refine ⟨hwatched, hhead, fun {name} hname hraw => ?_, fun hname hraw => ?_, ?_⟩
    · obtain ⟨-, rfl, rfl⟩ := TagHead.mk.inj (Option.some.inj (hlast.symm.trans hname))
      simp [(rawName hraw).void] at hopen
    · rw [hnames] at hname
      exact absurd hraw (hbefore _ (List.mem_of_mem_head? hname))
    · rw [hnames]
      exact fun name hname => hbefore name (List.mem_of_mem_tail hname)
  · rw [if_neg hopen] at hnames
    obtain ⟨rfl, -⟩ := Bool.or_eq_false_iff.mp (Bool.eq_false_iff.mpr hopen)
    refine ⟨hwatched, hhead, fun {name} hname hraw => ?_, fun {name} hname hraw => ?_, ?_⟩
    · obtain ⟨-, rfl, -⟩ := TagHead.mk.inj (Option.some.inj (hlast.symm.trans hname))
      rw [hnames]
      rfl
    · rw [hnames] at hname
      obtain rfl := Option.some.inj hname
      exact hlast
    · rw [hnames]
      exact hbefore

theorem finishStop {t' : Tokenizer} {s' : Scribe} {rest' : List Char} {head : TagHead}
    (h : Attuned t m s rest) (hkind : head.kind = .stop) (hwatched : Watched t' s' rest')
    (hhead : n.head? = s'.head?) (hlast : s'.last? = some head)
    (hnames : m.names = head.name :: n.names) : Attuned t' n s' rest' where
  toWatched := hwatched
  head := hhead
  opened hname := by
    rw [hlast] at hname
    exact absurd (hkind.symm.trans (congrArg TagHead.kind (Option.some.inj hname)))
      TagKind.noConfusion
  inner hname hraw := by
    refine absurd hraw (h.outer _ ?_)
    rw [hnames]
    exact List.mem_of_mem_head? hname
  outer name hname := by
    refine h.outer name ?_
    rw [hnames]
    exact List.mem_of_mem_tail hname

theorem finishTag {t' : Tokenizer} {rest' : List Char} {head : TagHead} {parts : List Event}
    {p : Position} (h : Attuned t m s rest) (hhead : s.head? = some head)
    (hparts : ∀ e ∈ parts, e.isTagPart = true)
    (hn : (parts ++ [Event.finishTag p]).foldlM (Markup.receive src) m = .ok n)
    (hwatched : Watched t' ((parts ++ [Event.finishTag p]).foldl Scribe.record s) rest') :
    Attuned t' n ((parts ++ [Event.finishTag p]).foldl Scribe.record s) rest' := by
  obtain ⟨hnone, hlast⟩ := Scribe.records_tag hhead hparts p
  simp only [List.foldlM_append, List.foldlM_cons, List.foldlM_nil, bind_pure, bind_eq_ok] at hn
  obtain ⟨k, hk, hn⟩ := hn
  obtain ⟨hkhead, hknames⟩ := Markup.foldlM_parts hparts hk
  rw [h.head, hhead, Option.map_some] at hkhead
  obtain ⟨hnhead, hnames⟩ := Markup.receive_finishTag hkhead hn
  rw [hknames] at hnames
  cases hkind : head.kind with
  | start =>
    rw [TagHead.after, hkind] at hnames
    have hafter : (head.after parts).kind = .start := hkind
    exact .of_finishStart (h.not_raw_names hhead hkind) hafter hwatched (hnhead.trans hnone.symm)
      hlast hnames
  | stop =>
    rw [TagHead.after, hkind] at hnames
    have hafter : (head.after parts).kind = .stop := hkind
    exact h.finishStop hafter hwatched (hnhead.trans hnone.symm) hlast hnames

theorem step (h : Attuned t m s (c :: cs))
    (hn : (t.step c cs).events.foldlM (Markup.receive src) m = .ok n) :
    Attuned (t.step c cs).now n ((t.step c cs).events.foldl Scribe.record s)
      (cs.drop (t.step c cs).ahead) := by
  have hwatched := h.toWatched.step
  have htag := t.step_tagStep c cs
  generalize t.step c cs = r at *
  cases htag with
  | outside ht hr hevents hname =>
    obtain ⟨hhead, hlast⟩ := Scribe.records_tagless (h.name.head_eq_none ht) hevents
    obtain ⟨hnhead, hnames⟩ :=
      Markup.foldlM_tagless (h.head.trans (h.name.head_eq_none ht)) hevents hn
    exact h.of_same hwatched (hnhead.trans hhead.symm) hlast hnames
  | begins k ht hr hevents hname =>
    rw [hevents] at hn hwatched ⊢
    simp only [List.foldlM_cons, List.foldlM_nil, bind_pure, bind_eq_ok] at hn
    obtain ⟨m', hm', hn⟩ := hn
    obtain ⟨hbegin, hnames⟩ := Markup.receive_beginTag hm'
    obtain ⟨hgrow, hnames'⟩ := Markup.receive_tagName hn
    refine h.of_same hwatched ?_ (s.last?_beginTag k _) (hnames'.trans hnames)
    rw [hgrow, hbegin]
    exact ((Scribe.head?_tagName c _).trans (by rw [Scribe.head?_beginTag])).symm
  | grows k ht hr hevents hname =>
    rw [hevents] at hn hwatched ⊢
    simp only [List.foldlM_cons, List.foldlM_nil, bind_pure] at hn
    obtain ⟨hgrow, hnames⟩ := Markup.receive_tagName hn
    refine h.of_same hwatched ?_ rfl hnames
    rw [hgrow, h.head]
    exact (Scribe.head?_tagName c s).symm
  | goes ht hgoes =>
    obtain ⟨head, hhead, -⟩ := h.name.kept ht
    cases hgoes with
    | within hr htag =>
      obtain ⟨hnhead, hnames⟩ := Markup.foldlM_parts htag.parts hn
      obtain ⟨hshead, hdone⟩ := Scribe.records_parts (s := s) htag.parts
      exact h.of_same hwatched (by rw [hnhead, hshead, h.head]) (congrArg Html.lastTag? hdone)
        hnames
    | ends _ _ hr hname hevents hparts =>
      rw [hevents] at hn hwatched ⊢
      exact h.finishTag hhead hparts hn hwatched

theorem tagless {t' : Tokenizer} {rest' : List Char} {es : List Event} (h : Attuned t m s rest)
    (ht : t.state.isTag = false) (ht' : t'.state.isTag = false) (hname : t'.tagName = t.tagName)
    (hes : ∀ e ∈ es, e.isTagless = true)
    (hcloses : ∀ name, t.Closes name rest → t'.Closes name rest')
    (hn : es.foldlM (Markup.receive src) m = .ok n) :
    Attuned t' n (es.foldl Scribe.record s) rest' := by
  have hhead := h.name.head_eq_none ht
  obtain ⟨hshead, hlast⟩ := Scribe.records_tagless hhead hes
  obtain ⟨hnhead, hnames⟩ := Markup.foldlM_tagless (h.head.trans hhead) hes hn
  exact h.of_same (h.toWatched.tagless ht ht' hname hes hcloses) (hnhead.trans hshead.symm) hlast
    hnames

theorem moveTo (h : Attuned t m s []) (p : Position) (cs : List Char) :
    Attuned (t.moveTo p) m s cs :=
  h.of_same (h.toWatched.moveTo p cs) h.head rfl rfl

theorem feed (h : Attuned t m s cs)
    (hn : ((t.feed cs).1.map (·.event)).foldlM (Markup.receive src) m = .ok n) :
    Attuned (t.feed cs).2 n (((t.feed cs).1.map (·.event)).foldl Scribe.record s) [] := by
  induction hlength : cs.length using Nat.strongRecOn generalizing t m s cs with
  | _ length ih =>
    cases cs with
    | nil =>
      obtain rfl := pure_eq_ok.mp hn
      exact h
    | cons c cs =>
      have hlt : (cs.drop (t.step c cs).ahead).length < length := by
        rw [← hlength, List.length_drop, List.length_cons]
        omega
      have hfeed := t.events_feed_cons c cs
      rw [hfeed.1, List.foldlM_append, bind_eq_ok] at hn
      obtain ⟨k, hk, hn⟩ := hn
      rw [hfeed.1, hfeed.2, List.foldl_append]
      exact ih _ hlt (h.step hk) hn rfl

theorem finishData (h : Attuned t m s [])
    (hn : (t.finishData.1.map (·.event)).foldlM (Markup.receive src) m = .ok n) :
    Attuned t.finishData.2 n ((t.finishData.1.map (·.event)).foldl Scribe.record s) [] := by
  unfold Tokenizer.finishData at hn ⊢
  split at hn
  · rename_i hstate
    rw [if_pos hstate]
    refine h.tagless (by rw [hstate]; rfl) rfl rfl (List.forall_mem_singleton.mpr rfl) ?_ hn
    intro name hcloses
    unfold Tokenizer.Closes at hcloses
    rw [hstate] at hcloses
    exact hcloses
  · rename_i hstate
    rw [if_neg hstate]
    obtain rfl := pure_eq_ok.mp hn
    exact h

theorem appendComment (h : Attuned t m s []) (hcomment : t.state.isComment = true)
    (text : List Char)
    (hn : ((t.appendComment text).1.map (·.event)).foldlM (Markup.receive src) m = .ok n) :
    Attuned (t.appendComment text).2 n
      (((t.appendComment text).1.map (·.event)).foldl Scribe.record s) [] := by
  have hes : ∀ e ∈ (t.appendComment text).1.map (·.event), e.isTagless = true := by
    refine List.forall_mem_map.mpr fun e he => ?_
    obtain ⟨data, hdata⟩ := Tokenizer.events_appendComment he
    rw [hdata]
    rfl
  have hlast := t.now_appendComment text
  refine h.tagless ?_ (by rw [hlast]; rfl) (by rw [hlast]) hes ?_ hn
  · revert hcomment
    cases t.state <;> simp [Html.State.isComment, Html.State.isTag, Html.State.isInTag]
  · intro name hcloses
    unfold Tokenizer.Closes at hcloses
    revert hcomment
    split at hcloses
    all_goals simp_all [Html.State.isComment]

end Attuned

end HtmlTemplate.Tree
