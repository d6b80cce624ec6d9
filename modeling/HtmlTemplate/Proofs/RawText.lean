import HtmlTemplate.Proofs.Consumes
import HtmlTemplate.Proofs.LastTag

/-! Raw text. After the start tag of a raw element everything is text up to the end tag of the
same name, which comes without a break. -/

namespace HtmlTemplate.Html

/-- What the names of raw elements have in common. -/
structure RawName (name : List Char) : Prop where
  nonempty : name ≠ []
  chars : ∀ c ∈ name, startsTagName c = true ∧ isSpace c = false ∧ c ≠ '/' ∧ c ≠ '>'
  preformatted : name ∉ preformattedElements
  void : isVoid name = false

theorem rawName {name : List Char} (h : name ∈ rawElements) : RawName name := by
  have hall : (rawElements.all fun name => name ≠ []
      && name.all (fun c => startsTagName c && !isSpace c && c != '/' && c != '>')
      && !preformattedElements.contains name && !isVoid name) = true := by decide +kernel
  have hname := List.all_eq_true.mp hall name h
  simp only [Bool.and_eq_true, decide_eq_true_eq, List.all_eq_true, Bool.not_eq_true',
    bne_iff_ne, and_assoc] at hname
  obtain ⟨hnonempty, hchars, hpreformatted, hvoid⟩ := hname
  exact ⟨hnonempty, hchars, by simpa using hpreformatted, hvoid⟩

/-- Of the tags that may come, the next is the end tag of an element: in a text that is up to its
end tag, and in the end tag as much of it as is left is what is read next. -/
def Tokenizer.Closes (t : Tokenizer) (name rest : List Char) : Prop :=
  match t.state with
  | .beforeData | .data => t.tagName = name
  | .tagOpen => '/' :: name ++ ['>'] <+: rest
  | .endTagOpen => name ++ ['>'] <+: rest
  | .endTagName => ∃ more, t.tagName ++ more = name ∧ more ++ ['>'] <+: rest
  | _ => False

variable {t : Tokenizer} {name : List Char} {c : Char} {cs : List Char}

theorem isRawText_eq {s : Step} (hname : s.now.tagName = name) (hraw : name ∈ rawElements)
    (h : (c = '<' && !s.isRawText c cs) = true) : c = '<' ∧ '/' :: name ++ ['>'] <+: cs := by
  obtain ⟨hc, hopens⟩ := Bool.and_eq_true_iff.mp h
  obtain rfl : c = '<' := by simpa using hc
  have htag : endTag name <+: '<' :: cs := by
    simpa [Step.isRawText, hname, hraw, List.isPrefixOf_iff_prefix] using hopens
  exact ⟨rfl, (List.cons_prefix_cons.mp htag).2⟩

theorem Step.data_closes {s : Step} (hname : s.now.tagName = name) (hraw : name ∈ rawElements)
    (hstate : s.now.state = .data) (hahead : s.ahead = 0) :
    (s.data c cs).now.Closes name (cs.drop (s.data c cs).ahead) := by
  unfold Step.data
  split
  · rename_i hopens
    obtain ⟨-, hrest⟩ := isRawText_eq hname hraw hopens
    show _ <+: cs.drop s.ahead
    rwa [hahead]
  · split
    · simpa [Tokenizer.Closes, emit, read, hstate] using hname
    · obtain ⟨ds, -, hnow⟩ := decode_moved (s.read c) c cs
      show Tokenizer.Closes ((s.read c).decode c cs).2.now _ _
      rw [hnow]
      simpa [Tokenizer.Closes, read, hstate] using hname

theorem Step.beforeData_closes {s : Step} (hname : s.now.tagName = name)
    (hraw : name ∈ rawElements) (hahead : s.ahead = 0) :
    (s.beforeData c cs).now.Closes name (cs.drop (s.beforeData c cs).ahead) := by
  unfold Step.beforeData
  split
  · rename_i hopens
    obtain ⟨-, hrest⟩ := isRawText_eq hname hraw hopens
    show _ <+: cs.drop s.ahead
    rwa [hahead]
  · rw [if_neg (by simp [hname, (rawName hraw).preformatted])]
    exact Step.data_closes hname hraw rfl hahead

theorem Tokenizer.Closes.step (hraw : name ∈ rawElements) (h : t.Closes name (c :: cs)) :
    (t.step c cs).now.Closes name (cs.drop (t.step c cs).ahead)
      ∨ t.state = .endTagName ∧ c = '>' ∧ (t.step c cs).now.state = .beforeData := by
  have hn := rawName hraw
  obtain ⟨mode, state, position, tagStart, tagName⟩ := t
  cases state with
  | beforeData => exact .inl (Step.beforeData_closes h hraw rfl)
  | data => exact .inl (Step.data_closes h hraw rfl rfl)
  | tagOpen =>
    obtain ⟨rfl, hrest⟩ := List.cons_prefix_cons.mp h
    exact .inl hrest
  | endTagOpen =>
    obtain ⟨d, ds, rfl⟩ := List.exists_cons_of_ne_nil hn.nonempty
    obtain ⟨rfl, hrest⟩ := List.cons_prefix_cons.mp h
    left
    simp only [Tokenizer.step, Step.endTagOpen, (hn.chars d List.mem_cons_self).1, if_true]
    exact ⟨ds, rfl, hrest⟩
  | endTagName =>
    obtain ⟨more, hmore, hrest⟩ := h
    cases more with
    | nil =>
      obtain ⟨rfl, -⟩ := List.cons_prefix_cons.mp hrest
      exact .inr ⟨rfl, rfl, rfl⟩
    | cons d ds =>
      obtain ⟨rfl, hrest'⟩ := List.cons_prefix_cons.mp hrest
      obtain ⟨-, hspace, hslash, hclose⟩ := hn.chars d (by simp [← hmore])
      left
      simp only [Tokenizer.step, Step.endTagName, hspace, hslash, hclose, if_false,
        Bool.false_eq_true]
      exact ⟨ds, (List.append_assoc tagName [d] ds).trans hmore, hrest'⟩
  | _ => exact absurd h id

theorem Tokenizer.Closes.of_nil {t' : Tokenizer} {rest : List Char} (h : t.Closes name [])
    (hstate : t'.state = t.state) (hname : t'.tagName = t.tagName) : t'.Closes name rest := by
  unfold Tokenizer.Closes at h ⊢
  rw [hstate, hname]
  split at h
  · exact h
  · exact h
  · simp at h
  · simp at h
  · simp at h
  · exact h

/-- The machine and what has been written down of its reports, with a text left to read: the
name of the last tag is kept, and in a raw element its end tag is the next tag. -/
structure Watched (t : Tokenizer) (s : Scribe) (rest : List Char) : Prop where
  name : NameKept t s.head? s.last?
  raw : ∀ {name b}, s.last? = some ⟨.start, name, b⟩ → name ∈ rawElements → t.Closes name rest

namespace Watched

variable {s : Scribe} {rest : List Char}

theorem tagless {t' : Tokenizer} {rest' : List Char} {es : List Event} (h : Watched t s rest)
    (ht : t.state.isTag = false) (ht' : t'.state.isTag = false) (hname : t'.tagName = t.tagName)
    (hes : ∀ e ∈ es, e.isTagless = true)
    (hcloses : ∀ name, t.Closes name rest → t'.Closes name rest') :
    Watched t' (es.foldl Scribe.record s) rest' := by
  obtain ⟨hhead, hlast⟩ := Scribe.records_tagless (h.name.head_eq_none ht) hes
  refine ⟨?_, fun hraw hmem => ?_⟩
  · rw [hhead, hlast]
    refine .outside ht' fun hne => ?_
    rw [hname] at hne ⊢
    exact h.name.last_eq ht hne
  · rw [hlast] at hraw
    exact hcloses _ (h.raw hraw hmem)

theorem become (h : Watched t s []) {state : State} (ht : t.state.isInTag = true)
    (hstate : state.isInTag = true) : Watched (t.become state) s [] where
  name := h.name.of_isInTag ht hstate rfl
  raw hlast hraw := by
    have hcloses := h.raw hlast hraw
    unfold Tokenizer.Closes at hcloses
    revert ht
    split at hcloses
    all_goals simp_all [State.isInTag]

theorem moveTo (h : Watched t s []) (p : Position) (cs : List Char) :
    Watched (t.moveTo p) s cs where
  name := h.name.congr rfl rfl
  raw hlast hraw := (h.raw hlast hraw).of_nil rfl rfl

theorem not_raw (h : Watched t s rest) {head : TagHead} (hhead : s.head? = some head)
    (hkind : head.kind = .start) {b : Bool} (hlast : s.last? = some ⟨.start, name, b⟩) :
    name ∉ rawElements := by
  intro hraw
  have hcloses := h.raw hlast hraw
  obtain ⟨kind, tagName, closing⟩ := head
  obtain rfl : kind = .start := hkind
  have hname := h.name
  rw [hhead] at hname
  unfold Tokenizer.Closes at hcloses
  cases hname with
  | naming hstate => simp [hstate, TagKind.naming] at hcloses
  | start hstate =>
    split at hcloses
    all_goals simp_all [State.isInTag]

theorem step (h : Watched t s (c :: cs)) :
    Watched (t.step c cs).now ((t.step c cs).events.foldl Scribe.record s)
      (cs.drop (t.step c cs).ahead) where
  name := h.name.step c cs
  raw {name b} hlast hraw := by
    have htag := t.step_tagStep c cs
    have hcloses (hbefore : s.last? = some ⟨.start, name, b⟩) := (h.raw hbefore hraw).step hraw
    generalize t.step c cs = r at *
    cases htag with
    | outside ht hr hevents hname =>
      rw [(Scribe.records_tagless (h.name.head_eq_none ht) hevents).2] at hlast
      refine (hcloses hlast).resolve_right fun hends => ?_
      simp [hends.1, State.isTag] at ht
    | begins k ht hr hevents hname =>
      rw [hevents] at hlast
      refine (hcloses ((s.last?_beginTag k _).symm.trans hlast)).resolve_right fun hends => ?_
      simp [hends.1, State.isTag] at ht
    | grows k ht hr hevents hname =>
      rw [hevents] at hlast
      refine (hcloses hlast).resolve_right fun hends => ?_
      have hnaming := hr.symm.trans hends.2.2
      cases k <;> cases hnaming
    | goes ht hgoes =>
      cases hgoes with
      | within hr hin =>
        rw [Scribe.last?, (Scribe.records_parts hin.parts).2] at hlast
        refine (hcloses hlast).resolve_right fun hends => ?_
        simp [hends.2.2, State.isInTag] at hr
      | ends _ _ hr hname hevents hparts =>
        obtain ⟨head, hhead, hstart, -⟩ := h.name.kept ht
        rw [hevents, (Scribe.records_tag hhead hparts _).2, Option.some.injEq] at hlast
        have hkind : head.kind = .start := congrArg TagHead.kind hlast
        show r.now.Closes name _
        unfold Tokenizer.Closes
        rw [hr]
        exact (hname.trans (hstart hkind)).trans (congrArg TagHead.name hlast)

end Watched

end HtmlTemplate.Html
