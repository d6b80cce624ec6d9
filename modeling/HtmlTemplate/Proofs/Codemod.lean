import HtmlTemplate.Proofs.Accounts
import HtmlTemplate.Proofs.Evaluation
import HtmlTemplate.Proofs.Seams
import HtmlTemplate.Proofs.Verbatim

/-! Templates that are read to be written back. Their texts are those that stand at their place,
whatever has been trimmed around them. -/

namespace HtmlTemplate

open Text (isBlank Shortens)

theorem Text.Shortens.ne_nil {c : Char} {text left : List Char} (h : Shortens text left)
    (hmem : c ∈ text) (hc : isBlank c = false) : left ≠ [] := by
  rintro rfl
  have hnone := List.countP_eq_zero.mp h.countP.symm c hmem
  simp [hc] at hnone

namespace Mustache

open HtmlTemplate.Tree.Assembly (textStart textStart_first)

theorem Resumes.head {text : List Char} (h : Resumes text) :
    ∃ c cs, text = c :: cs ∧ isBlank c = false := by
  rcases h with h | h
  · simp only [opens, List.isPrefixOf_iff_prefix] at h
    obtain ⟨rest, rfl⟩ := h
    exact ⟨'{', '{' :: rest, rfl, by rfl⟩
  · cases text with
    | nil => cases h
    | cons c cs =>
      obtain rfl : c = '\\' := by simpa using h
      exact ⟨'\\', cs, rfl, by rfl⟩

namespace Content

variable {src : Source} {c d : Content}

theorem Meets.ne_nil (h : c.Meets src d) (hd : d.Stood src) : d.value ≠ [] := by
  obtain ⟨x, xs, hx, hvisible⟩ := h.resumes.head
  exact hd.shortens.ne_nil (hx ▸ List.mem_cons_self) hvisible

/-- What is left of a text stands where it is read from. -/
theorem Stood.covers_value (h : c.Stood src) (hne : c.value ≠ []) :
    src.Covers (textStart c) c.value ((textStart c).after c.value) := by
  obtain ⟨before, after, hwritten, -, -⟩ := h.shortens
  obtain ⟨pre, hstart, ⟨rest, hrest⟩, -⟩ := textStart_first ⟨before, after, hwritten.symm⟩ hne
  obtain ⟨start, more, hstands, -⟩ := h.covers
  rw [← hrest, List.append_assoc, List.append_assoc] at hstands
  rw [hstart]
  exact hstands.after.covers

theorem Stood.stop (h : c.Stood src) (hend : c.value <:+ c.written) {last : Char}
    (hlast : [last] <:+ c.value) (hvisible : Text.isBlank last = false) :
    (textStart c).after c.value = c.loc.start.after c.written := by
  have hne : c.value ≠ [] := by
    rintro hnil
    rw [hnil] at hlast
    cases List.suffix_nil.mp hlast
  obtain ⟨front, hfront⟩ := hlast
  obtain ⟨before, hbefore⟩ := hend
  obtain ⟨pre, hstart, ⟨rest, hrest⟩, -⟩ :=
    textStart_first ⟨before, [], by simpa using hbefore⟩ hne
  -- What follows the first occurrence would end as the text does, but it is blank.
  have hnil : rest = [] := by
    by_contra hrest_ne
    obtain ⟨rest, l, rfl⟩ := (List.eq_nil_or_concat rest).resolve_left hrest_ne
    have hsame : (pre ++ c.value ++ rest) ++ [l] = (before ++ front) ++ [last] := by
      rw [List.append_assoc, ← List.concat_eq_append, hrest, ← hbefore, ← hfront,
        List.append_assoc]
    obtain rfl := List.singleton_inj.mp (List.append_inj' hsame rfl).2
    have hcount := h.shortens.countP
    rw [← hrest, List.concat_eq_append] at hcount
    simp only [List.countP_append, List.countP_singleton, hvisible, Bool.not_false,
      ↓reduceIte] at hcount
    omega
  rw [hnil, List.append_nil] at hrest
  rw [hstart, ← Position.after_append, hrest]

theorem textStart_eq (hstart : c.value <+: c.written) (hne : c.value ≠ []) :
    textStart c = c.loc.start := by
  have hbefore : Shift.before? c.value c.written = some [] := by
    cases hwritten : c.written with
    | nil => exact absurd (List.prefix_nil.mp (hwritten ▸ hstart)) hne
    | cons x xs =>
      rw [Shift.before?, if_pos (List.isPrefixOf_iff_prefix.mpr (hwritten ▸ hstart))]
  simp [textStart, Shift.ofTrimmed, hne, hbefore, Shift.across, Position.shift,
    Text.takeEndWhile]

end Content

end Mustache

namespace Tree.Assembly

open Html (Copied Copies Reading State Tokenizer)

structure Kept (src : Source) (values : Prop) (p : Position) (a : Assembly) : Prop where
  mode : a.tokenizer.mode = .codemod
  notData : a.tokenizer.state ≠ .data
  holds : ∃ r, (a.tokenizer.moveTo p).Reads src r ∧ a.markup.Holds src values r

structure Free (src : Source) (values : Prop) (a : Assembly) : Prop where
  notOpening : a.tokenizer.state ≠ .tagOpen
  kept : ∀ p, a.Kept src values p

variable {src : Source} {values : Prop} {p q : Position} {a b : Assembly}

theorem reads_other {t : Tokenizer} {r : Reading} (hdata : t.state ≠ .data)
    (hopening : t.state ≠ .tagOpen) (hvalue : t.state.isAttributeValue = false) :
    t.Reads src r ↔ r = .other := by
  revert hdata hopening hvalue
  unfold Tokenizer.Reads
  cases t.state <;> simp [State.isAttributeValue]

theorem Kept.other (h : a.Kept src values p) (hvalue : a.tokenizer.state.isAttributeValue = false)
    (hopening : a.tokenizer.state ≠ .tagOpen) : a.markup.Holds src values .other := by
  obtain ⟨r, hreads, hholds⟩ := h.holds
  obtain rfl := (reads_other (t := a.tokenizer.moveTo p) h.notData hopening hvalue).mp hreads
  exact hholds

theorem free_of_other (hmode : a.tokenizer.mode = .codemod) (hdata : a.tokenizer.state ≠ .data)
    (hopening : a.tokenizer.state ≠ .tagOpen)
    (hvalue : a.tokenizer.state.isAttributeValue = false)
    (h : a.markup.Holds src values .other) : a.Free src values :=
  ⟨hopening, fun p => ⟨hmode, hdata, .other,
    (reads_other (t := a.tokenizer.moveTo p) hdata hopening hvalue).mpr rfl, h⟩⟩

theorem Kept.free (h : a.Kept src values p) (hopening : a.tokenizer.state ≠ .tagOpen)
    (hvalue : a.tokenizer.state.isAttributeValue = false) : a.Free src values :=
  free_of_other h.mode h.notData hopening hvalue (h.other hvalue hopening)

theorem Kept.free_of_isData (h : a.Kept src values p)
    (hdata : a.tokenizer.state.isData = true) : a.Free src values := by
  obtain ⟨hopening, hvalue⟩ : a.tokenizer.state ≠ .tagOpen
      ∧ a.tokenizer.state.isAttributeValue = false := by
    revert hdata
    cases a.tokenizer.state <;> simp [State.isData, State.isAttributeValue]
  exact h.free hopening hvalue

theorem Free.append (h : a.Free src values) {node : Statement} (hnode : node.Verbatim src values) :
    (a.append node).Free src values :=
  ⟨h.notOpening, fun p => ⟨(h.kept p).mode, (h.kept p).notData,
    let ⟨r, hreads, hholds⟩ := (h.kept p).holds
    ⟨r, hreads, hholds.append hnode⟩⟩⟩

theorem Kept.content {c : Mustache.Content} (h : a.Kept src values (textStart c))
    (hc : c.Stood src) (hb : a.content src c = .ok b) :
    b.Kept src values ((textStart c).after c.value) := by
  obtain ⟨hmarkup, htokenizer⟩ := content_ok hb
  obtain ⟨r, hreads, hholds⟩ := h.holds
  have hmode : (a.tokenizer.moveTo (textStart c)).mode = .codemod := h.mode
  have hfed : ((a.tokenizer.moveTo (textStart c)).feed c.value).2.mode = .codemod
      ∧ ∃ r', Copied src r
          (((a.tokenizer.moveTo (textStart c)).feed c.value).1.map (·.event)) r'
        ∧ ((a.tokenizer.moveTo (textStart c)).feed c.value).2.Reads src r' := by
    by_cases hne : c.value = []
    · rw [hne]
      exact ⟨hmode, r, .nil, hreads⟩
    · exact Tokenizer.feed_copies hmode hreads (hc.covers_value hne)
  obtain ⟨hmode', r', hcopied, hreads'⟩ := hfed
  obtain ⟨r'', hcopied', hreads''⟩ := Tokenizer.finishData_copies hreads'
  have hposition : b.tokenizer.position = (textStart c).after c.value := by
    rw [htokenizer, readText, Tokenizer.position_finishData, Tokenizer.position_feed]
    rfl
  refine ⟨?_, ?_, r'', ?_, ?_⟩
  · rw [htokenizer, readText, Tokenizer.mode_finishData, hmode']
  · rw [htokenizer]
    exact Tokenizer.state_finishData _
  · have hmoved : b.tokenizer.moveTo ((textStart c).after c.value) = b.tokenizer := by
      rw [← hposition]
      rfl
    rw [hmoved, htokenizer]
    exact hreads''
  · rw [report, List.map_append] at hmarkup
    exact hholds.receiveAll (hcopied.append hcopied') hmarkup

private theorem backslash_of_meets {c d : Mustache.Content} (hd : d.Stood src) (h : c.Meets src d) :
    '\\' ∈ src.text := by
  rcases h.resumes with hopens | hhead
  · have hfollows := h.follows
    rw [Source.Follows, if_pos (by simpa using hopens)] at hfollows
    exact hfollows.isInfix.subset (List.mem_singleton.mpr rfl)
  · exact hd.covers.isInfix.subset (List.mem_of_mem_head? hhead)

private theorem start_eq_of_meets {c d : Mustache.Content} {lt : Position}
    (hlt : src.Covers lt ['<'] c.loc.stop) (hd : d.Stood src) (h : c.Meets src d)
    (hescape : ¬ ['<', '\\', '{', '{'] <:+: src.text) : d.loc.start = c.loc.stop := by
  have hfollows := h.follows
  rw [Source.Follows] at hfollows
  split at hfollows
  · rename_i hopens
    obtain ⟨rest, hrest⟩ : ['{', '{'] <+: d.written := by
      simpa [Mustache.opens, List.isPrefixOf_iff_prefix] using hopens
    have hcovers := (hlt.trans hfollows).trans hd.covers
    rw [← hrest] at hcovers
    refine absurd (List.IsInfix.trans ?_ hcovers.isInfix) hescape
    exact (List.prefix_append ['<', '\\', '{', '{'] rest).isInfix
  · exact hfollows

theorem reads_value {t : Tokenizer} {r : Reading} (hvalue : t.state.isAttributeValue = true)
    (h : t.Reads src r) :
    ∃ quote start now, r = .value quote start now
      ∧ ∀ q, (t.moveTo q).Reads src (.value quote start q) := by
  revert hvalue h
  unfold Tokenizer.Reads Tokenizer.moveTo
  cases t.state <;> simp only [State.isAttributeValue, Bool.false_eq_true, false_implies]
  all_goals
    rintro - ⟨start, rfl⟩
    exact ⟨_, start, _, rfl, fun _ => ⟨start, rfl⟩⟩

theorem Kept.next {c d : Mustache.Content} (h : a.Kept src values ((textStart c).after c.value))
    (hc : c.Stood src) (hd : d.Stood src) (hmeets : c.Meets src d)
    (hleft : a.tokenizer.state = .tagOpen → c.value ≠ [])
    (hvalues : values → '\\' ∉ src.text)
    (hescape : ¬ ['<', '\\', '{', '{'] <:+: src.text) :
    a.Kept src values (textStart d) := by
  obtain ⟨r, hreads, hholds⟩ := h.holds
  by_cases hopening : a.tokenizer.state = .tagOpen
  · obtain ⟨rfl, hlt⟩ : r = .other
        ∧ src.Covers a.tokenizer.tagStart ['<'] ((textStart c).after c.value) := by
      simpa [Tokenizer.Reads, Tokenizer.moveTo, hopening] using hreads
    have hne := hleft hopening
    have hlast : ['<'] <:+ c.value := by
      rcases hlt.suffix_or_suffix (hc.covers_value hne) with hsuffix | hsuffix
      · exact hsuffix
      · rcases List.suffix_cons_iff.mp hsuffix with heq | hnil
        · exact heq ▸ List.suffix_refl _
        · exact absurd (List.suffix_nil.mp hnil) hne
    rw [hc.stop hmeets.keepsEnd hlast (by rfl), ← hmeets.stop] at hlt
    refine ⟨h.mode, h.notData, .other, ?_, hholds⟩
    rw [Mustache.Content.textStart_eq hmeets.keepsStart (hmeets.ne_nil hd),
      start_eq_of_meets hlt hd hmeets hescape]
    simpa [Tokenizer.Reads, Tokenizer.moveTo, hopening] using hlt
  · by_cases hvalue : a.tokenizer.state.isAttributeValue = true
    · obtain ⟨quote, start, now, rfl, hmoved⟩ :=
        reads_value (t := a.tokenizer.moveTo ((textStart c).after c.value)) hvalue hreads
      have hnot : ¬ values := fun hv => hvalues hv (backslash_of_meets hd hmeets)
      exact ⟨h.mode, h.notData, .value quote start (textStart d), hmoved _, hholds.frames,
        hholds.startTag, by rintro _ _ ⟨⟩, fun hv => absurd hv hnot⟩
    · rw [Bool.not_eq_true] at hvalue
      exact (h.free hopening hvalue).kept _

theorem Kept.commentText {loc : Location} (h : a.Kept src values p)
    (hcomment : a.tokenizer.state.isComment = true) (hb : a.commentText src loc = .ok b) :
    b.Free src values := by
  obtain ⟨hmarkup, htokenizer⟩ := follow_ok hb
  rw [Tokenizer.now_appendComment] at htokenizer
  obtain ⟨hvalue, hopening⟩ : a.tokenizer.state.isAttributeValue = false
      ∧ a.tokenizer.state ≠ .tagOpen := by
    revert hcomment
    cases a.tokenizer.state <;> simp [State.isComment, State.isAttributeValue]
  rw [← List.foldlM_map] at hmarkup
  have hquiet : ∀ e ∈ (a.tokenizer.appendComment (src.slice (src.spanFor loc))).1.map (·.event),
      e.isQuiet = true := by
    intro e he
    obtain ⟨emission, hmem, rfl⟩ := List.mem_map.mp he
    obtain ⟨data, hdata⟩ := Tokenizer.events_appendComment hmem
    rw [hdata]
    rfl
  refine free_of_other ?_ ?_ ?_ ?_ ((h.other hvalue hopening).receiveAll (.quiet hquiet) hmarkup)
  all_goals simp [htokenizer, h.mode, State.isAttributeValue]

theorem endAttribute_holds (h : a.markup.Holds src values .other)
    (hb : a.endAttribute src = .ok b) :
    b.markup.Holds src values .other ∧ b.tokenizer = a.tokenizer := by
  simp only [endAttribute, withMarkup, bind_eq_ok, pure_eq_ok] at hb
  obtain ⟨n, hn, rfl⟩ := hb
  have hbegun := h.receive (.beginBare (p := a.tokenizer.position)) rfl
  exact ⟨hbegun.receive .finishBare hn, rfl⟩

private theorem addModifier_holds {d : Dynamic} (h : a.markup.Holds src values .other)
    (hb : a.addModifier src d = .ok b) :
    b.markup.Holds src values .other ∧ b.tokenizer = a.tokenizer := by
  cases d with
  | call m =>
    simp only [addModifier, withMarkup, bind_eq_ok, pure_eq_ok] at hb
    obtain ⟨n, hn, rfl⟩ := hb
    unfold Markup.addModifier at hn
    refine ⟨h.withStartTag ?_ hn, rfl⟩
    exact fun _ => rfl
  | literal m => simp [addModifier, fault] at hb

private theorem addTagComment_holds {c : Comment} (h : a.markup.Holds src values .other)
    (hb : a.withMarkup (·.addTagComment src c) = .ok b) :
    b.markup.Holds src values .other ∧ b.tokenizer = a.tokenizer := by
  simp only [withMarkup, bind_eq_ok, pure_eq_ok] at hb
  obtain ⟨n, hn, rfl⟩ := hb
  unfold Markup.addTagComment at hn
  refine ⟨h.withStartTag ?_ hn, rfl⟩
  exact fun _ => rfl

theorem Kept.addValuePart (h : a.Kept src values p)
    (hvalue : a.tokenizer.state.isAttributeValue = true) (d : Dynamic) :
    ({ a with markup := a.markup.addValuePart d } : Assembly).Free src values := by
  obtain ⟨r, hreads, hholds⟩ := h.holds
  obtain ⟨quote, start, now, rfl, hmoved⟩ :=
    reads_value (t := a.tokenizer.moveTo p) hvalue hreads
  refine ⟨?_, fun q => ⟨h.mode, h.notData, .value quote start q, hmoved q, hholds.frames,
    hholds.startTag, nofun, fun hvalues a' ha' => ?_⟩⟩
  · intro hopening
    rw [show a.tokenizer.state = .tagOpen from hopening] at hvalue
    cases hvalue
  · obtain ⟨pending, hpending, rfl⟩ := Option.map_eq_some_iff.mp ha'
    exact PendingAttribute.InValue.addDynamic (hholds.pending hvalues pending hpending) d q

private theorem beginValue_free {d : Dynamic} (hmode : a.tokenizer.mode = .codemod)
    (h : a.markup.Holds src values .other) (offset : Nat) :
    (({ a with markup := (a.markup.beginValue false offset).addValuePart d } : Assembly).become
      .attributeValueUnquoted).Free src values := by
  refine ⟨State.noConfusion, fun q => ⟨hmode, State.noConfusion, .value [] q q, ⟨q, rfl⟩, h.frames,
    h.startTag, nofun, fun hvalues a' ha' => ?_⟩⟩
  obtain ⟨begun, hbegun, rfl⟩ := Option.map_eq_some_iff.mp ha'
  obtain ⟨pending, hpending, rfl⟩ := Option.map_eq_some_iff.mp hbegun
  obtain ⟨hparts, hstatic⟩ : pending.Fresh := h.pending hvalues pending hpending
  exact PendingAttribute.Fresh.addDynamic
    (a := { pending with quoted := false, valueStart := offset, text := none })
    ⟨hparts, hstatic⟩ rfl d q q

theorem Kept.place {d : Dynamic} (h : a.Kept src values p) (hb : a.place src d = .ok b) :
    b.Free src values := by
  unfold Assembly.place at hb
  split at hb
  · simp [fault] at hb
  · simp [fault] at hb
  · rename_i hstate
    obtain ⟨hholds, ht⟩ := addModifier_holds (h.other (by rw [hstate]; rfl) (by simp [hstate])) hb
    refine free_of_other ?_ ?_ ?_ ?_ hholds <;> rw [ht]
    exacts [h.mode, h.notData, by simp [hstate], by rw [hstate]; rfl]
  · rename_i hstate
    simp only [bind_eq_ok, pure_eq_ok] at hb
    obtain ⟨a₁, h₁, a₂, h₂, rfl⟩ := hb
    obtain ⟨hended, ht₁⟩ := endAttribute_holds (h.other (by rw [hstate]; rfl) (by simp [hstate])) h₁
    obtain ⟨hholds, ht₂⟩ := addModifier_holds hended h₂
    refine free_of_other ?_ State.noConfusion State.noConfusion rfl hholds
    exact (congrArg (·.mode) (ht₂.trans ht₁)).trans h.mode
  · rename_i hstate
    simp only [bind_eq_ok, pure_eq_ok] at hb
    obtain ⟨a₁, h₁, a₂, h₂, rfl⟩ := hb
    obtain ⟨hended, ht₁⟩ := endAttribute_holds (h.other (by rw [hstate]; rfl) (by simp [hstate])) h₁
    obtain ⟨hholds, ht₂⟩ := addModifier_holds hended h₂
    refine free_of_other ?_ State.noConfusion State.noConfusion rfl hholds
    exact (congrArg (·.mode) (ht₂.trans ht₁)).trans h.mode
  · rename_i hstate
    simp only [bind_eq_ok, pure_eq_ok] at hb
    obtain ⟨a₁, h₁, rfl⟩ := hb
    obtain ⟨hholds, ht⟩ := addModifier_holds (h.other (by rw [hstate]; rfl) (by simp [hstate])) h₁
    exact free_of_other ((congrArg (·.mode) ht).trans h.mode) State.noConfusion State.noConfusion
      rfl hholds
  · rename_i hstate
    cases hb
    exact beginValue_free h.mode (h.other (by rw [hstate]; rfl) (by simp [hstate])) _
  · rename_i hstate
    cases hb
    exact h.addValuePart (by rw [hstate]; rfl) d
  · rename_i hstate
    cases hb
    exact h.addValuePart (by rw [hstate]; rfl) d
  · rename_i hstate
    cases hb
    exact h.addValuePart (by rw [hstate]; rfl) d
  · rename_i hopening _ _ _ _ _ _ hdouble hsingle hunquoted
    cases hb
    refine (h.free hopening ?_).append trivial
    revert hdouble hsingle hunquoted
    cases a.tokenizer.state <;> simp [State.isAttributeValue]

theorem Kept.placeComment {c : Comment} (h : a.Kept src values p)
    (hb : a.placeComment src c = .ok b) : b.Free src values := by
  unfold Assembly.placeComment at hb
  split at hb
  · rename_i hstate
    obtain ⟨hholds, ht⟩ := addTagComment_holds (h.other (by rw [hstate]; rfl) (by simp [hstate])) hb
    refine free_of_other ?_ ?_ ?_ ?_ hholds <;> rw [ht]
    exacts [h.mode, h.notData, by simp [hstate], by rw [hstate]; rfl]
  · rename_i hstate
    simp only [bind_eq_ok, pure_eq_ok] at hb
    obtain ⟨a₁, h₁, a₂, h₂, rfl⟩ := hb
    obtain ⟨hended, ht₁⟩ := endAttribute_holds (h.other (by rw [hstate]; rfl) (by simp [hstate])) h₁
    obtain ⟨hholds, ht₂⟩ := addTagComment_holds hended h₂
    refine free_of_other ?_ State.noConfusion State.noConfusion rfl hholds
    exact (congrArg (·.mode) (ht₂.trans ht₁)).trans h.mode
  · rename_i hstate
    cases hb
    exact (h.free_of_isData (by rw [hstate]; rfl)).append trivial
  · rename_i hstate
    cases hb
    exact (h.free_of_isData (by rw [hstate]; rfl)).append trivial
  · simp [fault] at hb

structure Continues (src : Source) (values : Prop) (ss : List Mustache.Statement) (a : Assembly) :
    Prop where
  kept : ∃ p, a.Kept src values p
  next : ∀ c, .content c ∈ ss.head? → a.Kept src values (textStart c)
    ∧ (a.tokenizer.state = .tagOpen → c.value ≠ [])

theorem Free.continues (h : a.Free src values) (ss : List Mustache.Statement) :
    a.Continues src values ss :=
  ⟨⟨.first, h.kept _⟩, fun _ _ => ⟨h.kept _, fun hopening => absurd hopening h.notOpening⟩⟩

def Cuts (a : Assembly) (s : Mustache.Statement) : Prop :=
  a.tokenizer.state.isComment = false
    ∧ (s.origin? = some .partialCall ∨ s.origin? = some .partialBlock)

def KeepsText (src : Source) (values : Prop) : RunProperty := fun a ss b =>
  Mustache.allJoined src ss → (∀ s a', Passes src a ss (.reads s a') → ¬ a'.Cuts s) →
    a.Continues src values ss → ∃ p, b.Kept src values p

theorem Continues.content {c : Mustache.Content} {ss : List Mustache.Statement}
    (h : a.Continues src values (.content c :: ss))
    (hjoined : Mustache.allJoined src (.content c :: ss))
    (hvalues : values → '\\' ∉ src.text) (hescape : ¬ ['<', '\\', '{', '{'] <:+: src.text)
    (hb : a.content src c = .ok b) : b.Continues src values ss := by
  obtain ⟨hc, hmeets, hss⟩ := hjoined
  obtain ⟨hkept, hleft⟩ := h.next c rfl
  have hafter := hkept.content hc hb
  have hopened (hopening : b.tokenizer.state = .tagOpen) : c.value ≠ [] := by
    intro hnil
    have hsame : (readText a.tokenizer c).state = a.tokenizer.state := by
      unfold readText
      rw [hnil, Tokenizer.feed_nil, Tokenizer.finishData, if_neg]
      · rfl
      · exact hkept.notData
    rw [(content_ok hb).2, hsame] at hopening
    exact hleft hopening hnil
  refine ⟨⟨_, hafter⟩, fun d hd => ?_⟩
  have hmeets : c.Meets src d := hmeets _ hd
  have hd : d.Stood src := by
    obtain ⟨more, rfl⟩ : ∃ more, ss = .content d :: more := by
      cases ss with
      | nil => cases hd
      | cons s more => exact ⟨more, congrArg (· :: more) (Option.some.inj hd)⟩
    exact hss.1
  exact ⟨hafter.next hc hd hmeets hopened hvalues hescape, fun _ => hmeets.ne_nil hd⟩

theorem Continues.flat {s : Mustache.Statement} {ss : List Mustache.Statement}
    (h : a.Continues src values (s :: ss)) (hjoined : Mustache.allJoined src (s :: ss))
    (hvalues : values → '\\' ∉ src.text) (hescape : ¬ ['<', '\\', '{', '{'] <:+: src.text)
    (hcuts : ¬ a.Cuts s) (hflat : isSectioned s = false ∨ a.tokenizer.state.isComment = true)
    (hb : statement src a s = .ok b) : b.Continues src values ss := by
  obtain ⟨p, hkept⟩ := h.kept
  cases statement_ok hb with
  | content hb => exact h.content hjoined hvalues hescape hb
  | commented _ hcomment hb => exact (hkept.commentText hcomment hb).continues ss
  | mustache _ _ hb => exact (hkept.place hb).continues ss
  | decorator hdata _ =>
    have hnode {m : Mustache} : Statement.Verbatim src values (.decorator m) := trivial
    exact ((hkept.free_of_isData hdata).append hnode).continues ss
  | comment _ hb => exact (hkept.placeComment hb).continues ss
  | partialCall hcomment _ => exact absurd ⟨hcomment, .inl rfl⟩ hcuts
  | block hblock | decoratorBlock hblock =>
    have hcomment := State.isComment_of_isData (block_ok hblock).1
    simp [isSectioned, hcomment] at hflat
  | partialBlock hcomment _ _ => simp [isSectioned, hcomment] at hflat

theorem Free.pushBody (h : a.Free src values) : a.pushBody.2.Free src values :=
  ⟨h.notOpening, fun p => ⟨(h.kept p).mode, (h.kept p).notData,
    let ⟨r, hreads, hholds⟩ := (h.kept p).holds
    ⟨r, hreads, List.forall_mem_cons.mpr ⟨⟨fun _ hs => (nomatch hs), nofun⟩, hholds.frames⟩,
      hholds.startTag, hholds.text, hholds.pending⟩⟩⟩

theorem verbatim_popExpecting {s t : OpenElements} {id : Nat} {frame : Frame}
    (h : ∀ f ∈ s.frames, f.2.Verbatim src values) (hpop : s.popExpecting src id = .ok (frame, t)) :
    frame.Verbatim src values ∧ ∀ f ∈ t.frames, f.2.Verbatim src values := by
  unfold OpenElements.popExpecting at hpop
  split at hpop
  · rename_i hframes
    split at hpop
    · cases hpop
      rw [hframes] at h
      exact List.forall_mem_cons.mp h
    · split at hpop <;> simp [fault] at hpop
  · simp [fault] at hpop

theorem Inside.verbatim {fallback : Nat} {p : Mustache.Program Mustache.Statement}
    {nodes : Section Statement} (h : Inside src (KeepsText src values) a fallback p nodes b)
    (hjoined : p.Joined src)
    (hcuts : ∀ s a', Passes src a.pushBody.2 p.body (.reads s a') → ¬ a'.Cuts s)
    (ha : a.Free src values) :
    b.Free src values
      ∧ Section.All (·.Verbatim src) (fun a => values → a.Verbatim src) nodes := by
  obtain ⟨hsection, hinside⟩ := h
  obtain ⟨inside, frame, stack, hstatements, hfinish, hpop, rfl, rfl⟩ := sectionOf_ok hsection
  obtain ⟨body, params, chained⟩ := p
  obtain ⟨q, hkept⟩ := hinside inside hstatements hjoined hcuts (ha.pushBody.continues _)
  have hfree := hkept.free_of_isData (isData_of_finish hfinish)
  have hpopped (p : Position) :=
    verbatim_popExpecting (hfree.kept p).holds.choose_spec.2.frames hpop
  refine ⟨⟨hfree.notOpening, fun p => ⟨(hfree.kept p).mode, (hfree.kept p).notData, ?_⟩⟩,
    statementsAll_iff.mpr (hpopped .first).1.children⟩
  obtain ⟨r, hreads, hholds⟩ := (hfree.kept p).holds
  exact ⟨r, hreads, (hpopped p).2, hholds.startTag, hholds.text, hholds.pending⟩

theorem Inside?.verbatim {fallback : Nat} {p : Option (Mustache.Program Mustache.Statement)}
    {nodes : Option (Section Statement)}
    (h : Inside? src (KeepsText src values) a fallback p nodes b)
    (hjoined : Mustache.sectionJoined src p)
    (hcuts : ∀ q, p = some q → ∀ s a', Passes src a.pushBody.2 q.body (.reads s a') → ¬ a'.Cuts s)
    (ha : a.Free src values) :
    b.Free src values
      ∧ sectionAll (·.Verbatim src) (fun a => values → a.Verbatim src) nodes := by
  cases p with
  | none =>
    obtain ⟨rfl, rfl⟩ := h
    exact ⟨ha, trivial⟩
  | some p =>
    obtain ⟨s, rfl, hs⟩ := h
    exact hs.verbatim hjoined (hcuts p rfl) ha

theorem keepsText (hvalues : values → '\\' ∉ src.text)
    (hescape : ¬ ['<', '\\', '{', '{'] <:+: src.text) : Follows src (KeepsText src values) where
  nil _ _ _ h := h.kept
  flat hflat hb ih hjoined hcuts h :=
    ih hjoined.2.2 (fun s' a' hs' => hcuts s' a' (.later hb hs'))
      (h.flat hjoined hvalues hescape (hcuts _ _ .reads) hflat hb)
  block {a mid b c s child m node ss program inverse} hs hdata hcall hprogram hinverse hp hi hblock
      hb ih hjoined hcuts h := by
    obtain ⟨p, hkept⟩ := h.kept
    have hs' : s = .block m ∨ s = .decoratorBlock m := hs.imp And.left And.left
    have hsections :
        Mustache.sectionJoined src m.program ∧ Mustache.sectionJoined src m.inverse := by
      rcases hs' with rfl | rfl <;> exact hjoined.1
    obtain ⟨hmid, hprogram'⟩ := hprogram.verbatim hsections.1
      (fun q hq s' a' hs'' => hcuts s' a' (.inside (.program hs' hdata hcall hq) hs''))
      (hkept.free_of_isData hdata)
    obtain ⟨hafter, hinverse'⟩ := hinverse.verbatim hsections.2
      (fun q hq s' a' hs'' =>
        hcuts s' a' (.inside (.inverse hs' hdata hcall hprogram.read hq) hs''))
      hmid
    have hchild : child.Verbatim src values := by
      obtain ⟨call, program', inverse', openStrip, inverseStrip, closeStrip, span⟩ := node
      obtain rfl : program' = _ := hp
      obtain rfl : inverse' = _ := hi
      have hnode : Section.All (·.Verbatim src) (fun a => values → a.Verbatim src)
          (program.getD ⟨[], [], false, .empty (src.spanFor m.loc).start⟩) := by
        cases program with
        | none => trivial
        | some s => exact hprogram'
      rcases hs with ⟨-, rfl⟩ | ⟨-, rfl⟩ <;> exact ⟨hnode, hinverse'⟩
    exact ih hjoined.2.2 (fun s' a' hs'' => hcuts s' a' (.later hb hs''))
      ((hafter.append hchild).continues ss)
  partialBlock hcomment _ _ _ _ _ hcuts _ :=
    absurd ⟨hcomment, .inr rfl⟩ (hcuts _ _ .reads)

end Tree.Assembly

namespace Tree

theorem Attribute.origin_of_mem {x : Item} {a : Attribute} (h : x ∈ a.items) :
    x.1 = .mustache ∨ x.1 = .literal := by
  have hdynamic {d : Dynamic} (h : x ∈ d.items) : x.1 = .mustache ∨ x.1 = .literal := by
    cases d <;> obtain rfl := List.mem_singleton.mp h
    exacts [.inl rfl, .inr rfl]
  obtain ⟨name, value, span⟩ := a
  cases value with
  | text t => cases h
  | dynamic d => exact hdynamic h
  | concat parts span =>
    obtain ⟨part, -, hpart⟩ := List.mem_flatMap.mp h
    cases part with
    | text t => cases hpart
    | dynamic d => exact hdynamic hpart

theorem Markup.origin_of_losesIn {src : Source} {x : Item} {es : List Html.Event} {m : Markup}
    (h : x ∈ m.losesIn src es) : x.1 = .mustache ∨ x.1 = .literal := by
  induction es generalizing m with
  | nil => cases h
  | cons e es ih =>
    rcases List.mem_append.mp h with h | h
    · unfold loses at h
      repeat' split at h
      all_goals first
        | exact absurd h (List.not_mem_nil)
        | obtain ⟨a, -, ha⟩ := List.mem_flatMap.mp h
          exact a.origin_of_mem ha
    · split at h
      · exact ih h
      · cases h

end Tree

open HtmlTemplate.Tree (Assembly)
open HtmlTemplate.Tree.Assembly (collectAll written lost)

private theorem exists_item_of_cuts {text : List Char} {options : Options} {t : Tree.Template}
    (h : preprocess text options = .ok t) {s : Mustache.Statement} {a : Assembly}
    (hs : Passes text options (.reads s a)) (hcuts : a.Cuts s) :
    ∃ i ∈ t.items, i.1 = .partialCall ∨ i.1 = .partialBlock := by
  obtain ⟨program, b, hparse, hb, hperm⟩ := items_perm h
  obtain ⟨hcomment, horigin⟩ := hcuts
  have hpasses := (passes_iff hparse (by simp)).mp hs
  obtain ⟨origin, hs, hpartial⟩ : ∃ origin, s.origin? = some origin
      ∧ (origin = .partialCall ∨ origin = .partialBlock) := by
    rcases horigin with h | h
    exacts [⟨_, h, .inl rfl⟩, ⟨_, h, .inr rfl⟩]
  have hwritten : (origin, Source.spanFor ⟨text, options.moduleName⟩ s.loc)
      ∈ a.written ⟨text, options.moduleName⟩ s := by
    simp [written, hcomment, Mustache.Statement.item, hs]
  have hall := ((Assembly.collects _ _ _).statements program.body hb).mpr ⟨s, a, hpasses, hwritten⟩
  rcases List.mem_append.mp (hperm.mem_iff.mpr hall) with hitem | hlost
  · exact ⟨_, hitem, hpartial⟩
  · obtain ⟨s', a', -, hlost⟩ := ((Assembly.collects _ _ _).statements program.body hb).mp hlost
    have hmustache := Tree.Markup.origin_of_losesIn hlost
    rcases hpartial with rfl | rfl <;> simp at hmustache

/-- In a template without partials that is read to be written back, every text is what stands at
its place, and so is every text of an attribute if no backslash is in the template. Only a `<`
right before escaped braces is put into the same text as these. -/
theorem preprocess_verbatim {text : List Char} {options : Options} {t : Tree.Template}
    (hmode : options.mode = .codemod) (h : preprocess text options = .ok t)
    (hparts : ∀ i ∈ t.items, i.1 ≠ .partialCall ∧ i.1 ≠ .partialBlock)
    (hescape : ¬ ['<', '\\', '{', '{'] <:+: text) :
    t.All (·.Verbatim ⟨text, options.moduleName⟩)
      fun a => '\\' ∉ text → a.Verbatim ⟨text, options.moduleName⟩ := by
  obtain ⟨program, a, stack, hparse, ha, -, hpop, -⟩ := preprocess_ok h
  have hinitial :
      (Assembly.initial options.mode).Free ⟨text, options.moduleName⟩ ('\\' ∉ text) := by
    refine Assembly.free_of_other hmode Html.State.noConfusion Html.State.noConfusion rfl
      ⟨fun f hf => ?_, nofun, nofun, fun _ _ ha => nomatch ha⟩
    obtain rfl := List.mem_singleton.mp hf
    exact ⟨fun _ hs => (nomatch hs), nofun⟩
  have hcuts : ∀ s a', Assembly.Passes ⟨text, options.moduleName⟩ (.initial options.mode)
      program.body (.reads s a') → ¬ a'.Cuts s := by
    intro s a' hs hcuts
    obtain ⟨i, hi, hpartial⟩ := exists_item_of_cuts h (.statements hparse hs) hcuts
    rcases hpartial with hpartial | hpartial
    · exact (hparts i hi).1 hpartial
    · exact (hparts i hi).2 hpartial
  have hjoined : Mustache.allJoined ⟨text, options.moduleName⟩ program.body := by
    obtain ⟨body, params, chained⟩ := program
    exact Mustache.parse_joined _ hparse
  have hkeeps : Assembly.Follows ⟨text, options.moduleName⟩ (Assembly.KeepsText _ ('\\' ∉ text)) :=
    Assembly.keepsText id hescape
  obtain ⟨p, hkept⟩ := hkeeps.statements
    program.body ha hjoined hcuts (hinitial.continues _)
  obtain ⟨r, -, hholds⟩ := hkept.holds
  exact Tree.statementsAll_iff.mpr
    (Assembly.verbatim_popExpecting hholds.frames hpop).1.children

/-- A text that has lost its start, after a quoted value and a mustache. -/
theorem preprocess_verbatim_trimmed :
    ∃ t, preprocess "<a b='c'>{{d~}}\n e</a>".toList { mode := .codemod } = .ok t
      ∧ (∀ i ∈ t.items, i.1 ≠ .partialCall ∧ i.1 ≠ .partialBlock)
      ∧ ¬ ['<', '\\', '{', '{'] <:+: "<a b='c'>{{d~}}\n e</a>".toList
      ∧ t.All (·.Verbatim ⟨"<a b='c'>{{d~}}\n e</a>".toList, none⟩) fun a =>
          '\\' ∉ "<a b='c'>{{d~}}\n e</a>".toList →
            a.Verbatim ⟨"<a b='c'>{{d~}}\n e</a>".toList, none⟩ := by
  have hscan : Mustache.scan "<a b='c'>{{d~}}\n e</a>".toList = .ok
      [.onLine (.content "<a b='c'>".toList) 0 9, .onLine (.opener .escaped) 9 11,
        .onLine (.name ['d'] false) 11 12, .onLine .close 12 15 ⟨false, true⟩,
        { symbol := .content "\n e</a>".toList, loc := ⟨⟨1, 15⟩, ⟨2, 6⟩⟩ },
        { symbol := .endOfInput, loc := ⟨⟨2, 6⟩, ⟨2, 6⟩⟩ }] := by decide +kernel
  have hparse := Mustache.parse_of_tokens false hscan (by cbv)
  have hitems : (preprocess "<a b='c'>{{d~}}\n e</a>".toList { mode := .codemod }).map (·.items)
      = .ok [(.mustache, ⟨9, 15⟩)] := by
    rw [preprocess_of_parse { mode := .codemod } hparse]
    decide +kernel
  have hescape : ¬ ['<', '\\', '{', '{'] <:+: "<a b='c'>{{d~}}\n e</a>".toList := by
    decide +kernel
  obtain ⟨t, ht, hitems⟩ := map_eq_ok.mp hitems
  have hparts : ∀ i ∈ t.items, i.1 ≠ .partialCall ∧ i.1 ≠ .partialBlock := by
    rw [hitems]
    decide
  exact ⟨t, ht, hparts, hescape, preprocess_verbatim rfl ht hparts hescape⟩

/-- After a `<` the backslash that escapes braces is in the place of a text and not among its
characters. -/
theorem not_verbatim_escapedBraces :
    ∃ t, preprocess ['<', '\\', '{', '{', 'a'] { mode := .codemod } = .ok t ∧ t.items = []
      ∧ t.body.map (·.span) = [⟨0, 5⟩]
      ∧ ¬ t.All (·.Verbatim ⟨['<', '\\', '{', '{', 'a'], none⟩) fun _ => True := by
  have hscan : Mustache.scan ['<', '\\', '{', '{', 'a'] = .ok
      [.onLine (.content ['<']) 0 1, .onLine (.content ['{', '{', 'a']) 2 5,
        .onLine .endOfInput 5 5] := by decide +kernel
  have hparse := Mustache.parse_of_tokens false hscan (by cbv)
  have hread : preprocess ['<', '\\', '{', '{', 'a'] { mode := .codemod }
      = .ok ⟨[.text ⟨['<', '{', '{', 'a'], ⟨0, 5⟩⟩], [], ⟨0, 5⟩⟩ :=
    (preprocess_of_parse { mode := .codemod } hparse).trans (by rfl)
  refine ⟨_, hread, rfl, rfl, fun hall => ?_⟩
  obtain ⟨htext, -⟩ := hall
  have hslice : Source.slice ⟨['<', '\\', '{', '{', 'a'], none⟩ ⟨0, 5⟩ = ['<', '{', '{', 'a'] :=
    htext
  exact absurd hslice (by decide +kernel)

end HtmlTemplate
