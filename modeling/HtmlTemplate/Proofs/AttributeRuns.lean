import HtmlTemplate.Proofs.Siblings
import HtmlTemplate.Proofs.TagAttributes
import HtmlTemplate.Proofs.Tails

/-! The attributes of the start tags of a template. What is known of those under way is kept by
each statement: a mustache ends a name or is put into a value, and where it is all of a value
without quotes, the text that is read next ends it or goes on with it. -/

namespace HtmlTemplate.Tree

open Html (endsName)

namespace Markup

variable {src : Source} {E : Ends} {may : Dynamic → Prop} {m n : Markup} {state : Html.State}

theorem withStartTag_attributes {span : Span} {f : StartTag → StartTag}
    (hf : ∀ t, (f t).attributes = t.attributes) (h : m.withStartTag src span f = .ok n) :
    n.attributes = m.attributes ∧ n.pending = m.pending := by
  obtain ⟨t, hcurrent, rfl⟩ := withStartTag_ok h
  refine ⟨?_, rfl⟩
  rw [attributes, attributes, hcurrent]
  exact hf t

theorem Tracks.settled (hattributes : EachFits src E m.attributes) (hpending : m.pending = none)
    (hstate : state.isInAttribute = false) : m.Tracks src E may state :=
  ⟨hattributes, .none hstate hpending⟩

end Markup

namespace Assembly

variable {src : Source} {E : Ends} {may may' : Dynamic → Prop} {a b : Assembly}

def Tracks (src : Source) (E : Ends) (may : Dynamic → Prop) (a : Assembly) : Prop :=
  a.markup.Tracks src E may a.tokenizer.state

def Awaits (src : Source) (E : Ends) (ss : List Mustache.Statement) (d : Dynamic) : Prop :=
  ∀ c, Mustache.FirstText ss c → ∀ x ∈ c.value.head?, endsName x = true →
    E d (src.offsetFor (textStart c))

theorem content_tracks {c : Mustache.Content} {ss : List Mustache.Statement}
    (h : a.Tracks src E (Awaits src E (.content c :: ss))) (hc : c.Stood src)
    (hb : a.content src c = .ok b) :
    b.Tracks src E (Awaits src E ss)
      ∧ ∀ t ∈ endedTags src a (.content c), EachFits src E t.attributes := by
  obtain ⟨hmarkup, htokenizer⟩ := content_ok hb
  rw [report, List.map_append, List.foldlM_append, bind_eq_ok] at hmarkup
  obtain ⟨k, hfed, hfinished⟩ := hmarkup
  have hstart : a.markup.Tracks src E (Awaits src E (.content c :: ss))
      (a.tokenizer.moveTo (textStart c)).state := h
  obtain ⟨hk, hends⟩ := hstart.feed hc.covers_value
    (fun d hd x hx => hd c (.here (List.ne_nil_of_mem (List.mem_of_mem_head? hx))) x hx) hfed
  obtain ⟨hn, hends'⟩ := hk.finishData hfinished
  refine ⟨?_, ?_⟩
  · rw [Tracks, htokenizer]
    exact hn.imp fun d hd e he => hd.2 e (.empty hd.1 he)
  · rw [endedTags, told, report, List.map_append]
    exact Markup.endsFit_append hfed hends hends'

theorem commentText_tracks {loc : Location} (h : a.Tracks src E may)
    (hcomment : a.tokenizer.state.isComment = true) (hb : a.commentText src loc = .ok b) :
    b.Tracks src E may'
      ∧ a.markup.EndsFit src E
          ((a.tokenizer.appendComment (src.slice (src.spanFor loc))).1.map (·.event)) := by
  have hapart := Html.State.isInAttribute_of_isComment hcomment
  obtain ⟨hmarkup, htokenizer⟩ := follow_told hb
  obtain ⟨hfits, hnone, hends⟩ := Markup.reports_apart (eachFits_nil src E)
    (Html.Tokenizer.isAttributePart_appendComment _ _) h.attributes
    (h.underway.pending_none hapart) hmarkup
  refine ⟨?_, hends⟩
  rw [Tracks, htokenizer, Html.Tokenizer.now_appendComment]
  exact .settled hfits hnone rfl

theorem endAttribute_fits (h : a.Tracks src E may) (hnaming : a.tokenizer.state.isNaming = true)
    (hb : a.endAttribute src = .ok b) :
    EachFits src E b.markup.attributes ∧ b.markup.pending = none := by
  simp only [endAttribute, withMarkup, bind_eq_ok, pure_eq_ok] at hb
  obtain ⟨m, hm, rfl⟩ := hb
  obtain ⟨p, hpending, hname, huntouched⟩ := h.underway.pending_naming hnaming
  obtain ⟨hfits, hnone, -⟩ := Markup.finishBare_fits h.attributes hpending hname huntouched hm
  exact ⟨hfits, hnone⟩

theorem Tracks.append (h : a.Tracks src E may) (node : Statement) :
    (a.append node).Tracks src E may :=
  Markup.Tracks.congr h rfl rfl

private theorem addModifier_attributes {d : Dynamic} (hb : a.addModifier src d = .ok b) :
    b.markup.attributes = a.markup.attributes ∧ b.markup.pending = a.markup.pending
      ∧ b.tokenizer = a.tokenizer := by
  cases d with
  | call m =>
    simp only [addModifier, withMarkup, bind_eq_ok, pure_eq_ok] at hb
    obtain ⟨n, hn, rfl⟩ := hb
    obtain ⟨hattributes, hpending⟩ := Markup.withStartTag_attributes
      (f := fun t => { t with modifiers := t.modifiers ++ [_] }) (fun _ => rfl) hn
    exact ⟨hattributes, hpending, rfl⟩
  | literal m => cases hb

private theorem addTagComment_attributes {c : Comment}
    (hb : a.withMarkup (·.addTagComment src c) = .ok b) :
    b.markup.attributes = a.markup.attributes ∧ b.markup.pending = a.markup.pending
      ∧ b.tokenizer = a.tokenizer := by
  simp only [withMarkup, bind_eq_ok, pure_eq_ok] at hb
  obtain ⟨n, hn, rfl⟩ := hb
  obtain ⟨hattributes, hpending⟩ := Markup.withStartTag_attributes
    (f := fun t => { t with comments := t.comments ++ [c] }) (fun _ => rfl) hn
  exact ⟨hattributes, hpending, rfl⟩

inductive Puts (src : Source) (a b : Assembly) : Prop
  | apart : a.tokenizer.state.isInAttribute = false → b.tokenizer.state.isInAttribute = false →
      b.markup.attributes = a.markup.attributes → b.markup.pending = a.markup.pending →
      Puts src a b
  | ends {c : Assembly} : a.tokenizer.state.isNaming = true → a.endAttribute src = .ok c →
      b.markup.attributes = c.markup.attributes → b.markup.pending = c.markup.pending →
      b.tokenizer.state.isInAttribute = false → Puts src a b

theorem Puts.append (hapart : a.tokenizer.state.isInAttribute = false) (node : Statement) :
    Puts src a (a.append node) :=
  .apart hapart hapart rfl rfl

theorem place_puts {d : Dynamic} (hb : a.place src d = .ok b) :
    Puts src a b
      ∨ a.tokenizer.state = .beforeAttributeValue
        ∧ b = Assembly.become { a with
            markup := (a.markup.beginValue false (a.offset src)).addValuePart d }
            .attributeValueUnquoted
      ∨ a.tokenizer.state.isAttributeValue = true
        ∧ b = { a with markup := a.markup.addValuePart d } := by
  unfold place at hb
  split at hb
  · cases hb
  · cases hb
  · rename_i hstate
    obtain ⟨hattributes, hpending, htokenizer⟩ := addModifier_attributes hb
    have hapart : a.tokenizer.state.isInAttribute = false := by rw [hstate]; rfl
    exact .inl (.apart hapart (htokenizer ▸ hapart) hattributes hpending)
  · rename_i hstate
    simp only [bind_eq_ok, pure_eq_ok] at hb
    obtain ⟨a₁, h₁, a₂, h₂, rfl⟩ := hb
    obtain ⟨hattributes, hpending, -⟩ := addModifier_attributes h₂
    exact .inl (.ends (by rw [hstate]; rfl) h₁ hattributes hpending rfl)
  · rename_i hstate
    simp only [bind_eq_ok, pure_eq_ok] at hb
    obtain ⟨a₁, h₁, a₂, h₂, rfl⟩ := hb
    obtain ⟨hattributes, hpending, -⟩ := addModifier_attributes h₂
    exact .inl (.ends (by rw [hstate]; rfl) h₁ hattributes hpending rfl)
  · rename_i hstate
    simp only [bind_eq_ok, pure_eq_ok] at hb
    obtain ⟨a₁, h₁, rfl⟩ := hb
    obtain ⟨hattributes, hpending, -⟩ := addModifier_attributes h₁
    exact .inl (.apart (by rw [hstate]; rfl) rfl hattributes hpending)
  · rename_i hstate
    exact .inr (.inl ⟨hstate, (Except.ok.inj hb).symm⟩)
  iterate 3
    rename_i hstate
    exact .inr (.inr ⟨by rw [hstate]; rfl, (Except.ok.inj hb).symm⟩)
  · obtain rfl := Except.ok.inj hb
    have hapart : a.tokenizer.state.isInAttribute = false := by
      cases hstate : a.tokenizer.state <;> simp_all [Html.State.isInAttribute,
        Html.State.isNaming, Html.State.isAttributeValue]
    exact .inl (.append hapart _)

theorem placeComment_puts {c : Comment} (hb : a.placeComment src c = .ok b) : Puts src a b := by
  unfold placeComment at hb
  split at hb
  · rename_i hstate
    obtain ⟨hattributes, hpending, htokenizer⟩ := addTagComment_attributes hb
    have hapart : a.tokenizer.state.isInAttribute = false := by rw [hstate]; rfl
    exact .apart hapart (htokenizer ▸ hapart) hattributes hpending
  · rename_i hstate
    simp only [bind_eq_ok, pure_eq_ok] at hb
    obtain ⟨a₁, h₁, a₂, h₂, rfl⟩ := hb
    obtain ⟨hattributes, hpending, -⟩ := addTagComment_attributes h₂
    exact .ends (by rw [hstate]; rfl) h₁ hattributes hpending rfl
  · rename_i hstate
    obtain rfl := Except.ok.inj hb
    exact .append (by rw [hstate]; rfl) _
  · rename_i hstate
    obtain rfl := Except.ok.inj hb
    exact .append (by rw [hstate]; rfl) _
  · cases hb

theorem Puts.tracks (hputs : Puts src a b) (h : a.Tracks src E may) : b.Tracks src E may' := by
  cases hputs with
  | apart hbefore hafter hattributes hpending =>
    exact .settled (hattributes ▸ h.attributes)
      (hpending.trans (h.underway.pending_none hbefore)) hafter
  | ends hnaming hends hattributes hpending hafter =>
    obtain ⟨hfits, hnone⟩ := endAttribute_fits h hnaming hends
    exact .settled (hattributes ▸ hfits) (hpending.trans hnone) hafter

private theorem addValuePart_tracks {d : Dynamic} (h : a.Tracks src E may)
    (hvalue : a.tokenizer.state.isAttributeValue = true) (hd : may' d) :
    Tracks src E may' { a with markup := a.markup.addValuePart d } := by
  obtain ⟨p, hpending, hname, -, hquoted, -⟩ := h.underway.pending_valuing hvalue
  have hadded : (a.markup.addValuePart d).pending = some (p.addDynamic d) :=
    Markup.pending_mapAttribute hpending _
  have hsame : (p.addDynamic d).name = p.name ∧ (p.addDynamic d).start = p.start
      ∧ (p.addDynamic d).quoted = p.quoted := by
    unfold PendingAttribute.addDynamic PendingAttribute.finishText
    cases p.text <;> exact ⟨rfl, rfl, rfl⟩
  refine ⟨h.attributes, .valuing hvalue hadded ?_ (PendingAttribute.counts_addDynamic p d) ?_ ?_⟩
  · rw [hsame.1, hsame.2.1]
    exact hname
  · rw [hsame.2.2]
    exact hquoted
  · intro d' hd'
    rw [PendingAttribute.eq_of_dangles hd']
    exact hd

theorem place_tracks {d : Dynamic} (h : a.Tracks src E may) (hd : may' d)
    (hb : a.place src d = .ok b) : b.Tracks src E may' := by
  rcases place_puts hb with hputs | ⟨hstate, rfl⟩ | ⟨hstate, rfl⟩
  · exact hputs.tracks h
  · obtain ⟨p, hpending, hname, huntouched⟩ := h.underway.pending_naming (by rw [hstate]; rfl)
    have hbegun : Tracks src E may'
        (Assembly.become { a with markup := a.markup.beginValue false (a.offset src) }
          .attributeValueUnquoted) := by
      refine ⟨h.attributes, .valuing rfl (Markup.pending_mapAttribute hpending _) hname
        (fun hdynamic => ?_) (fun hne => absurd rfl hne) fun d' hd' => ?_⟩
      · simp [huntouched.dynamic] at hdynamic
      · have hparts := hd'.parts
        simp [huntouched.parts] at hparts
    exact addValuePart_tracks hbegun rfl hd
  · exact addValuePart_tracks h hstate hd

/-- The statements to be read are the end of a body of the tree, and what is known of the
attributes is known before them. -/
structure Reaches (src : Source) (E : Ends) (ts : List Mustache.Token)
    (body : List Mustache.Statement) (a : Assembly) (ss : List Mustache.Statement) : Prop where
  laid : Laid src ts a ss
  tail : Mustache.Tail body ss
  tracks : a.Tracks src E (Awaits src E ss)

def MayEnd (src : Source) (E : Ends) (body : List Mustache.Statement) : Prop :=
  ∀ m rest d, Mustache.Tail body (.mustache m :: rest) → dynamic src m = .ok d →
    Awaits src E rest d

variable {ts : List Mustache.Token} {body ss : List Mustache.Statement} {s : Mustache.Statement}

theorem tracks_of_idle (h : a.Idle) : a.Tracks src E may := by
  refine .settled ?_ h.pending (by rw [h.state]; rfl)
  rw [Markup.attributes, h.current]
  exact eachFits_nil src E

theorem Laid.idle (h : Laid src ts a ss) (hdata : a.tokenizer.state.isData = true) : a.Idle := by
  obtain ⟨bottom, base, lo, hi, -, -, -, -, ha⟩ := h
  exact ha.idle hdata

theorem Reaches.statement (h : Reaches src E ts body a (s :: ss))
    (hjoined : Mustache.allJoined src body) (hmay : MayEnd src E body)
    (hb : statement src a s = .ok b) :
    b.Tracks src E (Awaits src E ss) ∧ ∀ t ∈ endedTags src a s, EachFits src E t.attributes := by
  have hdone (hdata : b.tokenizer.state.isData = true) : b.Tracks src E (Awaits src E ss) :=
    tracks_of_idle ((h.laid.tail hb).idle hdata)
  have hquiet (hcomment : a.tokenizer.state.isComment = false) (hne : ∀ c, s ≠ .content c) :
      ∀ t ∈ endedTags src a s, EachFits src E t.attributes := by
    rw [endedTags, told_eq_nil hcomment hne]
    exact List.forall_mem_nil _
  cases statement_ok hb with
  | @content c _ hb => exact content_tracks h.tracks (h.tail.joined hjoined).1 hb
  | commented hne hcomment hb =>
    obtain ⟨hn, hends⟩ : b.Tracks src E (Awaits src E ss) ∧ _ :=
      commentText_tracks h.tracks hcomment hb
    refine ⟨hn, ?_⟩
    rw [endedTags, told, report_of_ne hne, if_pos hcomment]
    exact hends
  | @mustache m d _ hcomment hd hplace =>
    exact ⟨place_tracks h.tracks (hmay m ss d h.tail hd) hplace, hquiet hcomment (by simp)⟩
  | decorator hdata _ =>
    exact ⟨hdone hdata, hquiet (Html.State.isComment_of_isData hdata) (by simp)⟩
  | comment hcomment hplace =>
    exact ⟨(placeComment_puts hplace).tracks h.tracks, hquiet hcomment (by simp)⟩
  | partialCall hcomment _ =>
    exact ⟨.append (h.tracks.imp fun d hd c hc => hd c (.partialCall hc)) _,
      hquiet hcomment (by simp)⟩
  | block hblock | decoratorBlock hblock =>
    have hdata := block_isData hblock
    exact ⟨hdone hdata, hquiet (Html.State.isComment_of_isData (block_ok hblock).1) (by simp)⟩
  | partialBlock hcomment _ hsection =>
    have hdata := sectionOf_isData hsection
    exact ⟨hdone hdata, hquiet hcomment (by simp)⟩

theorem Reaches.later (h : Reaches src E ts body a (s :: ss))
    (hjoined : Mustache.allJoined src body) (hmay : MayEnd src E body)
    (hb : Assembly.statement src a s = .ok b) : Reaches src E ts body b ss :=
  ⟨h.laid.tail hb, h.tail.later, (h.statement hjoined hmay hb).1⟩

theorem Enters.sections {fallback : Nat} {p : Mustache.Program Mustache.Statement}
    (h : Enters src a s fallback p b) : p ∈ s.sections := by
  have hmem {m : Mustache.Block Mustache.Statement} (hs : s = .block m ∨ s = .decoratorBlock m)
      (hp : p ∈ m.program.toList ++ m.inverse.toList) : p ∈ s.sections := by
    rcases hs with rfl | rfl <;> exact hp
  cases h with
  | program hs _ _ hp => exact hmem hs (List.mem_append_left _ (Option.mem_toList.mpr hp))
  | inverse hs _ _ _ hp => exact hmem hs (List.mem_append_right _ (Option.mem_toList.mpr hp))
  | partialBlock => exact List.mem_singleton.mpr rfl

theorem Reaches.inside {fallback : Nat} {p : Mustache.Program Mustache.Statement}
    (h : Reaches src E ts body a (s :: ss)) (he : Enters src a s fallback p b) :
    Reaches src E ts body b.pushBody.2 p.body := by
  refine ⟨h.laid.inside he, h.tail.inside he.sections, ?_⟩
  obtain ⟨bottom, base, lo, hi, hlo, hordered, hfits, htagged, ha⟩ := h.laid
  obtain ⟨-, -, -, -, hidle | ⟨rfl, -, q, rfl⟩⟩ :=
    he.settled hlo hordered.1 hordered.2.1 hfits.1 htagged.1 ha
  · exact tracks_of_idle (a := b.pushBody.2) ⟨hidle.state, hidle.current, hidle.pending⟩
  · obtain rfl := List.mem_singleton.mp he.sections
    have hinside : b.Tracks src E (Awaits src E q.program.body) :=
      h.tracks.imp fun d hd c hc => hd c (.partialBlock hc)
    exact hinside.congr rfl rfl

theorem Passes.reaches (h : Passes src a ss (.reads s b)) (ha : Reaches src E ts body a ss)
    (hjoined : Mustache.allJoined src body) (hmay : MayEnd src E body) :
    ∃ rest, Reaches src E ts body b (s :: rest) :=
  h.kept Reaches.inside (fun ha => ha.later hjoined hmay) ha

end Assembly

end HtmlTemplate.Tree

namespace HtmlTemplate

open HtmlTemplate.Tree (EachFits Ends StartTag)
open HtmlTemplate.Tree.Assembly (MayEnd)

theorem startTags_fit {text : List Char} {options : Options} {E : Ends} {t : Tree.Template}
    {program : Mustache.Program Mustache.Statement} (h : preprocess text options = .ok t)
    (hparse : Mustache.parse text options.keepLines = .ok program)
    (hmay : MayEnd ⟨text, options.moduleName⟩ E program.body) :
    ∀ tag ∈ startTags text options program,
      EachFits ⟨text, options.moduleName⟩ E tag.attributes := by
  obtain ⟨ts, -, -, hlaid⟩ := laid_initial hparse
  have hjoined : Mustache.allJoined ⟨text, options.moduleName⟩ program.body := by
    have hjoined := Mustache.parse_joined options.moduleName hparse
    obtain ⟨body, params, chained⟩ := program
    exact hjoined
  have hinitial : Tree.Assembly.Reaches ⟨text, options.moduleName⟩ E ts program.body
      (.initial options.mode) program.body :=
    ⟨hlaid, .whole, Tree.Assembly.tracks_of_idle ⟨rfl, rfl, rfl⟩⟩
  intro tag htag
  obtain ⟨s, b, c, hreads, hc, htag⟩ := reads_of_mem_startTags h hparse htag
  obtain ⟨rest, hreaches⟩ := hreads.reaches hinitial hjoined hmay
  exact (hreaches.statement hjoined hmay hc).2 tag htag

theorem elements_fit {text : List Char} {options : Options} {E : Ends} {t : Tree.Template}
    (h : preprocess text options = .ok t)
    (hmay : ∀ program, Mustache.parse text options.keepLines = .ok program →
      MayEnd ⟨text, options.moduleName⟩ E program.body) :
    ∀ e ∈ t.elements, EachFits ⟨text, options.moduleName⟩ E e.attributes := by
  intro e he
  obtain ⟨program, tag, kept, hparse, htag, hattributes⟩ := startTag_of_mem_elements h he
  exact hattributes ▸ (startTags_fit h hparse (hmay program hparse) tag htag).take kept

end HtmlTemplate
