import HtmlTemplate.Proofs.AttributeRuns
import HtmlTemplate.Proofs.Coordinates
import HtmlTemplate.Proofs.Evaluation
import HtmlTemplate.Proofs.Faults
import HtmlTemplate.Proofs.TextTrims

/-! Where attributes end. An attribute ends with its value, but for one whose value is a mustache
without quotes: that it has ended is only noticed when the next text is read, and the attribute
ends there. So it takes in the blanks that the marker of the mustache trims, and partials. -/

namespace HtmlTemplate

open Text (isBlank)

namespace Source

variable {src : Source} {start stop : Nat} {p q : Position} {c : Char} {cs : List Char}

def Lies (src : Source) (start : Nat) (cs : List Char) (stop : Nat) : Prop :=
  ∃ before after, src.text = before ++ (cs ++ after) ∧ start = byteLength before
    ∧ stop = start + byteLength cs

theorem Covers.lies (h : src.Covers p cs q) :
    src.Lies (src.offsetFor p) cs (src.offsetFor q) := by
  obtain ⟨start, rest, hstands, rfl⟩ := h
  rw [hstands.offsetFor, hstands.after.offsetFor]
  obtain ⟨before, htext, -, rfl⟩ := hstands
  exact ⟨before, rest, htext, rfl, rfl⟩

theorem Lies.slice (h : src.Lies start cs stop) : src.slice ⟨start, stop⟩ = cs := by
  obtain ⟨before, after, htext, rfl, rfl⟩ := h
  simp [Source.slice, htext, dropBytes_append, takeBytes_append]

theorem exists_lies (hstart : src.IsBoundary start) (hstop : src.IsBoundary stop)
    (hle : start ≤ stop) : ∃ cs, src.Lies start cs stop := by
  obtain ⟨before, hbefore, rfl⟩ := hstart
  obtain ⟨all, ⟨after, htext⟩, rfl⟩ := hstop
  obtain ⟨cs, rfl⟩ := prefix_of_byteLength_le hbefore ⟨after, htext⟩ hle
  exact ⟨cs, before, after, by rw [← htext, List.append_assoc], rfl, byteLength_append _ _⟩

theorem Braced.lies {loc : Location} (h : src.Braced (src.spanFor loc)) :
    ∃ more stop, src.Lies (src.offsetFor loc.start) ('{' :: '{' :: more) stop := by
  obtain ⟨inner, hslice⟩ := h
  have hstop : src.IsBoundary (src.spanFor loc).stop := by
    show src.IsBoundary (max _ _)
    rcases Nat.le_total (src.offsetFor loc.stop) (src.offsetFor loc.start) with hle | hle
    · rw [Nat.max_eq_right hle]
      exact src.isBoundary_offsetFor _
    · rw [Nat.max_eq_left hle]
      exact src.isBoundary_offsetFor _
  obtain ⟨cs, hcs⟩ := exists_lies (src.isBoundary_offsetFor loc.start) hstop (Nat.le_max_right _ _)
  obtain rfl : cs = _ := hcs.slice.symm.trans hslice
  exact ⟨_, _, hcs⟩

theorem Lies.braces {gap more : List Char} {inner end_ : Nat} (h : src.Lies start gap stop)
    (hc : src.Begins stop c) (hne : c ≠ '{') (hbraces : src.Lies inner ('{' :: '{' :: more) end_)
    (hle : start ≤ inner) (hle' : inner ≤ stop) : ['{', '{'] <:+: gap := by
  obtain ⟨before, after, htext, rfl, rfl⟩ := h
  obtain ⟨front, behind, hfront, rfl, -⟩ := hbraces
  have hafter : ∃ rest, after = c :: rest := by
    obtain ⟨before', rest, htext', hlength⟩ := hc
    have hdrop := dropBytes_append before' (c :: rest)
    rw [← htext', ← hlength, ← byteLength_append, htext, ← List.append_assoc,
      dropBytes_append] at hdrop
    exact ⟨rest, Option.some.inj hdrop⟩
  obtain ⟨rest, rfl⟩ := hafter
  obtain ⟨first, rfl⟩ := prefix_of_byteLength_le ⟨_, htext.symm⟩ ⟨_, hfront.symm⟩ hle
  rw [htext, List.append_assoc] at hfront
  have hfront := List.append_cancel_left hfront
  rw [byteLength_append, Nat.add_le_add_iff_left] at hle'
  obtain ⟨last, rfl⟩ := prefix_of_byteLength_le ⟨_, hfront.symm⟩ (List.prefix_append gap _) hle'
  rw [List.append_assoc] at hfront
  have hlast := List.append_cancel_left hfront
  -- The braces are in the gap, as what follows it is another character.
  rcases last with _ | ⟨x, _ | ⟨y, last⟩⟩
  · exact absurd (List.cons.inj hlast).1 hne
  · exact absurd (List.cons.inj (List.cons.inj hlast).2).1 hne
  · obtain ⟨rfl, htail⟩ := List.cons.inj hlast
    obtain rfl := (List.cons.inj htail).1
    exact ⟨first, last, by simp⟩

end Source

namespace Mustache

open HtmlTemplate.Tree.Assembly (textStart textStart_first)

variable {src : Source} {c : Content} {lead left : List Char}

theorem textStart_trimmed (hwritten : c.written = lead ++ left)
    (hlead : lead.all isBlank = true) (hvalue : c.value <+: left) (hne : c.value ≠ [])
    (hvisible : lead ≠ [] → ∀ x ∈ c.value.head?, isBlank x = false) :
    textStart c = c.loc.start.after lead := by
  have hprefix : lead ++ c.value <+: c.written :=
    hwritten ▸ (List.prefix_append_right_inj lead).mpr hvalue
  have hinfix : c.value <:+: c.written := (List.suffix_append lead _).isInfix.trans hprefix.isInfix
  obtain ⟨first, hfirst, hstands, hleast⟩ := textStart_first hinfix hne
  obtain ⟨rest, hrest⟩ := hleast lead hprefix
  -- Where the value occurs first would otherwise be a blank.
  have hnil : rest = [] := by
    cases rest with
    | nil => rfl
    | cons b rest =>
      obtain ⟨x, xs, hx⟩ := List.exists_cons_of_ne_nil hne
      rw [hwritten, ← hrest, List.append_assoc, List.prefix_append_right_inj, hx,
        List.cons_append, List.cons_prefix_cons] at hstands
      have hvisible := hvisible (by simp [← hrest]) x (by simp [hx])
      have hblank := List.all_eq_true.mp hlead b (by simp [← hrest])
      rw [hstands.1, hblank] at hvisible
      cases hvisible
  rw [hfirst, ← hrest, hnil, List.append_nil]

theorem allExact_mem {linked : Bool} {s : Statement} {ss : List Statement}
    (h : allExact src linked ss) (hs : s ∈ ss) : s.Exact src linked := by
  induction ss with
  | nil => cases hs
  | cons s' ss ih =>
    rcases List.mem_cons.mp hs with rfl | hs
    · exact h.1
    · exact ih h.2 hs

theorem Statement.IsPartial.braced {linked : Bool} {s : Statement} (h : s.IsPartial)
    (hexact : s.Exact src linked) : src.Braced (src.spanFor s.loc) := by
  cases s with
  | partialCall p => exact hexact.1
  | partialBlock p =>
    obtain ⟨call, ⟨body, params, chained⟩, openStrip, closeStrip, loc⟩ := p
    exact hexact.1
  | _ => cases h

structure Standing (src : Source) (m : Interpolation) (rest : List Statement) : Prop where
  line : 1 ≤ m.loc.start.line
  le : m.loc.start ≤ m.loc.stop
  ordered : ∃ hi, Ordered m.loc.stop hi rest
  joined : allJoined src rest
  exact : ∃ linked, allExact src linked rest
  tiled : ∃ stop, Tiles src m.loc.stop rest stop
  spares : ∀ s ∈ rest.head?, (Statement.mustache m).Spares s

theorem standing {text : List Char} {keepLines : Bool} (name : Option String)
    {program : Program Statement} {m : Interpolation} {rest : List Statement}
    (hparse : parse text keepLines = .ok program)
    (h : Tail program.body (.mustache m :: rest)) : Standing ⟨text, name⟩ m rest := by
  obtain ⟨-, hi, -, -, -, hordered, -⟩ := parse_laid hparse
  obtain ⟨lo, hi, hlo, ⟨hstart, hle, -⟩, -, hrest⟩ := h.ordered hordered
  have hjoined : allJoined ⟨text, name⟩ program.body := by
    have hjoined := parse_joined name hparse
    obtain ⟨body, params, chained⟩ := program
    exact hjoined
  obtain ⟨hbody, htiled⟩ := parse_tiled name hparse
  have htiled : allTiled ⟨text, name⟩ program.body := by
    obtain ⟨body, params, chained⟩ := program
    exact htiled.2
  obtain ⟨linked, -, hexact⟩ := h.exact (parse_exact name hparse)
  obtain ⟨⟨_, stop, -, -, htiles⟩, -⟩ := h.tiled ⟨⟨_, _, hbody⟩, htiled⟩
  obtain ⟨⟨-, _, hwhole, front, rfl⟩, -⟩ := h.of_each (parse_spares hparse)
  exact {
    line := Position.one_le_line_of_le (le_trans hlo hstart) (Nat.le_refl 1)
    le := hle
    ordered := ⟨hi, hrest⟩
    joined := (h.joined hjoined).2.2
    exact := ⟨linked, hexact⟩
    tiled := ⟨stop, htiles⟩
    spares := (List.isChain_cons.mp hwhole.right_of_append).1 }

end Mustache

namespace Tree

open Html (endsName)
open Assembly (Awaits MayEnd textStart le_textStart)

/-- Where an attribute may end whose value is a mustache without quotes. -/
inductive EndsAfter (src : Source) (d : Dynamic) (stop : Nat) : Prop
  /-- At the end of the mustache, as it has no marker on its right. -/
  | here : d.strip.closing = false → d.span.stop = stop → EndsAfter src d stop
  /-- After all blanks that its marker trims. -/
  | trimmed {blanks : List Char} {c : Char} : d.strip.closing = true →
      src.Lies d.span.stop blanks stop → blanks.all isBlank = true →
      src.Begins stop c → isBlank c = false → EndsAfter src d stop
  /-- Further on, where the text up to the end has opening braces in it. -/
  | later {gap : List Char} : src.Lies d.span.stop gap stop → ['{', '{'] <:+: gap →
      EndsAfter src d stop

private theorem dynamic_strip {src : Source} {m : Mustache.Interpolation} {d : Dynamic}
    (h : dynamic src m = .ok d) : d.strip = m.strip := by
  obtain ⟨_, _, -, rfl⟩ | ⟨_, -, rfl⟩ := dynamic_ok h <;> rfl

variable {src : Source} {m : Mustache.Interpolation} {d : Dynamic} {c : Mustache.Content}
  {x : Char} {more rest : List Mustache.Statement}

theorem dynamic_stop (hd : dynamic src m = .ok d) (h : Mustache.Standing src m rest) :
    d.span.stop = src.offsetFor m.loc.stop := by
  rw [dynamic_span hd, src.spanFor_eq h.line h.le]

theorem ne_brace_of_endsName (h : endsName x = true) : x ≠ '{' ∧ x ≠ '\\' := by
  constructor <;> rintro rfl <;> cases h

private theorem head_of_opens {trims : Bool} (hopens : Mustache.opens c.written = true)
    (hvalue : c.value <+: Mustache.applyIf trims Text.trimStart c.written)
    (hx : x ∈ c.value.head?) : x = '{' := by
  obtain ⟨more, hmore⟩ : ['{', '{'] <+: c.written := by
    simpa [Mustache.opens, List.isPrefixOf_iff_prefix] using hopens
  have hkept : Mustache.applyIf trims Text.trimStart c.written = '{' :: '{' :: more := by
    rw [← hmore]
    cases trims <;> rfl
  obtain ⟨xs, hxs⟩ := List.head?_eq_some_iff.mp hx
  rw [hkept, hxs, List.cons_prefix_cons] at hvalue
  exact hvalue.1

private theorem endsAfter_text (hd : dynamic src m = .ok d)
    (h : Mustache.Standing src m (.content c :: more)) (hx : x ∈ c.value.head?)
    (hends : endsName x = true) : EndsAfter src d (src.offsetFor (textStart c)) := by
  have hne : c.value ≠ [] := List.ne_nil_of_mem (List.mem_of_mem_head? hx)
  have hvalue : c.value <+: Mustache.applyIf m.strip.closing Text.trimStart c.written :=
    h.spares _ rfl
  have hstood : c.Stood src := h.joined.1
  have hstart : c.loc.start = m.loc.stop := by
    obtain ⟨-, hfollows, -⟩ := h.tiled
    unfold Source.Follows at hfollows
    split at hfollows
    · rename_i hopens
      exact absurd (head_of_opens hopens hvalue hx) (ne_brace_of_endsName hends).1
    · exact hfollows
  have hstop := dynamic_stop hd h
  rw [← hstart] at hstop
  rw [← dynamic_strip hd] at hvalue
  cases hclosing : d.strip.closing with
  | false =>
    rw [hclosing] at hvalue
    rw [Mustache.Content.textStart_eq hvalue hne]
    exact .here hclosing hstop
  | true =>
    rw [hclosing] at hvalue
    have hvalue : c.value <+: c.written.dropWhile isBlank := hvalue
    have hlead : (c.written.takeWhile isBlank).all isBlank = true :=
      List.all_eq_true.mpr fun b hb => List.mem_takeWhile_imp hb
    have hvisible : isBlank x = false := by
      obtain ⟨xs, hxs⟩ := List.head?_eq_some_iff.mp hx
      obtain ⟨rest, hrest⟩ := hxs ▸ hvalue
      have hhead := List.head?_dropWhile_not isBlank c.written
      rw [← hrest] at hhead
      exact hhead
    have htext := Mustache.textStart_trimmed List.takeWhile_append_dropWhile.symm hlead hvalue hne
      fun _ y hy => Option.some.inj (hx.symm.trans hy) ▸ hvisible
    have hcovers := hstood.covers
    rw [← List.takeWhile_append_dropWhile (p := isBlank) (l := c.written)] at hcovers
    refine .trimmed (c := x) hclosing ?_ hlead ?_ hvisible
    · rw [htext, hstop]
      exact hcovers.left.1.lies
    · obtain ⟨xs, hxs⟩ := List.head?_eq_some_iff.mp hx
      exact (hxs ▸ hstood.covers_value hne).begins

private theorem endsAfter_partial {s : Mustache.Statement} (hd : dynamic src m = .ok d)
    (h : Mustache.Standing src m rest) (hc : c.Stood src) (hx : x ∈ c.value.head?)
    (hends : endsName x = true) (hs : s ∈ rest) (hpartial : s.IsPartial)
    (hle : m.loc.stop ≤ s.loc.start) (hle' : s.loc.start ≤ c.loc.start) :
    EndsAfter src d (src.offsetFor (textStart c)) := by
  have hline : 1 ≤ m.loc.stop.line := Position.one_le_line_of_le h.le h.line
  have hstop := dynamic_stop hd h
  have hbegins : src.Begins (src.offsetFor (textStart c)) x := by
    obtain ⟨xs, hxs⟩ := List.head?_eq_some_iff.mp hx
    exact (hxs ▸ hc.covers_value (hxs ▸ List.cons_ne_nil _ _)).begins
  obtain ⟨linked, hexact⟩ := h.exact
  obtain ⟨inner, stop, hbraces⟩ :=
    (hpartial.braced (Mustache.allExact_mem hexact hs)).lies
  obtain ⟨gap, hgap⟩ := Source.exists_lies (src.isBoundary_offsetFor m.loc.stop)
    (src.isBoundary_offsetFor (textStart c))
    (src.offsetFor_mono hline (le_textStart (le_trans hle hle')))
  have hinside := hgap.braces hbegins (ne_brace_of_endsName hends).1 hbraces
    (src.offsetFor_mono hline hle)
    (src.offsetFor_mono (Position.one_le_line_of_le hle hline) (le_textStart hle'))
  rw [← hstop] at hgap
  exact .later hgap hinside

theorem mayEnd_endsAfter {text : List Char} {keepLines : Bool} (name : Option String)
    {program : Mustache.Program Mustache.Statement}
    (hparse : Mustache.parse text keepLines = .ok program) :
    MayEnd ⟨text, name⟩ (EndsAfter ⟨text, name⟩) program.body := by
  intro m rest d htail hd c hfirst x hx hends
  have hstanding := Mustache.standing name hparse htail
  obtain ⟨hi, hordered⟩ := hstanding.ordered
  rcases hfirst.next hstanding.joined hordered with
    ⟨more, rfl⟩ | hhead | ⟨s, hs, hpartial, hle, hle'⟩
  · exact endsAfter_text hd hstanding hx hends
  · obtain ⟨hbrace, hbackslash⟩ := ne_brace_of_endsName hends
    exact ((hhead x hx).elim hbrace hbackslash).elim
  · exact endsAfter_partial hd hstanding (hfirst.stood hstanding.joined) hx hends hs hpartial hle
      hle'

end Tree

open HtmlTemplate.Tree (EndsAfter)

/-- Each attribute of a template starts where its name does, and ends where its value does, but
for a mustache without quotes around it. Behind that it ends right away, or with a marker on the
right of the mustache after all blanks that follow, or else somewhere after opening braces. -/
theorem attributes_end {text : List Char} {options : Options} {t : Tree.Template}
    (h : preprocess text options = .ok t) :
    ∀ e ∈ t.elements, ∀ a ∈ e.attributes,
      (∃ c cs, a.name = c :: cs ∧ Source.Begins ⟨text, options.moduleName⟩ a.span.start c)
        ∧ (a.value.span.stop = a.span.stop
          ∨ ∃ d, a.value = .dynamic d
            ∧ EndsAfter ⟨text, options.moduleName⟩ d a.span.stop) := by
  intro e he a ha
  obtain ⟨before, after, heq⟩ := List.append_of_mem ha
  obtain ⟨hname, hvalue⟩ := elements_fit h
    (fun _ hparse => Tree.mayEnd_endsAfter options.moduleName hparse) e he before a after heq
  refine ⟨?_, ?_⟩
  · generalize hcs : a.name = name at hname
    cases hname with
    | mk hbegins => exact ⟨_, _, rfl, hbegins⟩
  · cases hcase : a.value with
    | dynamic d =>
      rw [hcase] at hvalue
      exact .inr ⟨d, rfl, hvalue⟩
    | text t =>
      rw [hcase] at hvalue
      exact .inl hvalue
    | concat parts span =>
      rw [hcase] at hvalue
      exact .inl hvalue

/-- A mustache that trims the blank after it. -/
def trimmedValue : List Char :=
  "<a b={{c~}} ></a>".toList

theorem attributes_end_trimmed :
    ∃ t, preprocess trimmedValue {} = .ok t ∧ ∃ e ∈ t.elements, ∃ a ∈ e.attributes,
      (∃ c cs, a.name = c :: cs ∧ Source.Begins ⟨trimmedValue, none⟩ a.span.start c)
        ∧ a.value.span.stop = 11 ∧ a.span.stop = 12
        ∧ ∃ d, a.value = .dynamic d ∧ EndsAfter ⟨trimmedValue, none⟩ d a.span.stop := by
  have hscan : Mustache.scan trimmedValue = .ok
      [.onLine (.content "<a b=".toList) 0 5, .onLine (.opener .escaped) 5 7,
        .onLine (.name ['c'] false) 7 8, .onLine .close 8 11 ⟨false, true⟩,
        .onLine (.content " ></a>".toList) 11 17, .onLine .endOfInput 17 17] := by decide +kernel
  have hparse := Mustache.parse_of_tokens false hscan (by cbv)
  have hok : (preprocess trimmedValue {}).toOption.any (fun t => t.elements.any fun e =>
      e.attributes.any fun a => a.value.span.stop == 11 && a.span.stop == 12) = true := by
    rw [preprocess_of_parse {} hparse]
    decide +kernel
  obtain ⟨t, h, hok⟩ := exists_of_any hok
  obtain ⟨e, he, hok⟩ := List.any_eq_true.mp hok
  obtain ⟨a, ha, hok⟩ := List.any_eq_true.mp hok
  obtain ⟨hvalue, hstop⟩ := Bool.and_eq_true_iff.mp hok
  have hvalue : a.value.span.stop = 11 := eq_of_beq hvalue
  have hstop : a.span.stop = 12 := eq_of_beq hstop
  obtain ⟨hname, hends⟩ := attributes_end h e he a ha
  refine ⟨t, h, e, he, a, ha, hname, hvalue, hstop, hends.resolve_left ?_⟩
  rw [hvalue, hstop]
  decide

end HtmlTemplate
