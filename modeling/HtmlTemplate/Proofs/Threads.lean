import HtmlTemplate.Proofs.Abutting
import HtmlTemplate.Proofs.Segments
import HtmlTemplate.Proofs.Spelling
import HtmlTemplate.Proofs.Tiling

/-! The tokens of a template while its statements are read one after the other. Those in front of
a statement end before it and the others are still to be read, so it is known of any stretch of
the text whether a mustache begins there: only the first token of a mustache does. -/

namespace HtmlTemplate.Mustache

/-- A mustache whose value is printed begins with such a symbol. -/
def Symbol.opensMustache : Symbol → Bool
  | .opener .escaped | .opener .raw | .opener .ampersand => true
  | _ => false

theorem Symbol.opensMustache_of_isInner {s : Symbol} (h : s.isInner = true) :
    s.opensMustache = false := by
  cases s <;> first | rfl | cases h

theorem IsTag.not_opensMustache {o : Opener} {tag : List Token} (h : IsTag (.opener o) tag)
    (ho : Symbol.opensMustache (.opener o) = false) :
    ∀ t ∈ tag, t.symbol.opensMustache = false := by
  cases h with
  | braces hopener hinner hcloser =>
    refine List.forall_mem_cons.mpr ⟨hopener ▸ ho, List.forall_mem_append.mpr
      ⟨fun t ht => Symbol.opensMustache_of_isInner (hinner t ht), ?_⟩⟩
    refine List.forall_mem_singleton.mpr ?_
    rcases hcloser with hcloser | hcloser <;> rw [hcloser] <;> rfl

variable {ts : List Token} {lo mid hi : Position}

def Quiet (ts : List Token) (lo hi : Position) : Prop :=
  ∀ t ∈ ts, t.symbol.opensMustache = true → t.loc.stop ≤ lo ∨ hi ≤ t.loc.start

theorem Sorted.stop_le {front rest : List Token} {last : Token}
    (h : Sorted lo (front ++ last :: rest)) :
    ∀ t ∈ front ++ [last], t.loc.stop ≤ last.loc.stop := by
  induction front generalizing lo with
  | nil => exact List.forall_mem_singleton.mpr (le_refl _)
  | cons first front ih => exact List.forall_mem_cons.mpr ⟨h.2.2.after.1, ih h.2.2⟩

structure ReadTo (ts before toks : List Token) (lo : Position) : Prop where
  eq : ts = before ++ toks
  before : ∀ t ∈ before, t.loc.stop ≤ lo
  sorted : Sorted lo toks

namespace ReadTo

variable {before toks tag rest : List Token} {last : Token}

theorem later (h : ReadTo ts before toks lo) (hlast : last :: rest <:+ toks) :
    ∃ tag, toks = tag ++ rest ∧ ReadTo ts (before ++ tag) rest last.loc.stop := by
  obtain ⟨front, rfl⟩ := hlast
  obtain ⟨hle, hrest⟩ := h.sorted.after
  refine ⟨front ++ [last], by simp, by simp [h.eq], ?_, hrest⟩
  exact List.forall_mem_append.mpr
    ⟨fun t ht => le_trans (h.before t ht) hle, h.sorted.stop_le⟩

theorem quiet (h : ReadTo ts before toks lo) (h' : ReadTo ts (before ++ tag) rest hi)
    (htag : ∀ t ∈ tag, t.symbol.opensMustache = false) : Quiet ts lo hi := by
  intro t ht hopens
  rw [h'.eq] at ht
  rcases List.mem_append.mp ht with ht | ht
  · rcases List.mem_append.mp ht with ht | ht
    · exact .inl (h.before t ht)
    · rw [htag t ht] at hopens
      cases hopens
  · exact .inr (h'.sorted.le_of_mem ht)

end ReadTo

theorem Symbol.opensMustache_of_prints {o : Opener} (h : o.prints = true) :
    Symbol.opensMustache (.opener o) = true := by
  cases o <;> first | rfl | cases h

theorem loc_of_bare {s s' : Statement} (h : s.bare = s'.bare) : s.loc = s'.loc := by
  rw [← loc_bare s, h, loc_bare]

def Threaded (ts : List Token) (lo : Position) (ss : List Statement) : Prop :=
  ∃ before toks r, ReadTo ts before toks lo ∧ statements toks = .ok r
    ∧ bareAll r.value = bareAll ss

def ReadAfter (ts : List Token) (lo : Position) (s : Statement) : Prop :=
  ∃ before t toks, ∃ r : Parsed (t :: toks) Statement, ReadTo ts before (t :: toks) lo
    ∧ statement (t :: toks) = .ok r ∧ r.value.bare = s.bare

variable {s : Statement} {ss : List Statement}

theorem Between.threaded {opening closing : Token} (h : Between ts ss opening closing)
    (hts : Sorted lo ts) : Threaded ts opening.loc.stop ss := by
  obtain ⟨before, inside, after, written, hle, rfl, -, -, hwritten, hbare⟩ := h
  refine ⟨before ++ [opening], _, _, ⟨by simp, hts.stop_le, hts.after.2⟩, hwritten, hbare⟩

theorem parse_threaded {text : List Char} {keepLines : Bool} {p : Program Statement}
    (h : parse text keepLines = .ok p) :
    ∃ ts, scan text = .ok ts ∧ Threaded ts .first p.body := by
  obtain ⟨ts, body, rest, hscan, hbody, -, htrims⟩ := parse_written h
  obtain ⟨_, hgives⟩ := hbody.gives
  exact ⟨ts, hscan, [], ts, _, ⟨rfl, List.forall_mem_nil _, scan_sorted hscan⟩, hgives,
    htrims.1.symm⟩

theorem Threaded.cons (h : Threaded ts lo (s :: ss)) :
    ReadAfter ts lo s ∧ lo ≤ s.loc.start ∧ s.loc.start ≤ s.loc.stop
      ∧ Threaded ts s.loc.stop ss := by
  obtain ⟨before, toks, ⟨written, rest, hrest⟩, hread, hstatements, hbare⟩ := h
  have hbody : bodyRead toks written rest := statements_read toks hstatements
  cases hbody with
  | nil => cases hbare
  | cons _ hw hws =>
    obtain ⟨t, toks, rfl⟩ := hw.exists_cons
    obtain ⟨hbare, hbares⟩ := List.cons.inj hbare
    obtain ⟨-, -, ⟨hstart, hle, -⟩, -⟩ := hw.laid hread.sorted
    obtain ⟨-, -, -, last, hlast, -, hstop⟩ := hw.ends hread.sorted
    obtain ⟨tag, -, hlater⟩ := hread.later hlast
    obtain ⟨_, hgives⟩ := hw.gives
    obtain ⟨_, hmore⟩ := hws.gives
    simp only [loc_of_bare hbare] at hstart hle hstop
    rw [← hstop] at hlater
    exact ⟨⟨before, t, toks, _, hread, hgives, hbare⟩, hstart, hle, _, _, _, hlater, hmore, hbares⟩

namespace ReadAfter

theorem content {c : Content} (h : ReadAfter ts lo (.content c)) : Quiet ts lo c.loc.stop := by
  obtain ⟨before, t, toks, ⟨w, rest, hrest⟩, hread, hw, hbare⟩ := h
  have hw : Statement.Read (t :: toks) w rest := statement_read _ hw
  obtain ⟨-, -, -, last, hlast, -, hstop⟩ := hw.ends hread.sorted
  have hloc : w.loc = c.loc := loc_of_bare hbare
  cases hw with
  | content hsymbol =>
    obtain ⟨tag, htag, hlater⟩ := hread.later hlast
    obtain rfl : tag = [t] := List.append_cancel_right (htag.symm.trans List.singleton_append.symm)
    have hquiet := hread.quiet hlater (List.forall_mem_singleton.mpr (by rw [hsymbol]; rfl))
    rw [← hloc]
    exact hstop ▸ hquiet
  | _ => cases hbare

theorem partialCall {p : PartialCall} (h : ReadAfter ts lo (.partialCall p)) :
    Quiet ts lo p.loc.stop := by
  obtain ⟨before, t, toks, ⟨w, rest, hrest⟩, hread, hw, hbare⟩ := h
  have hw : Statement.Read (t :: toks) w rest := statement_read _ hw
  obtain ⟨-, -, -, last, hlast, -, hstop⟩ := hw.ends hread.sorted
  have hloc : w.loc = p.loc := loc_of_bare hbare
  cases hw with
  | partialCall hsymbol hcall =>
    obtain ⟨tag, htag, histag, -⟩ := hcall.startsTag hsymbol (.inl rfl)
    obtain ⟨tag', htag', hlater⟩ := hread.later hlast
    obtain rfl : tag' = tag := List.append_cancel_right (htag'.symm.trans htag)
    have hquiet := hread.quiet hlater (histag.not_opensMustache rfl)
    rw [← hloc]
    exact hstop ▸ hquiet
  | _ => cases hbare

theorem mustache {m : Interpolation} (h : ReadAfter ts lo (.mustache m)) :
    Quiet ts lo m.loc.start
      ∧ ∃ t ∈ ts, t.symbol.opensMustache = true ∧ t.loc.start = m.loc.start := by
  obtain ⟨before, t, toks, ⟨w, rest, hrest⟩, hread, hw, hbare⟩ := h
  have hw : Statement.Read (t :: toks) w rest := statement_read _ hw
  have hloc : w.loc = m.loc := loc_of_bare hbare
  have hstart : m.loc.start = t.loc.start := by rw [← hloc, (hw.ends hread.sorted).start]
  cases hw with
  | mustache hsymbol hprints =>
    have hopens : t.symbol.opensMustache = true :=
      hsymbol ▸ Symbol.opensMustache_of_prints hprints
    refine ⟨fun u hu _ => ?_, t, hread.eq ▸ List.mem_append_right _ List.mem_cons_self, hopens,
      hstart.symm⟩
    rw [hread.eq] at hu
    rw [hstart]
    rcases List.mem_append.mp hu with hu | hu
    · exact .inl (hread.before u hu)
    · have hsorted : Sorted t.loc.start (t :: toks) := ⟨le_refl _, hread.sorted.2⟩
      exact .inr (hsorted.le_of_mem hu)
  | _ => cases hbare

theorem partialBlock {b : PartialBlock Statement} (h : ReadAfter ts lo (.partialBlock b)) :
    ∃ hi, lo ≤ hi ∧ Quiet ts lo hi ∧ Threaded ts hi b.program.body := by
  obtain ⟨before, t, toks, ⟨w, rest, hrest⟩, hread, hw, hbare⟩ := h
  have hw : Statement.Read (t :: toks) w rest := statement_read _ hw
  cases hw with
  | partialBlock hsymbol hhead hfirst hcloser =>
    obtain ⟨close, -, hsuffix, hleaves, -⟩ := hhead.leaves hread.sorted
    obtain ⟨⟨tag, htag, histag, -⟩, -⟩ := hhead.startsTag hsymbol
    obtain ⟨tag', htag', hlater⟩ := hread.later hsuffix
    obtain rfl : tag' = tag := List.append_cancel_right (htag'.symm.trans htag)
    obtain ⟨_, hgives⟩ := hfirst.gives
    refine ⟨close.loc.stop, hleaves.le, hread.quiet hlater (histag.not_opensMustache rfl), _, _, _,
      hlater, hgives, ?_⟩
    obtain ⟨call, ⟨body, params, chained⟩, openStrip, closeStrip, loc⟩ := b
    simp only [Statement.bare, Statement.partialBlock.injEq, PartialBlock.mk.injEq, Program.bare,
      Program.mk.injEq] at hbare
    exact hbare.2.1.1
  | _ => cases hbare

end ReadAfter

end HtmlTemplate.Mustache
