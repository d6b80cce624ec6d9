import HtmlTemplate.Proofs.Derivations
import HtmlTemplate.Proofs.Tokens

/-! Every part of the mustache tree lies within the part around it, and the statements of
a body come one after the other. -/

namespace HtmlTemplate

/-- A location between two positions, with its ends in order. -/
def Location.Within (lo hi : Position) (l : Location) : Prop :=
  lo ≤ l.start ∧ l.start ≤ l.stop ∧ l.stop ≤ hi

theorem Location.Within.mono {lo lo' hi hi' : Position} {l : Location}
    (h : l.Within lo hi) (hlo : lo' ≤ lo) (hhi : hi ≤ hi') : l.Within lo' hi' :=
  ⟨le_trans hlo h.1, h.2.1, le_trans h.2.2 hhi⟩

theorem Location.Within.tight {lo hi : Position} {l : Location} (h : l.Within lo hi) :
    l.Within lo l.stop :=
  ⟨h.1, h.2.1, le_refl _⟩

namespace Mustache

mutual

def Expression.Within (lo hi : Position) : Expression → Prop
  | .path p => p.loc.Within lo hi
  | .literal _ loc => loc.Within lo hi
  | .call c loc => loc.Within lo hi ∧ Call.Within loc.start loc.stop c

def Call.Within (lo hi : Position) : Call Expression → Prop
  | ⟨callee, params, none⟩ => callee.Within lo hi ∧ allWithin lo hi params
  | ⟨callee, params, some ⟨pairs, loc⟩⟩ =>
    callee.Within lo hi ∧ allWithin lo hi params ∧ loc.Within lo hi
      ∧ pairsWithin loc.start loc.stop pairs

def allWithin (lo hi : Position) : List Expression → Prop
  | [] => True
  | e :: es => e.Within lo hi ∧ allWithin lo hi es

def pairsWithin (lo hi : Position) : List (Pair Expression) → Prop
  | [] => True
  | ⟨_, value, loc⟩ :: pairs =>
    loc.Within lo hi ∧ value.Within loc.start loc.stop ∧ pairsWithin loc.stop hi pairs

end

mutual

/-- What is in a statement lies within it. -/
def Statement.Nested : Statement → Prop
  | .mustache m => m.call.Within m.loc.start m.loc.stop
  | .decorator m => m.call.Within m.loc.start m.loc.stop
  | .content c => c.loc.start.after c.written ≤ c.loc.stop
  | .comment _ => True
  | .partialCall p => p.call.Within p.loc.start p.loc.stop
  | .block b => Block.Nested b
  | .decoratorBlock b => Block.Nested b
  | .partialBlock ⟨call, program, _, _, loc⟩ =>
    call.Within loc.start loc.stop ∧ Program.Within loc.start loc.stop program

/-- In an inverse block the inverse comes first, so the sections are in no order. -/
def Block.Nested : Block Statement → Prop
  | ⟨call, program, inverse, _, _, _, loc⟩ =>
    call.Within loc.start loc.stop ∧ sectionWithin loc.start loc.stop program
      ∧ sectionWithin loc.start loc.stop inverse

def sectionWithin (lo hi : Position) : Option (Program Statement) → Prop
  | none => True
  | some p => Program.Within lo hi p

def Program.Within (lo hi : Position) : Program Statement → Prop
  | ⟨body, _, _⟩ => Ordered lo hi body

/-- Statements come one after the other. -/
def Ordered (lo hi : Position) : List Statement → Prop
  | [] => True
  | s :: ss => s.loc.Within lo hi ∧ s.Nested ∧ Ordered s.loc.stop hi ss

end

variable {lo lo' hi hi' : Position}

theorem Expression.Within.mono {e : Expression} (h : e.Within lo hi) (hlo : lo' ≤ lo)
    (hhi : hi ≤ hi') : e.Within lo' hi' := by
  cases e with
  | path p => exact Location.Within.mono h hlo hhi
  | literal l loc => exact Location.Within.mono h hlo hhi
  | call c loc => exact ⟨h.1.mono hlo hhi, h.2⟩

theorem Expression.Within.loc {e : Expression} (h : e.Within lo hi) : e.loc.Within lo hi := by
  cases e with
  | path p => exact h
  | literal l loc => exact h
  | call c loc => exact h.1

theorem Expression.Within.tight {e : Expression} (h : e.Within lo hi) :
    e.Within lo e.loc.stop := by
  cases e with
  | path p => exact Location.Within.tight h
  | literal l loc => exact Location.Within.tight h
  | call c loc => exact ⟨h.1.tight, h.2⟩

theorem allWithin.mono {es : List Expression} (h : allWithin lo hi es) (hlo : lo' ≤ lo)
    (hhi : hi ≤ hi') : allWithin lo' hi' es := by
  induction es with
  | nil => exact trivial
  | cons e es ih => exact ⟨h.1.mono hlo hhi, ih h.2⟩

theorem pairsWithin.mono {ps : List (Pair Expression)} (h : pairsWithin lo hi ps)
    (hlo : lo' ≤ lo) (hhi : hi ≤ hi') : pairsWithin lo' hi' ps := by
  induction ps generalizing lo lo' with
  | nil => exact trivial
  | cons p ps ih => exact ⟨h.1.mono hlo hhi, h.2.1, ih h.2.2 (le_refl _)⟩

theorem Call.Within.mono {c : Call Expression} (h : c.Within lo hi) (hlo : lo' ≤ lo)
    (hhi : hi ≤ hi') : c.Within lo' hi' := by
  obtain ⟨callee, params, _ | ⟨pairs, loc⟩⟩ := c
  · exact ⟨h.1.mono hlo hhi, h.2.mono hlo hhi⟩
  · exact ⟨h.1.mono hlo hhi, h.2.1.mono hlo hhi, h.2.2.1.mono hlo hhi, h.2.2.2⟩

theorem pairsWithin.tight {ps : List (Pair Expression)} {first last : Pair Expression}
    (h : pairsWithin lo hi ps) (hfirst : ps.head? = some first) (hlast : ps.getLast? = some last) :
    lo ≤ first.loc.start ∧ first.loc.start ≤ last.loc.stop ∧ last.loc.stop ≤ hi
      ∧ pairsWithin first.loc.start last.loc.stop ps := by
  induction ps generalizing lo first with
  | nil => cases hfirst
  | cons p ps ih =>
    obtain ⟨key, value, loc⟩ := p
    cases hfirst
    obtain ⟨hloc, hvalue, hps⟩ := h
    cases ps with
    | nil =>
      cases hlast
      exact ⟨hloc.1, hloc.2.1, hloc.2.2, ⟨le_refl _, hloc.2.1, le_refl _⟩, hvalue, trivial⟩
    | cons p' ps =>
      obtain ⟨hle, hle', hhi, hrest⟩ := ih hps rfl (by rwa [List.getLast?_cons_cons] at hlast)
      have hstop : loc.stop ≤ last.loc.stop := le_trans hle hle'
      exact ⟨hloc.1, le_trans hloc.2.1 hstop, hhi, ⟨le_refl _, hloc.2.1, hstop⟩, hvalue,
        hrest.mono hle (le_refl _)⟩

/-- The last of some tokens are left, and they come after a later position. -/
structure Leaves (lo : Position) (ts : List Token) (hi : Position) (rest : List Token) :
    Prop where
  le : lo ≤ hi
  sorted : Sorted hi rest
  suffix : rest <:+ ts

namespace Leaves

variable {mid : Position} {ts rest rest' : List Token}

theorem refl (h : Sorted lo ts) : Leaves lo ts lo ts :=
  ⟨le_refl _, h, List.suffix_refl _⟩

theorem trans (h : Leaves lo ts mid rest) (h' : Leaves mid rest hi rest') :
    Leaves lo ts hi rest' :=
  ⟨le_trans h.le h'.le, h'.sorted, h'.suffix.trans h.suffix⟩

theorem one {t : Token} (h : Sorted lo (t :: ts)) : Leaves lo (t :: ts) t.loc.stop ts :=
  ⟨le_trans h.1 h.2.1.1, h.2.2, List.suffix_cons _ _⟩

end Leaves

theorem Sorted.within {t : Token} {ts : List Token} (h : Sorted lo (t :: ts)) :
    t.loc.Within lo t.loc.stop :=
  ⟨h.1, h.2.1.1, le_refl _⟩

theorem expect_leaves {s : Symbol} {ts : List Token} {r : Parsed ts Token}
    (h : expect s ts = .ok r) (hts : Sorted lo ts) :
    Leaves lo ts r.value.loc.stop r.rest ∧ r.value.loc.Within lo r.value.loc.stop := by
  obtain ⟨hts', -⟩ := expect_ok h
  rw [hts'] at hts
  have hone := Leaves.one hts
  rw [← hts'] at hone
  exact ⟨hone, hts.within⟩

theorem Path.extend_loc {p q : Path} {text : List Char} {bracketed : Bool} {stop : Position}
    (h : p.extend text bracketed stop = .ok q) : q.loc = ⟨p.loc.start, stop⟩ := by
  unfold Path.extend at h
  dsimp only at h
  repeat' split at h
  all_goals cases h; try rfl

theorem segments_leaves {p : Path} {ts : List Token} {r : ParsedAny ts Path}
    (h : segments p ts = .ok r) (hp : p.loc.Within lo hi) (hts : Sorted hi ts) :
    ∃ stop, Leaves hi ts stop r.rest ∧ r.value.loc.Within lo stop := by
  fun_induction segments p ts generalizing hi with
  | case1 p sep name ts slash text bracketed _ _ joined =>
    rename_i ih
    simp only [bind_eq_ok, pure_eq_ok] at h
    obtain ⟨q, hq, ⟨p', rest, hrest⟩, hsegments, rfl⟩ := h
    have hsep' := Leaves.one hts
    have hname' := Leaves.one hsep'.sorted
    have hq' : q.loc.Within lo name.loc.stop := by
      rw [Path.extend_loc hq]
      exact ⟨hp.1, le_trans hp.2.1 (le_trans hp.2.2 (le_trans hsep'.le hname'.le)), le_refl _⟩
    obtain ⟨stop, hleaves, hwithin⟩ := ih q hsegments hq' hname'.sorted
    exact ⟨stop, (hsep'.trans hname').trans hleaves, hwithin⟩
  | case2 =>
    cases h
    exact ⟨hi, .refl hts, hp⟩
  | case3 =>
    cases h
    exact ⟨hi, .refl hts, hp⟩

theorem namePath_within {t : Token} {text : List Char} {bracketed : Bool} {ts : List Token}
    {r : ParsedAny ts Expression} (h : namePath t text bracketed ts = .ok r)
    (hts : Sorted lo (t :: ts)) :
    ∃ hi, Leaves t.loc.stop ts hi r.rest ∧ r.value.Within lo hi := by
  simp only [namePath, bind_eq_ok, pure_eq_ok] at h
  obtain ⟨p, hp, ⟨p', rest, hrest⟩, hsegments, rfl⟩ := h
  have hwithin : p.loc.Within lo t.loc.stop := by
    rw [Path.extend_loc hp]
    exact hts.within
  obtain ⟨hi, hleaves, hwithin'⟩ := segments_leaves hsegments hwithin hts.2.2
  exact ⟨hi, hleaves, hwithin'⟩

theorem pathFrom_within {p : Path} {ts : List Token} {r : ParsedAny ts Expression}
    (h : pathFrom p ts = .ok r) (hp : p.loc.Within lo hi) (hts : Sorted hi ts) :
    ∃ stop, Leaves hi ts stop r.rest ∧ r.value.Within lo stop := by
  cases ts with
  | nil =>
    cases h
    exact ⟨hi, .refl hts, hp⟩
  | cons t ts =>
    simp only [pathFrom] at h
    split at h
    · simp only [bind_eq_ok, pure_eq_ok] at h
      obtain ⟨q, hq, ⟨p', rest, hrest⟩, hsegments, rfl⟩ := h
      have ht := Leaves.one hts
      have hwithin : q.loc.Within lo t.loc.stop := by
        rw [Path.extend_loc hq]
        exact ⟨hp.1, le_trans hp.2.1 (le_trans hp.2.2 ht.le), le_refl _⟩
      obtain ⟨stop, hleaves, hwithin'⟩ := segments_leaves hsegments hwithin ht.sorted
      exact ⟨stop, ht.trans hleaves, hwithin'⟩
    · cases h
      exact ⟨hi, .refl hts, hp⟩

mutual

theorem Expression.Read.within {lo : Position} {ts rest : List Token} {e : Expression} :
    Expression.Read ts e rest → Sorted lo ts → ∃ hi, Leaves lo ts hi rest ∧ e.Within lo hi
  | .call _ hcall _, hts => by
    have ht := Leaves.one hts
    obtain ⟨mid, hleaves, hwithin⟩ := hcall.within ht.sorted
    have hone := Leaves.one hleaves.sorted
    refine ⟨_, (ht.trans hleaves).trans hone, ⟨hts.1, ?_, le_refl _⟩, ?_⟩
    · exact le_trans hts.2.1.1 (le_trans hleaves.le hone.le)
    · exact hwithin.mono hts.2.1.1 hone.le
  | .name _ hpath, hts => by
    obtain ⟨hi, hleaves, hwithin⟩ := namePath_within hpath hts
    exact ⟨hi, (Leaves.one hts).trans hleaves, hwithin⟩
  | .data _ hpath, hts => by
    have ht := Leaves.one hts
    obtain ⟨hi, hleaves, hwithin⟩ := pathFrom_within hpath hts.within ht.sorted
    exact ⟨hi, ht.trans hleaves, hwithin⟩
  | .literal _, hts => ⟨_, .one hts, hts.within⟩

theorem Call.Read.within {lo : Position} {ts rest : List Token} {c : Call Expression} :
    Call.Read ts c rest → Sorted lo ts → ∃ hi, Leaves lo ts hi rest ∧ c.Within lo hi
  | @Call.Read.intro _ _ _ _ _ _ pairs hcallee hparams hpairs, hts => by
    obtain ⟨mid₁, hleaves₁, hcallee⟩ := hcallee.within hts
    obtain ⟨mid₂, hleaves₂, hparams⟩ := hparams.within hleaves₁.sorted
    obtain ⟨hi, hleaves₃, hpairs⟩ := hpairs.within hleaves₂.sorted
    refine ⟨hi, (hleaves₁.trans hleaves₂).trans hleaves₃, ?_⟩
    have hcallee' := hcallee.mono (le_refl lo) (le_trans hleaves₂.le hleaves₃.le)
    have hparams' := hparams.mono hleaves₁.le hleaves₃.le
    cases hhash : Hash.ofPairs? pairs with
    | none => exact ⟨hcallee', hparams'⟩
    | some hash =>
      obtain ⟨first, last, hfirst, hlast, rfl⟩ := Hash.ofPairs?_eq_some hhash
      obtain ⟨hstart, hle, hstop, htight⟩ := hpairs.tight hfirst hlast
      exact ⟨hcallee', hparams',
        ⟨le_trans (le_trans hleaves₁.le hleaves₂.le) hstart, hle, hstop⟩, htight⟩

theorem paramsRead.within {lo : Position} {ts rest : List Token} {es : List Expression} :
    paramsRead ts es rest → Sorted lo ts → ∃ hi, Leaves lo ts hi rest ∧ allWithin lo hi es
  | .nil _, hts => ⟨lo, .refl hts, trivial⟩
  | .cons _ he hes, hts => by
    obtain ⟨mid, hleaves₁, he⟩ := he.within hts
    obtain ⟨hi, hleaves₂, hes⟩ := hes.within hleaves₁.sorted
    exact ⟨hi, hleaves₁.trans hleaves₂, he.mono (le_refl lo) hleaves₂.le,
      hes.mono hleaves₁.le (le_refl _)⟩

theorem pairsRead.within {lo : Position} {ts rest : List Token} {ps : List (Pair Expression)} :
    pairsRead ts ps rest → Sorted lo ts → ∃ hi, Leaves lo ts hi rest ∧ pairsWithin lo hi ps
  | .nil _, hts => ⟨lo, .refl hts, trivial⟩
  | .cons _ _ hvalue hpairs, hts => by
    have hkey := Leaves.one hts
    have heq := Leaves.one hkey.sorted
    obtain ⟨mid, hleaves₁, hvalue⟩ := hvalue.within heq.sorted
    obtain ⟨hi, hleaves₂, hpairs⟩ := hpairs.within hleaves₁.sorted
    have hloc := hvalue.loc
    have hstart := le_trans hts.2.1.1 heq.le
    refine ⟨hi, ((hkey.trans heq).trans hleaves₁).trans hleaves₂, ⟨hts.1, ?_, ?_⟩, ?_, ?_⟩
    · exact le_trans hstart (le_trans hloc.1 hloc.2.1)
    · exact le_trans hloc.2.2 hleaves₂.le
    · exact hvalue.tight.mono hstart (le_refl _)
    · exact hpairs.mono hloc.2.2 (le_refl _)

end

end Mustache
end HtmlTemplate
