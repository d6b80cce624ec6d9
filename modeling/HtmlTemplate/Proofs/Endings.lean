import HtmlTemplate.Proofs.Lines
import HtmlTemplate.Proofs.Placement

/-! The end of the input. It is the last token of a text and no other, it comes where no mustache
is open, and every token before it ends further on than the one in front of that. -/

namespace HtmlTemplate

namespace Position

theorem lt_next (p : Position) (c : Char) : p < p.next c :=
  lt_of_le_not_ge (le_next p c) (not_next_le p c)

theorem lt_after (p : Position) {cs : List Char} (h : cs ≠ []) : p < p.after cs := by
  obtain ⟨c, cs, rfl⟩ := List.exists_cons_of_ne_nil h
  exact lt_of_lt_of_le (p.lt_next c) (le_after _ cs)

end Position

namespace Mustache

/-- Whether a mustache is open, and whether one of three braces. -/
structure Flags where
  inMustache : Bool
  triple : Bool
deriving DecidableEq, Repr

def Flags.lowered : Flags := ⟨false, false⟩

/-- Opening braces raise the flags, closing ones lower both. -/
def Flags.after (f : Flags) : Symbol → Flags
  | .opener o => ⟨true, f.triple || o == .raw⟩
  | .close | .closeRaw => lowered
  | _ => f

def Mode.flags : Mode → Flags
  | .text => .lowered
  | .tag raw => ⟨true, raw⟩

theorem Flags.after_inner (f : Flags) {s : Symbol} (hin : s.inTag = true)
    (hstarts : s.startsTag = false) : f.after s = f := by
  cases s with
  | opener o => cases hstarts
  | close => cases hin
  | closeRaw => cases hin
  | _ => rfl

private theorem openLexeme_flags {cs : List Char} {l : Lexeme} (h : openLexeme cs = .ok l) :
    l.after.flags = Flags.lowered.after l.symbol := by
  unfold openLexeme at h
  dsimp only at h
  repeat' split at h
  all_goals first
    | cases h; rfl
    | rw [Except.ok.injEq] at h
      subst h
      cases closing? _ <;> rfl
    | cases h

private theorem closeLexeme?_flags {raw : Bool} {cs : List Char} {l : Lexeme}
    (h : closeLexeme? raw cs = some l) (f : Flags) : l.after.flags = f.after l.symbol := by
  unfold closeLexeme? at h
  repeat' split at h
  all_goals first
    | cases h; rfl
    | cases h

private theorem wordLexeme?_flags {raw : Bool} {cs : List Char} {l : Lexeme}
    (h : wordLexeme? raw cs = some l) : l.after.flags = (Mode.tag raw).flags.after l.symbol := by
  obtain ⟨hafter, hstarts⟩ := wordLexeme?_inTag h
  rcases wordLexeme?_leads h with ⟨-, htext⟩ | hin
  · rw [hafter] at htext
    cases htext
  · rw [hafter, Flags.after_inner _ hin hstarts]

theorem lexeme_flags {mode : Mode} {cs : List Char} {l : Lexeme} (h : lexeme mode cs = .ok l) :
    l.after.flags = mode.flags.after l.symbol := by
  cases mode with
  | tag raw =>
    obtain hclose | hword | ⟨symbol, n, rfl, hin, hstarts⟩ := tagLexeme_cases h
    · exact closeLexeme?_flags hclose _
    · exact wordLexeme?_flags hword
    · exact (Flags.after_inner _ hin hstarts).symm
  | text =>
    simp only [lexeme] at h
    repeat' split at h
    · exact openLexeme_flags h
    · cases h
      rfl
    · cases h
      rfl

/-- The end of the input is the last of some tokens, and no other. -/
inductive Ended : List Token → Prop
  | last {t : Token} (h : t.symbol = .endOfInput) : Ended [t]
  | cons {t : Token} {ts : List Token} (h : t.symbol ≠ .endOfInput) (hts : Ended ts) :
    Ended (t :: ts)

/-- Tokens from a place on where the flags are as given. Each ends further on than the one before
it. The end of the input comes last, takes nothing, and finds both flags lowered. -/
inductive Delivered : Flags → Position → List Token → Prop
  | last {t : Token} {p : Position} (h : t.symbol = .endOfInput) (hloc : t.loc = ⟨p, p⟩) :
    Delivered .lowered p [t]
  | cons {t : Token} {ts : List Token} {f : Flags} {p : Position} (h : t.symbol ≠ .endOfInput)
    (hp : p < t.loc.stop) (hts : Delivered (f.after t.symbol) t.loc.stop ts) :
    Delivered f p (t :: ts)

namespace Ended

variable {t : Token} {ts : List Token}

theorem ne_nil (h : Ended ts) : ts ≠ [] := by
  cases h <;> exact List.cons_ne_nil _ _

theorem tail (h : Ended (t :: ts)) (ht : t.symbol ≠ .endOfInput) : Ended ts := by
  cases h with
  | last hlast => exact absurd hlast ht
  | cons _ hts => exact hts

end Ended

namespace Delivered

variable {f : Flags} {p : Position} {ts : List Token}

theorem ended (h : Delivered f p ts) : Ended ts := by
  induction h with
  | last hlast => exact .last hlast
  | cons ht _ _ ih => exact .cons ht ih

/-- The end of the input aside, the tokens end further and further on, and the flags are lowered
when they have been read. -/
theorem eq_append (h : Delivered f p ts) :
    ∃ init last, ts = init ++ [last] ∧ last.symbol = .endOfInput ∧ p ≤ last.loc.stop
      ∧ (∀ t ∈ init, t.symbol ≠ .endOfInput ∧ t.loc.stop ≤ last.loc.stop)
      ∧ (p :: init.map (·.loc.stop)).Pairwise (· < ·)
      ∧ (init.map (·.symbol)).foldl Flags.after f = .lowered := by
  induction h with
  | @last t p hlast hloc =>
    refine ⟨[], t, rfl, hlast, ?_, List.forall_mem_nil _, List.pairwise_singleton _ _, rfl⟩
    rw [hloc]
  | cons ht hp _ ih =>
    obtain ⟨init, last, rfl, hlast, hstop, hinit, hpairwise, hflags⟩ := ih
    refine ⟨_ :: init, last, rfl, hlast, hp.le.trans hstop,
      List.forall_mem_cons.mpr ⟨⟨ht, hstop⟩, hinit⟩, ?_, hflags⟩
    rw [List.map_cons]
    refine List.pairwise_cons.mpr ⟨List.forall_mem_cons.mpr ⟨hp, fun q hq => ?_⟩, hpairwise⟩
    exact hp.trans (List.rel_of_pairwise_cons hpairwise hq)

end Delivered

theorem lexeme_moves {mode : Mode} {c : Char} {cs : List Char} {l : Lexeme}
    (h : lexeme mode (c :: cs) = .ok l) (p : Position) :
    p < (p.after ((c :: cs).take (leadLength mode (c :: cs)))).after
      (((c :: cs).drop (leadLength mode (c :: cs))).take l.length) := by
  rw [← Position.after_append, ← List.take_add]
  refine Position.lt_after p fun hnil => ?_
  rcases List.take_eq_nil_iff.mp hnil with hzero | hcons
  · exact absurd hzero (Nat.ne_of_gt (lexeme_pos h))
  · cases hcons

private theorem scanAfter_delivered {mode : Mode} {p : Position} {skip : Nat} {cs : List Char}
    {ts : List Token} (h : scanAfter mode p skip cs = .ok ts) : Delivered mode.flags p ts := by
  induction cs generalizing mode p skip ts with
  | nil =>
    cases mode with
    | tag raw => cases h
    | text =>
      cases h
      exact .last rfl rfl
  | cons c cs ih =>
    cases skip with
    | succ skip => exact ih h
    | zero =>
      simp only [scanAfter] at h
      split at h
      · cases h
      · rename_i l hl
        obtain ⟨ts', hrest, rfl⟩ := map_eq_ok.mp h
        have hdelivered := ih hrest
        rw [lexeme_flags hl] at hdelivered
        exact .cons (lexeme_leads hl).symbol_ne (lexeme_moves hl p) hdelivered

theorem scan_delivered {text : List Char} {ts : List Token} (h : scan text = .ok ts) :
    Delivered .lowered .first ts :=
  scanAfter_delivered h

end Mustache
end HtmlTemplate
