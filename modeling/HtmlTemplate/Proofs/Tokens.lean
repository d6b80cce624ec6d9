import HtmlTemplate.Mustache.Scan
import HtmlTemplate.Proofs.Order

/-! Tokens come one after the other, and the text of a token takes no more room than the
token. -/

namespace HtmlTemplate.Mustache

/-- A token ends where it starts or later, and its text fits in between. -/
def Token.Measured (t : Token) : Prop :=
  t.loc.start ≤ t.loc.stop ∧
    ∀ text, t.symbol = .content text → t.loc.start.after text ≤ t.loc.stop

/-- Tokens from some position on, in order. -/
def Sorted (p : Position) : List Token → Prop
  | [] => True
  | t :: ts => p ≤ t.loc.start ∧ t.Measured ∧ Sorted t.loc.stop ts

/-- The tokens after one of some tokens in order. -/
theorem Sorted.after {lo : Position} {before rest : List Token} {t : Token}
    (h : Sorted lo (before ++ t :: rest)) : lo ≤ t.loc.stop ∧ Sorted t.loc.stop rest := by
  induction before generalizing lo with
  | nil => exact ⟨le_trans h.1 h.2.1.1, h.2.2⟩
  | cons first before ih =>
    obtain ⟨hle, hrest⟩ := ih h.2.2
    exact ⟨le_trans h.1 (le_trans h.2.1.1 hle), hrest⟩

/-- Whether a symbol is a text, a whole mustache or the end of one. -/
def Symbol.endsTag : Symbol → Bool
  | .content _ | .comment _ | .elseTag | .close | .closeRaw => true
  | _ => false

/-- Whether more of a mustache follows a symbol. -/
def Symbol.inTag (s : Symbol) : Bool := !s.endsTag && s ≠ .endOfInput

/-- Whether a tag begins with a symbol. -/
def Symbol.startsTag : Symbol → Bool
  | .comment _ | .opener _ | .elseTag => true
  | _ => false

theorem Symbol.endsTag_eq_false_of_inTag {s : Symbol} (h : s.inTag = true) : s.endsTag = false := by
  simpa using (Bool.and_eq_true_iff.mp h).1

theorem contentText_isPrefix (cs : List Char) :
    (contentText cs).1 <+: cs.take (contentText cs).2 := by
  induction cs with
  | nil => simp [contentText]
  | cons c cs ih =>
    simp only [contentText]
    split
    · simp
    · split
      · rename_i hescapes
        simp only [escapesBackslash, List.isPrefixOf_iff_prefix] at hescapes
        obtain ⟨rest, hrest⟩ := hescapes
        rw [← hrest]
        exact ⟨['\\'], rfl⟩
      · simpa using ih

theorem plainText_isPrefix (cs : List Char) : plainText cs <+: cs := by
  induction cs with
  | nil => simp [plainText]
  | cons c cs ih =>
    simp only [plainText]
    split
    · exact List.nil_prefix
    · exact List.cons_prefix_cons.mpr ⟨rfl, ih⟩

theorem escapedLexeme_isPrefix (cs : List Char) :
    cs.take 2 ++ plainText (cs.drop 2) <+: cs := by
  obtain ⟨rest, hrest⟩ := plainText_isPrefix (cs.drop 2)
  refine ⟨rest, ?_⟩
  rw [List.append_assoc, hrest, List.take_append_drop]

/-- A token that begins with braces is no text. -/
theorem openLexeme_symbol {cs text : List Char} {l : Lexeme} (h : openLexeme cs = .ok l) :
    l.symbol ≠ .content text := by
  unfold openLexeme at h
  dsimp only at h
  repeat' split at h
  all_goals first
    | cases h; simp; done
    | rw [Except.ok.injEq] at h; subst h; cases closing? _ <;> simp
    | cases h

private theorem wordLexeme?_symbol {raw : Bool} {cs text : List Char} {l : Lexeme}
    (h : wordLexeme? raw cs = some l) : l.symbol ≠ .content text := by
  unfold wordLexeme? at h
  dsimp only at h
  split at h
  · cases h
    simp
  · split at h
    · cases h
      simp
    · split at h
      · cases h
      · cases h
        simp only [wordSymbol]
        split
        · split <;> simp
        · simp

private theorem closeLexeme?_symbol {raw : Bool} {cs text : List Char} {l : Lexeme}
    (h : closeLexeme? raw cs = some l) : l.symbol ≠ .content text := by
  unfold closeLexeme? at h
  repeat' split at h
  all_goals cases h; try simp

/-- A token inside a mustache is its closing braces, a word, or something that a character
or two tell and that neither ends the mustache nor begins another one. -/
theorem tagLexeme_cases {raw : Bool} {cs : List Char} {l : Lexeme}
    (h : tagLexeme raw cs = .ok l) :
    closeLexeme? raw cs = some l ∨ wordLexeme? raw cs = some l
      ∨ ∃ symbol n, l = { symbol, length := n + 1, after := .tag raw }
        ∧ symbol.inTag = true ∧ symbol.startsTag = false := by
  cases cs with
  | nil => cases h
  | cons c rest =>
    simp only [tagLexeme] at h
    obtain ⟨-, h⟩ | ⟨-, h⟩ := ite_eq_iff.mp h
    · split at h
      · rename_i hclose
        cases h
        exact .inl hclose
      · cases h
    -- Punctuation, up to the separators.
    iterate 6
      obtain ⟨-, h⟩ | ⟨-, h⟩ := ite_eq_iff.mp h
      · cases h
        exact .inr (.inr ⟨_, _, rfl, rfl, rfl⟩)
    obtain ⟨-, h⟩ | ⟨-, h⟩ := ite_eq_iff.mp h
    · repeat' split at h
      all_goals
        cases h
        exact .inr (.inr ⟨_, _, rfl, rfl, rfl⟩)
    iterate 2
      obtain ⟨-, h⟩ | ⟨-, h⟩ := ite_eq_iff.mp h
      · split at h
        · cases h
          exact .inr (.inr ⟨_, _, rfl, rfl, rfl⟩)
        · cases h
    split at h
    · rename_i hword
      cases h
      exact .inr (.inl hword)
    · cases h

/-- A token inside a mustache is no text. -/
theorem tagLexeme_symbol {raw : Bool} {cs text : List Char} {l : Lexeme}
    (h : tagLexeme raw cs = .ok l) : l.symbol ≠ .content text := by
  obtain hclose | hword | ⟨symbol, n, rfl, hin, -⟩ := tagLexeme_cases h
  · exact closeLexeme?_symbol hclose
  · exact wordLexeme?_symbol hword
  · rintro rfl
    cases hin

theorem lexeme_isPrefix {mode : Mode} {cs text : List Char} {l : Lexeme}
    (h : lexeme mode cs = .ok l) (hsymbol : l.symbol = .content text) :
    text <+: (cs.drop (leadLength mode cs)).take l.length := by
  cases mode with
  | tag raw =>
    simp only [lexeme] at h
    exact absurd hsymbol (tagLexeme_symbol h)
  | text =>
    simp only [lexeme] at h
    split at h
    · exact absurd hsymbol (openLexeme_symbol h)
    · split at h
      · cases h
        obtain rfl : _ = text := by simpa [escapedLexeme] using hsymbol
        rw [List.prefix_take_iff]
        exact ⟨by simpa using escapedLexeme_isPrefix (cs.drop (leadLength .text cs)),
          by simp [escapedLexeme]⟩
      · rename_i hescapes
        cases h
        obtain rfl : _ = text := by simpa [contentLexeme] using hsymbol
        simpa [leadLength, hescapes, contentLexeme] using contentText_isPrefix cs

private theorem scanAfter_sorted {mode : Mode} {p : Position} {skip : Nat} {cs : List Char}
    {ts : List Token} (h : scanAfter mode p skip cs = .ok ts) : Sorted p ts := by
  induction cs generalizing mode p skip ts with
  | nil =>
    cases mode with
    | text =>
      cases h
      exact ⟨le_refl p, ⟨le_refl p, by simp⟩, trivial⟩
    | tag raw => cases h
  | cons c cs ih =>
    cases skip with
    | succ skip => exact ih h
    | zero =>
      simp only [scanAfter] at h
      split at h
      · cases h
      · rename_i l hl
        simp only [Except.map] at h
        split at h
        · cases h
        · rename_i hrest
          cases h
          refine ⟨Position.le_after _ _, ⟨Position.le_after _ _, fun text htext => ?_⟩, ih hrest⟩
          exact Position.after_le_after _ (lexeme_isPrefix hl htext)

theorem scan_sorted {text : List Char} {ts : List Token} (h : scan text = .ok ts) :
    Sorted .first ts :=
  scanAfter_sorted h

end HtmlTemplate.Mustache
