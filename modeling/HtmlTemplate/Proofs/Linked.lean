import HtmlTemplate.Proofs.Lexemes
import HtmlTemplate.Proofs.Standing
import HtmlTemplate.Proofs.Tokens

/-! Outside mustaches the tokens of a template leave nothing out: each starts where the one
before ends, but for the backslash that escapes braces, and its text is what stands there. -/

namespace HtmlTemplate

theorem dropBytes_append (cs ds : List Char) :
    dropBytes (byteLength cs) (cs ++ ds) = some ds := by
  induction cs with
  | nil => cases ds <;> simp [dropBytes]
  | cons c cs ih =>
    have hsize := c.utf8Size_pos
    rw [byteLength_cons, List.cons_append, dropBytes, if_neg (by omega), if_pos (by omega),
      Nat.add_sub_cancel_left, ih]

theorem takeBytes_append (cs ds : List Char) :
    takeBytes (byteLength cs) (cs ++ ds) = some cs := by
  induction cs with
  | nil => cases ds <;> simp [takeBytes]
  | cons c cs ih =>
    have hsize := c.utf8Size_pos
    rw [byteLength_cons, List.cons_append, takeBytes, if_neg (by omega), if_pos (by omega),
      Nat.add_sub_cancel_left, ih]
    rfl

namespace Source

variable {src : Source} {p : Position} {start : Nat} {text rest : List Char}

/-- From one position to another the template has this text. -/
def Covers (src : Source) (p : Position) (text : List Char) (q : Position) : Prop :=
  ∃ start rest, src.Stands p start (text ++ rest) ∧ q = p.after text

theorem Stands.slice (h : src.Stands p start (text ++ rest)) :
    src.slice (src.spanFor ⟨p, p.after text⟩) = text := by
  rw [h.spanFor]
  obtain ⟨before, htext, -, rfl⟩ := h
  have hsize : byteLength before + byteLength text - byteLength before = byteLength text :=
    Nat.add_sub_cancel_left _ _
  simp only [Source.slice, Draft.span, Nat.le_add_right, ↓reduceIte, htext, dropBytes_append,
    hsize, takeBytes_append, Option.bind_some, Option.getD_some]

theorem Stands.drop (h : src.Stands p start text) (n : Nat) :
    src.Stands (p.after (text.take n)) (start + byteLength (text.take n)) (text.drop n) := by
  rw [← List.take_append_drop n text] at h
  exact h.after

theorem Stands.unique {start' : Nat} {rest' : List Char} (h : src.Stands p start rest)
    (h' : src.Stands p start' rest') : rest = rest' := by
  have hstart : start = start' := h.offsetFor.symm.trans h'.offsetFor
  obtain ⟨before, htext, -, rfl⟩ := h
  obtain ⟨before', htext', -, rfl⟩ := h'
  have hdrop := dropBytes_append before rest
  rw [hstart, ← htext, htext', dropBytes_append] at hdrop
  exact (Option.some.inj hdrop).symm

theorem Stands.covers (h : src.Stands p start (text ++ rest)) : src.Covers p text (p.after text) :=
  ⟨start, rest, h, rfl⟩

namespace Covers

variable {q r : Position} {cs ds : List Char}

theorem trans (h : src.Covers p cs q) (h' : src.Covers q ds r) : src.Covers p (cs ++ ds) r := by
  obtain ⟨start, rest, hstands, rfl⟩ := h
  obtain ⟨start', rest', hstands', rfl⟩ := h'
  rw [hstands.after.unique hstands', ← List.append_assoc] at hstands
  exact ⟨start, rest', hstands, (Position.after_append _ _ _).symm⟩

theorem refl (h : src.Stands p start rest) : src.Covers p [] p :=
  ⟨start, rest, h, rfl⟩

theorem slice (h : src.Covers p cs q) :
    src.slice ⟨src.offsetFor p, src.offsetFor q⟩ = cs := by
  obtain ⟨start, rest, hstands, rfl⟩ := h
  rw [← src.spanFor_eq (l := ⟨p, p.after cs⟩) hstands.line (Position.le_after p cs)]
  exact hstands.slice

theorem suffix_or_suffix (h : src.Covers p cs r) (h' : src.Covers q ds r) :
    cs <:+ ds ∨ ds <:+ cs := by
  obtain ⟨start, rest, hstands, rfl⟩ := h
  obtain ⟨start', rest', hstands', heq⟩ := h'
  have hrest := hstands'.after
  rw [← heq] at hrest
  obtain rfl := hstands.after.unique hrest
  obtain ⟨before, htext, -, -⟩ := hstands
  obtain ⟨before', htext', -, -⟩ := hstands'
  rw [htext, ← List.append_assoc, ← List.append_assoc] at htext'
  have hsame := List.append_cancel_right htext'
  exact List.suffix_or_suffix_of_suffix (List.suffix_append before cs)
    (hsame ▸ List.suffix_append before' ds)

theorem isInfix (h : src.Covers p cs q) : cs <:+: src.text := by
  obtain ⟨start, rest, ⟨before, htext, -, -⟩, -⟩ := h
  exact ⟨before, rest, by rw [htext, List.append_assoc]⟩

end Covers

/-- A text follows a position at once, or after the backslash that escapes its braces. -/
def Follows (src : Source) (p : Position) (text? : Option (List Char)) (q : Position) : Prop :=
  if text?.any Mustache.opens then src.Covers p ['\\'] q else q = p

/-- A text is what stands at its place. Where two backslashes stand before a mustache, the
second is not part of the text. -/
def Shows (src : Source) (text : List Char) (loc : Location) : Prop :=
  src.slice (src.spanFor loc) = text ∨
    (src.slice (src.spanFor loc) = text ++ ['\\'] ∧ ['\\'] <:+ text
      ∧ ∃ start rest, src.Stands loc.stop start rest ∧ Mustache.opens rest = true)

end Source

namespace Mustache

def Lexeme.Leads (l : Lexeme) : Prop :=
  l.symbol.endsTag = true ∧ l.after = .text ∨ l.symbol.inTag = true

theorem Lexeme.Leads.symbol_ne {l : Lexeme} (h : l.Leads) : l.symbol ≠ .endOfInput := by
  intro hsymbol
  rcases h with ⟨hends, -⟩ | hin
  · rw [hsymbol] at hends
    cases hends
  · rw [hsymbol] at hin
    cases hin

private theorem openLexeme_leads {cs : List Char} {l : Lexeme} (h : openLexeme cs = .ok l) :
    l.Leads := by
  unfold openLexeme at h
  dsimp only at h
  repeat' split at h
  all_goals first
    | cases h; first | exact .inr rfl | exact .inl ⟨rfl, rfl⟩
    | rw [Except.ok.injEq] at h
      subst h
      cases closing? _ with
      | none => exact .inr rfl
      | some closing => exact .inl ⟨rfl, rfl⟩
    | cases h

private theorem closeLexeme?_leads {raw : Bool} {cs : List Char} {l : Lexeme}
    (h : closeLexeme? raw cs = some l) : l.Leads := by
  unfold closeLexeme? at h
  repeat' split at h
  all_goals first
    | cases h; exact .inl ⟨rfl, rfl⟩
    | cases h

theorem wordLexeme?_leads {raw : Bool} {cs : List Char} {l : Lexeme}
    (h : wordLexeme? raw cs = some l) : l.Leads := by
  unfold wordLexeme? at h
  dsimp only at h
  repeat' split at h
  · cases h
    exact .inr rfl
  · cases h
    exact .inr rfl
  · cases h
  · cases h
    right
    dsimp only
    unfold wordSymbol
    repeat' split
    all_goals rfl

theorem lexeme_leads {mode : Mode} {cs : List Char} {l : Lexeme} (h : lexeme mode cs = .ok l) :
    l.Leads := by
  cases mode with
  | tag raw =>
    obtain hclose | hword | ⟨symbol, n, rfl, hin, -⟩ := tagLexeme_cases h
    · exact closeLexeme?_leads hclose
    · exact wordLexeme?_leads hword
    · exact .inr hin
  | text =>
    simp only [lexeme] at h
    repeat' split at h
    · exact openLexeme_leads h
    · cases h
      exact .inl ⟨rfl, rfl⟩
    · cases h
      exact .inl ⟨rfl, rfl⟩

private theorem openLexeme_pos {cs : List Char} {l : Lexeme} (h : openLexeme cs = .ok l) :
    0 < l.length := by
  unfold openLexeme at h
  dsimp only at h
  repeat' split at h
  all_goals first
    | cases h; dsimp only; omega
    | rw [Except.ok.injEq] at h
      subst h
      cases closing? _ <;> dsimp only [Option.elim] <;> omega
    | cases h

/-- Every token takes some characters. -/
theorem lexeme_pos {mode : Mode} {c : Char} {cs : List Char} {l : Lexeme}
    (h : lexeme mode (c :: cs) = .ok l) : 0 < leadLength mode (c :: cs) + l.length := by
  cases mode with
  | tag raw => exact Nat.add_pos_right _ (tagLexeme_pos h)
  | text =>
    simp only [lexeme] at h
    repeat' split at h
    · exact Nat.add_pos_right _ (openLexeme_pos h)
    · rename_i hescapes
      simp only [leadLength, hescapes, ↓reduceIte]
      omega
    · rename_i hopens hescapes
      cases h
      have hbreak : (opens (c :: cs) || escapes (c :: cs)) = false := by simp [hopens, hescapes]
      simp only [contentLexeme, contentText, hbreak, Bool.false_eq_true, ↓reduceIte]
      split <;> exact Nat.add_pos_right _ (Nat.succ_pos _)

theorem opens_of_isPrefix {cs ds : List Char} (h : cs <+: ds) (hopens : opens cs = true) :
    opens ds = true := by
  simp only [opens, List.isPrefixOf_iff_prefix] at *
  exact hopens.trans h

theorem not_escapes_of_opens {cs : List Char} (h : opens cs = true) : escapes cs = false := by
  simp only [opens, List.isPrefixOf_iff_prefix] at h
  obtain ⟨rest, rfl⟩ := h
  rfl

theorem eq_append_of_escapes {cs : List Char} (h : escapes cs = true) :
    ∃ rest, cs = ['\\'] ++ ('{' :: '{' :: rest) := by
  simp only [escapes, List.isPrefixOf_iff_prefix] at h
  obtain ⟨rest, rfl⟩ := h
  exact ⟨rest, rfl⟩

theorem contentText_take (cs : List Char) :
    cs.take (contentText cs).2 = (contentText cs).1
      ∨ (cs.take (contentText cs).2 = (contentText cs).1 ++ ['\\'] ∧ ['\\'] <:+ (contentText cs).1
        ∧ opens (cs.drop (contentText cs).2) = true) := by
  induction cs with
  | nil => exact .inl rfl
  | cons c cs ih =>
    simp only [contentText]
    split
    · exact .inl rfl
    · split
      · rename_i hescapes
        simp only [escapesBackslash, List.isPrefixOf_iff_prefix] at hescapes
        obtain ⟨rest, hrest⟩ := hescapes
        rw [← hrest]
        exact .inr ⟨rfl, List.suffix_refl _, rfl⟩
      · rcases ih with htake | ⟨htake, hend, hopens⟩
        · exact .inl (by simp [htake])
        · exact .inr ⟨by simp [htake], hend.trans (List.suffix_cons _ _), by simpa using hopens⟩

def Token.text? (t : Token) : Option (List Char) :=
  match t.symbol with
  | .content text => some text
  | _ => none

theorem Token.text?_eq_some {t : Token} {text : List Char} :
    t.text? = some text ↔ t.symbol = .content text := by
  obtain ⟨symbol, loc, strip⟩ := t
  cases symbol <;> simp [Token.text?]

/-- Tokens from a position on, if the last one has ended a mustache. A text shows what is
there, and the end of the input is the end of the template. -/
def Linked (src : Source) : Option Position → List Token → Prop
  | _, [] => False
  | p?, t :: ts =>
    (∀ p ∈ p?, src.Follows p t.text? t.loc.start) ∧ (∀ text ∈ t.text?, src.Shows text t.loc)
      ∧ if t.symbol = .endOfInput then t.loc.start = Position.first.after src.text ∧ ts = []
        else Linked src (if t.symbol.endsTag then some t.loc.stop else none) ts

variable {src : Source}

theorem Linked.weaken {p? : Option Position} {ts : List Token} (h : Linked src p? ts) :
    Linked src none ts := by
  cases ts with
  | nil => exact h
  | cons t ts => exact ⟨fun p hp => (nomatch hp), h.2⟩

theorem Linked.suffix {p? : Option Position} {t : Token} {ts rest : List Token}
    (h : Linked src p? ts) (hsuffix : t :: rest <:+ ts) (hends : t.symbol.endsTag = true) :
    Linked src (some t.loc.stop) rest := by
  have hsymbol : t.symbol ≠ .endOfInput := by
    rintro heq
    rw [heq] at hends
    cases hends
  induction ts generalizing p? with
  | nil => cases h
  | cons t' ts ih =>
    obtain ⟨-, -, hrest⟩ := h
    rcases List.suffix_cons_iff.mp hsuffix with heq | hsuffix
    · obtain ⟨rfl, rfl⟩ := List.cons.inj heq
      simpa only [hsymbol, ↓reduceIte, hends] using hrest
    · split at hrest
      · rw [hrest.2] at hsuffix
        cases List.suffix_nil.mp hsuffix
      · exact ih hrest hsuffix

private theorem lexeme_shows {mode : Mode} {p : Position} {start : Nat} {cs text : List Char}
    {l : Lexeme}
    (h : lexeme mode cs = .ok l) (hsymbol : l.symbol = .content text)
    (hstands : src.Stands p start (cs.drop (leadLength mode cs))) :
    src.Shows text ⟨p, p.after ((cs.drop (leadLength mode cs)).take l.length)⟩ := by
  rw [← List.take_append_drop l.length (cs.drop (leadLength mode cs))] at hstands
  have hslice := hstands.slice
  rw [Source.Shows, hslice]
  cases mode with
  | tag raw => exact absurd hsymbol (tagLexeme_symbol h)
  | text =>
    simp only [lexeme] at h
    split at h
    · exact absurd hsymbol (openLexeme_symbol h)
    · split at h
      · cases h
        simp only [escapedLexeme, Symbol.content.injEq] at hsymbol
        subst hsymbol
        have hprefix := escapedLexeme_isPrefix (cs.drop (leadLength .text cs))
        exact .inl (List.prefix_iff_eq_take.mp hprefix).symm
      · rename_i hescapes
        cases h
        obtain rfl : _ = text := by simpa [contentLexeme] using hsymbol
        have hlead : leadLength .text cs = 0 := by simp [leadLength, hescapes]
        simp only [hlead, List.drop_zero, contentLexeme] at hstands ⊢
        obtain htake | ⟨htake, hend, hopens⟩ := contentText_take cs
        · exact .inl htake
        · exact .inr ⟨htake, hend, _, _, hstands.after, hopens⟩

private theorem lexeme_follows {p : Position} {start : Nat} {cs : List Char} {l : Lexeme}
    {t : Token}
    (h : lexeme .text cs = .ok l) (hstands : src.Stands p start cs) (hsymbol : t.symbol = l.symbol)
    (hstart : t.loc.start = p.after (cs.take (leadLength .text cs))) :
    src.Follows p t.text? t.loc.start := by
  simp only [lexeme] at h
  split at h
  · rename_i hopens
    have htext : t.text? = none := by
      unfold Token.text?
      split
      · rename_i text htext
        exact absurd (hsymbol.symm.trans htext) (openLexeme_symbol h)
      · rfl
    simpa [Source.Follows, htext, leadLength, not_escapes_of_opens hopens] using hstart
  · rename_i hopens
    split at h
    · rename_i hescapes
      cases h
      have hlead : leadLength .text cs = 1 := by simp [leadLength, hescapes]
      rw [hlead] at hstart hsymbol
      obtain ⟨rest, rfl⟩ := eq_append_of_escapes hescapes
      have htext : t.text?.any opens = true := by
        simp [Token.text?, hsymbol, escapedLexeme, opens]
      rw [Source.Follows, if_pos htext]
      exact ⟨start, _, hstands, hstart⟩
    · rename_i hescapes
      cases h
      have htext : t.text?.any opens = false := by
        simp only [Token.text?, hsymbol, contentLexeme, Option.any_some]
        refine Bool.eq_false_iff.mpr fun htext => hopens ?_
        exact opens_of_isPrefix ((contentText_isPrefix cs).trans (List.take_prefix _ _)) htext
      simpa [Source.Follows, htext, leadLength, hescapes] using hstart

theorem scanAfter_linked {mode : Mode} {p : Position} {skip start : Nat} {cs : List Char}
    {ts : List Token} (h : scanAfter mode p skip cs = .ok ts)
    (hstands : src.Stands p start (cs.drop skip)) :
    Linked src (if mode = .text then some p else none) ts := by
  induction cs generalizing mode p skip start ts with
  | nil =>
    cases mode with
    | tag raw => cases h
    | text =>
      cases h
      obtain ⟨before, htext, hp, -⟩ := hstands
      rw [List.drop_nil, List.append_nil] at htext
      refine ⟨fun q hq => ?_, fun text htext => (nomatch htext), ?_⟩
      · cases hq
        rfl
      · simp [htext, hp]
  | cons c cs ih =>
    cases skip with
    | succ skip => exact ih h hstands
    | zero =>
      simp only [scanAfter] at h
      split at h
      · cases h
      · rename_i l hl
        simp only [Except.map] at h
        split at h
        · cases h
        · rename_i ts' hrest
          cases h
          rw [List.drop_zero] at hstands
          have hlead := hstands.drop (leadLength mode (c :: cs))
          refine ⟨fun q hq => ?_, fun text htext => ?_, ?_⟩
          · cases mode with
            | tag raw => cases hq
            | text =>
              cases hq
              exact lexeme_follows hl hstands rfl rfl
          · exact lexeme_shows hl (Token.text?_eq_some.mp htext) hlead
          · have hafter := hlead.drop l.length
            obtain ⟨n, hn⟩ := Nat.exists_eq_succ_of_ne_zero (Nat.ne_of_gt (lexeme_pos hl))
            rw [List.drop_drop, hn, List.drop_succ_cons] at hafter
            rw [hn, Nat.succ_sub_one] at hrest
            have hlinked := ih hrest hafter
            have hleads := lexeme_leads hl
            simp only [hleads.symbol_ne, ↓reduceIte]
            -- Only outside mustaches the next token is linked to this one.
            rcases hleads with ⟨hends, hmode⟩ | hin
            · simpa only [hends, hmode, ↓reduceIte] using hlinked
            · simpa only [Symbol.endsTag_eq_false_of_inTag hin, Bool.false_eq_true, ↓reduceIte]
                using hlinked.weaken

theorem scan_linked (name : Option String) {text : List Char} {ts : List Token}
    (h : scan text = .ok ts) : Linked ⟨text, name⟩ (some .first) ts :=
  scanAfter_linked h (Source.stands_first _)

end Mustache
end HtmlTemplate
