import HtmlTemplate.Proofs.Linked
import HtmlTemplate.Proofs.Moment

/-! Where the lines of a template begin and end. Whether only blanks stand before a tag on its
line, or after it, is told by the tokens next to it: two texts that follow each other are never
blank together, and tags begin and end with braces. -/

namespace HtmlTemplate

namespace Text

/-- Whether only blanks stand between the start and the first line break, or the end. -/
def atLineEnd (after : List Char) : Bool :=
  (after.takeWhile isBlank).contains '\n' || after.all isBlank

/-- Whether only blanks stand between the last line break, or the start, and the end. -/
def atLineStart (before : List Char) : Bool :=
  (takeEndWhile isBlank before).contains '\n' || before.all isBlank

theorem atLineEnd_append (cs ds : List Char) :
    atLineEnd (cs ++ ds)
      = ((cs.takeWhile isBlank).contains '\n' || (cs.all isBlank && atLineEnd ds)) := by
  induction cs with
  | nil => rfl
  | cons c cs ih =>
    simp only [atLineEnd] at ih
    by_cases hc : isBlank c = true
    · simp only [atLineEnd, List.cons_append, List.takeWhile_cons_of_pos hc, List.contains_cons,
        List.all_cons, hc, Bool.true_and, Bool.or_assoc, ih]
    · simp [atLineEnd, hc]

private theorem atLineStart_eq (before : List Char) :
    atLineStart before = atLineEnd before.reverse := by
  have hcontains (cs : List Char) : cs.reverse.contains '\n' = cs.contains '\n' := by
    simp only [List.contains_eq_mem, List.mem_reverse]
  rw [atLineStart, atLineEnd, takeEndWhile, hcontains, List.all_reverse]

theorem atLineStart_append (cs ds : List Char) :
    atLineStart (cs ++ ds)
      = ((takeEndWhile isBlank ds).contains '\n' || (ds.all isBlank && atLineStart cs)) := by
  have hcontains (cs : List Char) : cs.reverse.contains '\n' = cs.contains '\n' := by
    simp only [List.contains_eq_mem, List.mem_reverse]
  rw [atLineStart_eq, List.reverse_append, atLineEnd_append, atLineStart_eq, takeEndWhile,
    hcontains, List.all_reverse]

theorem atLineStart_concat {c : Char} (h : isBlank c = false) (cs : List Char) :
    atLineStart (cs ++ [c]) = false := by
  rw [atLineStart_append, List.all_cons, h]
  simp [takeEndWhile, h]

end Text

namespace Source

variable {src : Source} {p : Position} {start : Nat} {before rest : List Char}

/-- Whether only blanks stand before a position on its line. -/
def startsLine (src : Source) (p : Position) : Bool :=
  Text.atLineStart ((takeBytes (src.offsetFor p) src.text).getD [])

/-- Whether only blanks stand after a position on its line. -/
def endsLine (src : Source) (p : Position) : Bool :=
  Text.atLineEnd ((dropBytes (src.offsetFor p) src.text).getD [])

theorem startsLine_after (h : src.text = before ++ rest) :
    src.startsLine (Position.first.after before) = Text.atLineStart before := by
  have hstands : src.Stands (Position.first.after before) (byteLength before) rest :=
    ⟨before, h, rfl, rfl⟩
  rw [startsLine, hstands.offsetFor, h, takeBytes_append, Option.getD_some]

theorem endsLine_after (h : src.text = before ++ rest) :
    src.endsLine (Position.first.after before) = Text.atLineEnd rest := by
  have hstands : src.Stands (Position.first.after before) (byteLength before) rest :=
    ⟨before, h, rfl, rfl⟩
  rw [endsLine, hstands.offsetFor, h, dropBytes_append, Option.getD_some]

end Source

namespace Mustache

open Text (isBlank)

def lineStart : List Token → Bool
  | [] => true
  | t :: before =>
    match t.symbol with
    | .content text =>
      (Text.takeEndWhile isBlank text).contains '\n' || (text.all isBlank && before.isEmpty)
    | _ => false

def lineEnd : List Token → Bool
  | [] => true
  | t :: after =>
    match t.symbol with
    | .content text =>
      (text.takeWhile isBlank).contains '\n'
        || (text.all isBlank && (peek after).symbol = .endOfInput)
    | .endOfInput => true
    | _ => false

variable {t : Token} {before after : List Token} {text : List Char}

theorem lineStart_content (h : t.symbol = .content text) :
    lineStart (t :: before)
      = ((Text.takeEndWhile isBlank text).contains '\n'
        || (text.all isBlank && before.isEmpty)) := by
  simp only [lineStart, h]

theorem lineEnd_content (h : t.symbol = .content text) :
    lineEnd (t :: after)
      = ((text.takeWhile isBlank).contains '\n'
        || (text.all isBlank && (peek after).symbol = .endOfInput)) := by
  simp only [lineEnd, h]

theorem lineStart_other (h : ∀ text, t.symbol ≠ .content text) :
    lineStart (t :: before) = false := by
  simp only [lineStart]

theorem lineEnd_other (h : ∀ text, t.symbol ≠ .content text) (hend : t.symbol ≠ .endOfInput) :
    lineEnd (t :: after) = false := by
  simp only [lineEnd]

def Unblank (rest : List Char) : Prop :=
  ∀ c ∈ rest.head?, isBlank c = false

theorem unblank_of_opens {cs : List Char} (h : opens cs = true) : Unblank cs := by
  simp only [opens, List.isPrefixOf_iff_prefix] at h
  obtain ⟨rest, rfl⟩ := h
  rintro c ⟨⟩
  rfl

theorem unblank_of_escapes {cs : List Char} (h : escapes cs = true) : Unblank cs := by
  simp only [escapes, List.isPrefixOf_iff_prefix] at h
  obtain ⟨rest, rfl⟩ := h
  rintro c ⟨⟩
  rfl

private theorem unblank_of_escapesBackslash {cs : List Char} (h : escapesBackslash cs = true) :
    Unblank cs := by
  simp only [escapesBackslash, List.isPrefixOf_iff_prefix] at h
  obtain ⟨rest, rfl⟩ := h
  rintro c ⟨⟩
  rfl

theorem Unblank.atLineEnd {rest : List Char} (h : Unblank rest) :
    Text.atLineEnd rest = decide (rest = []) := by
  cases rest with
  | nil => rfl
  | cons c rest => simp [Text.atLineEnd, h c rfl]

theorem contentText_unblank (cs : List Char) : Unblank (cs.drop (contentText cs).2) := by
  induction cs with
  | nil => exact fun c hc => nomatch hc
  | cons c cs ih =>
    simp only [contentText]
    split
    · rename_i hbreak
      obtain hopens | hescapes := Bool.or_eq_true_iff.mp hbreak
      · exact unblank_of_opens hopens
      · exact unblank_of_escapes hescapes
    · split
      · rename_i hescapes
        simp only [escapesBackslash, List.isPrefixOf_iff_prefix] at hescapes
        obtain ⟨rest, hrest⟩ := hescapes
        rw [← hrest]
        exact unblank_of_opens rfl
      · exact ih

theorem plainText_unblank (cs : List Char) : Unblank (cs.drop (plainText cs).length) := by
  induction cs with
  | nil => exact fun c hc => nomatch hc
  | cons c cs ih =>
    simp only [plainText]
    split
    · rename_i hbreak
      obtain hbreak | hescapes := Bool.or_eq_true_iff.mp hbreak
      · obtain hopens | hescapes := Bool.or_eq_true_iff.mp hbreak
        · exact unblank_of_opens hopens
        · exact unblank_of_escapes hescapes
      · exact unblank_of_escapesBackslash hescapes
    · exact ih

def EndsInBrace (cs : List Char) : Prop := ['}'] <:+ cs

theorem EndsInBrace.append {cs : List Char} (h : EndsInBrace cs) (before : List Char) :
    EndsInBrace (before ++ cs) :=
  h.trans (List.suffix_append _ _)

theorem EndsInBrace.not_atLineStart {cs : List Char} (h : EndsInBrace cs) :
    Text.atLineStart cs = false := by
  obtain ⟨before, rfl⟩ := h
  exact Text.atLineStart_concat rfl before

theorem endsInBrace_of_isPrefixOf {cs e : List Char} (h : e.isPrefixOf cs = true)
    (he : EndsInBrace e) : EndsInBrace (cs.take e.length) := by
  rw [List.isPrefixOf_iff_prefix] at h
  rwa [← List.prefix_iff_eq_take.mp h]

theorem endsInBrace_add {cs : List Char} {m n : Nat} (h : EndsInBrace ((cs.drop m).take n)) :
    EndsInBrace (cs.take (m + n)) := by
  rw [List.take_add]
  exact h.append _

private theorem throughFirst_ends {ends : List (List Char)} (hends : ∀ e ∈ ends, EndsInBrace e)
    {cs : List Char} {n : Nat} (h : throughFirst ends cs = some n) : EndsInBrace (cs.take n) := by
  induction cs generalizing n with
  | nil => cases h
  | cons c cs ih =>
    simp only [throughFirst] at h
    split at h
    · rename_i e hfind
      cases h
      have hprefix : e.isPrefixOf (c :: cs) = true :=
        List.find?_some (p := fun e : List Char => e.isPrefixOf (c :: cs)) hfind
      exact endsInBrace_of_isPrefixOf hprefix (hends e (List.mem_of_find?_eq_some hfind))
    · obtain ⟨m, hm, rfl⟩ := Option.map_eq_some_iff.mp h
      exact (ih hm).append [c]

private theorem commentLength?_ends {cs : List Char} {n : Nat} (h : commentLength? cs = some n) :
    EndsInBrace (cs.take n) := by
  simp only [commentLength?] at h
  split at h
  · obtain ⟨m, hm, rfl⟩ := Option.map_eq_some_iff.mp h
    rw [Nat.add_comm]
    refine endsInBrace_add (throughFirst_ends (fun e he => ?_) hm)
    simp only [List.mem_cons, List.not_mem_nil, or_false] at he
    obtain rfl | rfl := he
    · exact ⟨['-', '-', '}'], rfl⟩
    · exact ⟨['-', '-', '~', '}'], rfl⟩
  · refine throughFirst_ends (fun e he => ?_) h
    obtain rfl := List.mem_singleton.mp he
    exact ⟨['}'], rfl⟩

theorem drop_length_takeWhile (p : Char → Bool) (cs : List Char) :
    cs.drop (cs.takeWhile p).length = cs.dropWhile p := by
  have hsplit := congrArg (List.drop (cs.takeWhile p).length)
    (List.takeWhile_append_dropWhile (p := p) (l := cs))
  rw [List.drop_left] at hsplit
  exact hsplit.symm

private theorem closing?_ends {cs : List Char} {closing : Bool × Nat}
    (h : closing? cs = some closing) :
    EndsInBrace (cs.take closing.2) := by
  simp only [closing?] at h
  rw [← drop_length_takeWhile] at h
  split at h
  · rename_i hprefix
    cases h
    exact endsInBrace_add (endsInBrace_of_isPrefixOf hprefix ⟨['~', '}'], rfl⟩)
  · split at h
    · rename_i hprefix
      cases h
      exact endsInBrace_add (endsInBrace_of_isPrefixOf hprefix ⟨['}'], rfl⟩)
    · cases h

private theorem openLexeme_ends {cs : List Char} {l : Lexeme} (h : openLexeme cs = .ok l)
    (hafter : l.after = .text) : EndsInBrace (cs.take l.length) := by
  unfold openLexeme at h
  dsimp only at h
  generalize (if ((cs.drop 2).head? == some '~') = true then 3 else 2) = lead at h
  split at h
  case h_3 rest hrest =>
    split at h
    · rename_i n hlength
      cases h
      exact endsInBrace_add (commentLength?_ends (hrest ▸ hlength))
    · cases h
  case h_8 rest hrest =>
    cases hclosing : closing? rest with
    | none =>
      rw [hclosing] at h
      cases h
      cases hafter
    | some closing =>
      rw [hclosing] at h
      cases h
      refine endsInBrace_add ?_
      rw [← List.drop_drop, hrest]
      exact closing?_ends hclosing
  case h_11 =>
    split at h
    · generalize hclosing : closing? _ = closing at h
      cases closing with
      | none =>
        cases h
        cases hafter
      | some closing =>
        cases h
        refine endsInBrace_add ?_
        rw [← List.drop_drop, ← List.drop_drop, drop_length_takeWhile]
        exact closing?_ends hclosing
    · cases h
      cases hafter
  all_goals
    cases h
    cases hafter

private theorem closeLexeme?_ends {raw : Bool} {cs : List Char} {l : Lexeme}
    (h : closeLexeme? raw cs = some l) : EndsInBrace (cs.take l.length) := by
  unfold closeLexeme? at h
  repeat' split at h
  · rename_i hprefix
    cases h
    exact endsInBrace_of_isPrefixOf (Bool.and_eq_true_iff.mp hprefix).2 ⟨['}', '~', '}'], rfl⟩
  · rename_i hprefix
    cases h
    exact endsInBrace_of_isPrefixOf (Bool.and_eq_true_iff.mp hprefix).2 ⟨['}', '}'], rfl⟩
  · rename_i hprefix
    cases h
    exact endsInBrace_of_isPrefixOf hprefix ⟨['~', '}'], rfl⟩
  · rename_i hprefix
    cases h
    exact endsInBrace_of_isPrefixOf hprefix ⟨['}'], rfl⟩
  · cases h

theorem wordLexeme?_inTag {raw : Bool} {cs : List Char} {l : Lexeme}
    (h : wordLexeme? raw cs = some l) : l.after = .tag raw ∧ l.symbol.startsTag = false := by
  unfold wordLexeme? at h
  dsimp only at h
  repeat' split at h
  · cases h
    exact ⟨rfl, rfl⟩
  · cases h
    exact ⟨rfl, rfl⟩
  · cases h
  · cases h
    refine ⟨rfl, ?_⟩
    dsimp only [wordSymbol]
    repeat' split
    all_goals rfl

theorem lexeme_ends {mode : Mode} {cs : List Char} {l : Lexeme} (h : lexeme mode cs = .ok l)
    (hafter : l.after = .text) (hsymbol : ∀ text, l.symbol ≠ .content text) :
    EndsInBrace (cs.take (leadLength mode cs + l.length)) := by
  refine endsInBrace_add ?_
  cases mode with
  | tag raw =>
    obtain hclose | hword | ⟨symbol, n, rfl, -⟩ := tagLexeme_cases h
    · exact closeLexeme?_ends hclose
    · rw [(wordLexeme?_inTag hword).1] at hafter
      cases hafter
    · cases hafter
  | text =>
    simp only [lexeme] at h
    split at h
    · rename_i hopens
      simp only [leadLength, not_escapes_of_opens hopens, Bool.false_eq_true, ↓reduceIte,
        List.drop_zero]
      exact openLexeme_ends h hafter
    · split at h
      · cases h
        exact absurd rfl (hsymbol _)
      · cases h
        exact absurd rfl (hsymbol _)

private theorem closeLexeme?_startsTag {raw : Bool} {cs : List Char} {l : Lexeme}
    (h : closeLexeme? raw cs = some l) : l.symbol.startsTag = false := by
  unfold closeLexeme? at h
  repeat' split at h
  all_goals cases h <;> rfl

theorem tagLexeme_startsTag {raw : Bool} {cs : List Char} {l : Lexeme}
    (h : tagLexeme raw cs = .ok l) : l.symbol.startsTag = false := by
  obtain hclose | hword | ⟨symbol, n, rfl, -, hstarts⟩ := tagLexeme_cases h
  · exact closeLexeme?_startsTag hclose
  · exact (wordLexeme?_inTag hword).2
  · exact hstarts

/-- A text that is read from some characters, of which it takes a number, says where the lines
around it end. -/
structure ReadsText (cs text : List Char) (n : Nat) : Prop where
  lineEnd : Text.atLineEnd cs
    = ((text.takeWhile isBlank).contains '\n' || (text.all isBlank && decide (cs.drop n = [])))
  lineStart : ∀ before, Text.atLineStart (before ++ cs.take n)
    = ((Text.takeEndWhile isBlank text).contains '\n'
      || (text.all isBlank && Text.atLineStart before))
  next : Unblank (cs.drop n)
  blank : text.all isBlank = true → ¬Unblank cs

private theorem readsText_of_take {cs text : List Char} {n : Nat} (htake : cs.take n = text)
    (hne : text ≠ []) (hnext : Unblank (cs.drop n)) : ReadsText cs text n := by
  have hsplit : cs = text ++ cs.drop n := by rw [← htake, List.take_append_drop]
  refine ⟨?_, fun before => ?_, hnext, fun hblank hunblank => ?_⟩
  · rw [← hnext.atLineEnd, ← Text.atLineEnd_append, ← hsplit]
  · rw [htake, Text.atLineStart_append]
  · obtain ⟨c, text, rfl⟩ := List.exists_cons_of_ne_nil hne
    have hc : isBlank c = false := hunblank c (by rw [hsplit]; rfl)
    simp [hc] at hblank

private theorem readsText_escaped (rest : List Char) :
    ReadsText ('\\' :: '{' :: '{' :: rest) ('{' :: '{' :: plainText rest)
      ((plainText rest).length + 3) := by
  have htake : ('\\' :: '{' :: '{' :: rest).take ((plainText rest).length + 3)
      = ['\\'] ++ ('{' :: '{' :: plainText rest) :=
    congrArg (fun plain => '\\' :: '{' :: '{' :: plain)
      (List.prefix_iff_eq_take.mp (plainText_isPrefix rest)).symm
  refine ⟨rfl, fun before => ?_, plainText_unblank rest, fun hblank => nomatch hblank⟩
  rw [htake, ← List.append_assoc, Text.atLineStart_append]
  rfl

private theorem readsText_backslash {cs text : List Char} {n : Nat}
    (htake : cs.take n = text ++ ['\\'])
    (hend : ['\\'] <:+ text) (hnext : Unblank (cs.drop n)) : ReadsText cs text n := by
  obtain ⟨text, rfl⟩ := hend
  have hsplit : cs = text ++ ['\\'] ++ ('\\' :: cs.drop n) := by
    conv_lhs => rw [← List.take_append_drop n cs, htake, List.append_assoc]
    rfl
  have hblank : (text ++ ['\\']).all isBlank = false := by
    rw [List.all_append]
    exact Bool.and_false _
  refine ⟨?_, fun before => ?_, hnext, fun h => absurd h (Bool.eq_false_iff.mp hblank)⟩
  · rw [hblank, Bool.false_and]
    conv_lhs => rw [hsplit, Text.atLineEnd_append, hblank, Bool.false_and]
  · rw [htake, ← List.append_assoc, Text.atLineStart_concat rfl, ← Text.atLineStart_append,
      ← List.append_assoc, Text.atLineStart_concat rfl]

private theorem readsText_content {c : Char} {cs : List Char} (hopens : opens (c :: cs) = false)
    (hescapes : escapes (c :: cs) = false) :
    ReadsText (c :: cs) (contentText (c :: cs)).1 (contentText (c :: cs)).2 := by
  obtain htake | ⟨htake, hend, -⟩ := contentText_take (c :: cs)
  · refine readsText_of_take htake ?_ (contentText_unblank _)
    simp only [contentText, hopens, hescapes, Bool.or_self, Bool.false_eq_true, ↓reduceIte]
    split <;> exact List.cons_ne_nil _ _
  · exact readsText_backslash htake hend (contentText_unblank _)

theorem lexeme_readsText {c : Char} {cs text : List Char} {l : Lexeme}
    (h : lexeme .text (c :: cs) = .ok l) (hsymbol : l.symbol = .content text) :
    ReadsText (c :: cs) text (leadLength .text (c :: cs) + l.length) := by
  simp only [lexeme] at h
  split at h
  · exact absurd hsymbol (openLexeme_symbol h)
  split at h
  · rename_i hescapes
    cases h
    cases hsymbol
    simp only [leadLength, hescapes, ↓reduceIte]
    obtain ⟨rest, hcs⟩ := eq_append_of_escapes hescapes
    cases hcs
    rw [Nat.add_comm]
    exact readsText_escaped rest
  · rename_i hopens hescapes
    cases h
    cases hsymbol
    have hlead : leadLength .text (c :: cs) = 0 := by simp [leadLength, hescapes]
    rw [hlead, Nat.zero_add]
    exact readsText_content (Bool.eq_false_iff.mpr hopens) (Bool.eq_false_iff.mpr hescapes)

variable {src : Source}

theorem scanAfter_cons {mode : Mode} {p : Position} {c : Char} {cs : List Char} {ts : List Token}
    (h : scanAfter mode p 0 (c :: cs) = .ok ts) :
    ∃ l t ts' skip, lexeme mode (c :: cs) = .ok l ∧ ts = t :: ts' ∧ t.symbol = l.symbol
      ∧ t.loc.start = p.after ((c :: cs).take (leadLength mode (c :: cs)))
      ∧ t.loc.stop = p.after ((c :: cs).take (leadLength mode (c :: cs) + l.length))
      ∧ scanAfter l.after t.loc.stop skip cs = .ok ts'
      ∧ cs.drop skip = (c :: cs).drop (leadLength mode (c :: cs) + l.length) := by
  simp only [scanAfter] at h
  split at h
  · cases h
  rename_i l hl
  obtain ⟨ts', hrest, rfl⟩ := map_eq_ok.mp h
  obtain ⟨n, hn⟩ := Nat.exists_eq_succ_of_ne_zero (Nat.ne_of_gt (lexeme_pos hl))
  refine ⟨l, _, ts', _, hl, rfl, rfl, rfl, ?_, hrest, ?_⟩
  · rw [List.take_add, Position.after_append]
  · rw [hn, Nat.succ_sub_one, List.drop_succ_cons]

private theorem peek_endOfInput {p : Position} {skip : Nat} {cs : List Char} {ts : List Token}
    (h : scanAfter .text p skip cs = .ok ts) :
    (peek ts).symbol = .endOfInput ↔ cs.drop skip = [] := by
  induction cs generalizing skip p with
  | nil =>
    cases h
    simp [peek]
  | cons c cs ih =>
    cases skip with
    | succ skip => exact ih h
    | zero =>
      obtain ⟨l, t, ts', skip, hl, rfl, hsymbol, -⟩ := scanAfter_cons h
      simp [peek, hsymbol, (lexeme_leads hl).symbol_ne]

theorem lexeme_text_cases {cs : List Char} {l : Lexeme} (h : lexeme .text cs = .ok l) :
    (∃ text, l.symbol = .content text ∧ l.after = .text)
      ∨ opens cs = true ∧ ∀ text, l.symbol ≠ .content text := by
  simp only [lexeme] at h
  split at h
  · exact .inr ⟨‹_›, fun _ => openLexeme_symbol h⟩
  · split at h
    all_goals
      cases h
      exact .inl ⟨_, rfl, rfl⟩

theorem scanAfter_lineEnd {p : Position} {skip : Nat} {cs : List Char} {ts : List Token}
    (h : scanAfter .text p skip cs = .ok ts) : lineEnd ts = Text.atLineEnd (cs.drop skip) := by
  induction cs generalizing skip p with
  | nil =>
    cases h
    simp [lineEnd, Text.atLineEnd]
  | cons c cs ih =>
    cases skip with
    | succ skip => exact ih h
    | zero =>
      obtain ⟨l, t, ts', skip, hl, rfl, hsymbol, -, -, hrest, hdrop⟩ := scanAfter_cons h
      rw [List.drop_zero]
      obtain ⟨text, htext, hafter⟩ | ⟨hopens, hcontent⟩ := lexeme_text_cases hl
      · rw [hafter] at hrest
        rw [lineEnd_content (hsymbol.trans htext), (lexeme_readsText hl htext).lineEnd, ← hdrop]
        simp only [peek_endOfInput hrest]
      · rw [lineEnd_other (hsymbol ▸ hcontent) (hsymbol ▸ (lexeme_leads hl).symbol_ne),
          (unblank_of_opens hopens).atLineEnd]
        rfl

structure LineRead (read : List Token) (before rest : List Char) : Prop where
  start : Text.atLineStart before = lineStart read
  next : ∀ t ∈ read.head?, ∀ text, t.symbol = .content text → Unblank rest

theorem LineRead.blank {read : List Token} {before rest : List Char}
    (h : LineRead read before rest) (hrest : ¬Unblank rest) :
    Text.atLineStart before = read.isEmpty := by
  rw [h.start]
  cases read with
  | nil => rfl
  | cons t read => exact lineStart_other fun text htext => hrest (h.next t rfl text htext)

private theorem lexeme_lineRead {mode : Mode} {read : List Token} {before : List Char} {c : Char}
    {cs : List Char} {l : Lexeme} {t : Token} (hl : lexeme mode (c :: cs) = .ok l)
    (hafter : l.after = .text) (hsymbol : t.symbol = l.symbol)
    (hread : mode = .text → LineRead read before (c :: cs)) :
    LineRead (t :: read) (before ++ (c :: cs).take (leadLength mode (c :: cs) + l.length))
      ((c :: cs).drop (leadLength mode (c :: cs) + l.length)) := by
  by_cases hcontent : ∃ text, l.symbol = .content text
  · obtain ⟨text, htext⟩ := hcontent
    cases mode with
    | tag raw => exact absurd htext (tagLexeme_symbol hl)
    | text =>
      have hreads := lexeme_readsText hl htext
      refine ⟨?_, fun _ _ _ _ => hreads.next⟩
      rw [hreads.lineStart, lineStart_content (hsymbol.trans htext)]
      cases hblank : text.all isBlank with
      | false => rfl
      | true => rw [(hread rfl).blank (hreads.blank hblank)]
  · have hother (text : List Char) : l.symbol ≠ .content text := fun h => hcontent ⟨text, h⟩
    refine ⟨?_, fun t' ht' text htext => ?_⟩
    · rw [lineStart_other (hsymbol ▸ hother)]
      exact ((lexeme_ends hl hafter hother).append before).not_atLineStart
    · cases ht'
      exact absurd (hsymbol.symm.trans htext) (hother text)

/-- A token is told where its line begins and ends by the tokens before, of which the last comes
first, and those after. -/
structure Token.InLine (src : Source) (before after : List Token) (t : Token) : Prop where
  start : t.symbol.startsTag = true → src.startsLine t.loc.start = lineStart before
  stop : t.symbol.endsTag = true → src.endsLine t.loc.stop = lineEnd after

private theorem scanAfter_inLine {mode : Mode} {p : Position} {skip : Nat} {cs : List Char}
    {ts read : List Token} {before : List Char} (h : scanAfter mode p skip cs = .ok ts)
    (htext : src.text = before ++ cs.drop skip) (hp : p = Position.first.after before)
    (hread : mode = .text → LineRead read before (cs.drop skip)) {pre post : List Token} {t : Token}
    (hts : ts = pre ++ t :: post) : t.InLine src (pre.reverse ++ read) post := by
  induction cs generalizing mode p skip ts read before pre with
  | nil =>
    cases mode with
    | tag raw => cases h
    | text =>
      cases h
      cases pre with
      | nil =>
        cases hts
        exact ⟨fun h => (nomatch h), fun h => nomatch h⟩
      | cons t' pre => simp at hts
  | cons c cs ih =>
    cases skip with
    | succ skip => exact ih h htext hp hread hts
    | zero =>
      obtain ⟨l, t', ts', skip, hl, rfl, hsymbol, hstart, hstop, hrest, hdrop⟩ := scanAfter_cons h
      rw [List.drop_zero] at htext hread
      subst hp
      rw [← Position.after_append] at hstop
      have htext' : src.text
          = before ++ (c :: cs).take (leadLength mode (c :: cs) + l.length) ++ cs.drop skip := by
        rw [hdrop, List.append_assoc, List.take_append_drop, htext]
      have hread' (hafter : l.after = .text) := lexeme_lineRead hl hafter hsymbol hread
      cases pre with
      | nil =>
        obtain ⟨rfl, rfl⟩ := List.cons.inj hts
        refine ⟨fun hstarts => ?_, fun hends => ?_⟩
        · cases mode with
          | tag raw =>
            rw [hsymbol, tagLexeme_startsTag hl] at hstarts
            cases hstarts
          | text =>
            obtain ⟨text, hcontent, -⟩ | ⟨hopens, -⟩ := lexeme_text_cases hl
            · rw [hsymbol, hcontent] at hstarts
              cases hstarts
            · have hlead : leadLength .text (c :: cs) = 0 := by
                simp [leadLength, not_escapes_of_opens hopens]
              rw [hstart, hlead]
              exact (Source.startsLine_after htext).trans (hread rfl).start
        · obtain ⟨-, hafter⟩ | hin := lexeme_leads hl
          · rw [hafter] at hrest
            rw [hstop, Source.endsLine_after htext', scanAfter_lineEnd hrest]
          · rw [hsymbol, Symbol.endsTag_eq_false_of_inTag hin] at hends
            cases hends
      | cons t'' pre =>
        obtain ⟨rfl, hts'⟩ := List.cons.inj hts
        have hinLine := ih hrest htext' hstop (fun hafter => hdrop ▸ hread' hafter) hts'
        simpa using hinLine

/-- Whether only blanks stand on the line before a mustache, or after it, can be told from the
tokens. -/
theorem scan_inLine (name : Option String) {text : List Char} {pre post : List Token} {t : Token}
    (h : scan text = .ok (pre ++ t :: post)) : t.InLine ⟨text, name⟩ pre.reverse post := by
  have hread : LineRead [] [] text := ⟨rfl, fun _ ht => nomatch ht⟩
  have htext : Source.text ⟨text, name⟩ = [] ++ text := rfl
  have hinLine := scanAfter_inLine h htext rfl (fun _ => hread) rfl
  rwa [List.append_nil] at hinLine

end Mustache
end HtmlTemplate
