import HtmlTemplate.Proofs.Enclosed
import HtmlTemplate.Proofs.Tokens
import HtmlTemplate.Proofs.Words

/-! The tokens that the parts of a draft are read as, each in the place where it is
written. -/

namespace HtmlTemplate.Mustache

open Draft (Constant isWord isWordChar reserved)
open Text (isBlank)

theorem scanAfter_drop (mode : Mode) (p : Position) (n : Nat) (cs : List Char) :
    scanAfter mode p n cs = scanAfter mode p 0 (cs.drop n) := by
  induction cs generalizing n with
  | nil =>
    rw [List.drop_nil]
    rfl
  | cons c cs ih =>
    cases n with
    | zero => rfl
    | succ n => exact ih n

/-- A text is read as some tokens, whatever is found in what follows. -/
def Scans (mode : Mode) (p : Position) (text : List Char) (ts : List Token) (mode' : Mode)
    (rest : List Char) : Prop :=
  scanAfter mode p 0 (text ++ rest) = (scanAfter mode' (p.after text) 0 rest).map (ts ++ ·)

/-- A token where its text stands. -/
def tokenAt (p : Position) (text : List Char) (symbol : Symbol) : Token :=
  { symbol, loc := ⟨p, p.after text⟩ }

variable {mode mode' mode'' : Mode} {p : Position} {text text' rest : List Char}
  {ts ts' : List Token} {raw : Bool}

theorem Scans.nil (mode : Mode) (p : Position) (rest : List Char) :
    Scans mode p [] [] mode rest := by
  cases h : scanAfter mode p 0 rest <;> simp [Scans, h, Except.map]

theorem Scans.append (h : Scans mode p text ts mode' (text' ++ rest))
    (h' : Scans mode' (p.after text) text' ts' mode'' rest) :
    Scans mode p (text ++ text') (ts ++ ts') mode'' rest := by
  unfold Scans at *
  rw [List.append_assoc, h, h', Position.after_append]
  cases scanAfter mode'' ((p.after text).after text') 0 rest <;> simp [Except.map]

theorem Scans.one {l : Lexeme} {symbol : Symbol} (htext : text ≠ [])
    (hlead : leadLength mode (text ++ rest) = 0)
    (hl : lexeme mode (text ++ rest) = .ok l)
    (heq : l = { symbol, length := text.length, after := mode' }) :
    Scans mode p text [tokenAt p text symbol] mode' rest := by
  subst heq
  obtain ⟨c, cs, rfl⟩ := List.exists_cons_of_ne_nil htext
  unfold Scans
  rw [List.cons_append] at hlead hl ⊢
  rw [scanAfter]
  simp only [hlead, hl, List.take_zero, List.drop_zero, Position.after_nil, Nat.zero_add]
  have htake : (c :: (cs ++ rest)).take (c :: cs).length = c :: cs := by
    rw [← List.cons_append, List.take_left]
  have hdrop : (cs ++ rest).drop ((c :: cs).length - 1) = rest := by
    rw [List.length_cons, Nat.add_sub_cancel, List.drop_left]
  rw [htake, scanAfter_drop, hdrop]
  rfl

def startsWord (c : Char) : Bool :=
  isWordChar c && c != '_'

theorem isBlank_of_startsWord {c : Char} (h : startsWord c = true) : isBlank c = false :=
  isBlank_of_isWordChar (Bool.and_eq_true_iff.mp h).1

theorem startsWord_of_isAlpha {c : Char} (h : c.isAlpha = true) : startsWord c = true := by
  have hne : c ≠ '_' := fun heq => absurd (heq ▸ h) (by decide)
  simp [startsWord, isWordChar_of_isAlpha h, hne]

theorem startsWord_of_number {c : Char} (h : c = '-' ∨ c.isDigit = true) :
    startsWord c = true := by
  obtain rfl | hdigit := h
  · decide
  · have hne : c ≠ '_' := fun heq => absurd (heq ▸ hdigit) (by decide)
    simp [startsWord, isWordChar, Char.isAlphanum, hdigit, hne]

theorem tagLexeme_word {c : Char} {cs : List Char} {l : Lexeme} (hc : startsWord c = true)
    (hl : wordLexeme? raw (c :: cs) = some l) : tagLexeme raw (c :: cs) = .ok l := by
  have hne : c ∉ ['}', '~', '(', ')', '=', '|', '@', '/', '.', '"', '\'', '['] :=
    not_mem_of_all hc (by decide)
  simp only [List.mem_cons, not_or] at hne
  unfold tagLexeme
  simp [hne, hl]

theorem Scans.tag {c : Char} {cs : List Char} {symbol : Symbol} (hblank : isBlank c = false)
    (hl : tagLexeme raw (c :: cs ++ rest)
      = .ok { symbol, length := (c :: cs).length, after := mode' }) :
    Scans (.tag raw) p (c :: cs) [tokenAt p (c :: cs) symbol] mode' rest := by
  have hlead : leadLength (.tag raw) (c :: cs ++ rest) = 0 := by
    unfold leadLength
    rw [List.cons_append, List.takeWhile_cons_of_neg (by simp [hblank])]
    rfl
  refine Scans.one (List.cons_ne_nil c cs) hlead ?_ rfl
  unfold lexeme
  rw [hlead]
  exact hl

theorem scans_word {w : List Char} (h : isWord w = true)
    (hrest : rest.head?.all (!isNameChar ·) = true) :
    Scans (.tag raw) p w [tokenAt p w (.name w false)] (.tag raw) rest := by
  have hlexeme : wordLexeme? raw (w ++ rest) = _ := wordLexeme?_word h hrest
  obtain ⟨c, cs, rfl, hc, -, -⟩ := chars_of_isWord h
  have hstart : startsWord c = true := startsWord_of_isAlpha hc
  exact Scans.tag (isBlank_of_startsWord hstart) (tagLexeme_word hstart hlexeme)

private theorem numberText?_ne_nil {cs text : List Char} (h : numberText? cs = some text) :
    text ≠ [] := by
  unfold numberText? at h
  dsimp only at h
  obtain ⟨hdigits, h⟩ | ⟨-, h⟩ := ite_eq_iff.mp h
  · cases h
    have hne := (Bool.and_eq_true_iff.mp hdigits).1
    simp only [Bool.not_eq_true', List.isEmpty_eq_false_iff] at hne
    exact List.append_ne_nil_of_left_ne_nil (List.append_ne_nil_of_right_ne_nil _ hne) _
  · cases h

private theorem wordLexeme?_pos {cs : List Char} {l : Lexeme} (h : wordLexeme? raw cs = some l) :
    0 < l.length := by
  unfold wordLexeme? at h
  split at h
  · rename_i hparams
    unfold paramsLength? at hparams
    dsimp only at hparams
    obtain ⟨-, hparams⟩ | ⟨-, hparams⟩ := ite_eq_iff.mp hparams
    · cases hparams
      cases h
      exact Nat.succ_pos _
    · cases hparams
  · split at h
    · rename_i htext
      cases h
      exact List.length_pos_iff.mpr (numberText?_ne_nil htext)
    · dsimp only at h
      split at h
      · cases h
      · rename_i hword
        cases h
        simpa [List.length_pos_iff] using hword

private theorem closeLexeme?_pos {cs : List Char} {l : Lexeme} (h : closeLexeme? raw cs = some l) :
    0 < l.length := by
  unfold closeLexeme? at h
  repeat' split at h
  all_goals
    cases h
    try exact Nat.succ_pos _

theorem tagLexeme_pos {cs : List Char} {l : Lexeme} (h : tagLexeme raw cs = .ok l) :
    0 < l.length := by
  obtain hclose | hword | ⟨symbol, n, rfl, -⟩ := tagLexeme_cases h
  · exact closeLexeme?_pos hclose
  · exact wordLexeme?_pos hword
  · exact Nat.succ_pos n

theorem Scans.blank {c : Char} {cs : List Char} (hblank : isBlank c = false)
    (h : Scans (.tag raw) (p.next ' ') (c :: cs) ts mode' rest) :
    Scans (.tag raw) p (' ' :: c :: cs) ts mode' rest := by
  have hlead : leadLength (.tag raw) (c :: cs ++ rest) = 0 := by
    unfold leadLength
    rw [List.cons_append, List.takeWhile_cons_of_neg (by simp [hblank])]
    rfl
  have hlead' : leadLength (.tag raw) (' ' :: (c :: cs ++ rest)) = 1 := by
    unfold leadLength at hlead ⊢
    dsimp only at hlead ⊢
    rw [List.takeWhile_cons_of_pos (by decide), List.length_cons, hlead]
  have hlexeme : lexeme (.tag raw) (' ' :: (c :: cs ++ rest))
      = lexeme (.tag raw) (c :: cs ++ rest) := by
    unfold lexeme
    rw [hlead, hlead']
    rfl
  unfold Scans at *
  rw [List.cons_append, Position.after_cons, ← h, scanAfter]
  simp only [hlead', hlexeme]
  rw [List.cons_append, scanAfter, ← List.cons_append]
  simp only [hlead]
  cases hl : lexeme (.tag raw) (c :: cs ++ rest) with
  | error fault => rfl
  | ok l =>
    have hpos : 0 < l.length := by
      unfold lexeme at hl
      rw [hlead] at hl
      exact tagLexeme_pos hl
    obtain ⟨n, hn⟩ := Nat.exists_eq_add_of_lt hpos
    simp only [hn, Nat.zero_add, Nat.add_sub_cancel, Nat.add_sub_cancel_left]
    rfl

theorem head?_not_isNameChar (hrest : rest.head?.all endsLiteral = true) :
    rest.head?.all (!isNameChar ·) = true := by
  cases rest with
  | nil => rfl
  | cons c rest => simpa using isNameChar_of_endsLiteral (c := c) (by simpa using hrest)

theorem paramsLength?_of_ne {c : Char} (hc : c ≠ 'a') (cs : List Char) :
    paramsLength? (c :: cs) = none := by
  unfold paramsLength?
  dsimp only
  refine if_neg fun hcon => ?_
  simp only [Bool.and_eq_true] at hcon
  obtain ⟨tail, htail⟩ := List.isPrefixOf_iff_prefix.mp hcon.1.1
  exact hc (List.cons.inj htail).1.symm

theorem scans_keyword {c : Char} {cs : List Char} {l : Literal} (h : keyword? (c :: cs) = some l)
    (hchars : (c :: cs).all isNameChar = true) (hc : c.isAlpha = true) (ha : c ≠ 'a')
    (hrest : rest.head?.all endsLiteral = true) :
    Scans (.tag raw) p (c :: cs) [tokenAt p (c :: cs) (.literal l)] (.tag raw) rest := by
  have hstop := head?_not_isNameChar hrest
  have hname : ∀ d ∈ c :: cs, isNameChar d = true := List.all_eq_true.mp hchars
  have hlexeme : wordLexeme? raw (c :: cs ++ rest)
      = some { symbol := .literal l, length := (c :: cs).length, after := .tag raw } := by
    unfold wordLexeme?
    rw [List.cons_append, paramsLength?_of_ne ha, numberText?_of_isAlpha hc, ← List.cons_append]
    dsimp only
    rw [takeWhile_run hname hstop, dropWhile_run hname hstop, List.isEmpty_cons,
      if_neg Bool.false_ne_true]
    unfold wordSymbol
    rw [h]
    dsimp only
    rw [if_pos hrest]
  have hstart : startsWord c = true := startsWord_of_isAlpha hc
  exact Scans.tag (isBlank_of_startsWord hstart) (tagLexeme_word hstart hlexeme)

private theorem scans_number {x : Binary64} (h : x.isFinite = true)
    (hrest : rest.head?.all endsLiteral = true) :
    Scans (.tag raw) p x.text [tokenAt p x.text (.literal (.number x x.text))] (.tag raw) rest := by
  have hnumber := numberText?_text h hrest
  have hvalue := Binary64.ofText_text h
  obtain ⟨c, cs, htext, hc⟩ := Binary64.text_starts h
  rw [htext] at hnumber hvalue ⊢
  have hstart : startsWord c = true := startsWord_of_number hc
  have ha : c ≠ 'a' := by
    rintro rfl
    exact absurd hc (by decide)
  have hlexeme : wordLexeme? raw (c :: cs ++ rest)
      = some { symbol := .literal (.number x (c :: cs)), length := (c :: cs).length
               after := .tag raw } := by
    unfold wordLexeme?
    rw [hnumber, List.cons_append, paramsLength?_of_ne ha]
    dsimp only
    rw [hvalue]
  exact Scans.tag (isBlank_of_startsWord hstart) (tagLexeme_word hstart hlexeme)

theorem scans_quoted {q : Char} (hq : q = '"' ∨ q = '\'') {value : List Char}
    (h : enclosedText? q (· == q) (text ++ rest) = some (value, text.length)) :
    Scans (.tag raw) p (q :: text) [tokenAt p (q :: text) (.literal (.string value))] (.tag raw)
      rest := by
  have hlexeme : tagLexeme raw (q :: text ++ rest)
      = .ok { symbol := .literal (.string value), length := (q :: text).length
              after := .tag raw } := by
    unfold tagLexeme
    obtain rfl | rfl := hq <;> simp [h]
  exact Scans.tag (by obtain rfl | rfl := hq <;> decide) hlexeme

theorem scans_bracketed {value : List Char}
    (h : enclosedText? ']' (fun d => d == ']' || d == '\\') (text ++ rest)
      = some (value, text.length)) :
    Scans (.tag raw) p ('[' :: text) [tokenAt p ('[' :: text) (.name value true)] (.tag raw)
      rest := by
  refine Scans.tag (by decide) ?_
  unfold tagLexeme
  simp [h]

private theorem scans_string {value : List Char} (hquote : '"' ∉ value)
    (hlast : value.getLast? ≠ some '\\') :
    Scans (.tag raw) p ('"' :: value ++ ['"'])
      [tokenAt p ('"' :: value ++ ['"']) (.literal (.string value))] (.tag raw) rest := by
  have hplain : backslashed (· == '"') value = value :=
    backslashed_plain fun c hc => beq_false_of_ne fun heq => hquote (heq ▸ hc)
  have htext : enclosedText? '"' (· == '"') (value ++ ['"'] ++ rest)
      = some (value, (value ++ ['"']).length) := by
    have hread := enclosedText?_quoted (q := '"') (by decide) hlast rest
    rw [hplain, ← List.singleton_append, ← List.append_assoc] at hread
    rw [hread, List.length_append, List.length_singleton]
  exact scans_quoted (.inl rfl) htext

theorem scans_constant {c : Constant} (h : c.WellFormed)
    (hrest : rest.head?.all endsLiteral = true) :
    Scans (.tag raw) p c.text [tokenAt p c.text (.literal c.literal)] (.tag raw) rest := by
  cases c with
  | string value => exact scans_string h.1 h.2
  | number x => exact scans_number h hrest
  | boolean b =>
    cases b with
    | true => exact scans_keyword (by decide) (by decide) (by decide) (by decide) hrest
    | false => exact scans_keyword (by decide) (by decide) (by decide) (by decide) hrest
  | null => exact scans_keyword (by decide) (by decide) (by decide) (by decide) hrest
  | undefined => exact scans_keyword (by decide) (by decide) (by decide) (by decide) hrest

theorem scans_openCall : Scans (.tag raw) p ['('] [tokenAt p ['('] .openCall] (.tag raw) rest :=
  Scans.tag (by decide) rfl

theorem scans_closeCall : Scans (.tag raw) p [')'] [tokenAt p [')'] .closeCall] (.tag raw) rest :=
  Scans.tag (by decide) rfl

theorem scans_equals : Scans (.tag raw) p ['='] [tokenAt p ['='] .equals] (.tag raw) rest :=
  Scans.tag (by decide) rfl

theorem scans_data : Scans (.tag raw) p ['@'] [tokenAt p ['@'] .data] (.tag raw) rest :=
  Scans.tag (by decide) rfl

theorem scans_closeParams :
    Scans (.tag raw) p ['|'] [tokenAt p ['|'] .closeParams] (.tag raw) rest :=
  Scans.tag (by decide) rfl

theorem scans_separator {c : Char} {cs : List Char} (hc : isWordChar c = true) :
    Scans (.tag raw) p ['.'] [tokenAt p ['.'] (.separator false)] (.tag raw) (c :: cs) := by
  have hdot : c ≠ '.' := fun heq => absurd (heq ▸ hc) (by decide)
  have hends : endsSegment c = false := by
    have hother : c ∉ ['=', '~', '}', '/', '.', ')', '|'] := not_mem_of_all hc (by decide)
    unfold endsSegment
    rw [isBlank_of_isWordChar hc, Bool.false_or]
    by_contra hmem
    rw [Bool.not_eq_false, List.contains_iff_mem] at hmem
    exact hother hmem
  refine Scans.tag (by decide) ?_
  unfold tagLexeme
  simp [hdot, hends]

theorem scans_openParams :
    Scans (.tag raw) p ['a', 's', ' ', '|'] [tokenAt p ['a', 's', ' ', '|'] .openParams] (.tag raw)
      rest :=
  Scans.tag (by decide) rfl

theorem scans_close : Scans (.tag false) p ['}', '}'] [tokenAt p ['}', '}'] .close] .text rest :=
  Scans.tag (by decide) rfl

theorem scans_closeRaw :
    Scans (.tag true) p ['}', '}', '}'] [tokenAt p ['}', '}', '}'] .closeRaw] .text rest :=
  Scans.tag (by decide) rfl

def isContent (cs : List Char) : Prop :=
  '{' ∉ cs ∧ cs.getLast? ≠ some '\\'

def Breaks (rest : List Char) : Prop :=
  rest = [] ∨ opens rest = true

private theorem isContent_tail {c : Char} {cs : List Char} (h : isContent (c :: cs)) :
    isContent cs := by
  refine ⟨fun hmem => h.1 (List.mem_cons_of_mem c hmem), ?_⟩
  cases cs with
  | nil => simp
  | cons d ds => simpa [List.getLast?_cons_cons] using h.2

theorem plain_of_isContent {c : Char} {cs : List Char} (h : isContent (c :: cs))
    (rest : List Char) :
    opens (c :: cs ++ rest) = false ∧ escapes (c :: cs ++ rest) = false
      ∧ escapesBackslash (c :: cs ++ rest) = false := by
  have hc : c ≠ '{' := fun heq => h.1 (heq ▸ List.mem_cons_self)
  refine ⟨by simp [opens, List.isPrefixOf, Ne.symm hc], ?_, ?_⟩
  · cases cs with
    | nil =>
      have hlast : c ≠ '\\' := fun heq => h.2 (by rw [heq]; rfl)
      simp [escapes, List.isPrefixOf, Ne.symm hlast]
    | cons d ds =>
      have hd : d ≠ '{' := fun heq => h.1 (by simp [heq])
      simp [escapes, List.isPrefixOf, Ne.symm hd]
  · match cs with
    | [] =>
      have hlast : c ≠ '\\' := fun heq => h.2 (by rw [heq]; rfl)
      simp [escapesBackslash, List.isPrefixOf, Ne.symm hlast]
    | [d] =>
      have hlast : d ≠ '\\' := fun heq => h.2 (by rw [heq]; rfl)
      simp [escapesBackslash, List.isPrefixOf, Ne.symm hlast]
    | d :: e :: es =>
      have he : e ≠ '{' := fun heq => h.1 (by simp [heq])
      simp [escapesBackslash, List.isPrefixOf, Ne.symm he]

private theorem contentText_append {cs rest : List Char} (h : isContent cs) (hrest : Breaks rest) :
    contentText (cs ++ rest) = (cs, cs.length) := by
  induction cs with
  | nil =>
    obtain rfl | hopens := hrest
    · rfl
    · cases rest with
      | nil => rfl
      | cons c rest => simp [contentText, hopens]
  | cons c cs ih =>
    obtain ⟨hopens, hescapes, hbackslash⟩ := plain_of_isContent h rest
    rw [List.cons_append] at hopens hescapes hbackslash ⊢
    rw [contentText, hopens, hescapes, hbackslash, ih (isContent_tail h)]
    rfl

theorem scans_content {cs : List Char} (hne : cs ≠ []) (h : isContent cs) (hrest : Breaks rest) :
    Scans .text p cs [tokenAt p cs (.content cs)] .text rest := by
  obtain ⟨c, cs, rfl⟩ := List.exists_cons_of_ne_nil hne
  obtain ⟨hopens, hescapes, -⟩ := plain_of_isContent h rest
  have hlead : leadLength .text (c :: cs ++ rest) = 0 := by
    unfold leadLength
    rw [hescapes]
    rfl
  refine Scans.one hne hlead ?_ rfl
  unfold lexeme
  dsimp only
  rw [hopens, hescapes]
  unfold contentLexeme
  rw [contentText_append h hrest]
  rfl

theorem Scans.opening {cs : List Char} {symbol : Symbol}
    (hl : openLexeme ('{' :: '{' :: cs ++ rest)
      = .ok { symbol, length := ('{' :: '{' :: cs).length, after := mode' }) :
    Scans .text p ('{' :: '{' :: cs) [tokenAt p ('{' :: '{' :: cs) symbol] mode' rest :=
  Scans.one (List.cons_ne_nil _ _) rfl hl rfl

/-- What mustaches begin with that are neither blocks nor marked. -/
def startsCall (c : Char) : Bool :=
  startsWord c || c == '@' || c == '"'

theorem isBlank_of_startsCall {c : Char} (h : startsCall c = true) : isBlank c = false := by
  simp only [startsCall, Bool.or_eq_true, beq_iff_eq] at h
  obtain (hword | rfl) | rfl := h
  · exact isBlank_of_startsWord hword
  · rfl
  · rfl

theorem scans_opening {c : Char} {cs : List Char}
    (hc : c ∉ ['~', '{', '&', '!', '#', '/', '^', '>', '*']) (hblank : isBlank c = false)
    (helse : startsElse (c :: cs) = false) :
    Scans .text p ['{', '{'] [tokenAt p ['{', '{'] (.opener .escaped)] (.tag false) (c :: cs) := by
  simp only [List.mem_cons, not_or] at hc
  refine Scans.opening ?_
  simp [openLexeme, hc, hblank, helse]

theorem scans_escaped {c : Char} {cs : List Char} (hc : startsCall c = true)
    (helse : startsElse (c :: cs) = false) :
    Scans .text p ['{', '{'] [tokenAt p ['{', '{'] (.opener .escaped)] (.tag false) (c :: cs) :=
  scans_opening (not_mem_of_all hc (by decide)) (isBlank_of_startsCall hc) helse

theorem scans_raw : Scans .text p ['{', '{', '{'] [tokenAt p ['{', '{', '{'] (.opener .raw)]
    (.tag true) rest :=
  Scans.opening rfl

theorem scans_block {c : Char} {cs : List Char} (hc : startsCall c = true) :
    Scans .text p ['{', '{', '#'] [tokenAt p ['{', '{', '#'] (.opener .block)] (.tag false)
      (c :: cs) := by
  have hne : c ∉ ['>', '*'] := not_mem_of_all hc (by decide)
  simp only [List.mem_cons, not_or] at hne
  refine Scans.opening ?_
  simp [openLexeme, hne]

theorem scans_endBlock :
    Scans .text p ['{', '{', '/'] [tokenAt p ['{', '{', '/'] (.opener .endBlock)] (.tag false)
      rest :=
  Scans.opening rfl

theorem scans_elseTag :
    Scans .text p Draft.elseText [tokenAt p Draft.elseText .elseTag] .text rest :=
  Scans.opening rfl

end HtmlTemplate.Mustache
