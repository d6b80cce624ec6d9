import HtmlTemplate.Proofs.Coordinates
import HtmlTemplate.Proofs.Linked
import HtmlTemplate.Proofs.Moment

/-! What stands in the text where a token is: the braces of a tag, the parentheses of a call, and
a literal the way it may be written. -/

namespace HtmlTemplate

/-- A text between quotes with every escaped quote read as the quote. -/
def Text.unescape (quote : Char) : List Char → List Char
  | [] => []
  | [c] => [c]
  | c :: d :: ds =>
    if c = '\\' ∧ d = quote then quote :: unescape quote ds else c :: unescape quote (d :: ds)

/-- How a literal may be written. A string stands between two quotes of either kind. -/
def Literal.Written : Literal → List Char → Prop
  | .string value, cs =>
    ∃ quote raw, (quote = '"' ∨ quote = '\'') ∧ cs = quote :: (raw ++ [quote])
      ∧ value = Text.unescape quote raw
  | .number _ written, cs => cs = written
  | .boolean value, cs => cs = (Literal.boolean value).text
  | .null, cs => cs = Literal.null.text
  | .undefined, cs => cs = Literal.undefined.text

namespace Source

variable {src : Source} {p q r s : Position} {cs ds opening closing : List Char}

/-- The text of a span stands between two others. -/
def Delimits (src : Source) (opening closing : List Char) (span : Span) : Prop :=
  ∃ inner, src.slice span = opening ++ (inner ++ closing)

/-- The text of a span is between the braces of a mustache. -/
def Braced (src : Source) (span : Span) : Prop :=
  src.Delimits ['{', '{'] ['}', '}'] span

theorem Covers.left (h : src.Covers p (cs ++ ds) q) :
    src.Covers p cs (p.after cs) ∧ p.after cs ≤ q := by
  obtain ⟨start, rest, hstands, rfl⟩ := h
  rw [List.append_assoc] at hstands
  rw [Position.after_append]
  exact ⟨hstands.covers, Position.le_after _ _⟩

theorem Covers.right (h : src.Covers p (cs ++ ds) q) :
    src.Covers (p.after cs) ds q ∧ p ≤ p.after cs := by
  obtain ⟨start, rest, hstands, rfl⟩ := h
  rw [List.append_assoc] at hstands
  exact ⟨⟨_, rest, hstands.after, Position.after_append _ _ _⟩, Position.le_after _ _⟩

theorem Covers.slice_spanFor (h : src.Covers p cs q) : src.slice (src.spanFor ⟨p, q⟩) = cs := by
  obtain ⟨start, rest, hstands, rfl⟩ := h
  exact hstands.slice

theorem Covers.spanFor (h : src.Covers p cs q) :
    src.spanFor ⟨p, q⟩ = ⟨src.offsetFor p, src.offsetFor p + byteLength cs⟩ := by
  obtain ⟨start, rest, hstands, rfl⟩ := h
  rw [hstands.spanFor, (hstands : src.Stands p start _).offsetFor]
  rfl

theorem Covers.offset (h : src.Covers p cs q) :
    src.offsetFor q = src.offsetFor p + byteLength cs := by
  obtain ⟨start, rest, hstands, rfl⟩ := h
  rw [hstands.after.offsetFor, hstands.offsetFor]

theorem Covers.join (h : src.Covers p cs q) (h' : src.Covers r ds s) (hle : q ≤ r) :
    ∃ inner, src.Covers p (cs ++ (inner ++ ds)) s := by
  obtain ⟨start, rest, hstands, rfl⟩ := h
  obtain ⟨start', rest', hstands', rfl⟩ := h'
  have hoffset := src.offsetFor_mono hstands.after.line hle
  rw [hstands.after.offsetFor, hstands'.offsetFor] at hoffset
  obtain ⟨before, htext, rfl, rfl⟩ := hstands
  obtain ⟨before', htext', rfl, rfl⟩ := hstands'
  rw [← byteLength_append] at hoffset
  have hpre : before ++ cs <+: src.text := ⟨rest, by rw [htext, List.append_assoc]⟩
  obtain ⟨inner, rfl⟩ := prefix_of_byteLength_le hpre ⟨_, htext'.symm⟩ hoffset
  have hstands : src.Stands (.after .first before) (byteLength before)
      (cs ++ (inner ++ ds) ++ rest') := ⟨before, by simpa using htext', rfl, rfl⟩
  refine ⟨inner, _, _, hstands, ?_⟩
  rw [Position.after_append, Position.after_append, Position.after_append, Position.after_append]

theorem Covers.delimits (h : src.Covers p opening q) (h' : src.Covers r closing s) (hle : q ≤ r) :
    src.Delimits opening closing (src.spanFor ⟨p, s⟩) := by
  obtain ⟨inner, hcovers⟩ := h.join h' hle
  exact ⟨inner, hcovers.slice_spanFor⟩

end Source

namespace Mustache

theorem enclosedText?_written {quote : Char} {cs text : List Char} {n : Nat}
    (h : enclosedText? quote (· == quote) cs = some (text, n)) :
    ∃ raw, cs.take n = raw ++ [quote] ∧ text = Text.unescape quote raw := by
  fun_induction enclosedText? quote (· == quote) cs generalizing text n with
  | case1 => cases h
  | case2 cs =>
    cases h
    exact ⟨[], rfl, rfl⟩
  | case3 c _ d ds hescaped ih =>
    obtain ⟨⟨text', n'⟩, hmore, heq⟩ := Option.map_eq_some_iff.mp h
    cases heq
    obtain ⟨rfl, rfl⟩ : c = '\\' ∧ d = quote := by simpa using hescaped
    obtain ⟨raw, htake, rfl⟩ := ih hmore
    exact ⟨'\\' :: d :: raw, by simp [htake], by simp [Text.unescape]⟩
  | case4 c _ d ds hplain ih =>
    obtain ⟨⟨text', n'⟩, hmore, heq⟩ := Option.map_eq_some_iff.mp h
    cases heq
    have hplain : ¬ (c = '\\' ∧ d = quote) := by simpa using hplain
    obtain ⟨raw, htake, rfl⟩ := ih hmore
    refine ⟨c :: raw, by simp [htake], ?_⟩
    -- the character after `c` is the first one of the raw text, if there is any
    cases raw with
    | nil => rfl
    | cons e raw =>
      obtain rfl : d = e := by
        cases n' with
        | zero => cases htake
        | succ n' => exact (List.cons.inj htake).1
      rw [Text.unescape, if_neg hplain]
  | case5 => cases h

theorem numberText?_isPrefix {cs text : List Char} (h : numberText? cs = some text) :
    text <+: cs := by
  have hsign : (if cs.head? == some '-' then ['-'] else []) <+: cs := by
    split
    · rename_i hc
      obtain ⟨cs, rfl⟩ := List.head?_eq_some_iff.mp (beq_iff_eq.mp hc)
      exact ⟨cs, rfl⟩
    · exact List.nil_prefix
  unfold numberText? at h
  dsimp only at h
  generalize (if cs.head? == some '-' then ['-'] else []) = sign at h hsign
  obtain ⟨-, h⟩ | ⟨-, h⟩ := ite_eq_iff.mp h
  · cases h
    obtain ⟨cs, rfl⟩ := hsign
    rw [List.drop_left, List.append_assoc, List.prefix_append_right_inj]
    have hcs := List.takeWhile_append_dropWhile (p := Char.isDigit) (l := cs)
    generalize cs.takeWhile Char.isDigit = digits at hcs ⊢
    generalize cs.dropWhile Char.isDigit = rest at hcs ⊢
    subst hcs
    rw [List.prefix_append_right_inj]
    split
    · rename_i hpoint
      obtain ⟨rest, rfl⟩ :=
        List.head?_eq_some_iff.mp (beq_iff_eq.mp (Bool.and_eq_true_iff.mp hpoint).1)
      exact List.cons_prefix_cons.mpr ⟨rfl, List.takeWhile_prefix _⟩
    · exact List.nil_prefix
  · cases h

theorem keyword?_written {word : List Char} {l : Literal} (h : keyword? word = some l) :
    l.Written word := by
  unfold keyword? at h
  repeat' split at h
  all_goals
    cases h
    try assumption

/-- How a token may be written, of the tokens that delimit something and the literals. -/
def Symbol.Written : Symbol → List Char → Prop
  | .opener _, cs => ['{', '{'] <+: cs
  | .comment _, cs => ∃ inner, cs = ['{', '{'] ++ (inner ++ ['}', '}'])
  | .close, cs | .closeRaw, cs => ['}', '}'] <:+ cs
  | .openCall, cs => cs = ['(']
  | .closeCall, cs => cs = [')']
  | .literal l, cs => l.Written cs
  | .content _, _ | .elseTag, _ | .equals, _ | .data, _ | .separator _, _ | .name .., _
  | .openParams, _ | .closeParams, _ | .endOfInput, _ => True

private theorem throughFirst_take {ends : List (List Char)} {cs : List Char} {n : Nat}
    (h : throughFirst ends cs = some n) : ∃ inner, ∃ e ∈ ends, cs.take n = inner ++ e := by
  induction cs generalizing n with
  | nil => cases h
  | cons c cs ih =>
    simp only [throughFirst] at h
    split at h
    · rename_i e he
      cases h
      have hpre : e <+: c :: cs := by simpa using List.find?_some he
      exact ⟨[], e, List.mem_of_find?_eq_some he, (List.prefix_iff_eq_take.mp hpre).symm⟩
    · obtain ⟨m, hm, rfl⟩ := Option.map_eq_some_iff.mp h
      obtain ⟨inner, e, he, htake⟩ := ih hm
      exact ⟨c :: inner, e, he, by rw [List.take_succ_cons, htake, List.cons_append]⟩

private theorem commentLength?_take {cs : List Char} {n : Nat} (h : commentLength? cs = some n) :
    ∃ inner, cs.take n = inner ++ ['}', '}'] := by
  unfold commentLength? at h
  split at h
  · obtain ⟨m, hm, rfl⟩ := Option.map_eq_some_iff.mp h
    obtain ⟨inner, e, he, htake⟩ := throughFirst_take hm
    rw [Nat.add_comm, List.take_add, htake]
    simp only [List.mem_cons, List.not_mem_nil, or_false] at he
    rcases he with rfl | rfl
    · exact ⟨cs.take 3 ++ (inner ++ ['-', '-']), by simp⟩
    · exact ⟨cs.take 3 ++ (inner ++ ['-', '-', '~']), by simp⟩
  · obtain ⟨inner, e, he, htake⟩ := throughFirst_take h
    rw [List.mem_singleton.mp he] at htake
    exact ⟨inner, htake⟩

private theorem openLexeme_written {cs : List Char} {l : Lexeme} (hopens : opens cs = true)
    (h : openLexeme cs = .ok l) : l.symbol.Written (cs.take l.length) := by
  have hpre : ['{', '{'] <+: cs := by simpa [opens] using hopens
  have hopener {n : Nat} (hn : 2 ≤ n) : ['{', '{'] <+: cs.take n :=
    List.prefix_take_iff.mpr ⟨hpre, hn⟩
  have hlead : 2 ≤ if (cs.drop 2).head? == some '~' then 3 else 2 := by split <;> omega
  unfold openLexeme at h
  dsimp only at h
  generalize (if (cs.drop 2).head? == some '~' then 3 else 2) = lead at h hlead
  split at h
  case h_3 =>
    split at h
    · rename_i n hn
      cases h
      obtain ⟨inner, htake⟩ := commentLength?_take hn
      obtain ⟨more, hmore⟩ := hopener hlead
      refine ⟨more ++ inner, ?_⟩
      rw [List.take_add, htake, ← hmore]
      simp
    · cases h
  case h_8 =>
    rw [Except.ok.injEq] at h
    subst h
    cases closing? _ with
    | none => exact hopener (by dsimp only [Option.elim]; omega)
    | some closing => trivial
  case h_11 =>
    split at h
    · rw [Except.ok.injEq] at h
      subst h
      cases closing? _ with
      | none => exact hopener (by dsimp only [Option.elim]; omega)
      | some closing => trivial
    · cases h
      exact hopener (by dsimp only; omega)
  all_goals
    cases h
    exact hopener (by dsimp only; omega)

private theorem closeLexeme?_written {raw : Bool} {cs : List Char} {l : Lexeme}
    (h : closeLexeme? raw cs = some l) : l.symbol.Written (cs.take l.length) := by
  have htake {ds : List Char} (hds : ds.isPrefixOf cs = true) : cs.take ds.length = ds :=
    (List.prefix_iff_eq_take.mp (List.isPrefixOf_iff_prefix.mp hds)).symm
  unfold closeLexeme? at h
  split at h
  · rename_i hds
    cases h
    exact ⟨['}', '~'], (htake (Bool.and_eq_true_iff.mp hds).2).symm⟩
  split at h
  · rename_i hds
    cases h
    exact ⟨['}'], (htake (Bool.and_eq_true_iff.mp hds).2).symm⟩
  split at h
  · rename_i hds
    cases h
    exact ⟨['~'], (htake hds).symm⟩
  split at h
  · rename_i hds
    cases h
    exact ⟨[], (htake hds).symm⟩
  · cases h

private theorem wordLexeme?_written {raw : Bool} {cs : List Char} {l : Lexeme}
    (h : wordLexeme? raw cs = some l) : l.symbol.Written (cs.take l.length) := by
  unfold wordLexeme? at h
  dsimp only at h
  split at h
  · cases h
    trivial
  split at h
  · rename_i text htext
    cases h
    exact (List.prefix_iff_eq_take.mp (numberText?_isPrefix htext)).symm
  split at h
  · cases h
  · cases h
    dsimp only
    unfold wordSymbol
    split
    · rename_i l hl
      split
      · rw [← List.prefix_iff_eq_take.mp (List.takeWhile_prefix isNameChar)]
        exact keyword?_written hl
      · trivial
    · trivial

private theorem tagLexeme_written {raw : Bool} {cs : List Char} {l : Lexeme}
    (h : tagLexeme raw cs = .ok l) : l.symbol.Written (cs.take l.length) := by
  cases cs with
  | nil => cases h
  | cons c rest =>
    simp only [tagLexeme] at h
    obtain ⟨-, h⟩ | ⟨-, h⟩ := ite_eq_iff.mp h
    · split at h
      · rename_i hclose
        cases h
        exact closeLexeme?_written hclose
      · cases h
    -- Parentheses, then the other punctuation, up to the separators.
    iterate 2
      obtain ⟨rfl, h⟩ | ⟨-, h⟩ := ite_eq_iff.mp h
      · cases h
        rfl
    iterate 4
      obtain ⟨-, h⟩ | ⟨-, h⟩ := ite_eq_iff.mp h
      · cases h
        trivial
    obtain ⟨-, h⟩ | ⟨-, h⟩ := ite_eq_iff.mp h
    · repeat' split at h
      all_goals
        cases h
        trivial
    obtain ⟨hquote, h⟩ | ⟨-, h⟩ := ite_eq_iff.mp h
    · split at h
      · rename_i text n htext
        cases h
        obtain ⟨raw, htake, rfl⟩ := enclosedText?_written htext
        exact ⟨c, raw, by simpa using hquote, by rw [List.take_succ_cons, htake], rfl⟩
      · cases h
    obtain ⟨-, h⟩ | ⟨-, h⟩ := ite_eq_iff.mp h
    · split at h
      · cases h
        trivial
      · cases h
    split at h
    · rename_i hword
      cases h
      exact wordLexeme?_written hword
    · cases h

private theorem lexeme_written {mode : Mode} {cs : List Char} {l : Lexeme}
    (h : lexeme mode cs = .ok l) :
    l.symbol.Written ((cs.drop (leadLength mode cs)).take l.length) := by
  cases mode with
  | tag raw => exact tagLexeme_written h
  | text =>
    simp only [lexeme] at h
    split at h
    · rename_i hopens
      have hlead : leadLength .text cs = 0 := by simp [leadLength, not_escapes_of_opens hopens]
      rw [hlead]
      exact openLexeme_written hopens h
    · split at h
      · cases h
        trivial
      · cases h
        trivial

/-- A token is where it is written. -/
def Token.Written (src : Source) (t : Token) : Prop :=
  ∃ cs, src.Covers t.loc.start cs t.loc.stop ∧ t.symbol.Written cs

variable {src : Source}

private theorem scanAfter_covers {R : Symbol → List Char → Prop} (hend : R .endOfInput [])
    (hlexeme : ∀ mode cs l, lexeme mode cs = .ok l →
      R l.symbol ((cs.drop (leadLength mode cs)).take l.length))
    {mode : Mode} {p : Position} {skip start : Nat} {cs : List Char} {ts : List Token}
    (h : scanAfter mode p skip cs = .ok ts) (hstands : src.Stands p start (cs.drop skip)) :
    ∀ t ∈ ts, ∃ ds, src.Covers t.loc.start ds t.loc.stop ∧ R t.symbol ds := by
  induction cs generalizing mode p skip start ts with
  | nil =>
    cases mode with
    | tag raw => cases h
    | text =>
      cases h
      rw [List.drop_nil] at hstands
      exact List.forall_mem_singleton.mpr ⟨[], .refl hstands, hend⟩
  | cons c cs ih =>
    cases skip with
    | succ skip => exact ih h hstands
    | zero =>
      rw [List.drop_zero] at hstands
      have hlead := hstands.drop (leadLength mode (c :: cs))
      simp only [scanAfter] at h
      split at h
      · cases h
      · rename_i l hl
        obtain ⟨ts', hrest, rfl⟩ := map_eq_ok.mp h
        have hafter := hlead.drop l.length
        obtain ⟨n, hn⟩ := Nat.exists_eq_succ_of_ne_zero (Nat.ne_of_gt (lexeme_pos hl))
        rw [List.drop_drop, hn, List.drop_succ_cons] at hafter
        rw [hn, Nat.succ_sub_one] at hrest
        refine List.forall_mem_cons.mpr ⟨⟨_, ?_, hlexeme mode _ l hl⟩, ih hrest hafter⟩
        rw [← List.take_append_drop l.length ((c :: cs).drop _)] at hlead
        exact hlead.covers

theorem scan_covers {R : Symbol → List Char → Prop} (hend : R .endOfInput [])
    (hlexeme : ∀ mode cs l, lexeme mode cs = .ok l →
      R l.symbol ((cs.drop (leadLength mode cs)).take l.length))
    {ts : List Token} (h : scan src.text = .ok ts) :
    ∀ t ∈ ts, ∃ cs, src.Covers t.loc.start cs t.loc.stop ∧ R t.symbol cs :=
  scanAfter_covers hend hlexeme h src.stands_first

/-- All tokens of a template are where they are written. -/
theorem scan_written {ts : List Token} (h : scan src.text = .ok ts) : ∀ t ∈ ts, t.Written src :=
  scan_covers trivial (fun _ _ _ => lexeme_written) h

end Mustache

end HtmlTemplate
