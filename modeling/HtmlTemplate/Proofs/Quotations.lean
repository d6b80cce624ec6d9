import HtmlTemplate.Proofs.Interpolations

/-! Names between brackets and strings between quotes. A backslash before each character that
would end them makes any text readable as a name, keywords and braces included, and any text
that does not end with a backslash as a string. -/

namespace HtmlTemplate.Mustache

open Text (isBlank)

def braced (inner : List Char) : List Char :=
  ['{', '{'] ++ (inner ++ ['}', '}'])

def innerLoc (inner : List Char) : Location :=
  ⟨Position.first.after ['{', '{'], (Position.first.after ['{', '{']).after inner⟩

/-- The tree of a template that is a mustache with one expression in it. -/
def printed (e : Expression) (text : List Char) : Program Statement :=
  { body := [.mustache ⟨⟨e, [], none⟩, true, {}, ⟨.first, Position.first.after text⟩⟩] }

def opensPlain (c : Char) : Bool :=
  !(['~', '{', '&', '!', '#', '/', '^', '>', '*', 'e'].contains c) && !isBlank c

theorem scans_openingBraces {c : Char} {cs : List Char} (hc : opensPlain c = true) :
    Scans .text .first ['{', '{'] [tokenAt .first ['{', '{'] (.opener .escaped)] (.tag false)
      (c :: cs) := by
  simp only [opensPlain, Bool.and_eq_true, Bool.not_eq_true', List.contains_eq_mem,
    decide_eq_false_iff_not, List.mem_cons, not_or] at hc
  refine scans_opening ?_ hc.2 (startsElse_of_ne hc.1.2.2.2.2.2.2.2.2.2.1 cs)
  simp [hc]

theorem parse_braced {c : Char} {cs : List Char} {symbol : Symbol} {e : Expression}
    (hc : opensPlain c = true)
    (hscans : Scans (.tag false) (innerLoc (c :: cs)).start (c :: cs)
      [tokenAt (innerLoc (c :: cs)).start (c :: cs) symbol] (.tag false) ['}', '}'])
    (hexpression : ∀ next, EndsCall next →
      Gives (expression ([tokenAt (innerLoc (c :: cs)).start (c :: cs) symbol] ++ next)) e next)
    (keepLines : Bool) :
    parse (braced (c :: cs)) keepLines = .ok (printed e (braced (c :: cs))) := by
  have hopen : Scans .text .first ['{', '{'] _ (.tag false) (c :: cs ++ ['}', '}'] ++ []) :=
    scans_openingBraces hc
  have hclose : Scans (.tag false) (innerLoc (c :: cs)).stop ['}', '}'] _ .text [] := scans_close
  have hall : Scans .text .first (braced (c :: cs)) _ .text [] :=
    hopen.append (Scans.append hscans hclose)
  have hstop : (innerLoc (c :: cs)).stop.after ['}', '}']
      = Position.first.after (braced (c :: cs)) := by
    simp only [innerLoc, braced, Position.after_append]
  rw [Scans, List.append_nil, ← hstop] at hall
  have hends : EndsCall [tokenAt (innerLoc (c :: cs)).stop ['}', '}'] .close,
      Draft.endToken ((innerLoc (c :: cs)).stop.after ['}', '}'])] :=
    Draft.endsCall_closer false rfl
  have hcall := Draft.call_gives (hexpression _ hends) hends
  have hgives : Gives (statement (tokenAt .first ['{', '{'] (.opener .escaped) :: _)) _ _ :=
    Draft.mustache_gives false rfl rfl rfl rfl hcall
  rw [printed, ← hstop]
  exact Draft.parse_lone hall rfl hgives rfl

theorem expression_bracketed {p : Position} {text name : List Char} {next : List Token}
    (hnext : Unjoined next) :
    Gives (expression (tokenAt p text (.name name true) :: next))
      (.path ⟨false, 0, [name], name, ⟨p, p.after text⟩⟩) next := by
  obtain ⟨hlength, hsegments⟩ :=
    segments_unjoined ⟨false, 0, [name], name, ⟨p, p.after text⟩⟩ hnext
  have hextend : Path.extend ⟨false, 0, [], [], ⟨p, p.after text⟩⟩ name true (p.after text)
      = .ok ⟨false, 0, [name], name, ⟨p, p.after text⟩⟩ := rfl
  refine expression_gives_iff.mpr (.name (h := hlength) rfl ?_)
  unfold namePath
  simp only [tokenAt, hextend, bind, Except.bind]
  rw [hsegments]
  rfl

theorem expression_literal {p : Position} {text : List Char} {l : Literal} {next : List Token} :
    Gives (expression (tokenAt p text (.literal l) :: next)) (.literal l ⟨p, p.after text⟩)
      next :=
  expression_gives_iff.mpr (.literal rfl)

/-- What a backslash is for in a name between brackets. -/
def inBrackets (c : Char) : Bool :=
  c == ']' || c == '\\'

def bracketed (name : List Char) : List Char :=
  '[' :: (backslashed inBrackets name ++ [']'])

def quoted (q : Char) (value : List Char) : List Char :=
  q :: (backslashed (· == q) value ++ [q])

theorem scans_name {p : Position} {rest : List Char} (name : List Char) :
    Scans (.tag false) p (bracketed name) [tokenAt p (bracketed name) (.name name true)]
      (.tag false) rest := by
  refine scans_bracketed ?_
  have hclass : inBrackets ']' = true := by decide
  have hlast : inBrackets '\\' = false → name.getLast? ≠ some '\\' :=
    fun hback => absurd hback (by decide)
  have hread := enclosedText?_backslashed (by decide) hclass hlast rest
  rw [List.append_assoc, List.singleton_append, List.length_append, List.length_singleton]
  exact hread

private theorem scans_quotedString {p : Position} {rest : List Char} {q : Char}
    (hq : q = '"' ∨ q = '\'')
    {value : List Char} (hlast : value.getLast? ≠ some '\\') :
    Scans (.tag false) p (quoted q value) [tokenAt p (quoted q value) (.literal (.string value))]
      (.tag false) rest := by
  refine scans_quoted hq ?_
  rw [List.append_assoc, List.singleton_append, List.length_append, List.length_singleton]
  exact enclosedText?_quoted (by obtain rfl | rfl := hq <;> decide) hlast rest

theorem parse_quoted {q : Char} (hq : q = '"' ∨ q = '\'') {value : List Char}
    (hlast : value.getLast? ≠ some '\\') (keepLines : Bool) :
    parse (braced (quoted q value)) keepLines
      = .ok (printed (.literal (.string value) (innerLoc (quoted q value)))
          (braced (quoted q value))) :=
  parse_braced (by obtain rfl | rfl := hq <;> decide) (scans_quotedString hq hlast)
    (fun _ _ => expression_literal) keepLines

private theorem parse_braced_fault {c : Char} {cs : List Char} {fault : Fault}
    (hc : opensPlain c = true)
    (hfault : tagLexeme false (c :: cs ++ ['}', '}']) = .error fault) (keepLines : Bool) :
    parse (braced (c :: cs)) keepLines = .error ⟨fault, ⟨1, 2⟩⟩ := by
  have hopen : Scans .text .first ['{', '{'] _ (.tag false) (c :: cs ++ ['}', '}']) :=
    scans_openingBraces hc
  have hblank : isBlank c = false := by
    simp only [opensPlain, Bool.and_eq_true, Bool.not_eq_true'] at hc
    exact hc.2
  have hlead : leadLength (.tag false) (c :: cs ++ ['}', '}']) = 0 := by
    unfold leadLength
    rw [List.cons_append, List.takeWhile_cons_of_neg (by simp [hblank])]
    rfl
  have hlexeme : lexeme (.tag false) (c :: cs ++ ['}', '}']) = .error fault := by
    unfold lexeme
    rw [hlead]
    exact hfault
  have hinner : scanAfter (.tag false) ⟨1, 2⟩ 0 (c :: cs ++ ['}', '}'])
      = .error ⟨fault, ⟨1, 2⟩⟩ := by
    rw [List.cons_append] at hlead hlexeme ⊢
    rw [scanAfter]
    simp only [hlead, hlexeme, List.take_zero, Position.after_nil]
  have hscan : scan (braced (c :: cs)) = .error ⟨fault, ⟨1, 2⟩⟩ := by
    refine Eq.trans hopen ?_
    rw [show Position.first.after ['{', '{'] = ⟨1, 2⟩ from rfl, hinner]
    rfl
  rw [parse, parseWritten, hscan]
  rfl

theorem parse_quoted_unclosed {q : Char} (hq : q = '"' ∨ q = '\'') {value : List Char}
    (hlast : value.getLast? = some '\\') (keepLines : Bool) :
    parse (braced (quoted q value)) keepLines = .error ⟨.unclosedString, ⟨1, 2⟩⟩ := by
  have hclose : q ≠ '\\' := by obtain rfl | rfl := hq <;> decide
  have hread : enclosedText? q (· == q) (backslashed (· == q) value ++ [q, '}', '}']) = none :=
    enclosedText?_bareBackslash hclose (by simp) (by simpa using hclose.symm) hlast
      (by obtain rfl | rfl := hq <;> decide)
  refine parse_braced_fault (by obtain rfl | rfl := hq <;> decide) ?_ keepLines
  unfold tagLexeme
  obtain rfl | rfl := hq <;> simp [hread]

/-- Any text is a name between brackets, and any text that does not end with a backslash is a
string between quotes of either kind; a backslash before a quote does no harm. -/
theorem parse_quotations (keepLines : Bool) :
    (∀ name : List Char, parse (braced (bracketed name)) keepLines
      = .ok (printed (.path ⟨false, 0, [name], name, innerLoc (bracketed name)⟩)
          (braced (bracketed name))))
    ∧ ∀ (q : Char) (value : List Char), q = '"' ∨ q = '\'' → value.getLast? ≠ some '\\' →
      parse (braced (quoted q value)) keepLines
        = .ok (printed (.literal (.string value) (innerLoc (quoted q value)))
            (braced (quoted q value))) := by
  refine ⟨fun name => ?_, fun q value hq hlast => parse_quoted hq hlast keepLines⟩
  exact parse_braced (by decide) (scans_name name)
    (fun next hnext => expression_bracketed hnext.unjoined) keepLines

/-- A keyword between brackets, and a string with a backslash before a quote. -/
theorem parse_quotations_keyword :
    parse (braced ['[', '.', '.', ']']) false
      = .ok (printed (.path ⟨false, 0, [['.', '.']], ['.', '.'], ⟨⟨1, 2⟩, ⟨1, 6⟩⟩⟩)
          (braced ['[', '.', '.', ']']))
    ∧ ['\\', '"', 'a'].getLast? ≠ some '\\'
    ∧ parse (braced ['"', '\\', '\\', '"', 'a', '"']) false
      = .ok (printed (.literal (.string ['\\', '"', 'a']) ⟨⟨1, 2⟩, ⟨1, 8⟩⟩)
          (braced ['"', '\\', '\\', '"', 'a', '"'])) := by
  obtain ⟨hname, hstring⟩ := parse_quotations false
  exact ⟨hname ['.', '.'], by decide, hstring '"' ['\\', '"', 'a'] (.inl rfl) (by decide)⟩

end HtmlTemplate.Mustache
