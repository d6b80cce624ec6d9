import HtmlTemplate.Proofs.Delimits

/-! Paths as they are written, with the keywords that are no part of what they refer to. -/

namespace HtmlTemplate

theorem byteLength_le_of_sublist {cs ds : List Char} (h : cs.Sublist ds) :
    byteLength cs ≤ byteLength ds := by
  induction h with
  | slnil => exact Nat.le_refl _
  | cons c _ ih =>
    rw [byteLength_cons]
    exact Nat.le_trans ih (Nat.le_add_left _ _)
  | cons_cons c _ ih =>
    rw [byteLength_cons, byteLength_cons]
    exact Nat.add_le_add_left ih _

theorem eq_of_sublist {cs ds : List Char} (h : cs.Sublist ds)
    (hsize : byteLength cs = byteLength ds) : cs = ds := by
  induction h with
  | slnil => rfl
  | cons c h _ =>
    have hle := byteLength_le_of_sublist h
    have hpos := c.utf8Size_pos
    rw [byteLength_cons] at hsize
    omega
  | cons_cons c _ ih =>
    rw [byteLength_cons, byteLength_cons] at hsize
    rw [ih (Nat.add_left_cancel hsize)]

namespace Mustache

/-- A segment of a path as it is written. -/
structure Segment where
  text : List Char
  bracketed : Bool
  loc : Location

/-- Whether the segment is a word that is no name; in brackets there are only names. -/
def Segment.isKeyword (s : Segment) : Bool :=
  !s.bracketed && isPathKeyword s.text

/-- A path as it is written. -/
structure Writing where
  /-- Whether an `@` stands before the first segment. -/
  data : Bool
  start : Position
  first : Segment
  /-- The other segments, each with whether the separator before it is a slash. -/
  more : List (Bool × Segment)

def joinedText (more : List (Bool × Segment)) : List Char :=
  more.flatMap fun s => (if s.1 then '/' else '.') :: s.2.text

def lastStop (stop : Position) (more : List (Bool × Segment)) : Position :=
  more.getLast?.elim stop (·.2.loc.stop)

namespace Writing

def sigil (w : Writing) : List Char :=
  if w.data then ['@'] else []

def segments (w : Writing) : List Segment :=
  w.first :: w.more.map (·.2)

def keywords (w : Writing) : List Segment :=
  w.segments.filter (·.isKeyword)

def names (w : Writing) : List Segment :=
  w.segments.filter (!·.isKeyword)

/-- The path without brackets and blanks. -/
def text (w : Writing) : List Char :=
  w.sigil ++ (w.first.text ++ joinedText w.more)

def loc (w : Writing) : Location :=
  ⟨w.start, lastStop w.first.loc.stop w.more⟩

/-- The first segment with the `@` before it; slashes make one of all segments. -/
def headLoc (w : Writing) : Location :=
  if w.more.any (·.1) then w.loc else ⟨w.start, w.first.loc.stop⟩

def KeywordsFirst (w : Writing) : Prop :=
  w.segments.Pairwise fun s s' => s'.isKeyword = true → s.isKeyword = true

def append (w : Writing) (more : List (Bool × Segment)) : Writing :=
  { w with more := w.more ++ more }

theorem segments_append (w : Writing) (more : List (Bool × Segment)) :
    (w.append more).segments = w.segments ++ more.map (·.2) := by
  simp [segments, append]

theorem text_append (w : Writing) (more : List (Bool × Segment)) :
    (w.append more).text = w.text ++ joinedText more := by
  rw [text, text, append, joinedText, List.flatMap_append, List.append_assoc, List.append_assoc]
  rfl

end Writing

/-- Separators and segments in turn. -/
inductive Continues : List Token → List (Bool × Segment) → Prop
  | nil : Continues [] []
  | cons {sep name : Token} {slash bracketed : Bool} {text : List Char} {run : List Token}
      {more : List (Bool × Segment)} : sep.symbol = .separator slash →
      name.symbol = .name text bracketed → Continues run more →
      Continues (sep :: name :: run) ((slash, ⟨text, bracketed, name.loc⟩) :: more)

/-- The tokens that a path is read from. -/
inductive WrittenWith : List Token → Writing → Prop
  | plain {name : Token} {text : List Char} {bracketed : Bool} {run : List Token}
      {more : List (Bool × Segment)} : name.symbol = .name text bracketed → Continues run more →
      WrittenWith (name :: run) ⟨false, name.loc.start, ⟨text, bracketed, name.loc⟩, more⟩
  | data {sigil name : Token} {text : List Char} {bracketed : Bool} {run : List Token}
      {more : List (Bool × Segment)} : sigil.symbol = .data → name.symbol = .name text bracketed →
      Continues run more →
      WrittenWith (sigil :: name :: run) ⟨true, sigil.loc.start, ⟨text, bracketed, name.loc⟩, more⟩

/-- A path is what has been read of its writing. -/
structure Path.ReadAs (p : Path) (w : Writing) : Prop where
  data : p.data = w.data
  written : p.written = w.text
  parts : p.parts = w.names.map (·.text)
  loc : p.loc = w.loc
  keywords : w.KeywordsFirst

theorem Path.extend_ok {p q : Path} {s : Segment}
    (h : p.extend s.text s.bracketed s.loc.stop = .ok q) :
    q.data = p.data ∧ q.written = p.written ++ s.text ∧ q.loc = ⟨p.loc.start, s.loc.stop⟩
      ∧ q.parts = p.parts ++ (if s.isKeyword then [] else [s.text])
      ∧ (s.isKeyword = true → p.parts = []) := by
  have hkeyword : (!s.bracketed && isPathKeyword s.text) = s.isKeyword := rfl
  unfold Path.extend at h
  rw [hkeyword] at h
  dsimp only at h
  split at h
  · rename_i hs
    split at h
    · rename_i hparts
      cases h
      simp [hs, List.isEmpty_iff.mp hparts]
    · cases h
  · rename_i hs
    cases h
    simp [hs]

theorem Path.readAs_first {p q : Path} {w : Writing} {s : Segment}
    (hdata : p.data = w.data) (hwritten : p.written = w.sigil) (hparts : p.parts = [])
    (hstart : p.loc.start = w.start) (hfirst : w.first = s) (hmore : w.more = [])
    (h : p.extend s.text s.bracketed s.loc.stop = .ok q) : q.ReadAs w := by
  obtain ⟨hdata', hwritten', hloc, hparts', -⟩ := Path.extend_ok h
  have hsegments : w.segments = [s] := by rw [Writing.segments, hfirst, hmore, List.map_nil]
  refine ⟨hdata'.trans hdata, ?_, ?_, ?_, ?_⟩
  · rw [hwritten', hwritten, Writing.text, hfirst, hmore, joinedText, List.flatMap_nil,
      List.append_nil]
  · rw [hparts', hparts, Writing.names, hsegments]
    cases hs : s.isKeyword <;> simp [hs]
  · rw [hloc, hstart, Writing.loc, hfirst, hmore]
    rfl
  · rw [Writing.KeywordsFirst, hsegments]
    exact List.pairwise_singleton _ _

theorem Path.ReadAs.extend {p q : Path} {w : Writing} (h : p.ReadAs w) {slash : Bool} {s : Segment}
    (hq : Path.extend { p with written := p.written ++ [if slash then '/' else '.'] } s.text
      s.bracketed s.loc.stop = .ok q) : q.ReadAs (w.append [(slash, s)]) := by
  obtain ⟨hdata, hwritten, hloc, hparts, hfirst⟩ := Path.extend_ok hq
  have hsegments : (w.append [(slash, s)]).segments = w.segments ++ [s] := w.segments_append _
  refine ⟨hdata.trans h.data, ?_, ?_, ?_, ?_⟩
  · rw [hwritten, h.written, Writing.text_append]
    simp [joinedText]
  · have hnames : (w.append [(slash, s)]).names = w.names ++ [s].filter (!·.isKeyword) := by
      rw [Writing.names, hsegments, List.filter_append, Writing.names]
    rw [hparts, h.parts, hnames]
    cases hs : s.isKeyword <;> simp [hs]
  · rw [hloc, h.loc]
    simp [Writing.loc, Writing.append, lastStop]
  · rw [Writing.KeywordsFirst, hsegments]
    refine List.pairwise_append.mpr ⟨h.keywords, List.pairwise_singleton _ _, ?_⟩
    intro s' hs' _ hmem hs
    rw [List.mem_singleton.mp hmem] at hs
    have hnone : w.names = [] := List.map_eq_nil_iff.mp (h.parts ▸ hfirst hs)
    simpa using List.filter_eq_nil_iff.mp hnone s' hs'

theorem segments_writes {p : Path} {ts : List Token} {r : ParsedAny ts Path} {w : Writing}
    (h : segments p ts = .ok r) (hp : p.ReadAs w) :
    ∃ run more, ts = run ++ r.rest ∧ Continues run more ∧ r.value.ReadAs (w.append more) := by
  have hnone : w.append [] = w := by rw [Writing.append, List.append_nil]
  fun_induction segments p ts generalizing w with
  | case1 p sep name ts slash text bracketed hname hsep joined =>
    rename_i ih
    simp only [bind_eq_ok, pure_eq_ok] at h
    obtain ⟨q, hq, ⟨p', rest, hrest⟩, hsegments, rfl⟩ := h
    obtain ⟨run, more, hts, hcontinues, hread⟩ :=
      ih q hsegments (hp.extend (s := ⟨text, bracketed, name.loc⟩) hq)
        (by rw [Writing.append, List.append_nil])
    refine ⟨sep :: name :: run, _, congrArg (sep :: name :: ·) hts, .cons hsep hname hcontinues, ?_⟩
    simpa only [Writing.append, List.append_assoc, List.singleton_append] using hread
  | case2 =>
    cases h
    exact ⟨[], [], rfl, .nil, hnone.symm ▸ hp⟩
  | case3 =>
    cases h
    exact ⟨[], [], rfl, .nil, hnone.symm ▸ hp⟩

def Path.From (ts : List Token) (p : Path) : Prop :=
  ∃ run w, run <:+: ts ∧ WrittenWith run w ∧ p.ReadAs w

theorem namePath_writes {t : Token} {text : List Char} {bracketed : Bool} {ts : List Token}
    {r : ParsedAny ts Expression} (hsymbol : t.symbol = .name text bracketed)
    (h : namePath t text bracketed ts = .ok r) :
    ∃ p run w, r.value = .path p ∧ t :: ts = run ++ r.rest ∧ WrittenWith run w ∧ p.ReadAs w := by
  simp only [namePath, bind_eq_ok, pure_eq_ok] at h
  obtain ⟨p, hp, ⟨p', rest, hrest⟩, hsegments, rfl⟩ := h
  have hfirst : p.ReadAs ⟨false, t.loc.start, ⟨text, bracketed, t.loc⟩, []⟩ :=
    Path.readAs_first rfl rfl rfl rfl rfl rfl hp
  obtain ⟨run, more, hts, hcontinues, hread⟩ := segments_writes hsegments hfirst
  exact ⟨p', t :: run, _, rfl, congrArg (t :: ·) hts, .plain hsymbol hcontinues, hread⟩

theorem pathFrom_writes {t : Token} {ts : List Token} {r : ParsedAny ts Expression}
    (hsymbol : t.symbol = .data) (h : pathFrom ⟨true, 0, [], ['@'], t.loc⟩ ts = .ok r) :
    ∃ p, r.value = .path p
      ∧ ((∃ run w, t :: ts = run ++ r.rest ∧ WrittenWith run w ∧ p.ReadAs w)
        ∨ p.written = ['@'] ∧ p.parts = []) := by
  cases ts with
  | nil =>
    cases h
    exact ⟨_, rfl, .inr ⟨rfl, rfl⟩⟩
  | cons name ts =>
    simp only [pathFrom] at h
    split at h
    · rename_i text bracketed hname
      simp only [bind_eq_ok, pure_eq_ok] at h
      obtain ⟨p, hp, ⟨p', rest, hrest⟩, hsegments, rfl⟩ := h
      have hfirst : p.ReadAs ⟨true, t.loc.start, ⟨text, bracketed, name.loc⟩, []⟩ :=
        Path.readAs_first rfl rfl rfl rfl rfl rfl hp
      obtain ⟨run, more, hts, hcontinues, hread⟩ := segments_writes hsegments hfirst
      exact ⟨p', rfl, .inl ⟨t :: name :: run, _, congrArg (t :: name :: ·) hts,
        .data hsymbol hname hcontinues, hread⟩⟩
    · cases h
      exact ⟨_, rfl, .inr ⟨rfl, rfl⟩⟩

theorem namePath_from {t : Token} {text : List Char} {bracketed : Bool} {ts : List Token}
    {r : ParsedAny ts Expression} (hsymbol : t.symbol = .name text bracketed)
    (h : namePath t text bracketed ts = .ok r) :
    ∃ p, r.value = .path p ∧ p.From (t :: ts) := by
  obtain ⟨p, run, w, hp, hts, hwritten, hread⟩ := namePath_writes hsymbol h
  exact ⟨p, hp, run, w, ⟨[], r.rest, hts.symm⟩, hwritten, hread⟩

theorem pathFrom_from {t : Token} {ts : List Token} {r : ParsedAny ts Expression}
    (hsymbol : t.symbol = .data) (h : pathFrom ⟨true, 0, [], ['@'], t.loc⟩ ts = .ok r) :
    ∃ p, r.value = .path p ∧ (p.From (t :: ts) ∨ p.written = ['@'] ∧ p.parts = []) := by
  obtain ⟨p, hp, hfrom⟩ := pathFrom_writes hsymbol h
  refine ⟨p, hp, hfrom.imp_left ?_⟩
  rintro ⟨run, w, hts, hwritten, hread⟩
  exact ⟨run, w, ⟨[], r.rest, hts.symm⟩, hwritten, hread⟩

def Symbol.spelled : Symbol → List Char
  | .data => ['@']
  | .separator slash => [if slash then '/' else '.']
  | .name text _ => text
  | _ => []

def Token.Spelled (src : Source) (t : Token) : Prop :=
  ∃ cs, src.Covers t.loc.start cs t.loc.stop ∧ t.symbol.spelled.Sublist cs

private theorem enclosedText?_sublist {close : Char} {escaped : Char → Bool} {cs text : List Char}
    {n : Nat}
    (h : enclosedText? close escaped cs = some (text, n)) : text.Sublist (cs.take n) := by
  fun_induction enclosedText? close escaped cs generalizing text n with
  | case1 => cases h
  | case2 cs =>
    cases h
    exact List.nil_sublist _
  | case3 c _ d ds _ ih =>
    obtain ⟨⟨text', n'⟩, hmore, heq⟩ := Option.map_eq_some_iff.mp h
    cases heq
    exact ((ih hmore).cons_cons d).cons c
  | case4 c _ d ds _ ih =>
    obtain ⟨⟨text', n'⟩, hmore, heq⟩ := Option.map_eq_some_iff.mp h
    cases heq
    exact (ih hmore).cons_cons c
  | case5 => cases h

private theorem wordLexeme?_spelled {raw : Bool} {cs : List Char} {l : Lexeme}
    (h : wordLexeme? raw cs = some l) : l.symbol.spelled.Sublist (cs.take l.length) := by
  unfold wordLexeme? at h
  dsimp only at h
  split at h
  · cases h
    exact List.nil_sublist _
  split at h
  · cases h
    exact List.nil_sublist _
  split at h
  · cases h
  · cases h
    dsimp only
    have hword : (cs.takeWhile isNameChar).Sublist (cs.take (cs.takeWhile isNameChar).length) :=
      (List.prefix_take_iff.mpr ⟨cs.takeWhile_prefix _, Nat.le_refl _⟩).sublist
    unfold wordSymbol
    split
    · split
      · exact List.nil_sublist _
      · exact hword
    · exact hword

private theorem closeLexeme?_spelled {raw : Bool} {cs : List Char} {l : Lexeme}
    (h : closeLexeme? raw cs = some l) : l.symbol.spelled = [] := by
  unfold closeLexeme? at h
  repeat' split at h
  all_goals
    cases h
    try rfl

private theorem tagLexeme_spelled {raw : Bool} {cs : List Char} {l : Lexeme}
    (h : tagLexeme raw cs = .ok l) : l.symbol.spelled.Sublist (cs.take l.length) := by
  cases cs with
  | nil => cases h
  | cons c rest =>
    simp only [tagLexeme] at h
    obtain ⟨-, h⟩ | ⟨-, h⟩ := ite_eq_iff.mp h
    · split at h
      · rename_i hclose
        cases h
        rw [closeLexeme?_spelled hclose]
        exact List.nil_sublist _
      · cases h
    -- Parentheses, `=` and `|`, then the `@` and the slash.
    iterate 4
      obtain ⟨-, h⟩ | ⟨-, h⟩ := ite_eq_iff.mp h
      · cases h
        exact List.nil_sublist _
    iterate 2
      obtain ⟨rfl, h⟩ | ⟨-, h⟩ := ite_eq_iff.mp h
      · cases h
        exact List.Sublist.refl _
    obtain ⟨hc, h⟩ | ⟨-, h⟩ := ite_eq_iff.mp h
    · obtain ⟨hdots, h⟩ | ⟨-, h⟩ := ite_eq_iff.mp h
      · cases h
        obtain ⟨rest, rfl⟩ := List.head?_eq_some_iff.mp (beq_iff_eq.mp hdots)
        rw [hc]
        exact List.Sublist.refl _
      obtain ⟨-, h⟩ | ⟨-, h⟩ := ite_eq_iff.mp h
      all_goals
        cases h
        rw [hc]
        exact List.Sublist.refl _
    obtain ⟨-, h⟩ | ⟨-, h⟩ := ite_eq_iff.mp h
    · split at h
      · cases h
        exact List.nil_sublist _
      · cases h
    obtain ⟨-, h⟩ | ⟨-, h⟩ := ite_eq_iff.mp h
    · split at h
      · rename_i htext
        cases h
        exact (enclosedText?_sublist htext).cons c
      · cases h
    split at h
    · rename_i hword
      cases h
      exact wordLexeme?_spelled hword
    · cases h

private theorem openLexeme_spelled {cs : List Char} {l : Lexeme} (h : openLexeme cs = .ok l) :
    l.symbol.spelled = [] := by
  unfold openLexeme at h
  dsimp only at h
  repeat' split at h
  all_goals first
    | cases h; rfl
    | cases h; done
    | (rw [Except.ok.injEq] at h
       subst h
       cases closing? _ <;> rfl)

private theorem lexeme_spelled {mode : Mode} {cs : List Char} {l : Lexeme}
    (h : lexeme mode cs = .ok l) :
    l.symbol.spelled.Sublist ((cs.drop (leadLength mode cs)).take l.length) := by
  cases mode with
  | tag raw => exact tagLexeme_spelled h
  | text =>
    have hnone : l.symbol.spelled = [] := by
      simp only [lexeme] at h
      split at h
      · exact openLexeme_spelled h
      · split at h <;> cases h <;> rfl
    rw [hnone]
    exact List.nil_sublist _

theorem scan_spelled (src : Source) {ts : List Token} (h : scan src.text = .ok ts) :
    ∀ t ∈ ts, t.Spelled src :=
  scan_covers (R := fun symbol cs => symbol.spelled.Sublist cs) (List.nil_sublist _)
    (fun _ _ _ => lexeme_spelled) h

variable {src : Source}

theorem Continues.covers {run : List Token} {more : List (Bool × Segment)} {p q : Position}
    {cs text : List Char} (h : Continues run more) (hrun : ∀ t ∈ run, t.Spelled src)
    (hsorted : Sorted q run) (hcs : src.Covers p cs q) (htext : text.Sublist cs) :
    ∃ ds, src.Covers p ds (lastStop q more) ∧ (text ++ joinedText more).Sublist ds := by
  induction h generalizing q cs text with
  | nil => exact ⟨cs, hcs, by rwa [joinedText, List.flatMap_nil, List.append_nil]⟩
  | @cons sep name slash bracketed t run more hsep hname hmore ih =>
    obtain ⟨⟨cs₁, hcovers₁, hspelled₁⟩, hrun⟩ := List.forall_mem_cons.mp hrun
    obtain ⟨⟨cs₂, hcovers₂, hspelled₂⟩, hrun⟩ := List.forall_mem_cons.mp hrun
    obtain ⟨hle₁, -, hle₂, -, hsorted⟩ := hsorted
    rw [hsep] at hspelled₁
    rw [hname, Symbol.spelled] at hspelled₂
    obtain ⟨gap₁, hjoin₁⟩ := hcs.join hcovers₁ hle₁
    obtain ⟨gap₂, hjoin₂⟩ := hjoin₁.join hcovers₂ hle₂
    have htext₁ : (text ++ [if slash then '/' else '.']).Sublist (cs ++ (gap₁ ++ cs₁)) :=
      htext.append (hspelled₁.trans (List.sublist_append_right _ _))
    obtain ⟨ds, hds, hsub⟩ := ih hrun hsorted hjoin₂
      (htext₁.append (hspelled₂.trans (List.sublist_append_right _ _)))
    refine ⟨ds, ?_, by simpa [joinedText] using hsub⟩
    cases more with
    | nil => exact hds
    | cons s more => rwa [lastStop, List.getLast?_cons_cons]

theorem WrittenWith.covers {run : List Token} {w : Writing} {lo : Position} (h : WrittenWith run w)
    (hrun : ∀ t ∈ run, t.Spelled src) (hsorted : Sorted lo run) :
    (∃ cs, src.Covers w.start cs w.first.loc.stop ∧ (w.sigil ++ w.first.text).Sublist cs)
      ∧ ∃ cs, src.Covers w.start cs w.loc.stop ∧ w.text.Sublist cs := by
  cases h with
  | @plain name text bracketed run more hname hmore =>
    obtain ⟨⟨cs, hcovers, hspelled⟩, hrun⟩ := List.forall_mem_cons.mp hrun
    rw [hname] at hspelled
    exact ⟨⟨cs, hcovers, hspelled⟩, hmore.covers hrun hsorted.2.2 hcovers hspelled⟩
  | @data sigil name text bracketed run more hsigil hname hmore =>
    obtain ⟨⟨cs, hcovers, hspelled⟩, hrun⟩ := List.forall_mem_cons.mp hrun
    obtain ⟨⟨cs', hcovers', hspelled'⟩, hrun⟩ := List.forall_mem_cons.mp hrun
    obtain ⟨-, -, hle, -, hsorted⟩ := hsorted
    rw [hsigil] at hspelled
    rw [hname] at hspelled'
    obtain ⟨gap, hjoin⟩ := hcovers.join hcovers' hle
    have hfirst : (['@'] ++ text).Sublist (cs ++ (gap ++ cs')) :=
      hspelled.append (hspelled'.trans (List.sublist_append_right _ _))
    have hall := hmore.covers hrun hsorted hjoin hfirst
    rw [List.append_assoc] at hall
    exact ⟨⟨_, hjoin, hfirst⟩, hall⟩

theorem Sorted.isInfix {lo : Position} {run ts : List Token} (h : Sorted lo ts)
    (hrun : run <:+: ts) : ∃ lo', Sorted lo' run := by
  obtain ⟨before, after, rfl⟩ := hrun
  induction before generalizing lo with
  | nil =>
    refine ⟨lo, ?_⟩
    rw [List.nil_append] at h
    induction run generalizing lo with
    | nil => trivial
    | cons t run ih => exact ⟨h.1, h.2.1, ih h.2.2⟩
  | cons t before ih => exact ih h.2.2

theorem Sorted.suffix {lo : Position} {rest ts : List Token} (h : Sorted lo ts)
    (hrest : rest <:+ ts) : Sorted lo rest := by
  obtain ⟨before, rfl⟩ := hrest
  induction before generalizing lo with
  | nil => exact h
  | cons t before ih =>
    have hafter := ih h.2.2
    cases rest with
    | nil => trivial
    | cons first rest => exact ⟨le_trans h.1 (le_trans h.2.1.1 hafter.1), hafter.2⟩

end Mustache

end HtmlTemplate
