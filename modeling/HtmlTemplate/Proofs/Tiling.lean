import HtmlTemplate.Proofs.Evaluation
import HtmlTemplate.Proofs.Linked
import HtmlTemplate.Proofs.Reading
import Mathlib.Data.List.Permutation

/-! The statements of a template tile its text: in every body each statement starts where
the one before ends, and only the backslash that escapes braces lies between two. -/

namespace HtmlTemplate.Mustache

variable {src : Source} {lo : Position} {ts : List Token}

def Statement.text? : Statement → Option (List Char)
  | .content c => some c.written
  | _ => none

def EndsAt (ts rest : List Token) (stop : Position) : Prop :=
  ∃ last, last :: rest <:+ ts ∧ last.symbol.endsTag = true ∧ stop = last.loc.stop

theorem EndsAt.mono {ts' rest : List Token} {stop : Position} (h : EndsAt ts rest stop)
    (hts : ts <:+ ts') : EndsAt ts' rest stop := by
  obtain ⟨last, hsuffix, hlast⟩ := h
  exact ⟨last, hsuffix.trans hts, hlast⟩

theorem endsAt_of_leaves {t closing : Token} {mid : Position} {rest : List Token}
    (hleaves : Leaves t.loc.stop ts mid (closing :: rest))
    (hclosing : closing.symbol.endsTag = true) : EndsAt (t :: ts) rest closing.loc.stop :=
  ⟨closing, hleaves.suffix.trans (List.suffix_cons _ _), hclosing, rfl⟩

theorem Closer.Read.ends {opened : Head} {closed : Closer} {rest : List Token}
    (h : Closer.Read opened ts closed rest) (hts : Sorted lo ts) : EndsAt ts rest closed.stop := by
  obtain ⟨-, hname, hclosing⟩ := h
  obtain ⟨mid, hleaves, -⟩ := hname.within (Leaves.one hts).sorted
  exact endsAt_of_leaves hleaves (by rw [hclosing]; rfl)

theorem CallTag.ends {t : Token} {ending : Symbol} {c : Call Expression} {strip : Strip}
    {loc : Location} {rest : List Token} (h : CallTag t ending ts c strip loc rest)
    (hending : ending.endsTag = true) (hts : Sorted lo (t :: ts)) :
    loc.start = t.loc.start ∧ EndsAt (t :: ts) rest loc.stop := by
  obtain ⟨hcall, rfl⟩ := h
  obtain ⟨mid, hleaves, -⟩ := hcall.within hts.2.2
  exact ⟨rfl, endsAt_of_leaves hleaves hending⟩

theorem Head.Read.ends {t : Token} {opened : Head} {closed : Closer} {hi : Position}
    {rest₁ rest₂ rest : List Token} (h : Head.Read t ts opened rest₁) (hts : Sorted lo (t :: ts))
    (hleaves : Leaves lo (t :: ts) hi rest₂) (hclosed : Closer.Read opened rest₂ closed rest) :
    opened.start = t.loc.start ∧ EndsAt (t :: ts) rest closed.stop := by
  obtain ⟨_, -, -, -, hstart, -⟩ := h.leaves hts
  exact ⟨hstart, (hclosed.ends hleaves.sorted).mono hleaves.suffix⟩

/-- A statement starts with its first token and ends with its last; a text is its token. -/
structure ReadFrom (t : Token) (ts rest : List Token) (s : Statement) : Prop where
  start : s.loc.start = t.loc.start
  text : s.text? = t.text?
  loc : ∀ text ∈ t.text?, s.loc = t.loc
  ends : EndsAt (t :: ts) rest s.loc.stop

theorem ReadFrom.tag {t : Token} {rest : List Token} {s : Statement} {o : Opener}
    (hsymbol : t.symbol = .opener o) (htext : s.text? = none)
    (h : s.loc.start = t.loc.start ∧ EndsAt (t :: ts) rest s.loc.stop) :
    ReadFrom t ts rest s := by
  have htext' : t.text? = none := by simp only [Token.text?, hsymbol]
  exact ⟨h.1, htext.trans htext'.symm, by simp [htext'], h.2⟩

theorem Statement.Read.ends {t : Token} {s : Statement} {rest : List Token}
    (h : Statement.Read (t :: ts) s rest) (hts : Sorted lo (t :: ts)) : ReadFrom t ts rest s := by
  cases h with
  | content hsymbol =>
    refine ⟨rfl, ?_, fun _ _ => rfl, t, List.suffix_refl _, by rw [hsymbol]; rfl, rfl⟩
    exact (Token.text?_eq_some.mpr hsymbol).symm
  | comment hsymbol =>
    have htext : t.text? = none := by simp only [Token.text?, hsymbol]
    exact ⟨rfl, htext.symm, fun _ _ => rfl, t, List.suffix_refl _, by rw [hsymbol]; rfl, rfl⟩
  | @mustache _ _ _ o _ _ _ hsymbol _ htag =>
    exact .tag hsymbol rfl (htag.ends (by cases o <;> rfl) hts)
  | decorator hsymbol htag => exact .tag hsymbol rfl (htag.ends rfl hts)
  | partialCall hsymbol htag => exact .tag hsymbol rfl (htag.ends rfl hts)
  | block _ hsymbol hhead hfirst hmore hcloser =>
    obtain ⟨_, -, -, hleaves₁, -⟩ := hhead.leaves hts
    obtain ⟨_, hleaves₂, -⟩ := hfirst.laid hleaves₁.sorted
    obtain ⟨-, _, hleaves₃, -⟩ := hmore.laid hleaves₂.sorted hcloser.starts
    exact .tag hsymbol rfl (hhead.ends hts ((hleaves₁.trans hleaves₂).trans hleaves₃) hcloser)
  | decoratorBlock hsymbol hhead hfirst hcloser
  | partialBlock hsymbol hhead hfirst hcloser =>
    obtain ⟨_, -, -, hleaves₁, -⟩ := hhead.leaves hts
    obtain ⟨_, hleaves₂, -⟩ := hfirst.laid hleaves₁.sorted
    exact .tag hsymbol rfl (hhead.ends hts (hleaves₁.trans hleaves₂) hcloser)

/-- Statements from one position to another, each where the one before ends and with the
text that is there. -/
def Tiles (src : Source) : Position → List Statement → Position → Prop
  | p, [], q => p = q
  | p, s :: ss, q =>
    src.Follows p s.text? s.loc.start ∧ (∀ text ∈ s.text?, src.Shows text s.loc)
      ∧ Tiles src s.loc.stop ss q

theorem Linked.eq_end {q : Position} (h : Linked src (some q) ts)
    (hend : (peek ts).symbol = .endOfInput) : q = Position.first.after src.text := by
  cases ts with
  | nil => cases h
  | cons t ts =>
    have hsymbol : t.symbol = .endOfInput := hend
    obtain ⟨hfollows, -, hstart⟩ := h
    have hq : t.loc.start = q := by
      simpa [Source.Follows, Token.text?, hsymbol] using hfollows q rfl
    rw [if_pos hsymbol] at hstart
    rw [← hq, hstart.1]

theorem bodyRead.tile {lo p : Position} {ts rest : List Token} {ss : List Statement}
    (h : bodyRead ts ss rest) (hts : Sorted lo ts) (hlinked : Linked src (some p) ts) :
    ∃ q, Tiles src p ss q ∧ Linked src (some q) rest := by
  induction h generalizing lo p with
  | nil => exact ⟨p, rfl, hlinked⟩
  | cons _ hs _ ih =>
    obtain ⟨t, ts, rfl⟩ := hs.exists_cons
    obtain ⟨mid, hleaves, -⟩ := hs.laid hts
    obtain ⟨hstart, htext, hloc, last, hsuffix, hends, hstop⟩ := hs.ends hts
    have hrest := hlinked.suffix hsuffix hends
    rw [← hstop] at hrest
    obtain ⟨q, htiles, hlinked'⟩ := ih hleaves.sorted hrest
    obtain ⟨hfollows, hshows, -⟩ := hlinked
    refine ⟨q, ⟨?_, fun text hmem => ?_, htiles⟩, hlinked'⟩
    · rw [htext, hstart]
      exact hfollows p rfl
    · rw [htext] at hmem
      rw [hloc text hmem]
      exact hshows text hmem

theorem text?_bare (s : Statement) : s.bare.text? = s.text? := by
  cases s <;> rfl

private theorem tiles_bareAll {p q : Position} (ss : List Statement) :
    Tiles src p (bareAll ss) q ↔ Tiles src p ss q := by
  induction ss generalizing p with
  | nil => rfl
  | cons s ss ih => simp only [bareAll, Tiles, text?_bare, loc_bare, ih]

theorem tiles_of_bareAll {p q : Position} {ss ss' : List Statement} (h : Tiles src p ss q)
    (hbare : bareAll ss' = bareAll ss) : Tiles src p ss' q := by
  rw [← tiles_bareAll, hbare, tiles_bareAll]
  exact h

theorem Between.tiles {p? : Option Position} {body : List Statement} {opening closing : Token}
    (h : Between ts body opening closing) (hts : Sorted lo ts) (hlinked : Linked src p? ts) :
    ∃ q, Tiles src opening.loc.stop body q := by
  obtain ⟨before, inside, after, written, hle, rfl, hopening, -, hwritten, hbare⟩ := h
  have hends : opening.symbol.endsTag = true := by
    rcases hopening with hsymbol | hsymbol
    all_goals
      rw [hsymbol]
      rfl
  obtain ⟨q, htiles, -⟩ := (statements_read _ hwritten).tile hts.after.2
    (hlinked.suffix (List.suffix_append _ _) hends)
  exact ⟨q, tiles_of_bareAll htiles hbare.symm⟩

/-- The statements of a body tile some of the text, from the first to the last of them. -/
structure Program.Contiguous (src : Source) (p : Program Statement) : Prop where
  tiles : ∃ start stop, Tiles src start p.body stop
  loc_none : p.loc? = none ↔ p.body = []
  loc_some : ∀ first ∈ p.body.head?, ∀ last ∈ p.body.getLast?,
    p.loc? = some ⟨first.loc.start, last.loc.stop⟩

mutual

/-- All bodies in a statement tile the text. -/
def Statement.Tiled (src : Source) : Statement → Prop
  | .mustache _ => True
  | .decorator _ => True
  | .content _ => True
  | .comment _ => True
  | .partialCall _ => True
  | .block ⟨_, program, inverse, _, _, _, _⟩ => sectionTiled src program ∧ sectionTiled src inverse
  | .decoratorBlock ⟨_, program, inverse, _, _, _, _⟩ =>
    sectionTiled src program ∧ sectionTiled src inverse
  | .partialBlock ⟨_, program, _, _, _⟩ => Program.Tiled src program

def sectionTiled (src : Source) : Option (Program Statement) → Prop
  | none => True
  | some p => Program.Tiled src p

def Program.Tiled (src : Source) : Program Statement → Prop
  | ⟨body, params, chained⟩ => Program.Contiguous src ⟨body, params, chained⟩ ∧ allTiled src body

def allTiled (src : Source) : List Statement → Prop
  | [] => True
  | s :: ss => s.Tiled src ∧ allTiled src ss

end

theorem Program.contiguous {p : Program Statement} {start stop : Position}
    (h : Tiles src start p.body stop) : p.Contiguous src where
  tiles := ⟨start, stop, h⟩
  loc_none := p.loc?_eq_none_iff
  loc_some first hfirst last hlast := by
    rw [Program.loc?, Option.mem_def.mp hfirst, Option.mem_def.mp hlast]

theorem TaggedBody.contiguous {p? : Option Position} {params : List (List Char)} {chained : Bool}
    {body : List Statement} (h : TaggedBody ts chained body) (hts : Sorted lo ts)
    (hlinked : Linked src p? ts) : Program.Contiguous src ⟨body, params, chained⟩ := by
  rcases h with ⟨-, b, rfl⟩ | ⟨opening, closing, hbetween⟩
  · have htiles : Tiles src b.loc.start [.block b] b.loc.stop := ⟨rfl, fun _ h => (nomatch h), rfl⟩
    exact Program.contiguous htiles
  · obtain ⟨q, htiles⟩ := hbetween.tiles hts hlinked
    exact Program.contiguous htiles

mutual

theorem Statement.Tagged.tiled {p? : Option Position} (hts : Sorted lo ts)
    (hlinked : Linked src p? ts) : (s : Statement) → s.Tagged ts → s.Tiled src
  | .mustache _, _ => trivial
  | .decorator _, _ => trivial
  | .content _, _ => trivial
  | .comment _, _ => trivial
  | .partialCall _, _ => trivial
  | .block ⟨_, program, inverse, _, _, _, _⟩, h =>
    ⟨sectionTagged.tiled hts hlinked program h.1, sectionTagged.tiled hts hlinked inverse h.2⟩
  | .decoratorBlock ⟨_, program, inverse, _, _, _, _⟩, h =>
    ⟨sectionTagged.tiled hts hlinked program h.1, sectionTagged.tiled hts hlinked inverse h.2⟩
  | .partialBlock ⟨_, ⟨body, _, _⟩, _, _, _⟩, h =>
    ⟨h.1.contiguous hts hlinked, allTagged.tiled hts hlinked body h.2⟩

theorem sectionTagged.tiled {p? : Option Position} (hts : Sorted lo ts)
    (hlinked : Linked src p? ts) :
    (p : Option (Program Statement)) → sectionTagged ts p → sectionTiled src p
  | none, _ => trivial
  | some ⟨body, _, _⟩, h => ⟨h.1.contiguous hts hlinked, allTagged.tiled hts hlinked body h.2⟩

theorem allTagged.tiled {p? : Option Position} (hts : Sorted lo ts)
    (hlinked : Linked src p? ts) : (ss : List Statement) → allTagged ts ss → allTiled src ss
  | [], _ => trivial
  | s :: ss, h =>
    ⟨Statement.Tagged.tiled hts hlinked s h.1, allTagged.tiled hts hlinked ss h.2⟩

end

/-- The tree of a template tiles its text, from the start to the end. -/
theorem parse_tiled {text : List Char} {keepLines : Bool} {program : Program Statement}
    (name : Option String) (h : parse text keepLines = .ok program) :
    Tiles ⟨text, name⟩ .first program.body (Position.first.after text)
      ∧ program.Tiled ⟨text, name⟩ := by
  obtain ⟨ts, body, rest, hscan, hread, hend, htrims⟩ := parse_written h
  have hsorted := scan_sorted hscan
  have hlinked := scan_linked name hscan
  obtain ⟨-, -, -, -, htagged⟩ := hread.laid hsorted
  obtain ⟨q, htiles, hrest⟩ := hread.tile hsorted hlinked
  have hbody := tiles_of_bareAll htiles htrims.1
  rw [hrest.eq_end hend] at hbody
  obtain ⟨body, params, chained⟩ := program
  exact ⟨hbody, Program.contiguous hbody,
    allTagged.tiled hsorted hlinked body (htrims.allTagged htagged)⟩

/-- Escaped braces, and a backslash before a block. -/
def escapedText : List Char :=
  ['x', '\\', '{', '{', 'y', '\\', '\\', '{', '{', '#', 'z', '}', '}', 'w', '{', '{', '/', 'z',
    '}', '}']

theorem parse_tiled_escapes :
    ∃ (src : Source) (program : Program Statement),
      src.text = escapedText
        ∧ parse src.text false = .ok program ∧ Tiles src .first program.body ⟨1, 20⟩
        ∧ program.Tiled src := by
  have hscan : scan escapedText = .ok
      [.onLine (.content ['x']) 0 1, .onLine (.content ['{', '{', 'y']) 2 5,
        .onLine (.content ['\\']) 5 7, .onLine (.opener .block) 7 10,
        .onLine (.name ['z'] false) 10 11, .onLine .close 11 13, .onLine (.content ['w']) 13 14,
        .onLine (.opener .endBlock) 14 17, .onLine (.name ['z'] false) 17 18, .onLine .close 18 20,
        .onLine .endOfInput 20 20] := by decide +kernel
  have hparse := parse_of_tokens false hscan (by cbv)
  exact ⟨⟨escapedText, none⟩, _, rfl, hparse, parse_tiled none hparse⟩

end HtmlTemplate.Mustache
