import HtmlTemplate.Proofs.BodyTrims
import HtmlTemplate.Proofs.Lines
import HtmlTemplate.Proofs.Linked
import HtmlTemplate.Proofs.Shortening
import HtmlTemplate.Proofs.Spelling
import Mathlib.Data.List.Chain

/-! Texts that follow one another in a template. A text ends before another one only where braces
are escaped, or where a backslash is, and whitespace control takes nothing from between them. -/

namespace HtmlTemplate.Mustache

open Text (isBlank Shortens)

variable {src : Source}

def BreaksText (rest : List Char) : Prop :=
  rest = [] ∨ opens rest = true ∨ escapes rest = true ∨ escapesBackslash rest = true

def Resumes (text : List Char) : Prop :=
  opens text = true ∨ text.head? = some '\\'

private theorem contentText_breaksText (cs : List Char) :
    BreaksText (cs.drop (contentText cs).2) := by
  induction cs with
  | nil => exact .inl rfl
  | cons c cs ih =>
    simp only [contentText]
    split
    · rename_i hbreak
      obtain hopens | hescapes := Bool.or_eq_true_iff.mp hbreak
      · exact .inr (.inl hopens)
      · exact .inr (.inr (.inl hescapes))
    · split
      · rename_i hescapes
        simp only [escapesBackslash, List.isPrefixOf_iff_prefix] at hescapes
        obtain ⟨rest, hrest⟩ := hescapes
        rw [← hrest]
        exact .inr (.inl rfl)
      · exact ih

private theorem plainText_breaksText (cs : List Char) :
    BreaksText (cs.drop (plainText cs).length) := by
  induction cs with
  | nil => exact .inl rfl
  | cons c cs ih =>
    simp only [plainText]
    split
    · rename_i hbreak
      simpa [BreaksText, or_assoc] using hbreak
    · exact ih

theorem lexeme_content {cs text : List Char} {l : Lexeme} (h : lexeme .text cs = .ok l)
    (hsymbol : l.symbol = .content text) :
    l.after = .text ∧ BreaksText ((cs.drop (leadLength .text cs)).drop l.length)
      ∧ ((cs.drop (leadLength .text cs)).take l.length = text
        ∨ opens ((cs.drop (leadLength .text cs)).drop l.length) = true) := by
  simp only [lexeme] at h
  split at h
  · exact absurd hsymbol (openLexeme_symbol h)
  split at h
  · rename_i hescapes
    cases h
    cases hsymbol
    obtain ⟨rest, rfl⟩ := eq_append_of_escapes hescapes
    refine ⟨rfl, plainText_breaksText rest, .inl ?_⟩
    exact (List.prefix_iff_eq_take.mp (escapedLexeme_isPrefix _)).symm
  · rename_i hescapes
    cases h
    cases hsymbol
    have hlead : leadLength .text cs = 0 := by simp [leadLength, hescapes]
    rw [hlead, List.drop_zero]
    exact ⟨rfl, contentText_breaksText cs, (contentText_take cs).imp_right (·.2.2)⟩

private theorem lexeme_resumes {c : Char} {cs text : List Char} {l : Lexeme}
    (hbreaks : BreaksText (c :: cs)) (h : lexeme .text (c :: cs) = .ok l)
    (hsymbol : l.symbol = .content text) : opens (c :: cs) = false ∧ Resumes text := by
  simp only [lexeme] at h
  split at h
  · exact absurd hsymbol (openLexeme_symbol h)
  rename_i hopens
  refine ⟨by simpa using hopens, ?_⟩
  split at h
  · rename_i hescapes
    cases h
    cases hsymbol
    simp only [leadLength, hescapes, ↓reduceIte]
    obtain ⟨rest, hrest⟩ := eq_append_of_escapes hescapes
    rw [hrest]
    exact .inl rfl
  · rename_i hescapes
    cases h
    obtain rfl := Symbol.content.inj hsymbol
    obtain hnil | hopens' | hescapes' | hbackslash := hbreaks
    · cases hnil
    · exact absurd hopens' hopens
    · exact absurd hescapes' hescapes
    · right
      rw [Bool.not_eq_true] at hopens hescapes
      show (contentText (c :: cs)).1.head? = some '\\'
      simp [contentText, hopens, hescapes, hbackslash]

theorem scanAfter_resumes {p : Position} {skip : Nat} {cs : List Char} {ts : List Token}
    (h : scanAfter .text p skip cs = .ok ts) (hbreaks : BreaksText (cs.drop skip)) :
    ∀ t ∈ ts.head?, ∀ text, t.symbol = .content text →
      opens (cs.drop skip) = false ∧ Resumes text := by
  induction cs generalizing skip p with
  | nil =>
    cases h
    rintro t ⟨⟩ text ⟨⟩
  | cons c cs ih =>
    cases skip with
    | succ skip => exact ih h hbreaks
    | zero =>
      obtain ⟨l, t, ts', skip, hl, rfl, hsymbol, -⟩ := scanAfter_cons h
      rintro t' ⟨⟩ text htext
      exact lexeme_resumes hbreaks hl (hsymbol.symm.trans htext)

def Token.Stood (src : Source) (t : Token) : Prop :=
  ∀ text, t.symbol = .content text → src.Covers t.loc.start text (t.loc.start.after text)

def Token.Meets (src : Source) (t t' : Token) : Prop :=
  ∀ text text', t.symbol = .content text → t'.symbol = .content text' →
    t.loc.stop = t.loc.start.after text ∧ src.Follows t.loc.stop (some text') t'.loc.start
      ∧ Resumes text'

structure Seamed (src : Source) (ts : List Token) : Prop where
  stood : ∀ t ∈ ts, t.Stood src
  meets : ts.IsChain (Token.Meets src)

namespace Seamed

variable {ts ts' : List Token} {t : Token}

theorem left (h : Seamed src (ts ++ ts')) : Seamed src ts :=
  ⟨fun t ht => h.stood t (List.mem_append_left _ ht), h.meets.left_of_append⟩

theorem right (h : Seamed src (ts ++ ts')) : Seamed src ts' :=
  ⟨fun t ht => h.stood t (List.mem_append_right _ ht), h.meets.right_of_append⟩

theorem tail (h : Seamed src (t :: ts)) : Seamed src ts :=
  ⟨fun t ht => h.stood t (List.mem_cons_of_mem _ ht), h.meets.tail⟩

end Seamed

private theorem scanAfter_seamed {mode : Mode} {p : Position} {skip start : Nat} {cs : List Char}
    {ts : List Token} (h : scanAfter mode p skip cs = .ok ts)
    (hstands : src.Stands p start (cs.drop skip)) : Seamed src ts := by
  induction cs generalizing mode p skip start ts with
  | nil =>
    cases mode with
    | tag raw => cases h
    | text =>
      cases h
      refine ⟨fun t ht text htext => ?_, .singleton _⟩
      rw [List.mem_singleton.mp ht] at htext
      cases htext
  | cons c cs ih =>
    cases skip with
    | succ skip => exact ih h hstands
    | zero =>
      obtain ⟨l, t, ts', skip, hl, rfl, hsymbol, hstart, hstop, hrest, hdrop⟩ := scanAfter_cons h
      rw [List.drop_zero] at hstands
      have hrest_stands := hstands.drop (leadLength mode (c :: cs) + l.length)
      rw [← hstop, ← hdrop] at hrest_stands
      obtain ⟨hstood, hchain⟩ := ih hrest hrest_stands
      refine ⟨List.forall_mem_cons.mpr ⟨fun text htext => ?_, hstood⟩,
        List.isChain_cons.mpr ⟨fun t' ht' text text' htext htext' => ?_, hchain⟩⟩
      · obtain ⟨rest, hrest⟩ :=
          (lexeme_isPrefix hl (hsymbol.symm.trans htext)).trans (List.take_prefix _ _)
        have hlead := hstands.drop (leadLength mode (c :: cs))
        rw [← hstart, ← hrest] at hlead
        exact ⟨_, rest, hlead, rfl⟩
      · have hcontent := hsymbol.symm.trans htext
        cases mode with
        | tag raw => exact absurd hcontent (tagLexeme_symbol hl)
        | text =>
          obtain ⟨hafter, hbreaks, htake⟩ := lexeme_content hl hcontent
          rw [hafter] at hrest
          rw [List.drop_drop, ← hdrop] at hbreaks htake
          obtain ⟨hopens, hresumes⟩ := scanAfter_resumes hrest hbreaks t' ht' text' htext'
          rw [hopens] at htake
          refine ⟨?_, ?_, hresumes⟩
          · rw [hstop, List.take_add, Position.after_append, ← hstart,
              htake.resolve_right Bool.false_ne_true]
          · have hlinked := scanAfter_linked hrest hrest_stands
            cases ts' with
            | nil => cases ht'
            | cons t'' ts' =>
              obtain rfl := Option.some.inj ht'
              have hfollows := hlinked.1 _ rfl
              rwa [Token.text?_eq_some.mpr htext'] at hfollows

theorem scan_seamed (name : Option String) {text : List Char} {ts : List Token}
    (h : scan text = .ok ts) : Seamed ⟨text, name⟩ ts :=
  scanAfter_seamed h (Source.stands_first _)

/-- A text is what stands at its place, from which blanks at its ends may be trimmed. -/
structure Content.Stood (src : Source) (c : Content) : Prop where
  covers : src.Covers c.loc.start c.written (c.loc.start.after c.written)
  shortens : Shortens c.written c.value

/-- Two texts that follow one another. Nothing between them has been trimmed. -/
structure Content.Meets (src : Source) (c d : Content) : Prop where
  stop : c.loc.stop = c.loc.start.after c.written
  follows : src.Follows c.loc.stop (some d.written) d.loc.start
  resumes : Resumes d.written
  keepsEnd : c.value <:+ c.written
  keepsStart : d.value <+: d.written

def Statement.Meets (src : Source) : Statement → Statement → Prop
  | .content c, .content d => c.Meets src d
  | _, _ => True

mutual

/-- All texts of a statement stand where they are, and those that follow one another meet. -/
def Statement.Joined (src : Source) : Statement → Prop
  | .block ⟨_, program, inverse, _, _, _, _⟩ =>
    sectionJoined src program ∧ sectionJoined src inverse
  | .decoratorBlock ⟨_, program, inverse, _, _, _, _⟩ =>
    sectionJoined src program ∧ sectionJoined src inverse
  | .partialBlock ⟨_, program, _, _, _⟩ => Program.Joined src program
  | .content c => c.Stood src
  | .mustache _ => True
  | .decorator _ => True
  | .comment _ => True
  | .partialCall _ => True

def allJoined (src : Source) : List Statement → Prop
  | [] => True
  | s :: ss => s.Joined src ∧ (∀ s' ∈ ss.head?, s.Meets src s') ∧ allJoined src ss

def Program.Joined (src : Source) : Program Statement → Prop
  | ⟨body, _, _⟩ => allJoined src body

def sectionJoined (src : Source) : Option (Program Statement) → Prop
  | none => True
  | some p => Program.Joined src p

end

def JoinedBody (src : Source) : List Statement → Prop
  | [] => True
  | s :: ss => (∀ c, s = .content c → c.Stood src) ∧ (∀ s' ∈ ss.head?, s.Meets src s')
      ∧ JoinedBody src ss

mutual

theorem Statement.joined_iff : (s : Statement) →
    (s.Joined src ↔ (∀ c, s = .content c → c.Stood src) ∧ s.EachBody fun _ => JoinedBody src)
  | .block ⟨_, program, inverse, _, _, _, _⟩ => by
    have hsections := and_congr (sectionJoined_iff program) (sectionJoined_iff inverse)
    exact ⟨fun h => ⟨fun _ => Statement.noConfusion, hsections.mp h⟩, fun h => hsections.mpr h.2⟩
  | .decoratorBlock ⟨_, program, inverse, _, _, _, _⟩ => by
    have hsections := and_congr (sectionJoined_iff program) (sectionJoined_iff inverse)
    exact ⟨fun h => ⟨fun _ => Statement.noConfusion, hsections.mp h⟩, fun h => hsections.mpr h.2⟩
  | .partialBlock ⟨_, program, _, _, _⟩ =>
    ⟨fun h => ⟨fun _ => Statement.noConfusion, (Program.joined_iff program).mp h⟩,
      fun h => (Program.joined_iff program).mpr h.2⟩
  | .content c => ⟨fun h => ⟨fun _ hc => Statement.content.inj hc ▸ h, trivial⟩,
      fun h => h.1 c rfl⟩
  | .mustache _ => ⟨fun _ => ⟨fun _ => Statement.noConfusion, trivial⟩, fun _ => trivial⟩
  | .decorator _ => ⟨fun _ => ⟨fun _ => Statement.noConfusion, trivial⟩, fun _ => trivial⟩
  | .comment _ => ⟨fun _ => ⟨fun _ => Statement.noConfusion, trivial⟩, fun _ => trivial⟩
  | .partialCall _ => ⟨fun _ => ⟨fun _ => Statement.noConfusion, trivial⟩, fun _ => trivial⟩

theorem allJoined_iff : (ss : List Statement) →
    (allJoined src ss ↔ JoinedBody src ss ∧ allEach (fun _ => JoinedBody src) ss)
  | [] => ⟨fun _ => ⟨trivial, trivial⟩, fun _ => trivial⟩
  | s :: ss => by
    constructor
    · rintro ⟨hs, hmeets, hss⟩
      obtain ⟨hstood, heach⟩ := (Statement.joined_iff s).mp hs
      obtain ⟨hbody, hall⟩ := (allJoined_iff ss).mp hss
      exact ⟨⟨hstood, hmeets, hbody⟩, heach, hall⟩
    · rintro ⟨⟨hstood, hmeets, hbody⟩, heach, hall⟩
      exact ⟨(Statement.joined_iff s).mpr ⟨hstood, heach⟩, hmeets,
        (allJoined_iff ss).mpr ⟨hbody, hall⟩⟩

theorem Program.joined_iff : (p : Program Statement) →
    (p.Joined src ↔ p.EachBody fun _ => JoinedBody src)
  | ⟨body, _, _⟩ => allJoined_iff body

theorem sectionJoined_iff : (q : Option (Program Statement)) →
    (sectionJoined src q ↔ sectionEach (fun _ => JoinedBody src) q)
  | none => ⟨fun _ => trivial, fun _ => trivial⟩
  | some p => Program.joined_iff p

end

def Portion.Joined (src : Source) : Portion → Prop
  | .body ss => allJoined src ss
  | .inverse _ _ p => sectionJoined src p

section

variable {ts : List Token} {s s' : Statement} {ss : List Statement}

theorem Statement.meets_left (h : ∀ c, s ≠ .content c) (s' : Statement) : s.Meets src s' := by
  cases s with
  | content c => exact absurd rfl (h c)
  | _ => trivial

private theorem allJoined_cons (h : ∀ c, s ≠ .content c) (hs : s.Joined src)
    (hss : allJoined src ss) :
    allJoined src (s :: ss) :=
  ⟨hs, fun s' _ => s.meets_left h s', hss⟩

theorem Spells.first_text {d : Content} (h : Spells ts (.body (.content d :: ss))) :
    ∃ t ∈ ts.head?, t.symbol = .content d.written ∧ d.loc = t.loc ∧ d.value = d.written := by
  cases h with
  | content hsymbol => exact ⟨_, rfl, hsymbol, rfl, rfl⟩
  | oneTag htag hs => cases hs

theorem Spells.joined {portion : Portion} (h : Spells ts portion) (hts : Seamed src ts) :
    portion.Joined src := by
  induction h with
  | nil => trivial
  | @content t text after ss hsymbol hafter ih =>
    have hstood : Content.Stood src { value := text, written := text, loc := t.loc } :=
      ⟨hts.stood t List.mem_cons_self text hsymbol, .refl _⟩
    refine ⟨hstood, fun s hs => ?_, ih hts.tail⟩
    cases s with
    | content d =>
      obtain ⟨ss, rfl⟩ : ∃ more, ss = .content d :: more := by
        cases ss with
        | nil => cases hs
        | cons s ss => exact ⟨ss, congrArg (· :: ss) (Option.some.inj hs)⟩
      obtain ⟨t', ht', hsymbol', hloc, hvalue⟩ := hafter.first_text
      obtain ⟨hstop, hfollows, hresumes⟩ :=
        (List.isChain_cons.mp hts.meets).1 t' ht' text d.written hsymbol hsymbol'
      rw [← hloc] at hfollows
      exact ⟨hstop, hfollows, hresumes, List.suffix_refl _, hvalue ▸ List.prefix_refl _⟩
    | _ => trivial
  | oneTag htag hs hafter ih =>
    have hafter' := ih hts.right
    cases hs with
    | mustache | decorator | comment | partialCall =>
      exact allJoined_cons (fun _ => Statement.noConfusion) trivial hafter'
  | block hopening hclosing hloc hbody hinverse hafter ihbody ihinverse ih =>
    have hmain := hts.right
    exact allJoined_cons (fun _ => Statement.noConfusion)
      ⟨ihbody hmain.left, ihinverse hmain.right.left⟩ (ih hmain.right.right.right)
  | inverseBlock hopening hclosing hloc hbody hinverse hplain hafter ihbody ihinverse ih =>
    have hmain := hts.right
    exact allJoined_cons (fun _ => Statement.noConfusion)
      ⟨ihinverse hmain.right.left, ihbody hmain.left⟩ (ih hmain.right.right.right)
  | decoratorBlock hopening hclosing hbody hafter ihbody ih =>
    have hmain := hts.right
    exact allJoined_cons (fun _ => Statement.noConfusion) ⟨ihbody hmain.left, trivial⟩
      (ih hmain.right.right)
  | partialBlock hopening hclosing hbody hafter ihbody ih =>
    have hmain := hts.right
    exact allJoined_cons (fun _ => Statement.noConfusion) (ihbody hmain.left)
      (ih hmain.right.right)
  | noInverse => trivial
  | elseSection closing hsymbol hbody ih => exact ih hts.tail
  | chain closing htag hbody hinverse ihbody ihinverse =>
    have hmain := hts.right
    exact allJoined_cons (fun _ => Statement.noConfusion)
      ⟨ihbody hmain.left, ihinverse hmain.right⟩ trivial

end

section

variable {c d : Content} {ss : List Statement}

theorem Content.Stood.trimStart (h : c.Stood src) (t : Trim) : (c.trimStart t).Stood src := by
  cases t with
  | all => exact ⟨h.covers, h.shortens.trans (Text.shortens_trimStart _)⟩
  | line =>
    simp only [Content.trimStart]
    split
    · exact h
    · exact ⟨h.covers, h.shortens.trans (Text.shortens_dropBlankLine _)⟩

theorem Content.Stood.trimEnd (h : c.Stood src) (t : Trim) : (c.trimEnd t).Stood src := by
  cases t with
  | all => exact ⟨h.covers, h.shortens.trans (Text.shortens_dropEndWhile (fun _ => id) _)⟩
  | line =>
    simp only [Content.trimEnd]
    split
    · exact h
    · exact ⟨h.covers,
        h.shortens.trans (Text.shortens_dropEndWhile (fun _ => Text.isBlank_of_isIndent) _)⟩

theorem Content.Stood.trims (h : c.Stood src) (starts ends : List Trim) :
    (ends.foldl (fun c t => c.trimEnd t) (starts.foldl (fun c t => c.trimStart t) c)).Stood
      src := by
  induction starts generalizing c with
  | nil =>
    induction ends generalizing c with
    | nil => exact h
    | cons t ends ih => exact ih (h.trimEnd t)
  | cons t starts ih => exact ih (h.trimStart t)

theorem Content.Meets.trimStart (h : c.Meets src d) (t : Trim) : (c.trimStart t).Meets src d := by
  cases t with
  | all =>
    exact ⟨h.stop, h.follows, h.resumes, (List.dropWhile_suffix _).trans h.keepsEnd,
      h.keepsStart⟩
  | line =>
    simp only [Content.trimStart]
    split
    · exact h
    · exact ⟨h.stop, h.follows, h.resumes, (dropBlankLine_suffix _).trans h.keepsEnd,
        h.keepsStart⟩

theorem Content.Meets.trimEnd (h : c.Meets src d) (t : Trim) : c.Meets src (d.trimEnd t) := by
  cases t with
  | all =>
    exact ⟨h.stop, h.follows, h.resumes, h.keepsEnd,
      (dropEndWhile_isPrefix _ _).trans h.keepsStart⟩
  | line =>
    simp only [Content.trimEnd]
    split
    · exact h
    · exact ⟨h.stop, h.follows, h.resumes, h.keepsEnd,
        (dropEndWhile_isPrefix _ _).trans h.keepsStart⟩

theorem Content.Meets.trimStarts (h : c.Meets src d) (ts : List Trim) :
    (ts.foldl (fun c t => c.trimStart t) c).Meets src d := by
  induction ts generalizing c with
  | nil => exact h
  | cons t ts ih => exact ih (h.trimStart t)

theorem Content.Meets.trimEnds (h : c.Meets src d) (ts : List Trim) :
    c.Meets src (ts.foldl (fun c t => c.trimEnd t) d) := by
  induction ts generalizing d with
  | nil => exact h
  | cons t ts ih => exact ih (h.trimEnd t)

theorem joinedBody_trimFirst (t : Trim) (h : JoinedBody src ss) :
    JoinedBody src (trimFirst t ss) := by
  unfold trimFirst
  split
  · rename_i c ss
    obtain ⟨hstood, hmeets, hss⟩ := h
    refine ⟨?_, fun s' hs' => ?_, hss⟩
    · rintro _ ⟨⟩
      exact (hstood c rfl).trimStart t
    · cases s' with
      | content d => exact Content.Meets.trimStart (hmeets _ hs') t
      | _ => trivial
  · exact h

theorem head?_trimLast {t : Trim} {s' : Statement} (h : s' ∈ (trimLast t ss).head?) :
    s' ∈ ss.head? ∨ ∃ d, .content d ∈ ss.head? ∧ s' = .content (d.trimEnd t) := by
  unfold trimLast at h
  split at h
  · exact .inl h
  · exact .inr ⟨_, rfl, (Option.some.inj h).symm⟩
  · exact .inl h

private theorem joinedBody_trimLast (t : Trim) (h : JoinedBody src ss) :
    JoinedBody src (trimLast t ss) := by
  fun_induction trimLast t ss with
  | case1 => trivial
  | case2 c =>
    refine ⟨?_, by rintro _ ⟨⟩, trivial⟩
    rintro _ ⟨⟩
    exact (h.1 c rfl).trimEnd t
  | case3 s ss hne ih =>
    obtain ⟨hs, hmeets, hss⟩ := h
    refine ⟨hs, fun s' hs' => ?_, ih hss⟩
    obtain hs' | ⟨d, hd, rfl⟩ := head?_trimLast hs'
    · exact hmeets s' hs'
    · have hd := hmeets _ hd
      cases s with
      | content c => exact Content.Meets.trimEnd hd t
      | _ => trivial

end

theorem head?_settleAfter {root keepLines : Bool} {before : List Statement} {trims : List Trim}
    {text : Option Content} {ss : List Statement} {d' : Content}
    (h : .content d' ∈ (settleAfter root keepLines before trims text ss).head?) :
    ∃ (d : Content) (ends : List Trim), .content d ∈ ss.head?
      ∧ d' = ends.foldl (fun c t => c.trimEnd t) (trims.foldl (fun c t => c.trimStart t) d) := by
  cases ss with
  | nil => cases h
  | cons s after =>
    cases s with
    | content d =>
      rw [settleAfter.eq_def] at h
      obtain rfl := Statement.content.inj (Option.some.inj h)
      exact ⟨d, _, rfl, rfl⟩
    | _ =>
      rw [settleAfter.eq_def] at h
      cases h

private theorem joinedBody_settleAfter (root keepLines : Bool) (before : List Statement)
    (trims : List Trim) (text : Option Content) {ss : List Statement} (h : JoinedBody src ss) :
    JoinedBody src (settleAfter root keepLines before trims text ss) := by
  induction ss generalizing before trims text with
  | nil => trivial
  | cons s after ih =>
    obtain ⟨hs, hmeets, hafter⟩ := h
    cases s with
    | content c =>
      rw [settleAfter.eq_def]
      refine ⟨?_, fun s' hs' => ?_, ih _ _ _ hafter⟩
      · rintro _ ⟨⟩
        exact (hs c rfl).trims _ _
      cases s' with
      | content d' =>
        obtain ⟨d, ts, hd, rfl⟩ := head?_settleAfter hs'
        obtain ⟨more, rfl⟩ : ∃ more, after = .content d :: more := by
          cases after with
          | nil => cases hd
          | cons s more => exact ⟨more, congrArg (· :: more) (Option.some.inj hd)⟩
        have hmeets : c.Meets src d := hmeets _ rfl
        exact (hmeets.trimStarts trims).trimEnds ts
      | _ => trivial
    | _ =>
      rw [settleAfter.eq_def]
      exact ⟨fun _ => Statement.noConfusion, fun s' _ => trivial, ih _ _ _ hafter⟩

private theorem joinedBody_control (keepLines : Bool) {ss : List Statement}
    (h : JoinedBody src ss) :
    JoinedBody src (ss.map (·.control keepLines)) := by
  induction ss with
  | nil => trivial
  | cons s ss ih =>
    obtain ⟨hs, hmeets, hss⟩ := h
    refine ⟨fun c hc => ?_, fun s' hs' => ?_, ih hss⟩
    · exact hs c ((control_eq_content keepLines).mp hc)
    · cases ss with
      | nil => cases hs'
      | cons n ss =>
        obtain rfl := Option.some.inj hs'
        have hmeets := hmeets n rfl
        cases s <;> cases n <;> exact hmeets

private theorem settles_joinedBody (src : Source) :
    Settles (fun _ => JoinedBody src) (fun _ => JoinedBody src) where
  first := joinedBody_trimFirst
  last := joinedBody_trimLast
  block h := ⟨fun _ => Statement.noConfusion, fun _ _ => trivial, h.2.2⟩
  settle root keepLines h :=
    joinedBody_settleAfter root keepLines [] [] none (joinedBody_control keepLines h)
  chained keepLines h := joinedBody_control keepLines h

/-- In the tree of a template texts stand where they are, and those that follow one another
meet. -/
theorem parse_joined {text : List Char} {keepLines : Bool} {p : Program Statement}
    (name : Option String) (h : parse text keepLines = .ok p) : p.Joined ⟨text, name⟩ := by
  obtain ⟨toks, rest, body, hscan, -, hspells, rfl⟩ := parse_spelled h
  have hbody : allJoined ⟨text, name⟩ body := hspells.joined (scan_seamed name hscan).left
  exact (Program.joined_iff _).mpr (((Program.joined_iff ⟨body, [], false⟩).mp hbody).control
    (settles_joinedBody _) keepLines)

end HtmlTemplate.Mustache
