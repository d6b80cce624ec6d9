import HtmlTemplate.Proofs.Derivations
import HtmlTemplate.Proofs.Lexemes
import HtmlTemplate.Proofs.Standing
import HtmlTemplate.Tree.Translate

/-! Reading back the paths and expressions of a draft. -/

namespace HtmlTemplate.Mustache

variable {ts next : List Token}

/-- Nothing in front joins what has been read to what follows. -/
def Unjoined (ts : List Token) : Prop :=
  ∀ t ∈ ts.head?, t.symbol ≠ .equals ∧ ∀ slash, t.symbol ≠ .separator slash

theorem segments_unjoined (path : Path) (h : Unjoined next) :
    GivesAny (segments path next) path next := by
  match next with
  | [] => exact ⟨_, segments.eq_2 path [] (by simp)⟩
  | [t] => exact ⟨_, segments.eq_2 path [t] (by simp)⟩
  | sep :: name :: ts =>
    have hsep := (h sep rfl).2
    rw [segments]
    split
    · rename_i hsymbol _
      exact absurd hsymbol (hsep _)
    · exact ⟨_, rfl⟩

theorem startsPair_of_ne (t : Token) (h : ∀ eq ∈ next.head?, eq.symbol ≠ .equals) :
    startsPair (t :: next) = false := by
  cases next with
  | nil => rfl
  | cons eq next =>
    simp only [startsPair]
    split
    · rename_i heq
      exact absurd heq (h eq rfl)
    · rfl

end HtmlTemplate.Mustache

namespace HtmlTemplate.Draft

open Mustache

variable {raw : Bool} {p : Position} {rest : List Char}

/-- Segments, each after a dot. -/
def dotted (segments : List (List Char)) : List Char :=
  segments.flatMap ('.' :: ·)

theorem splitDots_eq (written : List Char) :
    ∃ first more, splitDots written = first :: more ∧ written = first ++ dotted more := by
  induction written with
  | nil => exact ⟨[], [], rfl, rfl⟩
  | cons c cs ih =>
    obtain ⟨first, more, hsplit, hcs⟩ := ih
    by_cases hc : c = '.'
    · subst hc
      refine ⟨[], first :: more, by rw [splitDots, if_pos rfl, hsplit], ?_⟩
      rw [hcs]
      rfl
    · refine ⟨c :: first, more, by rw [splitDots, if_neg hc, hsplit], ?_⟩
      rw [hcs]
      rfl

theorem isWord_of_isSegment {s : List Char} (h : isSegment s = true) : isWord s = true :=
  (Bool.and_eq_true_iff.mp h).1

theorem isPathKeyword_segment {s : List Char} (h : isSegment s = true) :
    isPathKeyword s = false := by
  simp only [isSegment, Bool.and_eq_true, bne_iff_ne] at h
  obtain ⟨c, cs, rfl, hc, -, -⟩ := chars_of_isWord h.1
  have hdot : c ≠ '.' := fun heq => absurd (heq ▸ hc) (by decide)
  have hthis := h.2
  simp only [isPathKeyword, Bool.or_eq_false_iff, beq_eq_false_iff_ne]
  exact ⟨⟨fun heq => hdot (List.cons.inj heq).1, fun heq => hdot (List.cons.inj heq).1⟩, hthis⟩

theorem head?_dotted {more : List (List Char)} (hrest : rest.head?.all (!isNameChar ·) = true) :
    (dotted more ++ rest).head?.all (!isNameChar ·) = true := by
  cases more with
  | nil => exact hrest
  | cons s more => rfl

theorem scans_dotted {more : List (List Char)} (hmore : ∀ s ∈ more, isSegment s = true)
    (hrest : rest.head?.all (!isNameChar ·) = true) (p : Position) :
    ∃ ts, Scans (.tag raw) p (dotted more) ts (.tag raw) rest ∧
      (∀ (t : Token) (next : List Token), Unjoined next → startsPair (t :: (ts ++ next)) = false) ∧
      ∀ (path : Mustache.Path) (next : List Token), Unjoined next → path.loc.stop = p →
        GivesAny (segments path (ts ++ next))
          { path with parts := path.parts ++ more, written := path.written ++ dotted more
                      loc := ⟨path.loc.start, p.after (dotted more)⟩ } next := by
  induction more generalizing p with
  | nil =>
    refine ⟨[], Scans.nil _ p rest, ?_, fun path next hnext hstop => ?_⟩
    · exact fun t next hnext => startsPair_of_ne t fun eq heq => (hnext eq heq).1
    obtain ⟨data, depth, parts, written, start, stop⟩ := path
    obtain rfl : stop = p := hstop
    simpa [dotted] using segments_unjoined _ hnext
  | cons s more ih =>
    obtain ⟨hs, hmore⟩ := List.forall_mem_cons.mp hmore
    obtain ⟨ts, hscans, -, hsegments⟩ := ih hmore ((p.next '.').after s)
    have hword : Scans (.tag raw) (p.next '.') s _ (.tag raw) (dotted more ++ rest) :=
      scans_word (isWord_of_isSegment hs) (head?_dotted hrest)
    obtain ⟨c, cs, hcs, -, hchars, -⟩ := chars_of_isWord (isWord_of_isSegment hs)
    have hdot : Scans (.tag raw) p ['.'] [tokenAt p ['.'] (.separator false)] (.tag raw)
        (s ++ dotted more ++ rest) := by
      rw [hcs]
      exact scans_separator (hchars c (hcs ▸ List.mem_cons_self))
    refine ⟨_, hdot.append (hword.append hscans), ?_, fun path next hnext hstop => ?_⟩
    · refine fun t next _ => startsPair_of_ne t fun eq heq => ?_
      cases heq
      simp [tokenAt]
    have hextend : Mustache.Path.extend { path with written := path.written ++ ['.'] } s false
          ((p.next '.').after s)
        = .ok { path with parts := path.parts ++ [s], written := path.written ++ ['.'] ++ s
                          loc := ⟨path.loc.start, (p.next '.').after s⟩ } := by
      unfold Mustache.Path.extend
      simp [isPathKeyword_segment hs]
    obtain ⟨hlength, hgives⟩ := hsegments
      { path with parts := path.parts ++ [s], written := path.written ++ ['.'] ++ s
                  loc := ⟨path.loc.start, (p.next '.').after s⟩ } next hnext rfl
    show GivesAny (segments path (tokenAt p ['.'] (.separator false)
      :: tokenAt (p.next '.') s (.name s false) :: (ts ++ next))) _ _
    rw [segments]
    dsimp only [tokenAt]
    rw [if_neg Bool.false_ne_true, hextend]
    simp only [bind, Except.bind]
    rw [hgives]
    have hparts : path.parts ++ s :: more = path.parts ++ [s] ++ more := by simp
    have hwritten : path.written ++ dotted (s :: more)
        = path.written ++ ['.'] ++ s ++ dotted more := by
      simp [dotted]
    have hafter : p.after (dotted (s :: more)) = ((p.next '.').after s).after (dotted more) := by
      simp [dotted, Position.after_append]
    rw [hparts, hwritten, hafter]
    exact ⟨_, rfl⟩

theorem not_slash_of_isWord {w : List Char} (h : isWord w = true) : '/' ∉ w := by
  obtain ⟨-, -, -, -, hchars, -⟩ := chars_of_isWord h
  exact fun hmem => absurd (hchars '/' hmem) (by decide)

theorem not_slash_dotted {more : List (List Char)} (hmore : ∀ s ∈ more, isSegment s = true) :
    '/' ∉ dotted more := by
  intro hmem
  obtain ⟨s, hs, hmem⟩ := List.mem_flatMap.mp hmem
  obtain heq | hmem := List.mem_cons.mp hmem
  · cases heq
  · exact not_slash_of_isWord (isWord_of_isSegment (hmore s hs)) hmem

theorem segments?_eq {path : Mustache.Path} {c : Char} {cs : List Char}
    (hwritten : path.written = c :: cs) (hc : c ≠ '.') (hslash : '/' ∉ path.written) :
    Tree.Path.segments? path = .ok path.parts := by
  have hattributes : path.written ≠ "...attributes".toList := by
    rw [hwritten]
    exact fun heq => hc (List.cons.inj heq).1
  have hlonely : path.written ≠ ['.'] := by
    rw [hwritten]
    exact fun heq => hc (List.cons.inj heq).1
  unfold Tree.Path.segments?
  rw [if_neg hattributes, if_neg (by simpa using hslash), if_neg hlonely]

private theorem takeWhile_dotted {first : List Char} (hfirst : '.' ∉ first)
    (more : List (List Char)) :
    (first ++ dotted more).takeWhile (· != '.') = first := by
  refine takeWhile_run (fun c hc => bne_iff_ne.mpr fun heq => hfirst (heq ▸ hc)) ?_
  cases more <;> rfl

theorem isSelf_eq {first : List Char} {more : List (List Char)} (hfirst : '.' ∉ first)
    (hmore : ∀ s ∈ more, isSegment s = true) :
    Tree.Path.isSelf (first ++ dotted more) = (first == "this".toList) := by
  have htake := takeWhile_dotted hfirst more
  rw [Bool.eq_iff_iff, Tree.Path.isSelf, Bool.or_eq_true, Bool.and_eq_true, beq_iff_eq, beq_iff_eq,
    decide_eq_true_eq, List.isPrefixOf_iff_prefix]
  constructor
  · rintro (heq | ⟨⟨tail, heq⟩, -⟩)
    · rw [heq] at htake
      exact htake.symm
    · rw [← heq] at htake
      exact htake.symm
  · rintro rfl
    cases more with
    | nil => exact .inl (List.append_nil _)
    | cons s more =>
      obtain ⟨c, cs, rfl, -, -, -⟩ :=
      chars_of_isWord (isWord_of_isSegment (hmore s List.mem_cons_self))
      refine .inr ⟨⟨c :: cs ++ dotted more, rfl⟩, ?_⟩
      have hsize : "this.".length = 5 := rfl
      have hlength : "this".toList.length = 4 := rfl
      rw [hsize, dotted, List.flatMap_cons, List.length_append, hlength]
      simp only [List.length_append, List.length_cons]
      omega

def headParts (first : List Char) : List (List Char) :=
  if first = "this".toList then [] else [first]

theorem extend_word {w : List Char} (h : isWord w = true) (loc : Location) (stop : Position) :
    Mustache.Path.extend ⟨false, 0, [], [], loc⟩ w false stop
      = .ok ⟨false, 0, headParts w, w, ⟨loc.start, stop⟩⟩ := by
  unfold Mustache.Path.extend headParts
  by_cases hthis : w = "this".toList
  · subst hthis
    rfl
  · have hkeyword : isPathKeyword w = false := by
      refine isPathKeyword_segment (Bool.and_eq_true_iff.mpr ⟨h, ?_⟩)
      exact bne_iff_ne.mpr hthis
    rw [if_neg hthis, hkeyword]
    rfl

theorem headSpan_eq (start : Nat) (first more : List Char) :
    Tree.Path.headSpan (span start (first ++ more)) (byteLength first) = span start first := by
  have hle : start + byteLength first ≤ start + byteLength (first ++ more) := by
    rw [byteLength_append]
    omega
  unfold Tree.Path.headSpan span
  rw [Nat.min_eq_left hle]

theorem resolve_word {src : Source} {first written : List Char} {more : List (List Char)}
    {loc : Location} {start : Nat} (hfirst : isWord first = true)
    (hmore : ∀ s ∈ more, isSegment s = true) (hsplit : splitDots written = first :: more)
    (hwritten : written = first ++ dotted more) (hspan : src.spanFor loc = span start written) :
    Tree.Path.resolve src ⟨false, 0, headParts first ++ more, written, loc⟩
      = .ok (pathAt start written) := by
  obtain ⟨c, cs, hcs, hc, hchars, -⟩ := chars_of_isWord hfirst
  have hdot : c ≠ '.' := fun heq => absurd (heq ▸ hc) (by decide)
  have hat : c ≠ '@' := fun heq => absurd (heq ▸ hc) (by decide)
  have hdots : '.' ∉ first := fun hmem => absurd (hchars '.' hmem) (by decide)
  have hslash : '/' ∉ written := by
    rw [hwritten, List.mem_append, not_or]
    exact ⟨not_slash_of_isWord hfirst, not_slash_dotted hmore⟩
  have hsegments : Tree.Path.segments? ⟨false, 0, headParts first ++ more, written, loc⟩ = .ok _ :=
    segments?_eq (by rw [hwritten, hcs]; rfl) hdot hslash
  have hself := isSelf_eq hdots hmore
  have hhead := headSpan_eq start first (dotted more)
  rw [← hwritten] at hself hhead
  simp only [pathAt, hsplit, List.headD_cons, List.tail_cons]
  unfold Tree.Path.resolve Tree.Path.split?
  simp only [hsegments, hspan, hself, bind, Except.bind]
  by_cases hthis : first = "this".toList
  · subst hthis
    simp only [beq_self_eq_true, if_true]
    show Except.ok (Tree.Path.mk written (.self (Tree.Path.headSpan (span start written)
      (byteLength "this".toList))) more _) = _
    rw [hhead]
  · have hparts : headParts first = [first] := if_neg hthis
    rw [beq_eq_false_iff_ne.mpr hthis, if_neg Bool.false_ne_true, if_neg hthis, hparts]
    simp only [List.cons_append, List.nil_append, if_neg Bool.false_ne_true, hhead]
    show Except.ok (Tree.Path.mk written (.plain first (span start first)) more _) = _
    congr 2
    split
    · exact absurd (List.cons.inj hcs).1.symm hat
    · rfl

theorem resolve_argument {src : Source} {name written : List Char} {more : List (List Char)}
    {loc : Location} {start : Nat} (hname : isSegment name = true)
    (hmore : ∀ s ∈ more, isSegment s = true) (hsplit : splitDots written = ('@' :: name) :: more)
    (hwritten : written = '@' :: name ++ dotted more)
    (hspan : src.spanFor loc = span start written) :
    Tree.Path.resolve src ⟨true, 0, name :: more, written, loc⟩ = .ok (pathAt start written) := by
  have hword := isWord_of_isSegment hname
  obtain ⟨-, -, -, -, hchars, -⟩ := chars_of_isWord hword
  have hdots : '.' ∉ '@' :: name := by
    rw [List.mem_cons, not_or]
    exact ⟨by decide, fun hmem => absurd (hchars '.' hmem) (by decide)⟩
  have hslash : '/' ∉ written := by
    rw [hwritten, List.mem_append, List.mem_cons, not_or, not_or]
    exact ⟨⟨by decide, not_slash_of_isWord hword⟩, not_slash_dotted hmore⟩
  have hsegments : Tree.Path.segments? ⟨true, 0, name :: more, written, loc⟩ = .ok _ :=
    segments?_eq (by rw [hwritten]; rfl) (by decide) hslash
  have hthis : '@' :: name ≠ "this".toList := fun heq => absurd (List.cons.inj heq).1 (by decide)
  have hself := isSelf_eq hdots hmore
  have hhead := headSpan_eq start ('@' :: name) (dotted more)
  rw [← hwritten] at hself hhead
  simp only [pathAt, hsplit, List.headD_cons, List.tail_cons]
  unfold Tree.Path.resolve Tree.Path.split?
  simp only [hsegments, hspan, hself, bind, Except.bind]
  rw [beq_eq_false_iff_ne.mpr hthis, if_neg Bool.false_ne_true, if_neg hthis, if_pos trivial]
  have hbytes : byteLength name + 1 = byteLength ('@' :: name) := Nat.add_comm _ _
  rw [hbytes, hhead]
  rfl

end HtmlTemplate.Draft
