import HtmlTemplate.Proofs.Cuts
import HtmlTemplate.Proofs.Placement

/-! The trims that come to the ends of a text. Markers come first and take all blanks; tags that
are alone on their lines come after them. Each trim sets the flag of its end anew, to whether it
has taken anything itself, so what the flag says in the end is told by the number of markers. -/

namespace HtmlTemplate

namespace Text

variable {cs : List Char}

theorem trimStart_of_bare (h : ∀ c ∈ cs.head?, isBlank c = false) : trimStart cs = cs := by
  cases cs with
  | nil => rfl
  | cons c cs => exact List.dropWhile_cons_of_neg (by simp [h c rfl])

private theorem dropIf_of_bare {d : Char} (hd : isBlank d = true)
    (h : ∀ c ∈ cs.head?, isBlank c = false) : dropIf d cs = cs := by
  cases cs with
  | nil => rfl
  | cons c cs =>
    rw [dropIf, if_neg]
    rintro rfl
    exact Bool.false_ne_true ((h c rfl).symm.trans hd)

theorem dropBlankLine_of_bare (h : ∀ c ∈ cs.head?, isBlank c = false) : dropBlankLine cs = cs := by
  have hindent : cs.dropWhile isIndent = cs := by
    cases cs with
    | nil => rfl
    | cons c cs =>
      refine List.dropWhile_cons_of_neg fun hc => ?_
      exact Bool.false_ne_true ((h c rfl).symm.trans (isBlank_of_isIndent hc))
  rw [dropBlankLine, hindent, dropIf_of_bare rfl h, dropIf_of_bare rfl h]

theorem dropEndWhile_of_bare {p : Char → Bool} (h : ∀ c ∈ cs.getLast?, p c = false) :
    dropEndWhile p cs = cs := by
  rw [← List.head?_reverse] at h
  rw [dropEndWhile, List.reverse_eq_iff]
  cases hcs : cs.reverse with
  | nil => rfl
  | cons c ds =>
    rw [hcs] at h
    exact List.dropWhile_cons_of_neg (by simp [h c rfl])

theorem trimEnd_of_bare (h : ∀ c ∈ cs.getLast?, isBlank c = false) : trimEnd cs = cs :=
  dropEndWhile_of_bare h

theorem dropEndIndent_of_bare (h : ∀ c ∈ cs.getLast?, isBlank c = false) :
    dropEndIndent cs = cs := by
  refine dropEndWhile_of_bare fun c hc => Bool.eq_false_iff.mpr fun hindent => ?_
  exact Bool.false_ne_true ((h c hc).symm.trans (isBlank_of_isIndent hindent))

theorem bare_dropWhile (cs : List Char) :
    ∀ c ∈ (cs.dropWhile isBlank).head?, isBlank c = false := by
  intro c hc
  have hnot := List.head?_dropWhile_not isBlank cs
  rw [Option.mem_def.mp hc] at hnot
  simpa using hnot

theorem bare_trimEnd (cs : List Char) : ∀ c ∈ (trimEnd cs).getLast?, isBlank c = false := by
  rw [trimEnd, dropEndWhile, List.getLast?_reverse]
  exact bare_dropWhile cs.reverse

end Text

namespace Mustache

/-- What trims an end of a text: so many markers, and after them maybe tags that are alone on
their lines. -/
structure Passes where
  marks : Nat := 0
  lines : Bool := false

/-- A trim of an end of a text, given what it does with all blanks and with a line: what is left
of the text, and the flag of that end. -/
def Trim.take (all line : List Char → List Char) (value : List Char) (flag : Bool) :
    Trim → List Char × Bool
  | .all => (all value, all value != value)
  | .line => if flag then (value, true) else (line value, line value != value)

namespace Passes

def next (p : Passes) : Trim → Passes
  | .all => { p with marks := p.marks + 1 }
  | .line => { p with lines := true }

def mark (p : Passes) (marked : Bool) : Passes :=
  { p with marks := p.marks + marked.toNat }

theorem next_mark (p : Passes) (marked : Bool) (t : Trim) :
    (p.mark marked).next t = (p.next t).mark marked := by
  cases t with
  | all => exact congrArg (Passes.mk · _) (Nat.add_right_comm _ _ _)
  | line => rfl

/-- What is left of an end: whether anything has gone from it, its flag, and the character that
is now outermost. -/
structure Leave (p : Passes) (gone : Prop) (flag : Bool) (outermost : Option Char) : Prop where
  flag : flag = true ↔ gone ∧ p.marks ≤ 1
  fresh : p.lines = false → p.marks = 0 → ¬gone
  bare : 0 < p.marks → ∀ c ∈ outermost, Text.isBlank c = false

variable {p : Passes} {gone more : Prop} {flag flag' : Bool} {outermost outermost' : Option Char}

theorem Leave.lined (h : p.Leave gone flag outermost) :
    (p.next .line).Leave gone flag outermost where
  flag := h.flag
  fresh := by rintro ⟨⟩
  bare := h.bare

theorem Leave.all (h : p.Leave gone flag outermost) (hlines : p.lines = false)
    (hflag : flag' = true ↔ more) (hmore : (∀ c ∈ outermost, Text.isBlank c = false) → ¬more)
    (hbare : ∀ c ∈ outermost', Text.isBlank c = false) :
    (p.next .all).Leave (gone ∨ more) flag' outermost' where
  flag := by
    rw [hflag]
    rcases Nat.eq_zero_or_pos p.marks with hnone | hmarks
    · have hgone := h.fresh hlines hnone
      simp [hgone, next, hnone]
    · have hmany : ¬p.marks + 1 ≤ 1 := by omega
      simp [hmore (h.bare hmarks), next, hmany]
  fresh _ hmarks := absurd hmarks (Nat.succ_ne_zero _)
  bare _ := hbare

theorem Leave.line (h : p.Leave gone false outermost) (hflag : flag' = true ↔ more)
    (hmore : (∀ c ∈ outermost, Text.isBlank c = false) → ¬more ∧ outermost' = outermost) :
    (p.next .line).Leave (gone ∨ more) flag' outermost' where
  flag := by
    have hwas := h.flag
    rw [hflag]
    rcases Nat.eq_zero_or_pos p.marks with hnone | hmarks
    · have hgone : ¬gone := by simpa [hnone] using hwas
      simp [hgone, next, hnone]
    · have hnone := (hmore (h.bare hmarks)).1
      simpa [hnone, next] using hwas
  fresh := by rintro ⟨⟩
  bare hmarks := by
    rw [(hmore (h.bare hmarks)).2]
    exact h.bare hmarks

theorem Leave.trim {t : Trim} {all line : List Char → List Char} {value : List Char}
    {outer : List Char → Option Char} (h : p.Leave gone flag (outer value))
    (hlines : t = .all → p.lines = false)
    (hall : (∀ c ∈ outer value, Text.isBlank c = false) → all value = value)
    (hline : (∀ c ∈ outer value, Text.isBlank c = false) → line value = value)
    (hbare : ∀ c ∈ outer (all value), Text.isBlank c = false)
    (hmore : (t.take all line value flag).1 ≠ value ↔ more) :
    (p.next t).Leave (gone ∨ more) (t.take all line value flag).2
      (outer (t.take all line value flag).1) := by
  cases t with
  | all =>
    have hsame (h : ∀ c ∈ outer value, Text.isBlank c = false) : ¬more :=
      fun hm => hmore.mpr hm (hall h)
    exact h.all (hlines rfl) (bne_iff_ne.trans hmore) hsame hbare
  | line =>
    cases flag with
    | true =>
      have hnone : ¬more := fun hm => hmore.mpr hm rfl
      simpa [hnone, Trim.take] using h.lined
    | false =>
      refine h.line (bne_iff_ne.trans hmore) fun h => ⟨fun hm => hmore.mpr hm (hline h), ?_⟩
      exact congrArg outer (hline h)

end Passes

def Content.Left (before after : Passes) (c : Content) : Prop :=
  c.isBlank = false → ∃ front back, c.written = front ++ (c.value ++ back)
    ∧ front.all Text.isBlank = true ∧ back.all Text.isBlank = true
    ∧ before.Leave (front ≠ []) c.rightStripped c.value.head?
    ∧ after.Leave (back ≠ []) c.leftStripped c.value.getLast?

namespace Content

variable {before after : Passes} {c : Content} {t : Trim}

theorem isBlank_trimStart (t : Trim) (c : Content) : (c.trimStart t).isBlank = c.isBlank :=
  congrArg (List.all · Text.isBlank) (c.written_trimStart t)

theorem isBlank_trimEnd (t : Trim) (c : Content) : (c.trimEnd t).isBlank = c.isBlank :=
  congrArg (List.all · Text.isBlank) (c.written_trimEnd t)

theorem trimStart_append (t : Trim) (c : Content) :
    ∃ more, c.value = more ++ (c.trimStart t).value ∧ more.all Text.isBlank = true := by
  obtain ⟨more, hmore⟩ := c.trimStart_suffix t
  have hcount := (shortens_trimStart t c).countP
  rw [← hmore, List.countP_append] at hcount
  have hnone : more.countP (!Text.isBlank ·) = 0 := by omega
  exact ⟨more, hmore.symm,
    List.all_eq_true.mpr fun x hx => by simpa using List.countP_eq_zero.mp hnone x hx⟩

theorem value_ne_nil {front back value : List Char} (hblank : c.isBlank = false)
    (hwritten : c.written = front ++ (value ++ back)) (hfront : front.all Text.isBlank = true)
    (hback : back.all Text.isBlank = true) : value ≠ [] := by
  rintro rfl
  rw [isBlank, hwritten, List.all_append, List.nil_append, hfront, hback] at hblank
  cases hblank

theorem trimStart_eq (t : Trim) (c : Content) :
    ((c.trimStart t).value, (c.trimStart t).rightStripped)
      = t.take Text.trimStart Text.dropBlankLine c.value c.rightStripped := by
  cases t with
  | all => rfl
  | line =>
    simp only [trimStart, Trim.take]
    split <;> simp [*]

theorem trimEnd_eq (t : Trim) (c : Content) :
    ((c.trimEnd t).value, (c.trimEnd t).leftStripped)
      = t.take Text.trimEnd Text.dropEndIndent c.value c.leftStripped := by
  cases t with
  | all => rfl
  | line =>
    simp only [trimEnd, Trim.take]
    split <;> simp [*]

private theorem leftStripped_trimStart (t : Trim) (c : Content) :
    (c.trimStart t).leftStripped = c.leftStripped := by
  cases t <;> simp only [trimStart]
  split <;> rfl

namespace Left

theorem trimStart (h : c.Left before after) (hlines : t = .all → before.lines = false) :
    (c.trimStart t).Left (before.next t) after := by
  intro hblank
  rw [isBlank_trimStart] at hblank
  obtain ⟨front, back, hwritten, hfront, hback, hstart, hend⟩ := h hblank
  obtain ⟨more, hmore, hall⟩ := c.trimStart_append t
  have htake := c.trimStart_eq t
  have htook : (t.take Text.trimStart Text.dropBlankLine c.value c.rightStripped).1 ≠ c.value
      ↔ more ≠ [] := by
    rw [← htake, ne_eq, ne_eq, not_iff_not, eq_comm, hmore, List.append_left_eq_self]
  have hstart' := hstart.trim hlines Text.trimStart_of_bare Text.dropBlankLine_of_bare
    (Text.bare_dropWhile _) htook
  rw [← htake] at hstart'
  have hwritten' : c.written = (front ++ more) ++ ((c.trimStart t).value ++ back) := by
    rw [hwritten, hmore]
    simp only [List.append_assoc]
  have hfront' : (front ++ more).all Text.isBlank = true := by
    rw [List.all_append, hfront, hall, Bool.and_self]
  have hne := value_ne_nil hblank hwritten' hfront' hback
  refine ⟨front ++ more, back, (c.written_trimStart t).trans hwritten', hfront', hback, ?_, ?_⟩
  · rwa [ne_eq, List.append_eq_nil_iff, not_and_or]
  · rw [leftStripped_trimStart]
    rwa [hmore, List.getLast?_append_of_ne_nil _ hne] at hend

theorem trimEnd (h : c.Left before after) (hlines : t = .all → after.lines = false) :
    (c.trimEnd t).Left before (after.next t) := by
  intro hblank
  rw [isBlank_trimEnd] at hblank
  obtain ⟨front, back, hwritten, hfront, hback, hstart, hend⟩ := h hblank
  obtain ⟨more, hmore, hall⟩ := c.trimEnd_append t
  have htake := c.trimEnd_eq t
  have htook : (t.take Text.trimEnd Text.dropEndIndent c.value c.leftStripped).1 ≠ c.value
      ↔ more ≠ [] := by
    rw [← htake, ne_eq, ne_eq, not_iff_not, eq_comm, hmore, List.append_right_eq_self]
  have hend' := hend.trim hlines Text.trimEnd_of_bare Text.dropEndIndent_of_bare
    (Text.bare_trimEnd _) htook
  rw [← htake] at hend'
  have hwritten' : c.written = front ++ ((c.trimEnd t).value ++ (more ++ back)) := by
    rw [hwritten, hmore]
    simp only [List.append_assoc]
  have hback' : (more ++ back).all Text.isBlank = true := by
    rw [List.all_append, hback, hall, Bool.and_self]
  have hne := value_ne_nil hblank hwritten' hfront hback'
  refine ⟨front, more ++ back, (c.written_trimEnd t).trans hwritten', hfront, hback', ?_, ?_⟩
  · rw [Takes.rightStripped_trimEnd]
    rwa [hmore, List.head?_append_of_ne_nil _ hne] at hstart
  · rwa [ne_eq, List.append_eq_nil_iff, and_comm, not_and_or]

theorem asWritten (c : Content) : c.asWritten.Left {} {} := by
  intro _
  have hleave {outermost : Option Char} : Passes.Leave {} (([] : List Char) ≠ []) false outermost :=
    ⟨by simp, fun _ _ => not_not.mpr rfl, by rintro ⟨⟩⟩
  exact ⟨[], [], (List.append_nil _).symm, rfl, rfl, hleave, hleave⟩

theorem linedStart (h : c.Left before after) : c.Left (before.next .line) after := by
  intro hblank
  obtain ⟨front, back, hwritten, hfront, hback, hstart, hend⟩ := h hblank
  exact ⟨front, back, hwritten, hfront, hback, hstart.lined, hend⟩

theorem linedEnd (h : c.Left before after) : c.Left before (after.next .line) := by
  intro hblank
  obtain ⟨front, back, hwritten, hfront, hback, hstart, hend⟩ := h hblank
  exact ⟨front, back, hwritten, hfront, hback, hstart, hend.lined⟩

end Left

end Content

/-- The markers of a statement that face the text around it. -/
def Statement.sides (s : Statement) : Strip :=
  s.outline?.elim {} (·.strip)

def passesBefore (last : Passes) (ss : List Statement) : Passes :=
  ss.head?.elim last fun s => Passes.mark ⟨0, true⟩ s.sides.opening

theorem sides_eq {s s' : Statement} (h : s'.bare = s.bare) : s'.sides = s.sides := by
  rw [Statement.sides, ← outline?_bare, h, outline?_bare, Statement.sides]

theorem passesBefore_eq {ss ss' : List Statement} (h : bareAll ss' = bareAll ss) (last : Passes) :
    passesBefore last ss' = passesBefore last ss := by
  cases ss with
  | nil =>
    obtain rfl := List.map_eq_nil_iff.mp ((bareAll_eq_map ss').symm.trans h)
    rfl
  | cons s ss =>
    rw [bareAll_eq_map, bareAll_eq_map] at h
    obtain ⟨s', rest, rfl, hs, -⟩ := List.map_eq_cons_iff.mp h
    exact congrArg (fun strip : Strip => Passes.mark ⟨0, true⟩ strip.opening) (sides_eq hs)

mutual

/-- What whitespace control leaves of the texts of a statement. A text is told what trims its
ends, a block what trims its first and its last text besides its own tags. -/
def Statement.Left (before after opened closed : Passes) : Statement → Prop
  | .content c => c.Left before after
  | .block b => b.Left opened closed
  | .decoratorBlock b => b.Left opened closed
  | .partialBlock ⟨_, program, openStrip, closeStrip, _⟩ =>
    program.PlainLeft (opened.mark openStrip.closing) (closed.mark closeStrip.opening)
  | .mustache _ => True
  | .decorator _ => True
  | .comment _ => True
  | .partialCall _ => True
termination_by structural s => s

def Block.Left (opened closed : Passes) : Block Statement → Prop
  | ⟨_, program, inverse, openStrip, inverseStrip, closeStrip, _⟩ =>
    plainLeft (opened.mark openStrip.closing)
        (if inverse.isSome then Passes.mark ⟨0, true⟩ inverseStrip.opening
          else closed.mark closeStrip.opening) program
      ∧ if program.isSome then
          sectionLeft (.mark ⟨0, true⟩ inverseStrip.closing) (closed.mark closeStrip.opening)
            inverse
        else plainLeft (opened.mark openStrip.closing) (closed.mark closeStrip.opening) inverse
termination_by structural b => b

def allLeft (before after : Passes) : List Statement → Prop
  | [] => True
  | s :: ss =>
    (∃ opened closed : Passes, opened.marks = 0 ∧ closed.marks = 0
        ∧ s.Left before (passesBefore after ss) opened closed)
      ∧ allLeft (.mark ⟨0, true⟩ s.sides.closing) after ss
termination_by structural ss => ss

def linkLeft (opened closed : Passes) : List Statement → Prop
  | [s] => (∃ b, s = .block b ∧ b.program.isSome = true) ∧ s.Left {} {} opened closed
  | _ => False
termination_by structural ss => ss

def Program.PlainLeft (before after : Passes) : Program Statement → Prop
  | ⟨body, _, chained⟩ => chained = false ∧ allLeft before after body
termination_by structural p => p

def Program.Left (before after : Passes) : Program Statement → Prop
  | ⟨body, _, chained⟩ =>
    if chained then linkLeft before after body else allLeft before after body
termination_by structural p => p

def plainLeft (before after : Passes) : Option (Program Statement) → Prop
  | none => True
  | some p => p.PlainLeft before after
termination_by structural p => p

def sectionLeft (before after : Passes) : Option (Program Statement) → Prop
  | none => True
  | some p => p.Left before after
termination_by structural p => p

end

section

variable {before after opened closed last : Passes} {t : Trim} {s : Statement}
  {ss : List Statement} {p : Program Statement} {q : Option (Program Statement)}
  {f : List Statement → List Statement}

theorem Statement.Left.other (h : s.Left before after opened closed) (hne : ∀ c, s ≠ .content c)
    (before' after' : Passes) : s.Left before' after' opened closed := by
  cases s with
  | content c => exact absurd rfl (hne c)
  | _ => exact h

theorem allLeft.trimFirst (h : allLeft before after ss) (hlines : t = .all → before.lines = false) :
    allLeft (before.next t) after (trimFirst t ss) := by
  cases ss with
  | nil => exact h
  | cons s ss =>
    obtain ⟨⟨opened, closed, hopened, hclosed, hs⟩, hss⟩ := h
    cases s with
    | content c => exact ⟨⟨opened, closed, hopened, hclosed, hs.trimStart hlines⟩, hss⟩
    | _ => exact ⟨⟨opened, closed, hopened, hclosed, hs⟩, hss⟩

theorem allLeft.trimLast (h : allLeft before after ss) (hlines : t = .all → after.lines = false) :
    allLeft before (after.next t) (trimLast t ss) := by
  fun_induction Mustache.trimLast t ss generalizing before with
  | case1 => exact h
  | case2 c =>
    obtain ⟨⟨opened, closed, hopened, hclosed, hs⟩, -⟩ := h
    exact ⟨⟨opened, closed, hopened, hclosed, hs.trimEnd hlines⟩, trivial⟩
  | case3 s ss hne ih =>
    obtain ⟨⟨opened, closed, hopened, hclosed, hs⟩, hss⟩ := h
    refine ⟨⟨opened, closed, hopened, hclosed, ?_⟩, ih hss⟩
    cases ss with
    | nil => exact hs.other (fun c hc => hne c hc rfl) _ _
    | cons s' ss =>
      rw [passesBefore_eq (trims_trimLast t (s' :: ss)).1]
      exact hs

theorem allLeft.firstLine (h : allLeft before after ss) (alone : Bool) :
    allLeft (before.next .line) after (applyIf alone (Mustache.trimFirst .line) ss) := by
  cases alone with
  | true => exact h.trimFirst (by rintro ⟨⟩)
  | false =>
    cases ss with
    | nil => exact h
    | cons s ss =>
      obtain ⟨⟨opened, closed, hopened, hclosed, hs⟩, hss⟩ := h
      refine ⟨⟨opened, closed, hopened, hclosed, ?_⟩, hss⟩
      cases s with
      | content c => exact hs.linedStart
      | _ => exact hs

theorem allLeft.lastLine (h : allLeft before after ss) (alone : Bool) :
    allLeft before (after.next .line) (applyIf alone (Mustache.trimLast .line) ss) := by
  cases alone with
  | true => exact h.trimLast (by rintro ⟨⟩)
  | false =>
    induction ss generalizing before with
    | nil => exact h
    | cons s ss ih =>
      obtain ⟨⟨opened, closed, hopened, hclosed, hs⟩, hss⟩ := h
      refine ⟨⟨opened, closed, hopened, hclosed, ?_⟩, ih hss⟩
      cases ss with
      | nil =>
        cases s with
        | content c => exact hs.linedEnd
        | _ => exact hs
      | cons s' ss => exact hs

theorem allLeft.ends (h : allLeft before after ss) (hbefore : before.lines = false)
    (hafter : after.lines = false) (first last : Bool) :
    allLeft (before.mark first) (after.mark last)
      (applyIf last (Mustache.trimLast .all) (applyIf first (Mustache.trimFirst .all) ss)) := by
  have hfirst : allLeft (before.mark first) after (applyIf first (Mustache.trimFirst .all) ss) := by
    cases first with
    | false => exact h
    | true => exact h.trimFirst (t := .all) fun _ => hbefore
  cases last with
  | false => exact hfirst
  | true => exact hfirst.trimLast (t := .all) fun _ => hafter

end

section

variable {before after before' after' opened closed : Passes} {t : Trim} {b : Block Statement}
  {p : Program Statement} {q : Option (Program Statement)}
  {f : List Statement → List Statement}

theorem Program.PlainLeft.mapBody (h : p.PlainLeft before after)
    (hf : ∀ {ss}, allLeft before after ss → allLeft before' after' (f ss)) :
    (p.mapBody f).PlainLeft before' after' := by
  obtain ⟨body, params, chained⟩ := p
  exact ⟨h.1, hf h.2⟩

theorem plainLeft.map (h : plainLeft before after q)
    (hf : ∀ {ss}, allLeft before after ss → allLeft before' after' (f ss)) :
    plainLeft before' after' (q.map (Program.mapBody f)) := by
  cases q with
  | none => exact h
  | some p => exact Program.PlainLeft.mapBody h hf

theorem Program.Left.chain_or (h : p.Left before after) :
    (∃ call program inverse openStrip inverseStrip closeStrip loc params,
        p = ⟨[.block ⟨call, some program, inverse, openStrip, inverseStrip, closeStrip, loc⟩],
          params, true⟩
        ∧ Block.Left before after
          ⟨call, some program, inverse, openStrip, inverseStrip, closeStrip, loc⟩)
      ∨ p.PlainLeft before after := by
  obtain ⟨body, params, _ | _⟩ := p
  · exact .inr ⟨rfl, h⟩
  · obtain _ | ⟨s, _ | ⟨s', ss⟩⟩ := body
    · exact h.elim
    · obtain ⟨⟨⟨call, _ | program, inverse, openStrip, inverseStrip, closeStrip, loc⟩, rfl, hsome⟩,
        hb⟩ := h
      · cases hsome
      · exact .inl ⟨call, program, inverse, openStrip, inverseStrip, closeStrip, loc, params, rfl,
          hb⟩
    · exact h.elim

theorem Program.Left.of_chain (hsome : b.program.isSome = true) (h : b.Left before after)
    (params : List (List Char)) : Program.Left before after ⟨[.block b], params, true⟩ :=
  ⟨⟨b, rfl, hsome⟩, h⟩

theorem Program.PlainLeft.left (h : p.PlainLeft before after) : p.Left before after := by
  obtain ⟨body, params, chained⟩ := p
  obtain ⟨rfl, hbody⟩ := h
  exact hbody

theorem plainLeft.section (h : plainLeft before after q) : sectionLeft before after q := by
  cases q with
  | none => trivial
  | some p => exact Program.PlainLeft.left h

theorem Program.PlainLeft.chained_eq (h : p.PlainLeft before after) : p.chained = false := by
  obtain ⟨body, params, chained⟩ := p
  exact h.1

theorem Program.Left.mapFirst (h : p.Left before after)
    (hf : ∀ {before after ss}, (t = .all → before.lines = false) → allLeft before after ss →
      allLeft (before.next t) after (f ss))
    (hlines : t = .all → before.lines = false) : (p.mapFirst f).Left (before.next t) after := by
  obtain ⟨call, program, inverse, openStrip, inverseStrip, closeStrip, loc, params, rfl, hprogram,
    hinverse⟩ | hplain := h.chain_or
  · have hprogram' := plainLeft.map hprogram (hf hlines)
    rw [Passes.next_mark] at hprogram'
    have hb : Block.Left (before.next t) after ⟨call, some (program.mapBody f), inverse, openStrip,
      inverseStrip, closeStrip, loc⟩ := ⟨hprogram', hinverse⟩
    exact .of_chain rfl hb params
  · rw [mapFirst_of_plain hplain.chained_eq]
    exact (hplain.mapBody (hf hlines)).left

theorem Program.Left.mapLast (h : p.Left before after) (hafter : after.lines = false) :
    (p.mapLast (trimLast .all)).Left before (after.next .all) := by
  fun_induction Program.mapLast (trimLast .all) p generalizing before after with
  | case1 call program next openStrip inverseStrip closeStrip loc rest params ih =>
    obtain ⟨call, program, inverse, openStrip, inverseStrip, closeStrip, loc, params, heq, hprogram,
      hinverse⟩ | hplain := h.chain_or
    · cases heq
      have hinverse' := ih hinverse hafter
      rw [Passes.next_mark] at hinverse'
      have hb : Block.Left before (after.next .all) ⟨call, some _, some _, openStrip, inverseStrip,
        closeStrip, loc⟩ := ⟨hprogram, hinverse'⟩
      exact .of_chain rfl hb params
    · cases hplain.chained_eq
  | case2 call program openStrip inverseStrip closeStrip loc rest params =>
    obtain ⟨call, program, inverse, openStrip, inverseStrip, closeStrip, loc, params, heq, hprogram,
      hinverse⟩ | hplain := h.chain_or
    · cases heq
      have hlast : plainLeft (before.mark openStrip.closing) (after.mark closeStrip.opening)
        (some program) := hprogram
      have hprogram' := plainLeft.map hlast (·.trimLast (t := .all) fun _ => hafter)
      rw [Passes.next_mark] at hprogram'
      have hb : Block.Left before (after.next .all) ⟨call, some _, none, openStrip, inverseStrip,
        closeStrip, loc⟩ := ⟨hprogram', trivial⟩
      exact .of_chain rfl hb params
    · cases hplain.chained_eq
  | case3 p hnext hlast =>
    obtain ⟨call, program, _ | next, openStrip, inverseStrip, closeStrip, loc, params, rfl, -⟩
      | hplain := h.chain_or
    · exact (hlast _ _ _ _ _ _ _ _ rfl).elim
    · exact (hnext _ _ _ _ _ _ _ _ _ rfl).elim
    · exact (hplain.mapBody (·.trimLast (t := .all) fun _ => hafter)).left

theorem Program.Left.firstLine (h : p.Left before after) (alone : Bool) :
    (applyIf alone (Program.mapFirst (trimFirst .line)) p).Left (before.next .line) after := by
  cases alone with
  | true => exact h.mapFirst (fun hlines hss => hss.trimFirst hlines) (by rintro ⟨⟩)
  | false =>
    obtain ⟨call, program, inverse, openStrip, inverseStrip, closeStrip, loc, params, rfl, hprogram,
      hinverse⟩ | hplain := h.chain_or
    · have hb : Block.Left (before.next .line) after ⟨call, some program, inverse, openStrip,
          inverseStrip, closeStrip, loc⟩ :=
        ⟨plainLeft.map (f := id) hprogram (·.firstLine false), hinverse⟩
      exact .of_chain rfl hb params
    · exact (hplain.mapBody (f := id) (·.firstLine false)).left

theorem Program.Left.ends (h : p.Left before after) (hbefore : before.lines = false)
    (hafter : after.lines = false) (first last : Bool) :
    (applyIf last (Program.mapLast (trimLast .all))
      (applyIf first (Program.mapFirst (trimFirst .all)) p)).Left (before.mark first)
        (after.mark last) := by
  have hfirst : (applyIf first (Program.mapFirst (trimFirst .all)) p).Left (before.mark first)
      after := by
    cases first with
    | false => exact h
    | true =>
      exact h.mapFirst (t := .all) (fun hlines hss => hss.trimFirst hlines) fun _ => hbefore
  cases last with
  | false => exact hfirst
  | true => exact hfirst.mapLast hafter

theorem Block.left_trimSections (keepLines : Bool) (call : Call Expression)
    {program inverse : Option (Program Statement)} (openStrip inverseStrip closeStrip : Strip)
    (loc : Location) (hprogram : plainLeft {} {} program)
    (hinverse : if program.isSome then sectionLeft {} {} inverse else plainLeft {} {} inverse) :
    (Block.trimSections keepLines
      ⟨call, program, inverse, openStrip, inverseStrip, closeStrip, loc⟩).Left {} {} := by
  cases program with
  | none =>
    cases inverse with
    | none => exact ⟨trivial, trivial⟩
    | some q => exact ⟨trivial, Program.PlainLeft.mapBody hinverse (·.ends rfl rfl _ _)⟩
  | some p =>
    cases inverse with
    | none => exact ⟨Program.PlainLeft.mapBody hprogram (·.ends rfl rfl _ _), trivial⟩
    | some q =>
      exact ⟨Program.PlainLeft.mapBody hprogram fun h => (h.ends rfl rfl _ _).lastLine _,
        (Program.Left.ends hinverse rfl rfl _ _).firstLine _⟩

theorem Block.Left.mapOpened (h : b.Left opened closed) :
    (b.mapOpened (trimFirst .line)).Left (opened.next .line) closed := by
  obtain ⟨call, _ | p, inverse, openStrip, inverseStrip, closeStrip, loc⟩ := b
  · exact ⟨trivial, plainLeft.map h.2 (·.firstLine true)⟩
  · exact ⟨plainLeft.map h.1 (·.firstLine true), h.2⟩

theorem Block.Left.mapClosed (h : b.Left opened closed) :
    ∃ closed', closed'.marks = closed.marks
      ∧ (b.mapClosed (trimLast .line)).Left opened closed' := by
  obtain ⟨call, _ | p, _ | q, openStrip, inverseStrip, closeStrip, loc⟩ := b
  · exact ⟨closed, rfl, trivial, trivial⟩
  · exact ⟨closed.next .line, rfl, trivial, Program.PlainLeft.mapBody h.2 (·.lastLine true)⟩
  · exact ⟨closed.next .line, rfl, Program.PlainLeft.mapBody h.1 (·.lastLine true), trivial⟩
  · obtain ⟨hprogram, hinverse⟩ := h
    obtain ⟨_, _, _, _, _, _, _, params, rfl, hlink⟩ | hplain := Program.Left.chain_or hinverse
    · exact ⟨closed, rfl, hprogram, .of_chain rfl hlink params⟩
    · exact ⟨closed.next .line, rfl, hprogram, (hplain.mapBody (·.lastLine true)).left⟩

theorem Block.Left.inside (h : b.Left opened closed) (r : Reach) :
    ∃ opened' closed' : Passes, opened'.marks = opened.marks ∧ closed'.marks = closed.marks
      ∧ (Statement.trimInside.inside r b).Left opened' closed' := by
  obtain ⟨opened', hmarks, hopened⟩ : ∃ opened' : Passes, opened'.marks = opened.marks
      ∧ (applyIf r.opensLine (Block.mapOpened (trimFirst .line)) b).Left opened' closed := by
    cases r.opensLine with
    | false => exact ⟨opened, rfl, h⟩
    | true => exact ⟨opened.next .line, rfl, h.mapOpened⟩
  unfold Statement.trimInside.inside
  cases r.closesLine with
  | false => exact ⟨opened', closed, hmarks, rfl, hopened⟩
  | true =>
    obtain ⟨closed', hmarks', hclosed⟩ := hopened.mapClosed
    exact ⟨opened', closed', hmarks, hmarks', hclosed⟩

theorem Statement.Left.trimInside {s : Statement} (h : s.Left before after {} {}) (r : Reach) :
    ∃ opened closed : Passes, opened.marks = 0 ∧ closed.marks = 0
      ∧ (s.trimInside r).Left before after opened closed := by
  cases s with
  | block b => exact Block.Left.inside h r
  | decoratorBlock b => exact Block.Left.inside h r
  | partialBlock b =>
    obtain ⟨call, program, openStrip, closeStrip, loc⟩ := b
    exact ⟨Passes.next {} .line, Passes.next {} .line, rfl, rfl,
      Program.PlainLeft.mapBody h fun h => (h.firstLine _).lastLine _⟩
  | _ => exact ⟨{}, {}, rfl, rfl, h⟩

end

section

variable {root keepLines : Bool} {before after ss : List Statement} {s : Statement} {c : Content}
  {p p' : Passes}

def passTrims (marked alone : Bool) : List Trim :=
  (if marked then [.all] else []) ++ if alone then [.line] else []

private theorem reach_sides (root keepLines : Bool) (before : List Statement) (s : Statement)
    (after : List Statement) :
    (∃ alone, (reach root keepLines before s after).before = passTrims s.sides.opening alone)
      ∧ ∃ alone, (reach root keepLines before s after).after = passTrims s.sides.closing alone := by
  unfold reach Statement.sides
  cases s.outline? with
  | none => exact ⟨⟨false, rfl⟩, ⟨false, rfl⟩⟩
  | some o => exact ⟨⟨_, rfl⟩, ⟨_, rfl⟩⟩

theorem Content.Left.starts (h : c.Left {} p) (marked alone : Bool) :
    Content.Left (.mark ⟨0, true⟩ marked) p
      ((passTrims marked alone).foldl (fun c t => c.trimStart t) c) := by
  have hall : (c.trimStart .all).Left (Passes.next {} .all) p := h.trimStart fun _ => rfl
  cases marked with
  | false =>
    cases alone with
    | false => exact h.linedStart
    | true => exact h.trimStart (t := .line) (by rintro ⟨⟩)
  | true =>
    cases alone with
    | false => exact hall.linedStart
    | true => exact hall.trimStart (t := .line) (by rintro ⟨⟩)

theorem Content.Left.ends (h : c.Left p {}) (marked alone : Bool) :
    Content.Left p (.mark ⟨0, true⟩ marked)
      ((passTrims marked alone).foldl (fun c t => c.trimEnd t) c) := by
  have hall : (c.trimEnd .all).Left p (Passes.next {} .all) := h.trimEnd fun _ => rfl
  cases marked with
  | false =>
    cases alone with
    | false => exact h.linedEnd
    | true => exact h.trimEnd (t := .line) (by rintro ⟨⟩)
  | true =>
    cases alone with
    | false => exact hall.linedEnd
    | true => exact hall.trimEnd (t := .line) (by rintro ⟨⟩)

theorem allLeft_settleAfter (before : List Statement) (trims : List Trim) (text : Option Content)
    (h : ∀ s ∈ ss, s.Left {} {} {} {})
    (htrims : ∀ {c : Content} {p' : Passes}, c.Left {} p' →
      (trims.foldl (fun c t => c.trimStart t) c).Left p p') :
    allLeft p {} (settleAfter root keepLines before trims text ss) := by
  induction ss generalizing before trims text p with
  | nil => exact trivial
  | cons s after ih =>
    obtain ⟨hs, hafter⟩ := List.forall_mem_cons.mp h
    obtain ⟨-, alone, hreach⟩ := reach_sides root keepLines before s after
    have hrest (text : Option Content) := ih (p := .mark ⟨0, true⟩ s.sides.closing) (s :: before)
      (reach root keepLines before s after).after text hafter
      fun hc => hreach ▸ hc.starts s.sides.closing alone
    rw [settleAfter.eq_def]
    dsimp only
    split
    · rename_i c
      refine ⟨⟨{}, {}, rfl, rfl, ?_⟩, hrest _⟩
      rw [passesBefore_eq (trims_settleAfter _ _ _ _ _ _).1]
      cases after with
      | nil => exact htrims hs
      | cons n after =>
        obtain ⟨⟨alone, hnext⟩, -⟩ := reach_sides root keepLines (.content c :: before) n after
        simp only [hnext]
        exact (htrims hs).ends _ _
    · exact ⟨⟨{}, {}, rfl, rfl, trivial⟩, hrest _⟩
    · rename_i hcontent hpartial
      refine ⟨(hs.other hcontent p _).trimInside _, ?_⟩
      rw [sides_eq (trims_trimInside _ s).1]
      exact hrest _

end

section

variable {ts : List Token}

def Portion.Left (keepLines : Bool) : Portion → Prop
  | .body ss => ∀ s ∈ controlAll keepLines ss, s.Left {} {} {} {}
  | .inverse _ _ q => sectionLeft {} {} (controlSection keepLines q)

theorem Portion.Left.plain {keepLines : Bool} {body : List Statement}
    (h : Portion.Left keepLines (.body body)) (params : List (List Char)) :
    plainLeft {} {} (controlSection keepLines (some ⟨body, params, false⟩)) := by
  rw [controlSection, controlProgram]
  exact ⟨rfl, allLeft_settleAfter [] [] none h fun hc => hc⟩

theorem sectionLeft.plain {keepLines : Bool} {q : Option (Program Statement)}
    {before after : Passes} (h : sectionLeft before after (controlSection keepLines q))
    (hplain : ∀ p ∈ q, p.chained = false) :
    plainLeft before after (controlSection keepLines q) := by
  cases q with
  | none => trivial
  | some p =>
    obtain ⟨body, params, chained⟩ := p
    obtain rfl : chained = false := hplain _ rfl
    rw [controlSection, controlProgram] at h ⊢
    exact ⟨rfl, h⟩

theorem Spells.left {portion : Portion} (h : Spells ts portion) (keepLines : Bool) :
    portion.Left keepLines := by
  have hcons {s : Statement} {ss : List Statement} (hs : (s.control keepLines).Left {} {} {} {})
      (hss : Portion.Left keepLines (.body ss)) : Portion.Left keepLines (.body (s :: ss)) := by
    rw [Portion.Left, controlAll]
    exact List.forall_mem_cons.mpr ⟨hs, hss⟩
  induction h with
  | nil =>
    rw [Portion.Left, controlAll]
    exact List.forall_mem_nil _
  | @content t text after ss hsymbol hafter ih =>
    refine hcons ?_ ih
    rw [Statement.control]
    exact Content.Left.asWritten { value := text, written := text, loc := t.loc }
  | oneTag htag hs hafter ih =>
    refine hcons ?_ ih
    cases hs with
    | mustache | decorator | comment | partialCall =>
      rw [Statement.control]
      trivial
  | block hopening hclosing hloc hbody hinverse hafter ihbody ihinverse ih =>
    refine hcons ?_ ih
    rw [Statement.control]
    exact Block.left_trimSections _ _ _ _ _ _ (ihbody.plain _) ihinverse
  | inverseBlock hopening hclosing hloc hbody hinverse hplain hafter ihbody ihinverse ih =>
    refine hcons ?_ ih
    rw [Statement.control]
    refine Block.left_trimSections _ _ _ _ _ _ (sectionLeft.plain ihinverse hplain) ?_
    split
    · exact (ihbody.plain _).section
    · exact ihbody.plain _
  | decoratorBlock hopening hclosing hbody hafter ihbody ih =>
    refine hcons ?_ ih
    rw [Statement.control]
    exact Block.left_trimSections _ _ _ _ _ _ (ihbody.plain _) trivial
  | partialBlock hopening hclosing hbody hafter ihbody ih =>
    refine hcons ?_ ih
    rw [Statement.control]
    exact Program.PlainLeft.mapBody (ihbody.plain []) (·.ends rfl rfl _ _)
  | noInverse closing => trivial
  | elseSection closing hsymbol hbody ih => exact (ih.plain []).section
  | @chain tag main rest call body params strip inverse loc closing htag hbody hinverse ihbody
      ihinverse =>
    have hb := Block.left_trimSections keepLines call (markers tag) strip (closing.getD strip) loc
      (ihbody.plain params) ihinverse
    rw [Portion.Left, controlSection, controlProgram, controlAll, controlAll, Statement.control]
    refine .of_chain ?_ hb []
    rw [controlSection]
    cases controlSection keepLines inverse <;> rfl

end

end Mustache

end HtmlTemplate
