import HtmlTemplate.Mustache.Scan

/-! Text between delimiters. A backslash keeps the characters of a class, the closing one among
them, from being read as what they are, so any text can be written between its delimiters: with
a backslash before each character of the class. Only where backslashes are not of the class a
last one keeps the closing character from being read. -/

namespace HtmlTemplate.Mustache

/-- The text with a backslash before each character of a class. -/
def backslashed (escaped : Char → Bool) (cs : List Char) : List Char :=
  cs.flatMap fun c => if escaped c then ['\\', c] else [c]

variable {close : Char} {escaped : Char → Bool}

@[simp] theorem backslashed_nil : backslashed escaped [] = [] := rfl

theorem backslashed_cons_escaped {c : Char} (hc : escaped c = true) (cs : List Char) :
    backslashed escaped (c :: cs) = '\\' :: c :: backslashed escaped cs := by
  rw [backslashed, List.flatMap_cons, if_pos hc]
  rfl

theorem backslashed_cons_plain {c : Char} (hc : escaped c = false) (cs : List Char) :
    backslashed escaped (c :: cs) = c :: backslashed escaped cs := by
  rw [backslashed, List.flatMap_cons, hc]
  rfl

theorem backslashed_append (cs ds : List Char) :
    backslashed escaped (cs ++ ds) = backslashed escaped cs ++ backslashed escaped ds :=
  List.flatMap_append

theorem backslashed_plain {cs : List Char} (h : ∀ c ∈ cs, escaped c = false) :
    backslashed escaped cs = cs := by
  induction cs with
  | nil => rfl
  | cons c cs ih =>
    obtain ⟨hc, hcs⟩ := List.forall_mem_cons.mp h
    rw [backslashed_cons_plain hc, ih hcs]

theorem enclosedText?_escaped (hclose : close ≠ '\\') {c : Char} (hc : escaped c = true)
    (cs : List Char) :
    enclosedText? close escaped ('\\' :: c :: cs)
      = (enclosedText? close escaped cs).map (Prod.map (c :: ·) (· + 2)) := by
  rw [enclosedText?, if_neg hclose.symm]
  simp only [decide_true, Bool.true_and, if_pos hc]
  rfl

private theorem enclosedText?_plain {c : Char} (hc : c ≠ close) {cs : List Char}
    (hnext : c = '\\' → cs.head?.all (!escaped ·) = true) :
    enclosedText? close escaped (c :: cs)
      = (enclosedText? close escaped cs).map (Prod.map (c :: ·) (· + 1)) := by
  cases cs with
  | nil =>
    unfold enclosedText?
    rw [if_neg hc]
    rfl
  | cons d ds =>
    have hplain : ¬ (c = '\\' && escaped d) = true := by
      rw [Bool.and_eq_true, decide_eq_true_eq]
      rintro ⟨hback, hd⟩
      simpa [hd] using hnext hback
    rw [enclosedText?, if_neg hc, if_neg hplain]
    rfl

theorem enclosedText?_backslashed_append (hclose : close ≠ '\\') (hescaped : escaped close = true)
    (cs : List Char) {more : List Char}
    (hmore : escaped '\\' = false → cs.getLast? = some '\\' →
      more.head?.all (!escaped ·) = true) :
    enclosedText? close escaped (backslashed escaped cs ++ more)
      = (enclosedText? close escaped more).map
          (Prod.map (cs ++ ·) ((backslashed escaped cs).length + ·)) := by
  induction cs with
  | nil => simp
  | cons c cs ih =>
    have ih := ih fun hback hlast => hmore hback (by cases cs <;> simp_all)
    by_cases hc : escaped c = true
    · rw [backslashed_cons_escaped hc, List.cons_append, List.cons_append,
        enclosedText?_escaped hclose hc, ih, Option.map_map]
      refine congrArg (Option.map · _) (funext fun r => Prod.ext rfl ?_)
      simp only [Function.comp_apply, Prod.map_snd, List.length_cons]
      omega
    · rw [Bool.not_eq_true] at hc
      have hne : c ≠ close := fun heq => by simp [heq, hescaped] at hc
      have hnext : c = '\\' → (backslashed escaped cs ++ more).head?.all (!escaped ·) = true := by
        rintro rfl
        cases cs with
        | nil => exact hmore hc rfl
        | cons d ds =>
          cases hd : escaped d with
          | true => simp [backslashed_cons_escaped hd, hc]
          | false => simp [backslashed_cons_plain hd, hd]
      rw [backslashed_cons_plain hc, List.cons_append, enclosedText?_plain hne hnext, ih,
        Option.map_map]
      refine congrArg (Option.map · _) (funext fun r => Prod.ext rfl ?_)
      simp only [Function.comp_apply, Prod.map_snd, List.length_cons]
      omega

theorem enclosedText?_backslashed (hclose : close ≠ '\\') (hescaped : escaped close = true)
    {cs : List Char} (hlast : escaped '\\' = false → cs.getLast? ≠ some '\\')
    (rest : List Char) :
    enclosedText? close escaped (backslashed escaped cs ++ close :: rest)
      = some (cs, (backslashed escaped cs).length + 1) := by
  have hend : enclosedText? close escaped (close :: rest) = some ([], 1) := by
    unfold enclosedText?
    rw [if_pos rfl]
  rw [enclosedText?_backslashed_append hclose hescaped cs
    fun hback heq => absurd heq (hlast hback), hend]
  simp

theorem enclosedText?_quoted {q : Char} (hq : q ≠ '\\') {cs : List Char}
    (hlast : cs.getLast? ≠ some '\\') (rest : List Char) :
    enclosedText? q (· == q) (backslashed (· == q) cs ++ q :: rest)
      = some (cs, (backslashed (· == q) cs).length + 1) :=
  enclosedText?_backslashed hq (by simp) (fun _ => hlast) rest

private theorem enclosedText?_unclosed {cs : List Char} (h : close ∉ cs) :
    enclosedText? close escaped cs = none := by
  fun_induction enclosedText? close escaped cs with
  | case1 => rfl
  | case2 => simp at h
  | case3 => simp_all
  | case4 => simp_all
  | case5 => rfl

/-- A bare backslash at the end keeps the closing character from being read, so that the text is
closed only by one further on. -/
theorem enclosedText?_bareBackslash (hclose : close ≠ '\\') (hescaped : escaped close = true)
    (hback : escaped '\\' = false) {cs : List Char} (hlast : cs.getLast? = some '\\')
    {rest : List Char} (hrest : close ∉ rest) :
    enclosedText? close escaped (backslashed escaped cs ++ close :: rest) = none := by
  obtain ⟨front, rfl⟩ := List.getLast?_eq_some_iff.mp hlast
  rw [backslashed_append, backslashed_cons_plain hback, backslashed_nil, List.append_assoc,
    List.singleton_append, enclosedText?_backslashed_append hclose hescaped front
      fun _ _ => by simp [hback],
    enclosedText?_escaped hclose hescaped, enclosedText?_unclosed hrest]
  rfl

end HtmlTemplate.Mustache
