import HtmlTemplate.Proofs.Consumes

/-! How reading goes on. A chunk is read in turns: a turn reads the character at hand, and with it
what a reference takes, or it goes on in another state and leaves the character to the next turn.
The states come in ranks, and a character is only left to a state of lower rank. -/

namespace HtmlTemplate.Html

namespace Step

variable (es : List Emission) (s : Step) (c : Char) (rest : List Char)

def behind : Step :=
  { s with emitted := es ++ s.emitted }

@[simp] theorem read_behind : (s.behind es).read c = (s.read c).behind es := rfl

@[simp] theorem readAhead_behind (cs : List Char) :
    (s.behind es).readAhead cs = (s.readAhead cs).behind es := rfl

@[simp] theorem become_behind (state : State) :
    (s.behind es).become state = (s.become state).behind es := rfl

@[simp] theorem openTag_behind : (s.behind es).openTag = s.openTag.behind es := rfl

@[simp] theorem emit_behind (e : Event) : (s.behind es).emit e = (s.emit e).behind es := by
  simp [emit, behind]

@[simp] theorem emitHere_behind (e : Position → Event) :
    (s.behind es).emitHere e = (s.emitHere e).behind es :=
  emit_behind es s _

theorem ite_behind {p : Prop} [Decidable p] (s s' : Step) :
    (if p then s else s').behind es = if p then s.behind es else s'.behind es :=
  apply_ite (behind es) p s s'

private theorem decode_behind : (s.behind es).decode c rest
    = ((s.decode c rest).1, (s.decode c rest).2.behind es) := by
  show (if c = '&' && s.now.mode == .precompile then _ else _) = _
  unfold decode
  split
  · split <;> rfl
  · rfl

@[simp] theorem isRawText_behind : (s.behind es).isRawText c rest = s.isRawText c rest := rfl

@[simp] theorem now_behind : (s.behind es).now = s.now := rfl

@[simp] theorem data_behind : (s.behind es).data c rest = (s.data c rest).behind es := by
  simp [data, ite_behind, decode_behind]

@[simp] theorem closeTag_behind : (s.behind es).closeTag = s.closeTag.behind es := by
  simp [closeTag]

@[simp] theorem emptyValue_behind : (s.behind es).emptyValue = s.emptyValue.behind es := by
  simp [emptyValue]

@[simp] theorem attributeName_behind :
    (s.behind es).attributeName c = (s.attributeName c).behind es := by
  simp [attributeName, ite_behind]

@[simp] theorem beforeAttributeName_behind :
    (s.behind es).beforeAttributeName c = (s.beforeAttributeName c).behind es := by
  simp [beforeAttributeName, ite_behind]

end Step

/-- How many turns in a row may leave a character to the next one, from a state on. -/
def State.rank : State → Nat
  | afterAttributeValueQuoted | selfClosingStartTag => 2
  | beforeData | beforeAttributeName => 1
  | _ => 0

/-- One turn of the reading of a chunk: the characters that it reads, what it reports and the
machine behind it. -/
structure Turn where
  read : List Char
  emitted : List Emission
  now : Tokenizer

namespace Tokenizer

/-- A turn that only goes on in another state. -/
def leave? (t : Tokenizer) (c : Char) (rest : List Char) : Option Step :=
  let s : Step := { now := t }
  match t.state with
  | .beforeData =>
    if (c = '<' && !s.isRawText c rest)
        || (t.mode == .precompile && c = '\n' && preformattedElements.contains t.tagName) then none
    else some (s.become .data |>.emitHere .beginData)
  | .beforeAttributeName =>
    if isSpace c || c = '/' || c = '>' || c = '=' then none
    else some (s.become .attributeName |>.emitHere .beginAttribute)
  | .afterAttributeValueQuoted =>
    if isSpace c || c = '/' || c = '>' then none else some (s.become .beforeAttributeName)
  | .selfClosingStartTag =>
    if c = '>' then none else some (s.become .beforeAttributeName)
  | _ => none

def turn (t : Tokenizer) (c : Char) (rest : List Char) : Turn :=
  match t.leave? c rest with
  | some s => ⟨[], s.emitted, s.now⟩
  | none =>
    let s := t.step c rest
    ⟨c :: rest.take s.ahead, s.emitted, s.now⟩

section
variable {t : Tokenizer} {c : Char} {rest : List Char}

theorem step_of_leave {s : Step} (h : t.leave? c rest = some s) :
    t.step c rest = (s.now.step c rest).behind s.emitted ∧ s.now.state.rank < t.state.rank
      ∧ s.now.position = t.position := by
  unfold leave? at h
  dsimp only at h
  split at h
  · rename_i hstate
    rw [Option.ite_none_left_eq_some, Option.some.injEq] at h
    obtain ⟨hother, rfl⟩ := h
    simp only [Bool.or_eq_true, not_or] at hother
    refine ⟨?_, by rw [hstate]; exact Nat.zero_lt_one, rfl⟩
    simp only [step, hstate, Step.beforeData]
    rw [if_neg hother.1, if_neg hother.2]
    exact Step.data_behind [⟨.beginData t.position, t.become .data⟩] { now := t.become .data }
      c rest
  · rename_i hstate
    rw [Option.ite_none_left_eq_some, Option.some.injEq] at h
    obtain ⟨hother, rfl⟩ := h
    simp only [Bool.or_eq_true, decide_eq_true_eq, not_or] at hother
    obtain ⟨⟨⟨hspace, hslash⟩, hgt⟩, hequals⟩ := hother
    refine ⟨?_, by rw [hstate]; exact Nat.zero_lt_one, rfl⟩
    simp only [step, hstate, Step.beforeAttributeName]
    rw [if_neg hspace, if_neg hslash, if_neg hgt, if_neg hequals]
    exact Step.attributeName_behind [⟨.beginAttribute t.position, t.become .attributeName⟩]
      { now := t.become .attributeName } c
  · rename_i hstate
    rw [Option.ite_none_left_eq_some, Option.some.injEq] at h
    obtain ⟨hother, rfl⟩ := h
    simp only [Bool.or_eq_true, decide_eq_true_eq, not_or] at hother
    obtain ⟨⟨hspace, hslash⟩, hgt⟩ := hother
    refine ⟨?_, by rw [hstate]; exact Nat.one_lt_two, rfl⟩
    simp only [step, hstate, Step.afterAttributeValueQuoted]
    rw [if_neg hspace, if_neg hslash, if_neg hgt]
    rfl
  · rename_i hstate
    rw [Option.ite_none_left_eq_some, Option.some.injEq] at h
    obtain ⟨hother, rfl⟩ := h
    refine ⟨?_, by rw [hstate]; exact Nat.one_lt_two, rfl⟩
    simp only [step, hstate, Step.selfClosingStartTag]
    rw [if_neg hother]
    rfl
  · cases h

theorem turn_of_leave {s : Step} (h : t.leave? c rest = some s) :
    t.turn c rest = ⟨[], s.emitted, s.now⟩ := by
  rw [turn, h]

theorem turn_of_read (h : t.leave? c rest = none) :
    t.turn c rest
      = ⟨c :: rest.take (t.step c rest).ahead, (t.step c rest).emitted, (t.step c rest).now⟩ := by
  rw [turn, h]

theorem rank_le (s : State) : s.rank ≤ 2 := by
  cases s <;> decide

theorem turn_lt (t : Tokenizer) (c : Char) (rest : List Char) :
    Prod.Lex (· < ·) (· < ·)
      (((c :: rest).drop (t.turn c rest).read.length).length, (t.turn c rest).now.state.rank)
      ((c :: rest).length, t.state.rank) := by
  cases h : t.leave? c rest with
  | some s =>
    rw [turn_of_leave h]
    exact .right _ (step_of_leave h).2.1
  | none =>
    rw [turn_of_read h]
    refine .left _ _ ?_
    simp only [List.length_cons, List.drop_succ_cons, List.length_drop]
    omega

end

def turns (t : Tokenizer) : List Char → List Turn
  | [] => []
  | c :: rest =>
    t.turn c rest :: (t.turn c rest).now.turns ((c :: rest).drop (t.turn c rest).read.length)
termination_by cs => (cs.length, t.state.rank)
decreasing_by exact turn_lt t c rest

/-- The machine behind some turns. -/
def behindTurns (t : Tokenizer) : List Turn → Tokenizer
  | [] => t
  | u :: us => u.now.behindTurns us

section
variable {t : Tokenizer} {c : Char} {rest cs : List Char}

theorem turn_reads (t : Tokenizer) (c : Char) (rest : List Char) :
    (t.turn c rest).read <+: c :: rest
      ∧ (t.turn c rest).now.position = t.position.after (t.turn c rest).read := by
  cases h : t.leave? c rest with
  | some s =>
    rw [turn_of_leave h]
    exact ⟨List.nil_prefix, (step_of_leave h).2.2⟩
  | none =>
    rw [turn_of_read h]
    obtain ⟨k, -, hahead, hposition⟩ := step_consumes t c rest
    rw [hposition, show (t.step c rest).ahead = k by rw [hahead]; exact Nat.zero_add k]
    exact ⟨(List.prefix_cons_inj c).mpr (List.take_prefix _ rest), rfl⟩

private theorem feed_turn (t : Tokenizer) (c : Char) (rest : List Char) :
    let u := t.turn c rest
    t.feed (c :: rest)
      = (u.emitted ++ (u.now.feed ((c :: rest).drop u.read.length)).1,
        (u.now.feed ((c :: rest).drop u.read.length)).2) := by
  intro u
  cases h : t.leave? c rest with
  | some s =>
    have hu : u = ⟨[], s.emitted, s.now⟩ := turn_of_leave h
    rw [hu, feed_cons, (step_of_leave h).1]
    simp only [List.length_nil, List.drop_zero, feed_cons]
    simp [Step.behind]
  | none =>
    have hu : u = ⟨c :: rest.take (t.step c rest).ahead, _, _⟩ := turn_of_read h
    obtain ⟨k, hk, hahead, -⟩ := step_consumes t c rest
    have hlength : (rest.take (t.step c rest).ahead).length = (t.step c rest).ahead := by
      rw [List.length_take, hahead, Nat.zero_add, Nat.min_eq_left hk]
    rw [hu, feed_cons]
    simp only [List.length_cons, List.drop_succ_cons, hlength]

theorem turns_cons (t : Tokenizer) (c : Char) (rest : List Char) :
    t.turns (c :: rest) = t.turn c rest
      :: (t.turn c rest).now.turns ((c :: rest).drop (t.turn c rest).read.length) := by
  rw [turns]

theorem turns_read (t : Tokenizer) (cs : List Char) : (t.turns cs).flatMap (·.read) = cs := by
  induction t, cs using turns.induct with
  | case1 t => simp [turns]
  | case2 t c rest ih =>
    obtain ⟨more, hmore⟩ := (turn_reads t c rest).1
    rw [turns_cons, List.flatMap_cons, ih, ← hmore, List.drop_left]

theorem turns_position {before after : List Turn} {u : Turn}
    (h : t.turns cs = before ++ u :: after) :
    u.now.position = t.position.after ((before ++ [u]).flatMap (·.read)) := by
  induction t, cs using turns.induct generalizing before with
  | case1 t => simp [turns] at h
  | case2 t c rest ih =>
    rw [turns_cons] at h
    have hposition := (turn_reads t c rest).2
    cases before with
    | nil =>
      obtain ⟨rfl, -⟩ := List.cons.inj h
      simpa using hposition
    | cons v' before =>
      obtain ⟨rfl, hrest⟩ := List.cons.inj h
      rw [ih hrest, hposition]
      simp [Position.after_append]

theorem feed_eq_turns (t : Tokenizer) (cs : List Char) :
    t.feed cs = ((t.turns cs).flatMap (·.emitted), t.behindTurns (t.turns cs)) := by
  induction t, cs using turns.induct with
  | case1 t => simp [turns, behindTurns]
  | case2 t c rest ih =>
    rw [turns_cons, feed_turn, ih, behindTurns, List.flatMap_cons]

private theorem length_turns_add (t : Tokenizer) (hcs : cs ≠ []) :
    (t.turns cs).length + 2 ≤ 3 * cs.length + t.state.rank := by
  induction t, cs using turns.induct with
  | case1 t => exact absurd rfl hcs
  | case2 t c rest ih =>
    rw [turns_cons, List.length_cons]
    have hrank := rank_le (t.turn c rest).now.state
    have hlt := turn_lt t c rest
    generalize (t.turn c rest).now = t' at *
    generalize hcs' : (c :: rest).drop (t.turn c rest).read.length = cs' at *
    rcases Prod.lex_def.mp hlt with hless | ⟨hsame, hlower⟩
    · by_cases hne : cs' = []
      · simp only [hne, turns, List.length_nil, List.length_cons]
        omega
      · have hrest := ih hne
        omega
    · have hrest := ih (List.ne_nil_of_length_pos (by simp at hsame; omega))
      omega

theorem length_turns_le (t : Tokenizer) (cs : List Char) : (t.turns cs).length ≤ 3 * cs.length := by
  by_cases hne : cs = []
  · simp [hne, turns]
  · have hturns := length_turns_add t hne
    have hrank := rank_le t.state
    omega

end

end Tokenizer

end HtmlTemplate.Html
