import HtmlTemplate.Proofs.Agreement
import HtmlTemplate.Proofs.Endings

/-! No reader looks past the end of the input. Whatever is put behind it, the same is read, up to
the same token, and the end of the input is still to come. -/

namespace HtmlTemplate.Mustache

variable {α β γ : Type} {ts ts' more : List Token} {t : Token}

/-- The same is read and the same is left, with the end of the input and then what is behind it. -/
def Parsed.Alike (more : List Token) (a : Parsed ts α) (b : Parsed ts' α) : Prop :=
  b.value = a.value ∧ b.rest = a.rest ++ more ∧ Ended a.rest

def ParsedAny.Alike (more : List Token) (a : ParsedAny ts α) (b : ParsedAny ts' α) : Prop :=
  b.value = a.value ∧ b.rest = a.rest ++ more ∧ Ended a.rest

theorem Parsed.bind_alike {x : Except ParseError (Parsed ts α)}
    {y : Except ParseError (Parsed ts' α)} {f : Parsed ts α → Except ParseError β}
    {g : Parsed ts' α → Except ParseError γ} {R : β → γ → Prop}
    (h : Agree (Parsed.Alike more) x y)
    (hfg : ∀ value rest hx hy, Ended rest →
      Agree R (f ⟨value, rest, hx⟩) (g ⟨value, rest ++ more, hy⟩)) :
    Agree R (x >>= f) (y >>= g) := by
  refine h.bind fun {a b} _ _ hab => ?_
  obtain ⟨value, rest, hx⟩ := a
  obtain ⟨value', rest', hy⟩ := b
  obtain ⟨hvalue, hrest, hended⟩ := hab
  dsimp only at hvalue hrest
  subst hvalue hrest
  exact hfg _ _ _ _ hended

theorem ParsedAny.bind_alike {x : Except ParseError (ParsedAny ts α)}
    {y : Except ParseError (ParsedAny ts' α)} {f : ParsedAny ts α → Except ParseError β}
    {g : ParsedAny ts' α → Except ParseError γ} {R : β → γ → Prop}
    (h : Agree (ParsedAny.Alike more) x y)
    (hfg : ∀ value rest hx hy, Ended rest →
      Agree R (f ⟨value, rest, hx⟩) (g ⟨value, rest ++ more, hy⟩)) :
    Agree R (x >>= f) (y >>= g) := by
  refine h.bind fun {a b} _ _ hab => ?_
  obtain ⟨value, rest, hx⟩ := a
  obtain ⟨value', rest', hy⟩ := b
  obtain ⟨hvalue, hrest, hended⟩ := hab
  dsimp only at hvalue hrest
  subst hvalue hrest
  exact hfg _ _ _ _ hended

theorem peek_append (h : Ended ts) (more : List Token) : peek (ts ++ more) = peek ts := by
  cases h <;> rfl

private theorem startsPair_append (h : Ended ts) (more : List Token) :
    startsPair (ts ++ more) = startsPair ts := by
  cases h with
  | @last t ht =>
    cases more with
    | nil => rfl
    | cons eq more => simp only [List.cons_append, List.nil_append, startsPair, ht]
  | cons _ hts => cases hts <;> rfl

theorem endsParams_append (h : Ended ts) (more : List Token) :
    endsParams (ts ++ more) = endsParams ts := by
  simp only [endsParams, peek_append h, startsPair_append h]

theorem endsBody_append (h : Ended ts) (more : List Token) :
    endsBody (ts ++ more) = endsBody ts := by
  simp only [endsBody, peek_append h]

theorem agree_unexpected {R : α → β → Prop} (h : Ended ts) (what : String) (more : List Token) :
    Agree R (unexpected what ts : Except ParseError α)
      (unexpected what (ts ++ more) : Except ParseError β) := by
  unfold unexpected
  rw [peek_append h]
  exact .error _

theorem expect_alike {s : Symbol} (hs : s ≠ .endOfInput) (h : Ended ts) (more : List Token) :
    Agree (Parsed.Alike more) (expect s ts) (expect s (ts ++ more)) := by
  cases h with
  | @last t ht =>
    have hne : t.symbol ≠ s := fun heq => hs (heq.symm.trans ht)
    simp only [List.cons_append, expect, hne, ↓reduceIte]
    exact agree_unexpected (.last ht) _ more
  | @cons t ts ht hts =>
    simp only [List.cons_append, expect]
    split
    · exact .ok ⟨rfl, rfl, hts⟩
    · exact agree_unexpected (.cons ht hts) _ more

theorem segments_alike (p : Path) (h : Ended ts) (more : List Token) :
    Agree (ParsedAny.Alike more) (segments p ts) (segments p (ts ++ more)) := by
  fun_induction segments p ts with
  | case1 p sep name ts slash text bracketed hname hsep joined =>
    rename_i ih
    have hrest := (h.tail (by simp [hsep])).tail (by simp [hname])
    simp only [List.cons_append, segments, hsep, hname]
    refine (Agree.refl _).bind fun _ _ hextended => ?_
    subst hextended
    exact ParsedAny.bind_alike (ih _ hrest) fun _ _ _ _ hended => .ok ⟨rfl, rfl, hended⟩
  | case2 p sep name ts hother =>
    simp only [List.cons_append, segments]
    exact .ok ⟨rfl, rfl, h⟩
  | case3 p ts hshort =>
    cases h with
    | last ht =>
      cases more with
      | nil => exact .ok ⟨rfl, rfl, .last ht⟩
      | cons name more =>
        simp only [List.cons_append, List.nil_append, segments, ht]
        exact .ok ⟨rfl, rfl, .last ht⟩
    | cons _ hts => cases hts <;> exact absurd rfl (hshort _ _ _)

private theorem namePath_alike (t : Token) (text : List Char) (bracketed : Bool) (h : Ended ts)
    (more : List Token) :
    Agree (ParsedAny.Alike more) (namePath t text bracketed ts)
      (namePath t text bracketed (ts ++ more)) := by
  unfold namePath
  refine (Agree.refl _).bind fun _ _ hextended => ?_
  subst hextended
  exact ParsedAny.bind_alike (segments_alike _ h more) fun _ _ _ _ hended =>
    .ok ⟨rfl, rfl, hended⟩

private theorem pathFrom_alike (p : Path) (h : Ended ts) (more : List Token) :
    Agree (ParsedAny.Alike more) (pathFrom p ts) (pathFrom p (ts ++ more)) := by
  cases h with
  | last ht =>
    simp only [List.cons_append, List.nil_append, pathFrom, ht]
    exact .ok ⟨rfl, rfl, .last ht⟩
  | cons ht hts =>
    simp only [List.cons_append, pathFrom]
    split
    · refine (Agree.refl _).bind fun _ _ hextended => ?_
      subst hextended
      exact ParsedAny.bind_alike (segments_alike _ hts more) fun _ _ _ _ hended =>
        .ok ⟨rfl, rfl, hended⟩
    · exact .ok ⟨rfl, rfl, .cons ht hts⟩

-- The recursion is that of the readers: each leaves the end of the input for the next one to find.
mutual

theorem expression_alike : (ts : List Token) → Ended ts → (more : List Token) →
    Agree (Parsed.Alike more) (expression ts) (expression (ts ++ more))
  | [], h, _ => absurd rfl h.ne_nil
  | t :: ts, h, more => by
    rw [List.cons_append, expression, expression]
    split
    · rename_i hsymbol
      have hts := h.tail (by simp [hsymbol])
      refine Parsed.bind_alike (call_alike ts hts more) fun _ _ _ _ hended => ?_
      exact Parsed.bind_alike (expect_alike (by simp) hended more) fun _ _ _ _ hended =>
        .ok ⟨rfl, rfl, hended⟩
    · rename_i hsymbol
      have hts := h.tail (by simp [hsymbol])
      exact ParsedAny.bind_alike (namePath_alike t _ _ hts more) fun _ _ _ _ hended =>
        .ok ⟨rfl, rfl, hended⟩
    · rename_i hsymbol
      have hts := h.tail (by simp [hsymbol])
      exact ParsedAny.bind_alike (pathFrom_alike _ hts more) fun _ _ _ _ hended =>
        .ok ⟨rfl, rfl, hended⟩
    · rename_i hsymbol
      exact .ok ⟨rfl, rfl, h.tail (by simp [hsymbol])⟩
    · exact agree_unexpected h _ more
termination_by ts => (ts.length, 0)

theorem call_alike : (ts : List Token) → Ended ts → (more : List Token) →
    Agree (Parsed.Alike more) (call ts) (call (ts ++ more))
  | ts, h, more => by
    rw [call, call]
    refine Parsed.bind_alike (expression_alike ts h more) fun _ rest hrest _ hended => ?_
    refine ParsedAny.bind_alike (params_alike rest hended more) fun _ rest' hrest' _ hended => ?_
    have hshorter := Nat.lt_of_le_of_lt hrest' hrest
    exact ParsedAny.bind_alike (pairs_alike rest' hended more) fun _ _ _ _ hended =>
      .ok ⟨rfl, rfl, hended⟩
termination_by ts => (ts.length, 1)

theorem params_alike : (ts : List Token) → Ended ts → (more : List Token) →
    Agree (ParsedAny.Alike more) (params ts) (params (ts ++ more))
  | ts, h, more => by
    rw [params, params, endsParams_append h]
    split
    · exact .ok ⟨rfl, rfl, h⟩
    · refine Parsed.bind_alike (expression_alike ts h more) fun _ rest hrest _ hended => ?_
      exact ParsedAny.bind_alike (params_alike rest hended more) fun _ _ _ _ hended =>
        .ok ⟨rfl, rfl, hended⟩
termination_by ts => (ts.length, 1)

theorem pairs_alike : (ts : List Token) → Ended ts → (more : List Token) →
    Agree (ParsedAny.Alike more) (pairs ts) (pairs (ts ++ more))
  | [], h, _ => absurd rfl h.ne_nil
  | [t], h, more => by
    have ht : t.symbol = .endOfInput := by
      cases h with
      | last ht => exact ht
      | cons _ hts => exact absurd rfl hts.ne_nil
    rw [pairs.eq_def, pairs.eq_def]
    cases more with
    | nil => exact .ok ⟨rfl, rfl, h⟩
    | cons eq more =>
      simp only [List.cons_append, List.nil_append, ht]
      exact .ok ⟨rfl, rfl, h⟩
  | key :: eq :: ts, h, more => by
    rw [List.cons_append, List.cons_append, pairs.eq_def, pairs.eq_def]
    dsimp only
    split
    · rename_i hkey heq
      have hts := (h.tail (by simp [hkey])).tail (by simp [heq])
      refine Parsed.bind_alike (expression_alike ts hts more) fun _ rest hrest _ hended => ?_
      have hshorter : rest.length < (key :: eq :: ts).length :=
        Nat.lt_of_lt_of_le hrest (by simp only [List.length_cons]; omega)
      exact ParsedAny.bind_alike (pairs_alike rest hended more) fun _ _ _ _ hended =>
        .ok ⟨rfl, rfl, hended⟩
    · exact .ok ⟨rfl, rfl, h⟩
termination_by ts => (ts.length, 0)

end

private theorem names_alike (h : Ended ts) (more : List Token) :
    ParsedAny.Alike more (names ts) (names (ts ++ more)) := by
  induction h with
  | last ht =>
    simp only [List.cons_append, List.nil_append, names, ht]
    exact ⟨rfl, rfl, .last ht⟩
  | @cons t ts ht hts ih =>
    obtain ⟨hvalue, hrest, hended⟩ := ih
    simp only [List.cons_append, names]
    split
    · exact ⟨congrArg _ hvalue, hrest, hended⟩
    · exact ⟨rfl, rfl, .cons ht hts⟩

private theorem blockParams_alike (h : Ended ts) (more : List Token) :
    Agree (ParsedAny.Alike more) (blockParams ts) (blockParams (ts ++ more)) := by
  cases h with
  | last ht =>
    simp only [List.cons_append, List.nil_append, blockParams, ht, reduceCtorEq, ↓reduceIte]
    exact .ok ⟨rfl, rfl, .last ht⟩
  | @cons t ts ht hts =>
    simp only [List.cons_append, blockParams]
    have hnames := names_alike hts more
    split
    · generalize names ts = a, names (ts ++ more) = b at hnames
      obtain ⟨value, rest, ha⟩ := a
      obtain ⟨value', rest', hb⟩ := b
      obtain ⟨hvalue, hrest, hended⟩ := hnames
      dsimp only at hvalue hrest hended
      subst hvalue hrest
      dsimp only
      split
      · exact (agree_unexpected (R := fun _ _ => False) hended _ more).bind fun _ _ h => h.elim
      · exact Parsed.bind_alike (expect_alike (by simp) hended more) fun _ _ _ _ hended =>
          .ok ⟨rfl, rfl, hended⟩
    · exact .ok ⟨rfl, rfl, .cons ht hts⟩

theorem head_alike (t : Token) (h : Ended ts) (more : List Token) :
    Agree (Parsed.Alike more) (head t ts) (head t (ts ++ more)) := by
  unfold head
  refine Parsed.bind_alike (call_alike ts h more) fun _ rest hrest _ hended => ?_
  refine ParsedAny.bind_alike (blockParams_alike hended more) fun _ rest hrest _ hended => ?_
  exact Parsed.bind_alike (expect_alike (by simp) hended more) fun _ _ _ _ hended =>
    .ok ⟨rfl, rfl, hended⟩

private theorem closer_alike (opened : Head) (h : Ended ts) (more : List Token) :
    Agree (Parsed.Alike more) (closer opened ts) (closer opened (ts ++ more)) := by
  cases h with
  | last ht =>
    simp only [List.cons_append, List.nil_append, closer, ht]
    exact .error _
  | @cons t ts ht hts =>
    simp only [List.cons_append, closer]
    split
    · exact .error _
    · refine Parsed.bind_alike (expression_alike ts hts more) fun callee rest _ _ hended => ?_
      refine Parsed.bind_alike (expect_alike (by simp) hended more) fun _ _ _ _ hended => ?_
      dsimp only
      split
      · exact .error _
      · exact .ok ⟨rfl, rfl, hended⟩

private theorem interpolation_alike (t : Token) (h : Ended ts) (more : List Token) :
    Agree (Parsed.Alike more) (interpolation t ts) (interpolation t (ts ++ more)) := by
  unfold interpolation
  refine Parsed.bind_alike (call_alike ts h more) fun _ rest _ _ hended => ?_
  refine Parsed.bind_alike (expect_alike ?_ hended more) fun _ _ _ _ hended =>
    .ok ⟨rfl, rfl, hended⟩
  split <;> simp

private theorem partialCall_alike (t : Token) (h : Ended ts) (more : List Token) :
    Agree (Parsed.Alike more) (partialCall t ts) (partialCall t (ts ++ more)) := by
  unfold partialCall
  refine Parsed.bind_alike (call_alike ts h more) fun _ rest _ _ hended => ?_
  exact Parsed.bind_alike (expect_alike (by simp) hended more) fun _ _ _ _ hended =>
    .ok ⟨rfl, rfl, hended⟩

mutual

theorem statements_alike : (ts : List Token) → Ended ts → (more : List Token) →
    Agree (ParsedAny.Alike more) (statements ts) (statements (ts ++ more))
  | ts, h, more => by
    rw [statements, statements, endsBody_append h]
    split
    · exact .ok ⟨rfl, rfl, h⟩
    · refine Parsed.bind_alike (statement_alike ts h more) fun _ rest hrest _ hended => ?_
      exact ParsedAny.bind_alike (statements_alike rest hended more) fun _ _ _ _ hended =>
        .ok ⟨rfl, rfl, hended⟩
termination_by ts => (ts.length, 1)

theorem statement_alike : (ts : List Token) → Ended ts → (more : List Token) →
    Agree (Parsed.Alike more) (statement ts) (statement (ts ++ more))
  | [], h, _ => absurd rfl h.ne_nil
  | t :: ts, h, more => by
    rw [List.cons_append, statement, statement]
    split
    iterate 2
      rename_i hsymbol
      exact .ok ⟨rfl, rfl, h.tail (by simp [hsymbol])⟩
    iterate 4
      rename_i hsymbol
      have hts := h.tail (by simp [hsymbol])
      exact Parsed.bind_alike (interpolation_alike t hts more) fun _ _ _ _ hended =>
        .ok ⟨rfl, rfl, hended⟩
    · rename_i hsymbol
      have hts := h.tail (by simp [hsymbol])
      exact Parsed.bind_alike (partialCall_alike t hts more) fun _ _ _ _ hended =>
        .ok ⟨rfl, rfl, hended⟩
    iterate 2
      rename_i hsymbol
      have hts := h.tail (by simp [hsymbol])
      refine Parsed.bind_alike (head_alike t hts more) fun opened rest₁ h₁ _ hended => ?_
      have hshorter₁ : rest₁.length < (t :: ts).length := Nat.lt_trans h₁ (Nat.lt_succ_self _)
      refine ParsedAny.bind_alike (statements_alike rest₁ hended more)
        fun _ rest₂ h₂ _ hended => ?_
      have hshorter₂ := Nat.lt_of_le_of_lt h₂ hshorter₁
      refine ParsedAny.bind_alike (sections_alike _ rest₂ hended more)
        fun _ rest₃ _ _ hended => ?_
      exact Parsed.bind_alike (closer_alike opened hended more) fun _ _ _ _ hended =>
        .ok ⟨rfl, rfl, hended⟩
    · rename_i hsymbol
      have hts := h.tail (by simp [hsymbol])
      refine Parsed.bind_alike (head_alike t hts more) fun opened rest₁ h₁ _ hended => ?_
      have hshorter₁ : rest₁.length < (t :: ts).length := Nat.lt_trans h₁ (Nat.lt_succ_self _)
      refine ParsedAny.bind_alike (statements_alike rest₁ hended more)
        fun _ rest₂ h₂ _ hended => ?_
      have hshorter₂ := Nat.lt_of_le_of_lt h₂ hshorter₁
      refine ParsedAny.bind_alike (sections_alike _ rest₂ hended more)
        fun _ rest₃ _ _ hended => ?_
      refine Parsed.bind_alike (closer_alike opened hended more) fun _ _ _ _ hended => ?_
      dsimp only
      split
      · exact .error _
      · exact .ok ⟨rfl, rfl, hended⟩
    · rename_i hsymbol
      have hts := h.tail (by simp [hsymbol])
      refine Parsed.bind_alike (head_alike t hts more) fun opened rest₁ h₁ _ hended => ?_
      have hshorter₁ : rest₁.length < (t :: ts).length := Nat.lt_trans h₁ (Nat.lt_succ_self _)
      refine ParsedAny.bind_alike (statements_alike rest₁ hended more)
        fun _ rest₂ h₂ _ hended => ?_
      exact Parsed.bind_alike (closer_alike opened hended more) fun _ _ _ _ hended =>
        .ok ⟨rfl, rfl, hended⟩
    · exact agree_unexpected h _ more
termination_by ts => (ts.length, 0)

theorem sections_alike (inverted : Bool) : (ts : List Token) → Ended ts → (more : List Token) →
    Agree (ParsedAny.Alike more) (sections inverted ts) (sections inverted (ts ++ more))
  | [], h, _ => absurd rfl h.ne_nil
  | t :: ts, h, more => by
    rw [List.cons_append, sections, sections]
    split
    · rename_i hsymbol
      have hts := h.tail (by simp [hsymbol])
      split
      · exact .error _
      refine Parsed.bind_alike (head_alike t hts more) fun _ rest₁ h₁ _ hended => ?_
      have hshorter₁ : rest₁.length < (t :: ts).length := Nat.lt_trans h₁ (Nat.lt_succ_self _)
      refine ParsedAny.bind_alike (statements_alike rest₁ hended more)
        fun _ rest₂ h₂ _ hended => ?_
      have hshorter₂ := Nat.lt_of_le_of_lt h₂ hshorter₁
      exact ParsedAny.bind_alike (sections_alike inverted rest₂ hended more)
        fun _ _ _ _ hended => .ok ⟨rfl, rfl, hended⟩
    · rename_i hsymbol
      have hts := h.tail (by simp [hsymbol])
      exact ParsedAny.bind_alike (statements_alike ts hts more) fun _ _ _ _ hended =>
        .ok ⟨rfl, rfl, hended⟩
    · exact .ok ⟨rfl, rfl, h⟩
termination_by ts => (ts.length, 0)

end

theorem ofTokens_append (h : Ended ts) (more : List Token) :
    Program.ofTokens (ts ++ more) = Program.ofTokens ts := by
  refine (Agree.eq ?_).symm
  unfold Program.ofTokens
  refine ParsedAny.bind_alike (statements_alike ts h more) fun _ rest _ _ hended => ?_
  dsimp only [unexpected]
  rw [peek_append hended]
  exact .refl _

end HtmlTemplate.Mustache
