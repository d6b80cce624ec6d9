import HtmlTemplate.Proofs.Moment

/-! How the tokens of a template are read, by rules: each is one way through a reader, with the
tokens that it starts from and those that it leaves. The readers give what the rules derive and
nothing else, so that what holds of all trees that are read goes by induction on the rules. -/

namespace HtmlTemplate.Mustache

section

variable {α : Type} {ts : List Token}

/-- What a reader gives, with whatever proof. -/
def Gives (r : Except ParseError (Parsed ts α)) (value : α) (rest : List Token) : Prop :=
  ∃ h, r = .ok ⟨value, rest, h⟩

/-- The same of a reader that may use no tokens. -/
def GivesAny (r : Except ParseError (ParsedAny ts α)) (value : α) (rest : List Token) : Prop :=
  ∃ h, r = .ok ⟨value, rest, h⟩

end

mutual

/-- An expression is read from the first of some tokens, and the others are left. -/
inductive Expression.Read : List Token → Expression → List Token → Prop
  | call {opening closing : Token} {ts rest : List Token} {c : Call Expression}
    (hopening : opening.symbol = .openCall) (hcall : Call.Read ts c (closing :: rest))
    (hclosing : closing.symbol = .closeCall) :
    Expression.Read (opening :: ts) (.call c ⟨opening.loc.start, closing.loc.stop⟩) rest
  | name {t : Token} {ts rest : List Token} {text : List Char} {bracketed : Bool} {e : Expression}
    {h : rest.length ≤ ts.length} (hsymbol : t.symbol = .name text bracketed)
    (hpath : namePath t text bracketed ts = .ok ⟨e, rest, h⟩) : Expression.Read (t :: ts) e rest
  | data {t : Token} {ts rest : List Token} {e : Expression} {h : rest.length ≤ ts.length}
    (hsymbol : t.symbol = .data)
    (hpath : pathFrom ⟨true, 0, [], ['@'], t.loc⟩ ts = .ok ⟨e, rest, h⟩) :
    Expression.Read (t :: ts) e rest
  | literal {t : Token} {ts : List Token} {l : Literal} (hsymbol : t.symbol = .literal l) :
    Expression.Read (t :: ts) (.literal l t.loc) ts

inductive Call.Read : List Token → Call Expression → List Token → Prop
  | intro {ts rest₁ rest₂ rest : List Token} {callee : Expression} {params : List Expression}
    {pairs : List (Pair Expression)} (hcallee : Expression.Read ts callee rest₁)
    (hparams : paramsRead rest₁ params rest₂) (hpairs : pairsRead rest₂ pairs rest) :
    Call.Read ts ⟨callee, params, Hash.ofPairs? pairs⟩ rest

inductive paramsRead : List Token → List Expression → List Token → Prop
  | nil {ts : List Token} (hends : endsParams ts = true) : paramsRead ts [] ts
  | cons {ts rest₁ rest : List Token} {e : Expression} {es : List Expression}
    (hmore : endsParams ts = false) (he : Expression.Read ts e rest₁)
    (hes : paramsRead rest₁ es rest) : paramsRead ts (e :: es) rest

inductive pairsRead : List Token → List (Pair Expression) → List Token → Prop
  | nil {ts : List Token} (hends : startsPair ts = false) : pairsRead ts [] ts
  | cons {key eq : Token} {ts rest₁ rest : List Token} {text : List Char} {bracketed : Bool}
    {value : Expression} {pairs : List (Pair Expression)} (hkey : key.symbol = .name text bracketed)
    (heq : eq.symbol = .equals) (hvalue : Expression.Read ts value rest₁)
    (hpairs : pairsRead rest₁ pairs rest) :
    pairsRead (key :: eq :: ts) (⟨text, value, ⟨key.loc.start, value.loc.stop⟩⟩ :: pairs) rest

end

theorem Hash.ofPairs?_eq_none {pairs : List (Pair Expression)} (h : ofPairs? pairs = none) :
    pairs = [] := by
  cases pairs with
  | nil => rfl
  | cons pair pairs => simp [ofPairs?, List.getLast?_cons] at h

/-- A hash goes from the first to the last of its pairs. -/
theorem Hash.ofPairs?_eq_some {pairs : List (Pair Expression)} {hash : Hash Expression}
    (h : ofPairs? pairs = some hash) :
    ∃ first last, pairs.head? = some first ∧ pairs.getLast? = some last
      ∧ hash = ⟨pairs, ⟨first.loc.start, last.loc.stop⟩⟩ := by
  unfold ofPairs? at h
  split at h
  · rename_i first last hfirst hlast
    exact ⟨first, last, hfirst, hlast, (Option.some.inj h).symm⟩
  · cases h

/-- A tag with just a call between its braces: its markers, its place and what it leaves. -/
inductive CallTag (opening : Token) (ending : Symbol) :
    List Token → Call Expression → Strip → Location → List Token → Prop
  | intro {closing : Token} {ts rest : List Token} {c : Call Expression}
    (hcall : Call.Read ts c (closing :: rest)) (hclosing : closing.symbol = ending) :
    CallTag opening ending ts c (tagStrip opening closing) ⟨opening.loc.start, closing.loc.stop⟩
      rest

/-- The head of a block or section is read after its opening token. -/
inductive Head.Read (opening : Token) : List Token → Head → List Token → Prop
  | intro {closing : Token} {ts mid rest : List Token} {c : Call Expression}
    {params : List (List Char)} {h : (closing :: rest).length ≤ mid.length}
    (hcall : Call.Read ts c mid) (hparams : blockParams mid = .ok ⟨params, closing :: rest, h⟩)
    (hclosing : closing.symbol = .close) :
    Head.Read opening ts ⟨c, params, tagStrip opening closing, opening.loc.start⟩ rest

inductive Closer.Read (opened : Head) : List Token → Closer → List Token → Prop
  | intro {opening closing : Token} {ts rest : List Token} {name : Expression}
    (hopening : opening.symbol = .opener .endBlock)
    (hname : Expression.Read ts name (closing :: rest)) (hclosing : closing.symbol = .close)
    (hsame : name.written = opened.call.callee.written) :
    Closer.Read opened (opening :: ts)
      ⟨tagStrip opening closing, opening.loc.start, closing.loc.stop⟩ rest

/-- What a mustache ends with. -/
def Opener.ending : Opener → Symbol
  | .raw => .closeRaw
  | _ => .close

theorem Opener.ending_eq (o : Opener) : o.ending = .close ∨ o.ending = .closeRaw := by
  cases o <;> first | exact .inl rfl | exact .inr rfl

/-- Whether a mustache begins so whose value is printed. -/
def Opener.prints : Opener → Bool
  | .escaped | .raw | .ampersand => true
  | _ => false

theorem Opener.prints_iff {o : Opener} :
    o.prints = true ↔ o = .escaped ∨ o = .raw ∨ o = .ampersand := by
  cases o <;> simp [prints]

mutual

inductive bodyRead : List Token → List Statement → List Token → Prop
  | nil {ts : List Token} (hends : endsBody ts = true) : bodyRead ts [] ts
  | cons {ts rest₁ rest : List Token} {s : Statement} {ss : List Statement}
    (hmore : endsBody ts = false) (hs : Statement.Read ts s rest₁) (hss : bodyRead rest₁ ss rest) :
    bodyRead ts (s :: ss) rest

/-- A statement is read from the first of some tokens, and the others are left. -/
inductive Statement.Read : List Token → Statement → List Token → Prop
  | content {t : Token} {ts : List Token} {text : List Char} (hsymbol : t.symbol = .content text) :
    Statement.Read (t :: ts) (.content { value := text, written := text, loc := t.loc }) ts
  | comment {t : Token} {ts : List Token} {text : List Char} (hsymbol : t.symbol = .comment text) :
    Statement.Read (t :: ts) (.comment ⟨commentValue text, commentStrip text, t.loc⟩) ts
  | mustache {t : Token} {ts rest : List Token} {o : Opener} {c : Call Expression} {strip : Strip}
    {loc : Location} (hsymbol : t.symbol = .opener o) (hprints : o.prints = true)
    (htag : CallTag t o.ending ts c strip loc rest) :
    Statement.Read (t :: ts) (.mustache ⟨c, o != .raw && o != .ampersand, strip, loc⟩) rest
  | decorator {t : Token} {ts rest : List Token} {c : Call Expression} {strip : Strip}
    {loc : Location} (hsymbol : t.symbol = .opener .decorator)
    (htag : CallTag t .close ts c strip loc rest) :
    Statement.Read (t :: ts) (.decorator ⟨c, true, strip, loc⟩) rest
  | partialCall {t : Token} {ts rest : List Token} {c : Call Expression} {strip : Strip}
    {loc : Location} (hsymbol : t.symbol = .opener .partialCall)
    (htag : CallTag t .close ts c strip loc rest) :
    Statement.Read (t :: ts) (.partialCall ⟨c, [], strip, loc⟩) rest
  | block {t : Token} {ts rest₁ rest₂ rest₃ rest : List Token} (inverted : Bool) {head : Head}
    {first : List Statement} {more : Sections} {closer : Closer}
    (hsymbol : t.symbol = .opener (if inverted then .inverse else .block))
    (hhead : Head.Read t ts head rest₁) (hfirst : bodyRead rest₁ first rest₂)
    (hmore : Sections.Read inverted rest₂ more rest₃)
    (hcloser : Closer.Read head rest₃ closer rest) :
    Statement.Read (t :: ts) (.block (.ofSections head inverted first more closer)) rest
  | decoratorBlock {t : Token} {ts rest₁ rest₂ rest : List Token} {head : Head}
    {first : List Statement} {closer : Closer} (hsymbol : t.symbol = .opener .decoratorBlock)
    (hhead : Head.Read t ts head rest₁) (hfirst : bodyRead rest₁ first rest₂)
    (hcloser : Closer.Read head rest₂ closer rest) :
    Statement.Read (t :: ts) (.decoratorBlock (.ofSections head false first {} closer)) rest
  | partialBlock {t : Token} {ts rest₁ rest₂ rest : List Token} {head : Head}
    {first : List Statement} {closer : Closer} (hsymbol : t.symbol = .opener .partialBlock)
    (hhead : Head.Read t ts head rest₁) (hfirst : bodyRead rest₁ first rest₂)
    (hcloser : Closer.Read head rest₂ closer rest) :
    Statement.Read (t :: ts) (.partialBlock ⟨head.call, ⟨first, [], false⟩, head.strip,
      closer.strip, ⟨head.start, closer.stop⟩⟩) rest

/-- The sections of a block after its first one; an inverse block has no `{{else if}}`. -/
inductive Sections.Read : Bool → List Token → Sections → List Token → Prop
  | nil {inverted : Bool} {ts : List Token} (helse : (peek ts).symbol ≠ .elseTag)
    (hchain : (peek ts).symbol ≠ .opener .elseChain) : Sections.Read inverted ts {} ts
  | chain {t : Token} {ts rest₁ rest₂ rest : List Token} {head : Head} {first : List Statement}
    {more : Sections} (hsymbol : t.symbol = .opener .elseChain) (hhead : Head.Read t ts head rest₁)
    (hfirst : bodyRead rest₁ first rest₂) (hmore : Sections.Read false rest₂ more rest) :
    Sections.Read false (t :: ts) { more with chain := (head, first) :: more.chain } rest
  | last {inverted : Bool} {t : Token} {ts rest : List Token} {body : List Statement}
    (hsymbol : t.symbol = .elseTag) (hbody : bodyRead ts body rest) :
    Sections.Read inverted (t :: ts) ⟨[], some (t.strip, body)⟩ rest

end

/-- A body is read statement by statement. -/
@[elab_as_elim, induction_eliminator]
theorem bodyRead.induct {motive : (ts : List Token) → (ss : List Statement) →
      (rest : List Token) → bodyRead ts ss rest → Prop}
    (nil : ∀ {ts} (hends : endsBody ts = true), motive ts [] ts (.nil hends))
    (cons : ∀ {ts rest₁ rest s ss} (hmore : endsBody ts = false)
      (hs : Statement.Read ts s rest₁) (hss : bodyRead rest₁ ss rest),
      motive rest₁ ss rest hss → motive ts (s :: ss) rest (.cons hmore hs hss))
    {ts : List Token} {ss : List Statement} {rest : List Token} :
    (h : bodyRead ts ss rest) → motive ts ss rest h
  | .nil hends => nil hends
  | .cons hmore hs hss => cons hmore hs hss (hss.induct nil cons)

@[elab_as_elim, induction_eliminator]
theorem Sections.Read.induct {motive : (inverted : Bool) → (ts : List Token) →
      (more : Sections) → (rest : List Token) → Sections.Read inverted ts more rest → Prop}
    (nil : ∀ {inverted ts} (helse : (peek ts).symbol ≠ .elseTag)
      (hchain : (peek ts).symbol ≠ .opener .elseChain),
      motive inverted ts {} ts (.nil helse hchain))
    (chain : ∀ {t ts rest₁ rest₂ rest head first more} (hsymbol : t.symbol = .opener .elseChain)
      (hhead : Head.Read t ts head rest₁) (hfirst : bodyRead rest₁ first rest₂)
      (hmore : Sections.Read false rest₂ more rest), motive false rest₂ more rest hmore →
      motive false (t :: ts) _ rest (.chain hsymbol hhead hfirst hmore))
    (last : ∀ {inverted t ts rest body} (hsymbol : t.symbol = .elseTag)
      (hbody : bodyRead ts body rest),
      motive inverted (t :: ts) _ rest (.last hsymbol hbody))
    {inverted : Bool} {ts : List Token} {more : Sections} {rest : List Token} :
    (h : Sections.Read inverted ts more rest) → motive inverted ts more rest h
  | .nil helse hchain => nil helse hchain
  | .chain hsymbol hhead hfirst hmore =>
    chain hsymbol hhead hfirst hmore (hmore.induct nil chain last)
  | .last hsymbol hbody => last hsymbol hbody

theorem expect_ok {s : Symbol} {ts : List Token} {r : Parsed ts Token}
    (h : expect s ts = .ok r) : ts = r.value :: r.rest ∧ r.value.symbol = s := by
  cases ts with
  | nil => cases h
  | cons t ts =>
    simp only [expect] at h
    split at h
    · rename_i hsymbol
      cases h
      exact ⟨rfl, hsymbol⟩
    · cases h

mutual

theorem expression_read : (ts : List Token) → {r : Parsed ts Expression} →
    expression ts = .ok r → Expression.Read ts r.value r.rest
  | [], _, h => by
    rw [expression] at h
    cases h
  | t :: ts, r, h => by
    rw [expression] at h
    split at h
    · rename_i hopening
      simp only [bind_eq_ok, pure_eq_ok] at h
      obtain ⟨c, hc, closing, hclosing, rfl⟩ := h
      obtain ⟨hrest, hclosing⟩ := expect_ok hclosing
      exact .call hopening (hrest ▸ call_read ts hc) hclosing
    · rename_i hsymbol
      simp only [bind_eq_ok, pure_eq_ok] at h
      obtain ⟨e, hpath, rfl⟩ := h
      exact .name hsymbol hpath
    · rename_i hsymbol
      simp only [bind_eq_ok, pure_eq_ok] at h
      obtain ⟨e, hpath, rfl⟩ := h
      exact .data hsymbol hpath
    · rename_i hsymbol
      cases h
      exact .literal hsymbol
    · cases h
termination_by ts => (ts.length, 0)

theorem call_read : (ts : List Token) → {r : Parsed ts (Call Expression)} →
    call ts = .ok r → Call.Read ts r.value r.rest
  | ts, r, h => by
    rw [call] at h
    simp only [bind_eq_ok, pure_eq_ok] at h
    obtain ⟨⟨callee, rest₁, h₁⟩, hcallee, ⟨es, rest₂, h₂⟩, hparams, ⟨ps, rest₃, h₃⟩, hpairs,
      rfl⟩ := h
    have h₂' : rest₂.length < ts.length := Nat.lt_of_le_of_lt h₂ h₁
    exact .intro (expression_read ts hcallee) (params_read rest₁ hparams) (pairs_read rest₂ hpairs)
termination_by ts => (ts.length, 1)

theorem params_read : (ts : List Token) → {r : ParsedAny ts (List Expression)} →
    params ts = .ok r → paramsRead ts r.value r.rest
  | ts, r, h => by
    rw [params] at h
    split at h
    · rename_i hends
      cases h
      exact .nil hends
    · rename_i hmore
      simp only [bind_eq_ok, pure_eq_ok] at h
      obtain ⟨⟨e, rest₁, h₁⟩, he, ⟨es, rest₂, h₂⟩, hes, rfl⟩ := h
      exact .cons (by simpa using hmore) (expression_read ts he) (params_read rest₁ hes)
termination_by ts => (ts.length, 1)

theorem pairs_read : (ts : List Token) → {r : ParsedAny ts (List (Pair Expression))} →
    pairs ts = .ok r → pairsRead ts r.value r.rest
  | [], r, h => by
    rw [pairs.eq_def] at h
    cases h
    exact .nil rfl
  | [t], r, h => by
    rw [pairs.eq_def] at h
    cases h
    exact .nil rfl
  | key :: eq :: ts, r, h => by
    rw [pairs.eq_def] at h
    dsimp only at h
    split at h
    · rename_i hkey heq
      simp only [bind_eq_ok, pure_eq_ok] at h
      obtain ⟨⟨value, rest₁, h₁⟩, hvalue, ⟨more, rest₂, h₂⟩, hmore, rfl⟩ := h
      have hshorter : rest₁.length < (key :: eq :: ts).length :=
        Nat.lt_of_lt_of_le h₁ (by simp only [List.length_cons]; omega)
      exact .cons hkey heq (expression_read ts hvalue) (pairs_read rest₁ hmore)
    · rename_i hpair
      cases h
      refine .nil ?_
      simp only [startsPair]
termination_by ts => (ts.length, 0)

end

variable {ts : List Token}

theorem interpolation_read {t : Token} {o : Opener} {r : Parsed ts Interpolation}
    (h : interpolation t ts = .ok r) (ht : t.symbol = .opener o) :
    ∃ c strip loc, CallTag t o.ending ts c strip loc r.rest
      ∧ r.value = ⟨c, o != .raw && o != .ampersand, strip, loc⟩ := by
  simp only [interpolation, bind_eq_ok, pure_eq_ok] at h
  obtain ⟨c, hcall, closing, hclosing, rfl⟩ := h
  obtain ⟨hrest, hclosing⟩ := expect_ok hclosing
  refine ⟨_, _, _, .intro (hrest ▸ call_read ts hcall) ?_, ?_⟩
  · rw [hclosing, ht]
    cases o <;> rfl
  · rw [ht]
    cases o <;> rfl

theorem partialCall_read {t : Token} {r : Parsed ts PartialCall} (h : partialCall t ts = .ok r) :
    ∃ c strip loc, CallTag t .close ts c strip loc r.rest ∧ r.value = ⟨c, [], strip, loc⟩ := by
  simp only [partialCall, bind_eq_ok, pure_eq_ok] at h
  obtain ⟨c, hcall, closing, hclosing, rfl⟩ := h
  obtain ⟨hrest, hclosing⟩ := expect_ok hclosing
  exact ⟨_, _, _, .intro (hrest ▸ call_read ts hcall) hclosing, rfl⟩

theorem head_read {t : Token} {r : Parsed ts Head} (h : head t ts = .ok r) :
    Head.Read t ts r.value r.rest := by
  simp only [head, bind_eq_ok, pure_eq_ok] at h
  obtain ⟨c, hcall, ⟨params, rest, hparamsRest⟩, hparams, closing, hclosing, rfl⟩ := h
  obtain ⟨hrest, hclosing⟩ := expect_ok hclosing
  dsimp only at hrest
  simp only [hrest] at hparams
  exact .intro (call_read ts hcall) hparams hclosing

theorem closer_read {opened : Head} {r : Parsed ts Closer} (h : closer opened ts = .ok r) :
    Closer.Read opened ts r.value r.rest := by
  cases ts with
  | nil => cases h
  | cons t ts =>
    simp only [closer] at h
    split at h
    · cases h
    rename_i hopening
    simp only [bind_eq_ok] at h
    obtain ⟨name, hname, closing, hclosing, h⟩ := h
    split at h
    · cases h
    rename_i hsame
    simp only [pure_eq_ok] at h
    subst h
    obtain ⟨hrest, hclosing⟩ := expect_ok hclosing
    exact .intro (Decidable.not_not.mp hopening) (hrest ▸ expression_read ts hname) hclosing
      (Decidable.not_not.mp hsame)

/-- A statement is read from one token at least. -/
theorem Statement.Read.exists_cons {s : Statement} {rest : List Token}
    (h : Statement.Read ts s rest) : ∃ t ts', ts = t :: ts' := by
  cases h <;> exact ⟨_, _, rfl⟩

theorem Sections.Read.eq_of_none {inverted : Bool} {rest : List Token}
    (h : Sections.Read inverted ts {} rest) : rest = ts := by
  cases h
  rfl

mutual

theorem statements_read : (ts : List Token) → {r : ParsedAny ts (List Statement)} →
    statements ts = .ok r → bodyRead ts r.value r.rest
  | ts, r, h => by
    rw [statements] at h
    split at h
    · rename_i hends
      cases h
      exact .nil hends
    · rename_i hmore
      simp only [bind_eq_ok, pure_eq_ok] at h
      obtain ⟨⟨s, rest₁, h₁⟩, hs, ⟨ss, rest₂, h₂⟩, hss, rfl⟩ := h
      exact .cons (by simpa using hmore) (statement_read ts hs) (statements_read rest₁ hss)
termination_by ts => (ts.length, 1)

theorem statement_read : (ts : List Token) → {r : Parsed ts Statement} →
    statement ts = .ok r → Statement.Read ts r.value r.rest
  | [], _, h => by
    rw [statement] at h
    cases h
  | t :: ts, r, h => by
    rw [statement] at h
    split at h
    · rename_i hsymbol
      cases h
      exact .content hsymbol
    · rename_i hsymbol
      cases h
      exact .comment hsymbol
    iterate 3
      rename_i hsymbol
      simp only [bind_eq_ok, pure_eq_ok] at h
      obtain ⟨m, hm, rfl⟩ := h
      obtain ⟨c, strip, loc, htag, hvalue⟩ := interpolation_read hm hsymbol
      exact hvalue ▸ .mustache hsymbol rfl htag
    · rename_i hsymbol
      simp only [bind_eq_ok, pure_eq_ok] at h
      obtain ⟨m, hm, rfl⟩ := h
      obtain ⟨c, strip, loc, htag, hvalue⟩ := interpolation_read hm hsymbol
      exact hvalue ▸ .decorator hsymbol htag
    · rename_i hsymbol
      simp only [bind_eq_ok, pure_eq_ok] at h
      obtain ⟨p, hp, rfl⟩ := h
      obtain ⟨c, strip, loc, htag, hvalue⟩ := partialCall_read hp
      exact hvalue ▸ .partialCall hsymbol htag
    iterate 2
      rename_i hsymbol
      simp only [bind_eq_ok, pure_eq_ok] at h
      obtain ⟨⟨head, rest₁, h₁⟩, hhead, ⟨first, rest₂, h₂⟩, hfirst, more, hmore, closer, hcloser,
        rfl⟩ := h
      have h₁' : rest₁.length < (t :: ts).length := Nat.lt_trans h₁ (Nat.lt_succ_self _)
      have h₂' : rest₂.length < (t :: ts).length := Nat.lt_of_le_of_lt h₂ h₁'
      exact .block _ (by simp [hsymbol]) (head_read hhead) (statements_read rest₁ hfirst)
        (sections_read _ rest₂ hmore) (closer_read hcloser)
    · rename_i hsymbol
      simp only [bind_eq_ok] at h
      obtain ⟨⟨head, rest₁, h₁⟩, hhead, ⟨first, rest₂, h₂⟩, hfirst, ⟨⟨chain, last⟩, rest₃, h₃⟩,
        hmore, closer, hcloser, h⟩ := h
      split at h
      · cases h
      rename_i hnone
      simp only [pure_eq_ok] at h
      subst h
      have h₁' : rest₁.length < (t :: ts).length := Nat.lt_trans h₁ (Nat.lt_succ_self _)
      have h₂' : rest₂.length < (t :: ts).length := Nat.lt_of_le_of_lt h₂ h₁'
      obtain ⟨rfl, rfl⟩ : last = none ∧ chain = [] := by simpa using hnone
      obtain rfl : rest₃ = rest₂ := (sections_read _ rest₂ hmore).eq_of_none
      exact .decoratorBlock hsymbol (head_read hhead) (statements_read rest₁ hfirst)
        (closer_read hcloser)
    · rename_i hsymbol
      simp only [bind_eq_ok, pure_eq_ok] at h
      obtain ⟨⟨head, rest₁, h₁⟩, hhead, first, hfirst, closer, hcloser, rfl⟩ := h
      have h₁' : rest₁.length < (t :: ts).length := Nat.lt_trans h₁ (Nat.lt_succ_self _)
      exact .partialBlock hsymbol (head_read hhead) (statements_read rest₁ hfirst)
        (closer_read hcloser)
    · cases h
termination_by ts => (ts.length, 0)

theorem sections_read (inverted : Bool) : (ts : List Token) → {r : ParsedAny ts Sections} →
    sections inverted ts = .ok r → Sections.Read inverted ts r.value r.rest
  | [], r, h => by
    rw [sections] at h
    cases h
    exact .nil (by simp [peek]) (by simp [peek])
  | t :: ts, r, h => by
    rw [sections] at h
    split at h
    · rename_i hsymbol
      split at h
      · simp [faultAt, bind_eq_ok] at h
      rename_i hinverted
      obtain rfl : inverted = false := by simpa using hinverted
      simp only [bind_eq_ok, pure_eq_ok] at h
      obtain ⟨⟨head, rest₁, h₁⟩, hhead, ⟨first, rest₂, h₂⟩, hfirst, more, hmore, rfl⟩ := h
      have h₁' : rest₁.length < (t :: ts).length := Nat.lt_trans h₁ (Nat.lt_succ_self _)
      have h₂' : rest₂.length < (t :: ts).length := Nat.lt_of_le_of_lt h₂ h₁'
      exact .chain hsymbol (head_read hhead) (statements_read rest₁ hfirst)
        (sections_read _ rest₂ hmore)
    · rename_i hsymbol
      simp only [bind_eq_ok, pure_eq_ok] at h
      obtain ⟨body, hbody, rfl⟩ := h
      exact .last hsymbol (statements_read ts hbody)
    · rename_i hchain hlast
      cases h
      exact .nil hlast hchain
termination_by ts => (ts.length, 0)

end

theorem parseWritten_read {text : List Char} {written : Program Statement}
    (h : parseWritten text = .ok written) :
    ∃ ts body rest, scan text = .ok ts ∧ bodyRead ts body rest
      ∧ (peek rest).symbol = .endOfInput ∧ written = ⟨body, [], false⟩ := by
  simp only [parseWritten, Program.ofTokens, bind_eq_ok] at h
  obtain ⟨ts, hscan, r, hstatements, h⟩ := h
  split at h
  · rename_i hend
    exact ⟨ts, r.value, r.rest, hscan, statements_read ts hstatements, hend,
      (pure_eq_ok.mp h).symm⟩
  all_goals cases h

theorem parse_read {text : List Char} {keepLines : Bool} {p : Program Statement}
    (h : parse text keepLines = .ok p) :
    ∃ ts body rest, scan text = .ok ts ∧ bodyRead ts body rest
      ∧ (peek rest).symbol = .endOfInput ∧ p = Program.control keepLines ⟨body, [], false⟩ := by
  simp only [parse, bind_eq_ok, pure_eq_ok] at h
  obtain ⟨written, hwritten, rfl⟩ := h
  obtain ⟨ts, body, rest, hscan, hbody, hend, rfl⟩ := parseWritten_read hwritten
  exact ⟨ts, body, rest, hscan, hbody, hend, rfl⟩

theorem expect_of_symbol {s : Symbol} {t : Token} (h : t.symbol = s) :
    expect s (t :: ts) = .ok (readOne t t ts) :=
  if_pos h

mutual

theorem Expression.Read.gives {e : Expression} {ts rest : List Token} :
    Expression.Read ts e rest → Gives (expression ts) e rest
  | .call hopening hcall hclosing => by
    obtain ⟨_, hcall⟩ := hcall.gives
    rw [expression]
    simp only [hopening, hcall, bind, Except.bind, expect_of_symbol hclosing]
    exact ⟨_, rfl⟩
  | .name hsymbol hpath => by
    rw [expression]
    simp only [hsymbol, hpath, bind, Except.bind]
    exact ⟨_, rfl⟩
  | .data hsymbol hpath => by
    rw [expression]
    simp only [hsymbol, hpath, bind, Except.bind]
    exact ⟨_, rfl⟩
  | .literal hsymbol => by
    rw [expression]
    simp only [hsymbol]
    exact ⟨_, rfl⟩

theorem Call.Read.gives {c : Call Expression} {ts rest : List Token} :
    Call.Read ts c rest → Gives (call ts) c rest
  | .intro hcallee hparams hpairs => by
    obtain ⟨_, hcallee⟩ := hcallee.gives
    obtain ⟨_, hparams⟩ := hparams.gives
    obtain ⟨_, hpairs⟩ := hpairs.gives
    rw [call]
    simp only [hcallee, hparams, hpairs, bind, Except.bind]
    exact ⟨_, rfl⟩

theorem paramsRead.gives {es : List Expression} {ts rest : List Token} :
    paramsRead ts es rest → GivesAny (params ts) es rest
  | .nil hends => by
    rw [params, if_pos hends]
    exact ⟨_, rfl⟩
  | .cons hmore he hes => by
    obtain ⟨_, he⟩ := he.gives
    obtain ⟨_, hes⟩ := hes.gives
    rw [params]
    simp only [hmore, he, hes, bind, Except.bind]
    exact ⟨_, rfl⟩

theorem pairsRead.gives {ps : List (Pair Expression)} {ts rest : List Token} :
    pairsRead ts ps rest → GivesAny (pairs ts) ps rest
  | .nil hends => by
    rw [pairs.eq_def]
    split
    · simp only [startsPair] at hends
      split
      · simp [*] at hends
      · exact ⟨_, rfl⟩
    · exact ⟨_, rfl⟩
  | .cons hkey heq hvalue hpairs => by
    obtain ⟨_, hvalue⟩ := hvalue.gives
    obtain ⟨_, hpairs⟩ := hpairs.gives
    rw [pairs.eq_def]
    simp only [hkey, heq, hvalue, hpairs, bind, Except.bind]
    exact ⟨_, rfl⟩

end

theorem CallTag.interpolation_gives {t : Token} {o : Opener} {c : Call Expression} {strip : Strip}
    {loc : Location} {rest : List Token} (h : CallTag t o.ending ts c strip loc rest)
    (ht : t.symbol = .opener o) :
    Gives (interpolation t ts) ⟨c, o != .raw && o != .ampersand, strip, loc⟩ rest := by
  obtain ⟨hcall, hclosing⟩ := h
  obtain ⟨_, hcall⟩ := hcall.gives
  have hending :
      (if Symbol.opener o = .opener .raw then Symbol.closeRaw else .close) = o.ending := by
    cases o <;> rfl
  have hescaped : (decide (Symbol.opener o ≠ .opener .raw)
      && decide (Symbol.opener o ≠ .opener .ampersand)) = (o != .raw && o != .ampersand) := by
    cases o <;> rfl
  simp only [interpolation, hcall, bind, Except.bind, ht, hending, hescaped,
    expect_of_symbol hclosing]
  exact ⟨_, rfl⟩

theorem CallTag.partialCall_gives {t : Token} {c : Call Expression} {strip : Strip}
    {loc : Location} {rest : List Token} (h : CallTag t .close ts c strip loc rest) :
    Gives (partialCall t ts) ⟨c, [], strip, loc⟩ rest := by
  obtain ⟨hcall, hclosing⟩ := h
  obtain ⟨_, hcall⟩ := hcall.gives
  simp only [partialCall, hcall, bind, Except.bind, expect_of_symbol hclosing]
  exact ⟨_, rfl⟩

theorem Head.Read.gives {t : Token} {opened : Head} {rest : List Token}
    (h : Head.Read t ts opened rest) : Gives (head t ts) opened rest := by
  obtain ⟨hcall, hparams, hclosing⟩ := h
  obtain ⟨_, hcall⟩ := hcall.gives
  simp only [head, hcall, hparams, bind, Except.bind, expect_of_symbol hclosing]
  exact ⟨_, rfl⟩

theorem Closer.Read.gives {opened : Head} {closed : Closer} {rest : List Token}
    (h : Closer.Read opened ts closed rest) : Gives (closer opened ts) closed rest := by
  obtain ⟨hopening, hname, hclosing, hsame⟩ := h
  obtain ⟨_, hname⟩ := hname.gives
  simp only [closer, hopening, hname, hsame, bind, Except.bind, expect_of_symbol hclosing, ne_eq,
    not_true_eq_false, ↓reduceIte]
  exact ⟨_, rfl⟩

theorem sections_gives_none (inverted : Bool) (helse : (peek ts).symbol ≠ .elseTag)
    (hchain : (peek ts).symbol ≠ .opener .elseChain) : GivesAny (sections inverted ts) {} ts := by
  cases ts with
  | nil =>
    rw [sections]
    exact ⟨_, rfl⟩
  | cons t ts =>
    rw [sections]
    split
    · rename_i hsymbol
      exact absurd hsymbol hchain
    · rename_i hsymbol
      exact absurd hsymbol helse
    · exact ⟨_, rfl⟩

theorem Closer.Read.gives_none {opened : Head} {closed : Closer} {rest : List Token}
    (h : Closer.Read opened ts closed rest) (inverted : Bool) :
    GivesAny (sections inverted ts) {} ts := by
  obtain ⟨hopening, -⟩ := h
  exact sections_gives_none inverted (by simp [peek, hopening]) (by simp [peek, hopening])

mutual

theorem bodyRead.gives {ss : List Statement} {ts rest : List Token} :
    bodyRead ts ss rest → GivesAny (statements ts) ss rest
  | .nil hends => by
    rw [statements, if_pos hends]
    exact ⟨_, rfl⟩
  | .cons hmore hs hss => by
    obtain ⟨_, hs⟩ := hs.gives
    obtain ⟨_, hss⟩ := hss.gives
    rw [statements]
    simp only [hmore, hs, hss, bind, Except.bind]
    exact ⟨_, rfl⟩

theorem Statement.Read.gives {s : Statement} {ts rest : List Token} :
    Statement.Read ts s rest → Gives (statement ts) s rest
  | .content hsymbol => by
    rw [statement]
    simp only [hsymbol]
    exact ⟨_, rfl⟩
  | .comment hsymbol => by
    rw [statement]
    simp only [hsymbol]
    exact ⟨_, rfl⟩
  | @Statement.Read.mustache t _ _ o _ _ _ hsymbol hprints htag => by
    obtain ⟨_, htag⟩ := htag.interpolation_gives hsymbol
    rw [statement]
    cases o with
    | escaped | raw | ampersand =>
      simp only [hsymbol, htag, bind, Except.bind]
      exact ⟨_, rfl⟩
    | _ => cases hprints
  | .decorator hsymbol htag => by
    obtain ⟨_, htag⟩ := CallTag.interpolation_gives htag hsymbol
    rw [statement]
    simp only [hsymbol, htag, bind, Except.bind]
    exact ⟨_, rfl⟩
  | .partialCall hsymbol htag => by
    obtain ⟨_, htag⟩ := htag.partialCall_gives
    rw [statement]
    simp only [hsymbol, htag, bind, Except.bind]
    exact ⟨_, rfl⟩
  | .block inverted hsymbol hhead hfirst hmore hcloser => by
    obtain ⟨_, hhead⟩ := hhead.gives
    obtain ⟨_, hfirst⟩ := hfirst.gives
    obtain ⟨_, hmore⟩ := hmore.gives
    obtain ⟨_, hcloser⟩ := hcloser.gives
    rw [statement]
    cases inverted with
    | false | true =>
      simp only [hsymbol, Bool.false_eq_true, ↓reduceIte, hhead, hfirst, hmore, hcloser, bind,
        Except.bind, decide_true, decide_false, Symbol.opener.injEq, reduceCtorEq]
      exact ⟨_, rfl⟩
  | .decoratorBlock hsymbol hhead hfirst hcloser => by
    obtain ⟨_, hmore⟩ := hcloser.gives_none false
    obtain ⟨_, hhead⟩ := hhead.gives
    obtain ⟨_, hfirst⟩ := hfirst.gives
    obtain ⟨_, hcloser⟩ := hcloser.gives
    rw [statement]
    simp only [hsymbol, hhead, hfirst, hmore, hcloser, bind, Except.bind]
    exact ⟨_, rfl⟩
  | .partialBlock hsymbol hhead hfirst hcloser => by
    obtain ⟨_, hhead⟩ := hhead.gives
    obtain ⟨_, hfirst⟩ := hfirst.gives
    obtain ⟨_, hcloser⟩ := hcloser.gives
    rw [statement]
    simp only [hsymbol, hhead, hfirst, hcloser, bind, Except.bind]
    exact ⟨_, rfl⟩

theorem Sections.Read.gives {inverted : Bool} {more : Sections} {ts rest : List Token} :
    Sections.Read inverted ts more rest → GivesAny (sections inverted ts) more rest
  | .nil helse hchain => sections_gives_none inverted helse hchain
  | .chain hsymbol hhead hfirst hmore => by
    obtain ⟨_, hhead⟩ := hhead.gives
    obtain ⟨_, hfirst⟩ := hfirst.gives
    obtain ⟨_, hmore⟩ := hmore.gives
    rw [sections]
    simp only [hsymbol, hhead, hfirst, hmore, bind, Except.bind]
    exact ⟨_, rfl⟩
  | .last hsymbol hbody => by
    obtain ⟨_, hbody⟩ := hbody.gives
    rw [sections]
    simp only [hsymbol, hbody, bind, Except.bind]
    exact ⟨_, rfl⟩

end

section

variable {rest : List Token}

theorem expression_gives_iff {e : Expression} :
    Gives (expression ts) e rest ↔ Expression.Read ts e rest :=
  ⟨fun ⟨_, h⟩ => expression_read ts h, Expression.Read.gives⟩

theorem call_gives_iff {c : Call Expression} : Gives (call ts) c rest ↔ Call.Read ts c rest :=
  ⟨fun ⟨_, h⟩ => call_read ts h, Call.Read.gives⟩

theorem params_gives_iff {es : List Expression} :
    GivesAny (params ts) es rest ↔ paramsRead ts es rest :=
  ⟨fun ⟨_, h⟩ => params_read ts h, paramsRead.gives⟩

theorem pairs_gives_iff {ps : List (Pair Expression)} :
    GivesAny (pairs ts) ps rest ↔ pairsRead ts ps rest :=
  ⟨fun ⟨_, h⟩ => pairs_read ts h, pairsRead.gives⟩

theorem head_gives_iff {t : Token} {opened : Head} :
    Gives (head t ts) opened rest ↔ Head.Read t ts opened rest :=
  ⟨fun ⟨_, h⟩ => head_read h, Head.Read.gives⟩

theorem closer_gives_iff {opened : Head} {closed : Closer} :
    Gives (closer opened ts) closed rest ↔ Closer.Read opened ts closed rest :=
  ⟨fun ⟨_, h⟩ => closer_read h, Closer.Read.gives⟩

theorem statements_gives_iff {ss : List Statement} :
    GivesAny (statements ts) ss rest ↔ bodyRead ts ss rest :=
  ⟨fun ⟨_, h⟩ => statements_read ts h, bodyRead.gives⟩

theorem statement_gives_iff {s : Statement} :
    Gives (statement ts) s rest ↔ Statement.Read ts s rest :=
  ⟨fun ⟨_, h⟩ => statement_read ts h, Statement.Read.gives⟩

theorem sections_gives_iff {inverted : Bool} {more : Sections} :
    GivesAny (sections inverted ts) more rest ↔ Sections.Read inverted ts more rest :=
  ⟨fun ⟨_, h⟩ => sections_read inverted ts h, Sections.Read.gives⟩

end

end HtmlTemplate.Mustache
