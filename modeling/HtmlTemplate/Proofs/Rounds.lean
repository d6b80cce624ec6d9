import HtmlTemplate.Proofs.Evaluation
import HtmlTemplate.Proofs.Lookahead
import HtmlTemplate.Proofs.ParseErrors

/-! The loops that read a template, round by round. A round ends its loop or fails, or it uses
something of the input, so a loop is over after no more rounds than there is input, and what it
has then is what the recursive reader says. -/

namespace HtmlTemplate

/-- Some of an input has been used, and what is left is of a kind. -/
def Past {ι : Type} (P : List ι → Prop) (xs rest : List ι) : Prop :=
  P rest ∧ rest <:+ xs ∧ rest.length < xs.length

/-- What a round of a loop comes to: a result, or a state to go on with and what is left. -/
inductive Round (σ ι β : Type) where
  | stop (result : β)
  | again (s : σ) (rest : List ι)

/-- One round, which may fail. -/
abbrev Loop (σ ι β ε : Type) := σ → List ι → Except ε (Round σ ι β)

namespace Loop

variable {σ ι β ε : Type}

/-- Round after round until the loop stops or fails. There is no outcome if it would go on after
the given number of rounds. -/
def run (loop : Loop σ ι β ε) (n : ℕ) (s : σ) (xs : List ι) : Option (Except ε β) :=
  match loop s xs with
  | .error e => some (.error e)
  | .ok (.stop b) => some (.ok b)
  | .ok (.again s rest) =>
    match n with
    | 0 => none
    | n + 1 => run loop n s rest

def unroll (loop : Loop σ ι β ε) (result : σ → List ι → Except ε β) (s : σ) (xs : List ι) :
    Except ε β :=
  loop s xs >>= fun
    | .stop b => pure b
    | .again s rest => result s rest

/-- Of inputs of a kind each round that goes on leaves a shorter one of the kind, and the result is
the same before and after the round. -/
structure Computes (loop : Loop σ ι β ε) (P : List ι → Prop)
    (result : σ → List ι → Except ε β) : Prop where
  consumes {s s' : σ} {xs rest : List ι} :
    P xs → loop s xs = .ok (.again s' rest) → Past P xs rest
  unrolls {s : σ} {xs : List ι} : P xs → result s xs = loop.unroll result s xs

/-- On an input a loop goes on only by using some of it, and is over after no more rounds than
there is input. -/
structure Finishes (loop : Loop σ ι β ε) (P : List ι → Prop) (xs : List ι)
    (result : σ → Except ε β) : Prop where
  consumes {s s' : σ} {rest : List ι} : loop s xs = .ok (.again s' rest) → Past P xs rest
  run (s : σ) : loop.run xs.length s xs = some (result s)

variable {loop : Loop σ ι β ε} {P : List ι → Prop} {result : σ → List ι → Except ε β}

theorem Computes.run_eq (h : loop.Computes P result) {n : ℕ} {s : σ} {xs : List ι} (hxs : P xs)
    (hn : xs.length ≤ n) : loop.run n s xs = some (result s xs) := by
  rw [h.unrolls hxs, unroll]
  fun_induction run loop n s xs with
  | case1 n s xs e hround => rw [hround]; rfl
  | case2 n s xs b hround => rw [hround]; rfl
  | case3 s xs s' rest hround =>
    -- No rounds are left only where there is no input left to use.
    obtain ⟨-, -, hlt⟩ := h.consumes hxs hround
    omega
  | case4 s xs s' rest hround n ih =>
    obtain ⟨hrest, -, hlt⟩ := h.consumes hxs hround
    rw [ih hrest (by omega), hround]
    exact congrArg some (h.unrolls hrest).symm

theorem Computes.finishes (h : loop.Computes P result) {xs : List ι} (hxs : P xs) :
    loop.Finishes P xs fun s => result s xs where
  consumes := h.consumes hxs
  run _ := h.run_eq hxs le_rfl

end Loop

namespace Mustache

/-- Where reading tokens stands, and those read so far. -/
structure Scanning where
  mode : Mode := .text
  position : Position := .first
  tokens : List Token := []

/-- One token, or the end of the input. -/
def scanLoop : Loop Scanning Char (List Token) ParseError
  | s, [] =>
    match s.mode with
    | .text =>
      .ok (.stop (s.tokens ++ [{ symbol := .endOfInput, loc := ⟨s.position, s.position⟩ }]))
    | .tag _ => .error ⟨.unclosedMustache, s.position⟩
  | s, c :: cs =>
    let lead := leadLength s.mode (c :: cs)
    let start := s.position.after ((c :: cs).take lead)
    match lexeme s.mode (c :: cs) with
    | .error fault => .error ⟨fault, start⟩
    | .ok l =>
      let stop := start.after (((c :: cs).drop lead).take l.length)
      let t : Token := { symbol := l.symbol, loc := ⟨start, stop⟩, strip := l.strip }
      .ok (.again ⟨l.after, stop, s.tokens ++ [t]⟩ ((c :: cs).drop (lead + l.length)))

theorem scanLoop_again {s s' : Scanning} {cs rest : List Char}
    (h : scanLoop s cs = .ok (.again s' rest)) :
    (rest <:+ cs ∧ rest.length < cs.length) ∧
      ∃ t : Token, s'.tokens = s.tokens ++ [t] ∧ t.symbol ≠ .endOfInput
        ∧ s.position < s'.position ∧ t.loc.stop = s'.position
        ∧ s'.mode.flags = s.mode.flags.after t.symbol := by
  cases cs with
  | nil =>
    simp only [scanLoop] at h
    split at h <;> cases h
  | cons c cs =>
    simp only [scanLoop] at h
    split at h
    · cases h
    · rename_i l hl
      cases h
      have hpos := lexeme_pos hl
      refine ⟨⟨List.drop_suffix _ _, ?_⟩, _, rfl, (lexeme_leads hl).symbol_ne, ?_, rfl,
        lexeme_flags hl⟩
      · rw [List.length_drop, List.length_cons]
        omega
      · exact lexeme_moves hl s.position

theorem scanLoop_stop {s : Scanning} {cs : List Char} {ts : List Token}
    (h : scanLoop s cs = .ok (.stop ts)) :
    cs = [] ∧ s.mode.flags = .lowered
      ∧ ∃ t : Token, ts = s.tokens ++ [t] ∧ t.symbol = .endOfInput := by
  cases cs with
  | nil =>
    simp only [scanLoop] at h
    split at h
    · rename_i hmode
      cases h
      exact ⟨rfl, congrArg Mode.flags hmode, _, rfl, rfl⟩
    · cases h
  | cons c cs =>
    simp only [scanLoop] at h
    split at h <;> cases h

theorem scanLoop_computes :
    scanLoop.Computes (fun _ => True) fun s cs =>
      (scanAfter s.mode s.position 0 cs).map (s.tokens ++ ·) where
  consumes _ h := ⟨trivial, (scanLoop_again h).1⟩
  unrolls {s cs} _ := by
    cases cs with
    | nil => cases hmode : s.mode <;> simp [Loop.unroll, scanLoop, scanAfter, hmode] <;> rfl
    | cons c cs =>
      unfold Loop.unroll
      rw [scanAfter, scanLoop]
      dsimp only
      cases hl : lexeme s.mode (c :: cs) with
      | error fault => rfl
      | ok l =>
        obtain ⟨n, hn⟩ := Nat.exists_eq_succ_of_ne_zero (Nat.ne_of_gt (lexeme_pos hl))
        dsimp only
        rw [scanAfter_drop, hn, Nat.succ_sub_one]
        show Except.map _ (Except.map _ (scanAfter _ _ 0 (cs.drop n)))
          = Except.map _ (scanAfter _ _ 0 (cs.drop n))
        cases scanAfter _ _ 0 (cs.drop n) with
        | error e => rfl
        | ok ts => simp [Except.map]

variable {α : Type} {ts : List Token}

/-- One item after the other, up to where they end. -/
def itemLoop (ends : List Token → Bool)
    (item : (ts : List Token) → Except ParseError (Parsed ts α)) :
    Loop (List α) Token (List α × List Token) ParseError
  | xs, ts => do
    if ends ts then return .stop (xs, ts)
    let x ← item ts
    return .again (xs ++ [x.value]) x.rest

def bodyLoop : Loop (List Statement) Token (List Statement × List Token) ParseError :=
  itemLoop endsBody statement

def paramLoop : Loop (List Expression) Token (List Expression × List Token) ParseError :=
  itemLoop endsParams expression

def pairLoop : Loop (List (Pair Expression)) Token (List (Pair Expression) × List Token) ParseError
  | ps, key :: eq :: ts =>
    match key.symbol, eq.symbol with
    | .name text _, .equals => do
      let value ← expression ts
      let pair : Pair Expression := ⟨text, value.value, ⟨key.loc.start, value.value.loc.stop⟩⟩
      return .again (ps ++ [pair]) value.rest
    | _, _ => return .stop (ps, key :: eq :: ts)
  | ps, ts => return .stop (ps, ts)

def nameLoop : Loop (List (List Char)) Token (List (List Char) × List Token) ParseError
  | names, [] => return .stop (names, [])
  | names, t :: ts =>
    match t.symbol with
    | .name text _ => return .again (names ++ [text]) ts
    | _ => return .stop (names, t :: ts)

def segmentLoop : Loop Path Token (Path × List Token) ParseError
  | p, sep :: name :: ts =>
    match sep.symbol, name.symbol with
    | .separator slash, .name text bracketed => do
      let joined := { p with written := p.written ++ [if slash then '/' else '.'] }
      return .again (← joined.extend text bracketed name.loc.stop) ts
    | _, _ => return .stop (p, sep :: name :: ts)
  | p, ts => return .stop (p, ts)

/-- The sections of a block after its first one. -/
def sectionLoop (inverted : Bool) :
    Loop (List (Head × List Statement)) Token (Sections × List Token) ParseError
  | chain, [] => return .stop (⟨chain, none⟩, [])
  | chain, t :: ts =>
    match t.symbol with
    | .opener .elseChain => do
      if inverted then faultAt t.loc.start .elseIfInInverse
      let head ← head t ts
      let body ← statements head.rest
      return .again (chain ++ [(head.value, body.value)]) body.rest
    | .elseTag => do
      let body ← statements ts
      return .stop (⟨chain, some (t.strip, body.value)⟩, body.rest)
    | _ => return .stop (⟨chain, none⟩, t :: ts)

theorem Parsed.past {r : Parsed ts α} {y : Except ParseError (Parsed (ts ++ []) α)}
    (h : Agree (Parsed.Alike []) (.ok r) y) (hsuffix : r.rest <:+ ts) : Past Ended ts r.rest := by
  cases h with
  | ok hab => exact ⟨hab.2.2, hsuffix, r.shorter⟩

theorem ParsedAny.ended {r : ParsedAny ts α} {y : Except ParseError (ParsedAny (ts ++ []) α)}
    (h : Agree (ParsedAny.Alike []) (.ok r) y) : Ended r.rest := by
  cases h with
  | ok hab => exact hab.2.2

theorem expression_past {r : Parsed ts Expression} (hts : Ended ts) (h : expression ts = .ok r) :
    Past Ended ts r.rest :=
  Parsed.past (h ▸ expression_alike ts hts []) (expression_read ts h).inside.suffix

theorem call_past {r : Parsed ts (Call Expression)} (hts : Ended ts) (h : call ts = .ok r) :
    Past Ended ts r.rest :=
  Parsed.past (h ▸ call_alike ts hts []) (call_read ts h).inside.suffix

theorem head_past {t : Token} {r : Parsed ts Head} (hts : Ended ts) (h : head t ts = .ok r) :
    Past Ended ts r.rest :=
  Parsed.past (h ▸ head_alike t hts []) (head_read h).start.2.1

theorem statement_past {r : Parsed ts Statement} (hts : Ended ts) (h : statement ts = .ok r) :
    Past Ended ts r.rest :=
  Parsed.past (h ▸ statement_alike ts hts []) (statement_read ts h).suffix

theorem statements_ended {r : ParsedAny ts (List Statement)} (hts : Ended ts)
    (h : statements ts = .ok r) : Ended r.rest :=
  ParsedAny.ended (h ▸ statements_alike ts hts [])

theorem itemLoop_computes {ends : List Token → Bool}
    {item : (ts : List Token) → Except ParseError (Parsed ts α)}
    {items : (ts : List Token) → Except ParseError (ParsedAny ts (List α))}
    (hitem : ∀ {ts r}, Ended ts → item ts = .ok r → Past Ended ts r.rest)
    (hitems : ∀ ts, items ts = do
      if ends ts then return unread [] ts
      let x ← item ts
      let xs ← items x.rest
      return ⟨x.value :: xs.value, xs.rest, xs.noLonger.trans x.shorter.le⟩) :
    (itemLoop ends item).Computes Ended fun xs ts => do
      let r ← items ts
      return (xs ++ r.value, r.rest) where
  consumes {xs xs' ts rest} hts h := by
    simp only [itemLoop] at h
    split at h
    · cases h
    · simp only [bind_eq_ok, pure_eq_ok] at h
      obtain ⟨x, hx, h⟩ := h
      cases h
      exact hitem hts hx
  unrolls {xs ts} _ := by
    rw [hitems, Loop.unroll, itemLoop]
    by_cases hends : ends ts = true
    · simp only [hends, ↓reduceIte, pure_bind, unread, List.append_nil]
    · simp only [hends, Bool.false_eq_true, ↓reduceIte, bind_assoc, pure_bind]
      refine bind_congr fun x => ?_
      simp only [List.append_assoc, List.singleton_append]

theorem bodyLoop_computes :
    bodyLoop.Computes Ended fun ss ts => do
      let r ← statements ts
      return (ss ++ r.value, r.rest) :=
  itemLoop_computes statement_past fun ts => by rw [statements]

theorem paramLoop_computes :
    paramLoop.Computes Ended fun es ts => do
      let r ← params ts
      return (es ++ r.value, r.rest) :=
  itemLoop_computes expression_past fun ts => by rw [params]

theorem pairLoop_computes :
    pairLoop.Computes Ended fun ps ts => do
      let r ← pairs ts
      return (ps ++ r.value, r.rest) where
  consumes {ps ps' ts rest} hts h := by
    unfold pairLoop at h
    split at h
    · rename_i key eq ts
      split at h
      · rename_i hkey heq
        simp only [bind_eq_ok, pure_eq_ok] at h
        obtain ⟨value, hvalue, h⟩ := h
        cases h
        have hended := (hts.tail (by simp [hkey])).tail (by simp [heq])
        obtain ⟨hrest, hsuffix, hlt⟩ := expression_past hended hvalue
        refine ⟨hrest, hsuffix.trans (List.suffix_append [key, eq] ts), ?_⟩
        simp only [List.length_cons]
        omega
      · cases h
    · cases h
  unrolls {ps ts} _ := by
    unfold Loop.unroll pairLoop
    rw [pairs.eq_def]
    have hstop : (pure (ps ++ [], ts) : Except ParseError _) = pure (ps, ts) := by
      rw [List.append_nil]
    rcases ts with _ | ⟨key, _ | ⟨eq, ts⟩⟩
    · exact hstop
    · exact hstop
    · dsimp only
      cases key.symbol with
      | name text bracketed =>
        cases eq.symbol with
        | equals =>
          simp only [bind_assoc, pure_bind]
          refine bind_congr fun value => ?_
          simp only [List.append_assoc, List.singleton_append]
        | _ => exact hstop
      | _ => exact hstop

theorem nameLoop_computes :
    nameLoop.Computes Ended fun ns ts => .ok (ns ++ (names ts).value, (names ts).rest) where
  consumes {ns ns' ts rest} hts h := by
    unfold nameLoop at h
    split at h
    · cases h
    · rename_i t ts
      split at h
      · rename_i hsymbol
        cases h
        exact ⟨hts.tail (by simp [hsymbol]), List.suffix_cons _ _, Nat.lt_succ_self _⟩
      · cases h
  unrolls {ns ts} _ := by
    unfold Loop.unroll nameLoop
    have hstop : (.ok (ns ++ [], ts) : Except ParseError _) = .ok (ns, ts) := by
      rw [List.append_nil]
    cases ts with
    | nil => exact hstop
    | cons t ts =>
      dsimp only
      rw [names]
      cases t.symbol with
      | name text bracketed =>
        simp only [pure_bind, List.append_assoc, List.singleton_append]
      | _ => exact hstop

theorem segmentLoop_computes :
    segmentLoop.Computes Ended fun p ts => do
      let r ← segments p ts
      return (r.value, r.rest) where
  consumes {p p' ts rest} hts h := by
    unfold segmentLoop at h
    split at h
    · rename_i sep name ts
      split at h
      · rename_i hsep hname
        simp only [bind_eq_ok, pure_eq_ok] at h
        obtain ⟨extended, -, h⟩ := h
        cases h
        have hended := (hts.tail (by simp [hsep])).tail (by simp [hname])
        refine ⟨hended, List.suffix_append [sep, name] _, ?_⟩
        simp only [List.length_cons]
        omega
      · cases h
    · cases h
  unrolls {p ts} _ := by
    unfold Loop.unroll segmentLoop
    rw [segments.eq_def]
    rcases ts with _ | ⟨sep, _ | ⟨name, ts⟩⟩
    · rfl
    · rfl
    · dsimp only
      cases sep.symbol with
      | separator slash =>
        cases name.symbol with
        | name text bracketed => simp only [bind_assoc, pure_bind]
        | _ => rfl
      | _ => rfl

theorem sectionLoop_computes (inverted : Bool) :
    (sectionLoop inverted).Computes Ended fun chain ts => do
      let r ← sections inverted ts
      return (⟨chain ++ r.value.chain, r.value.last⟩, r.rest) where
  consumes {chain chain' ts rest} hts h := by
    unfold sectionLoop at h
    split at h
    · cases h
    · rename_i t ts
      split at h
      · rename_i hsymbol
        split at h
        · cases h
        simp only [bind_eq_ok, pure_eq_ok] at h
        obtain ⟨opened, hopened, body, hbody, h⟩ := h
        cases h
        obtain ⟨hended, hsuffix, hlt⟩ := head_past (hts.tail (by simp [hsymbol])) hopened
        refine ⟨statements_ended hended hbody,
          ((statements_read _ hbody).suffix.trans hsuffix).trans (List.suffix_cons _ _), ?_⟩
        exact Nat.lt_succ_of_lt (Nat.lt_of_le_of_lt body.noLonger hlt)
      · simp only [bind_eq_ok, pure_eq_ok] at h
        obtain ⟨body, -, h⟩ := h
        cases h
      · cases h
  unrolls {chain ts} _ := by
    unfold Loop.unroll sectionLoop
    rw [sections.eq_def]
    have hstop : (pure (⟨chain ++ [], none⟩, ts) : Except ParseError (Sections × List Token))
        = pure (⟨chain, none⟩, ts) := by
      rw [List.append_nil]
    cases ts with
    | nil => exact hstop
    | cons t ts =>
      dsimp only
      cases t.symbol with
      | opener o =>
        cases o with
        | elseChain =>
          cases inverted with
          | true => rfl
          | false =>
            simp only [Bool.false_eq_true, ↓reduceIte, bind_assoc, pure_bind]
            refine bind_congr fun opened => bind_congr fun body => ?_
            simp only [List.append_assoc, List.singleton_append]
        | _ => exact hstop
      | elseTag => simp only [bind_assoc, pure_bind, List.append_nil]
      | _ => exact hstop

/-- Reading tokens is over after no more rounds than there are characters. Each round but the last
reads a token. The end of the input comes last and only then, and when it does no mustache is
open. -/
structure ScanFinishes (text : List Char) : Prop where
  run : scanLoop.run text.length {} text = some (scan text)
  again {s s' : Scanning} {rest : List Char} : scanLoop s text = .ok (.again s' rest) →
    (rest <:+ text ∧ rest.length < text.length) ∧
      ∃ t : Token, s'.tokens = s.tokens ++ [t] ∧ t.symbol ≠ .endOfInput
        ∧ s.position < s'.position ∧ t.loc.stop = s'.position
        ∧ s'.mode.flags = s.mode.flags.after t.symbol
  stop {s : Scanning} {ts : List Token} : scanLoop s text = .ok (.stop ts) →
    text = [] ∧ s.mode.flags = .lowered
      ∧ ∃ t : Token, ts = s.tokens ++ [t] ∧ t.symbol = .endOfInput
  tokens {ts : List Token} : scan text = .ok ts →
    Ended ts ∧ ∃ init last, ts = init ++ [last] ∧ (∀ t ∈ init, t.loc.stop ≤ last.loc.stop)
      ∧ (init.map (·.loc.stop)).Pairwise (· < ·)
      ∧ (init.map (·.symbol)).foldl Flags.after .lowered = .lowered

/-- Reading a tree from tokens goes on only by using some of them and leaving the end of the input
to come, looks at nothing behind that, and succeeds only when nothing else is left. -/
structure ParseFinishes (ts : List Token) : Prop where
  bodies : bodyLoop.Finishes Ended ts fun ss => do
    let r ← statements ts
    return (ss ++ r.value, r.rest)
  params : paramLoop.Finishes Ended ts fun es => do
    let r ← params ts
    return (es ++ r.value, r.rest)
  pairs : pairLoop.Finishes Ended ts fun ps => do
    let r ← pairs ts
    return (ps ++ r.value, r.rest)
  names : nameLoop.Finishes Ended ts fun ns => .ok (ns ++ (names ts).value, (names ts).rest)
  segments : segmentLoop.Finishes Ended ts fun p => do
    let r ← segments p ts
    return (r.value, r.rest)
  sections (inverted : Bool) : (sectionLoop inverted).Finishes Ended ts fun chain => do
    let r ← sections inverted ts
    return (⟨chain ++ r.value.chain, r.value.last⟩, r.rest)
  expression {r : Parsed ts Expression} : expression ts = .ok r → Past Ended ts r.rest
  call {r : Parsed ts (Call Expression)} : call ts = .ok r → Past Ended ts r.rest
  statement {r : Parsed ts Statement} : statement ts = .ok r → Past Ended ts r.rest
  behind (more : List Token) : Program.ofTokens (ts ++ more) = Program.ofTokens ts
  whole {p : Program Statement} : Program.ofTokens ts = .ok p →
    ∃ r last, statements ts = .ok r ∧ r.rest = [last] ∧ last.symbol = .endOfInput
      ∧ p = { body := r.value }

private theorem run_scanLoop (text : List Char) :
    scanLoop.run text.length {} text = some (scan text) := by
  rw [scanLoop_computes.run_eq trivial le_rfl]
  show some ((scan text).map ([] ++ ·)) = some (scan text)
  cases scan text <;> rfl

private theorem eq_last_of_peek (hts : Ended ts) (hpeek : (peek ts).symbol = .endOfInput) :
    ∃ last, ts = [last] ∧ last.symbol = .endOfInput := by
  cases hts with
  | last ht => exact ⟨_, rfl, ht⟩
  | cons ht _ => exact absurd hpeek ht

private theorem ofTokens_whole (hts : Ended ts) {p : Program Statement}
    (h : Program.ofTokens ts = .ok p) :
    ∃ r last, statements ts = .ok r ∧ r.rest = [last] ∧ last.symbol = .endOfInput
      ∧ p = { body := r.value } := by
  simp only [Program.ofTokens, bind_eq_ok] at h
  obtain ⟨r, hr, h⟩ := h
  split at h
  · rename_i hpeek
    cases h
    obtain ⟨last, hlast, hsymbol⟩ := eq_last_of_peek (statements_ended hts hr) hpeek
    exact ⟨r, last, hr, hlast, hsymbol, rfl⟩
  · cases h
  · cases h
  · cases h
  · cases h

/-- Reading a template is over for every text. Tokens are read character after character and end
further and further on up to the one end of the input, which comes when no mustache is open. From
all tokens that end so a tree is read token after token, and there is a tree only if the end of the
input is reached. -/
theorem reading_finishes :
    (∀ text, ScanFinishes text) ∧ ∀ ts, Ended ts → ParseFinishes ts := by
  refine ⟨fun text => ⟨run_scanLoop text, scanLoop_again, scanLoop_stop, fun hscan => ?_⟩,
    fun ts hts => ?_⟩
  · have hdelivered := scan_delivered hscan
    obtain ⟨init, last, hinit, -, -, hstop, hpairwise, hflags⟩ := hdelivered.eq_append
    exact ⟨hdelivered.ended, init, last, hinit, fun t ht => (hstop t ht).2, hpairwise.of_cons,
      hflags⟩
  · exact {
      bodies := bodyLoop_computes.finishes hts
      params := paramLoop_computes.finishes hts
      pairs := pairLoop_computes.finishes hts
      names := nameLoop_computes.finishes hts
      segments := segmentLoop_computes.finishes hts
      sections := fun inverted => (sectionLoop_computes inverted).finishes hts
      expression := expression_past hts
      call := call_past hts
      statement := statement_past hts
      behind := ofTokens_append hts
      whole := ofTokens_whole hts }

/-- A block with another one chained to it. -/
theorem reading_finishes_chain :
    ∃ text ts p, text = "{{#a}}x{{else b}}{{/a}}".toList
      ∧ scanLoop.run 23 {} text = some (.ok ts) ∧ Ended ts ∧ ts.length = 11
      ∧ Program.ofTokens ts = .ok p ∧ ParseFinishes ts := by
  obtain ⟨hscans, hparses⟩ := reading_finishes
  have hscan : scan "{{#a}}x{{else b}}{{/a}}".toList = .ok
      [.onLine (.opener .block) 0 3, .onLine (.name ['a'] false) 3 4, .onLine .close 4 6,
        .onLine (.content ['x']) 6 7, .onLine (.opener .elseChain) 7 13,
        .onLine (.name ['b'] false) 14 15, .onLine .close 15 17, .onLine (.opener .endBlock) 17 20,
        .onLine (.name ['a'] false) 20 21, .onLine .close 21 23, .onLine .endOfInput 23 23] := by
    decide +kernel
  have hrun := (hscans _).run.trans (congrArg some hscan)
  obtain ⟨hended, -⟩ := (hscans _).tokens hscan
  exact ⟨_, _, _, rfl, hrun, hended, rfl, by cbv, hparses _ hended⟩

end Mustache
end HtmlTemplate
