import HtmlTemplate.Proofs.Report

/-! Reading statements, by induction. What is to be shown of a run is shown of one statement
at a time: of a statement without sections as it is read, and of one with sections once it has
been shown of the statements in them. -/

namespace HtmlTemplate.Tree.Assembly

/-- The statements that have sections of their own. -/
def isSectioned : Mustache.Statement → Bool
  | .block _ | .decoratorBlock _ | .partialBlock _ => true
  | _ => false

/-- A property of runs: from an assembly through some statements to another. -/
abbrev RunProperty : Type :=
  Assembly → List Mustache.Statement → Assembly → Prop

/-- A section is read, and its statements have the property. -/
def Inside (src : Source) (P : RunProperty) (a : Assembly) (fallback : Nat)
    (p : Mustache.Program Mustache.Statement) (nodes : Section Statement) (b : Assembly) : Prop :=
  sectionOf src a fallback p = .ok (nodes, b)
    ∧ ∀ inside, statements src a.pushBody.2 p.body = .ok inside → P a.pushBody.2 p.body inside

/-- The same of a section that may be missing. -/
def Inside? (src : Source) (P : RunProperty) (a : Assembly) (fallback : Nat)
    (p : Option (Mustache.Program Mustache.Statement)) (nodes : Option (Section Statement))
    (b : Assembly) : Prop :=
  match p with
  | none => nodes = none ∧ b = a
  | some p => ∃ s, nodes = some s ∧ Inside src P a fallback p s b

/-- What has to be shown for a property to hold of every run. -/
structure Follows (src : Source) (P : RunProperty) : Prop where
  nil (a : Assembly) : P a [] a
  flat {a b c : Assembly} {s : Mustache.Statement} {ss : List Mustache.Statement} :
    isSectioned s = false ∨ a.tokenizer.state.isComment = true → statement src a s = .ok b →
      P b ss c → P a (s :: ss) c
  block {a mid b c : Assembly} {s : Mustache.Statement} {child : Statement}
    {m : Mustache.Block Mustache.Statement} {node : Block Statement}
    {ss : List Mustache.Statement} {program inverse : Option (Section Statement)} :
    s = .block m ∧ child = .block node ∨ s = .decoratorBlock m ∧ child = .decoratorBlock node →
      a.tokenizer.state.isData = true → call src m.call = .ok node.call →
      Inside? src P a (src.spanFor m.loc).start m.program program mid →
      Inside? src P mid (src.spanFor m.loc).start m.inverse inverse b →
      node.program = program.getD ⟨[], [], false, .empty (src.spanFor m.loc).start⟩ →
      node.inverse = inverse → Assembly.block src a m = .ok (node, b) →
      statement src a s = .ok (b.append child) → P (b.append child) ss c → P a (s :: ss) c
  partialBlock {a b c : Assembly} {m : Mustache.PartialBlock Mustache.Statement}
    {callee : Call Expression} {nodes : Section Statement} {ss : List Mustache.Statement} :
    a.tokenizer.state.isComment = false → partialName src m.call = .ok callee →
      Inside src P a (src.spanFor m.loc).start m.program nodes b →
      statement src a (.partialBlock m) = .ok (b.append
        (.partialBlock ⟨callee, nodes, m.openStrip, m.closeStrip, src.spanFor m.loc⟩)) →
      P (b.append (.partialBlock ⟨callee, nodes, m.openStrip, m.closeStrip, src.spanFor m.loc⟩)) ss
        c →
      P a (.partialBlock m :: ss) c

variable {src : Source} {P : RunProperty} {a b c : Assembly}

theorem Inside?.read {fallback : Nat} {p : Option (Mustache.Program Mustache.Statement)}
    {nodes : Option (Section Statement)} (h : Inside? src P a fallback p nodes b) :
    sectionOf? src a fallback p = .ok (nodes, b) := by
  cases p with
  | none =>
    obtain ⟨rfl, rfl⟩ := h
    rfl
  | some p =>
    obtain ⟨s, rfl, hs, -⟩ := h
    simp only [sectionOf?, hs]
    rfl

theorem Follows.block_head (h : Follows src P) {s : Mustache.Statement} {child : Statement}
    {m : Mustache.Block Mustache.Statement} {node : Block Statement}
    {ss : List Mustache.Statement}
    (hs : s = .block m ∧ child = .block node ∨ s = .decoratorBlock m ∧ child = .decoratorBlock node)
    (hprogram : ∀ {a b : Assembly} {fallback : Nat} {nodes : Option (Section Statement)},
      sectionOf? src a fallback m.program = .ok (nodes, b) →
        Inside? src P a fallback m.program nodes b)
    (hinverse : ∀ {a b : Assembly} {fallback : Nat} {nodes : Option (Section Statement)},
      sectionOf? src a fallback m.inverse = .ok (nodes, b) →
        Inside? src P a fallback m.inverse nodes b)
    (hblock : Assembly.block src a m = .ok (node, b))
    (hstatement : statement src a s = .ok (b.append child)) (hss : P (b.append child) ss c) :
    P a (s :: ss) c := by
  obtain ⟨hdata, callee, program, inverse, mid, hcall, hp, hi, rfl⟩ := block_ok hblock
  exact h.block hs hdata hcall (hprogram hp) (hinverse hi) rfl rfl hblock hstatement hss

mutual

theorem Follows.head (h : Follows src P) {a b c : Assembly} {ss : List Mustache.Statement} :
    (s : Mustache.Statement) → statement src a s = .ok b → P b ss c → P a (s :: ss) c
  | .content m, hs, hss => h.flat (.inl rfl) hs hss
  | .mustache m, hs, hss => h.flat (.inl rfl) hs hss
  | .decorator m, hs, hss => h.flat (.inl rfl) hs hss
  | .comment m, hs, hss => h.flat (.inl rfl) hs hss
  | .partialCall m, hs, hss => h.flat (.inl rfl) hs hss
  | .block ⟨callee, program, inverse, openStrip, inverseStrip, closeStrip, loc⟩, hs, hss => by
    cases statement_ok hs with
    | commented _ hcomment _ => exact h.flat (.inr hcomment) hs hss
    | block hblock =>
      exact h.block_head (.inl ⟨rfl, rfl⟩) (h.inside? program) (h.inside? inverse) hblock hs hss
  | .decoratorBlock ⟨callee, program, inverse, openStrip, inverseStrip, closeStrip, loc⟩, hs,
      hss => by
    cases statement_ok hs with
    | commented _ hcomment _ => exact h.flat (.inr hcomment) hs hss
    | decoratorBlock hblock =>
      exact h.block_head (.inr ⟨rfl, rfl⟩) (h.inside? program) (h.inside? inverse) hblock hs hss
  | .partialBlock ⟨callee, program, openStrip, closeStrip, loc⟩, hs, hss => by
    cases statement_ok hs with
    | commented _ hcomment _ => exact h.flat (.inr hcomment) hs hss
    | partialBlock hcomment hcallee hsection =>
      exact h.partialBlock hcomment hcallee (h.inside program hsection) hs hss

theorem Follows.statements (h : Follows src P) {a b : Assembly} :
    (ss : List Mustache.Statement) → Assembly.statements src a ss = .ok b → P a ss b
  | [], hss => by
    rw [Assembly.statements, Except.ok.injEq] at hss
    exact hss ▸ h.nil a
  | s :: ss, hss => by
    obtain ⟨a', hs, hrest⟩ := statements_cons_ok hss
    exact h.head s hs (h.statements ss hrest)

theorem Follows.inside (h : Follows src P) {a b : Assembly} {fallback : Nat}
    {nodes : Section Statement} :
    (p : Mustache.Program Mustache.Statement) → sectionOf src a fallback p = .ok (nodes, b) →
      Inside src P a fallback p nodes b
  | ⟨body, _, _⟩, hsection => ⟨hsection, fun _ hinside => h.statements body hinside⟩

theorem Follows.inside? (h : Follows src P) {a b : Assembly} {fallback : Nat}
    {nodes : Option (Section Statement)} :
    (p : Option (Mustache.Program Mustache.Statement)) →
      sectionOf? src a fallback p = .ok (nodes, b) → Inside? src P a fallback p nodes b
  | none, hsection => by
    rw [sectionOf?, Except.ok.injEq, Prod.mk.injEq] at hsection
    exact ⟨hsection.1.symm, hsection.2.symm⟩
  | some p, hsection => by
    obtain ⟨s, rfl, hs⟩ := sectionOf?_ok hsection
    exact ⟨s, rfl, h.inside p hs⟩

end

section Collect

variable {α : Type} (src : Source) (f : Assembly → Mustache.Statement → List α)

mutual

/-- What is collected of a statement and of those in its sections. -/
def collect (a : Assembly) : Mustache.Statement → List α
  | .block b =>
    f a (.block b) ++ if a.tokenizer.state.isData then collectBlock a b else []
  | .decoratorBlock b =>
    f a (.decoratorBlock b) ++ if a.tokenizer.state.isData then collectBlock a b else []
  | .partialBlock ⟨callee, program, openStrip, closeStrip, loc⟩ =>
    f a (.partialBlock ⟨callee, program, openStrip, closeStrip, loc⟩)
      ++ if a.tokenizer.state.isComment then [] else collectSection a program
  | .mustache m => f a (.mustache m)
  | .decorator m => f a (.decorator m)
  | .content c => f a (.content c)
  | .comment c => f a (.comment c)
  | .partialCall p => f a (.partialCall p)

/-- What is collected of statements up to the first that is not read. -/
def collectAll (a : Assembly) : List Mustache.Statement → List α
  | [] => []
  | s :: ss =>
    collect a s ++
      match Assembly.statement src a s with
      | .ok b => collectAll b ss
      | .error _ => []

def collectSection (a : Assembly) : Mustache.Program Mustache.Statement → List α
  | ⟨body, _, _⟩ => collectAll a.pushBody.2 body

def collectSection? (a : Assembly) : Option (Mustache.Program Mustache.Statement) → List α
  | none => []
  | some p => collectSection a p

def collectBlock (a : Assembly) : Mustache.Block Mustache.Statement → List α
  | ⟨_, program, inverse, _, _, _, loc⟩ =>
    collectSection? a program ++
      match sectionOf? src a (src.spanFor loc).start program with
      | .ok (_, mid) => collectSection? mid inverse
      | .error _ => []

end

variable {src f}

theorem collectAll_cons {ss : List Mustache.Statement} {s : Mustache.Statement}
    (h : Assembly.statement src a s = .ok b) :
    collectAll src f a (s :: ss) = collect src f a s ++ collectAll src f b ss := by
  simp [collectAll, h]

theorem collect_flat {s : Mustache.Statement}
    (h : isSectioned s = false ∨ a.tokenizer.state.isComment = true) :
    collect src f a s = f a s := by
  have hdata (hcomment : a.tokenizer.state.isComment = true) :
      a.tokenizer.state.isData = false := by
    cases hstate : a.tokenizer.state.isData with
    | false => rfl
    | true => simp [Html.State.isComment_of_isData hstate] at hcomment
  cases s with
  | block b | decoratorBlock b =>
    rcases h with h | h
    · cases h
    · simp [collect, hdata h]
  | partialBlock p =>
    obtain ⟨callee, program, openStrip, closeStrip, loc⟩ := p
    rcases h with h | h
    · cases h
    · simp [collect, h]
  | _ => rfl

private theorem collectBlock_eq {m : Mustache.Block Mustache.Statement}
    {program : Option (Section Statement)}
    (h : sectionOf? src a (src.spanFor m.loc).start m.program = .ok (program, b)) :
    collectBlock src f a m =
      collectSection? src f a m.program ++ collectSection? src f b m.inverse := by
  obtain ⟨callee, p, i, openStrip, inverseStrip, closeStrip, loc⟩ := m
  simp only at h
  simp [collectBlock, h]

theorem collect_block {s : Mustache.Statement} {m : Mustache.Block Mustache.Statement}
    {program : Option (Section Statement)} (hs : s = .block m ∨ s = .decoratorBlock m)
    (hdata : a.tokenizer.state.isData = true)
    (h : sectionOf? src a (src.spanFor m.loc).start m.program = .ok (program, b)) :
    collect src f a s
      = f a s ++ collectSection? src f a m.program ++ collectSection? src f b m.inverse := by
  rcases hs with rfl | rfl <;> simp [collect, hdata, collectBlock_eq h]

theorem collect_partialBlock {m : Mustache.PartialBlock Mustache.Statement}
    (hcomment : a.tokenizer.state.isComment = false) :
    collect src f a (.partialBlock m)
      = f a (.partialBlock m) ++ collectAll src f a.pushBody.2 m.program.body := by
  obtain ⟨callee, ⟨body, params, chained⟩, openStrip, closeStrip, loc⟩ := m
  simp [collect, collectSection, hcomment]

theorem Passes.reads_cons {s t : Mustache.Statement} {ss : List Mustache.Statement}
    (hb : Assembly.statement src a s = .ok b) :
    Passes src a (s :: ss) (.reads t c) ↔
      (t = s ∧ c = a) ∨ (∃ fallback p d, Enters src a s fallback p d
        ∧ Passes src d.pushBody.2 p.body (.reads t c)) ∨ Passes src b ss (.reads t c) := by
  constructor
  · intro h
    cases h with
    | reads => exact .inl ⟨rfl, rfl⟩
    | inside henters h => exact .inr (.inl ⟨_, _, _, henters, h⟩)
    | later hb' h =>
      rw [hb, Except.ok.injEq] at hb'
      exact .inr (.inr (hb' ▸ h))
  · rintro (⟨rfl, rfl⟩ | ⟨_, _, _, henters, h⟩ | h)
    · exact .reads
    · exact .inside henters h
    · exact .later hb h

theorem Enters.not_flat {s : Mustache.Statement} {fallback : Nat}
    {p : Mustache.Program Mustache.Statement} (h : Enters src a s fallback p b) :
    ¬ (isSectioned s = false ∨ a.tokenizer.state.isComment = true) := by
  cases h with
  | program hs hdata | inverse hs hdata =>
    rcases hs with rfl | rfl <;>
      simp [isSectioned, Html.State.isComment_of_isData hdata]
  | partialBlock hcomment _ => simp [isSectioned, hcomment]

theorem Enters.of_block {s : Mustache.Statement} {m : Mustache.Block Mustache.Statement}
    {fallback : Nat} {p : Mustache.Program Mustache.Statement} {mid : Assembly}
    {program : Option (Section Statement)} (hs : s = .block m ∨ s = .decoratorBlock m)
    (hmid : sectionOf? src a (src.spanFor m.loc).start m.program = .ok (program, mid))
    (h : Enters src a s fallback p b) :
    m.program = some p ∧ b = a ∨ m.inverse = some p ∧ b = mid := by
  cases h with
  | @program _ m' _ _ hs' _ _ hp =>
    obtain rfl : m' = m := by rcases hs with rfl | rfl <;> simpa [eq_comm] using hs'
    exact .inl ⟨hp, rfl⟩
  | @inverse _ m' _ _ _ _ hs' _ _ hmid' hp =>
    obtain rfl : m' = m := by rcases hs with rfl | rfl <;> simpa [eq_comm] using hs'
    rw [hmid, Except.ok.injEq, Prod.mk.injEq] at hmid'
    exact .inr ⟨hp, hmid'.2.symm⟩
  | partialBlock => simp at hs

variable {x : α}

/-- Something is collected of a statement that is read. -/
def FromRead (src : Source) (f : Assembly → Mustache.Statement → List α) (x : α) (a : Assembly)
    (ss : List Mustache.Statement) : Prop :=
  ∃ s a', Passes src a ss (.reads s a') ∧ x ∈ f a' s

private theorem fromRead_cons {s : Mustache.Statement} {ss : List Mustache.Statement}
    (hb : Assembly.statement src a s = .ok b) :
    FromRead src f x a (s :: ss) ↔
      x ∈ f a s ∨ (∃ fallback p d, Enters src a s fallback p d
        ∧ FromRead src f x d.pushBody.2 p.body) ∨ FromRead src f x b ss := by
  constructor
  · rintro ⟨t, c, h, hx⟩
    rcases (Passes.reads_cons hb).mp h with ⟨rfl, rfl⟩ | ⟨fallback, p, d, henters, h⟩ | h
    · exact .inl hx
    · exact .inr (.inl ⟨fallback, p, d, henters, t, c, h, hx⟩)
    · exact .inr (.inr ⟨t, c, h, hx⟩)
  · rintro (hx | ⟨_, _, _, henters, t, c, h, hx⟩ | ⟨t, c, h, hx⟩)
    · exact ⟨s, a, .reads, hx⟩
    · exact ⟨t, c, .inside henters h, hx⟩
    · exact ⟨t, c, .later hb h, hx⟩

/-- The property that just what is read is collected. -/
def Collects (src : Source) (f : Assembly → Mustache.Statement → List α) (x : α) : RunProperty :=
  fun a ss _ => x ∈ collectAll src f a ss ↔ FromRead src f x a ss

theorem Inside.mem_collect {fallback : Nat} {p : Mustache.Program Mustache.Statement}
    {nodes : Section Statement} (h : Inside src (Collects src f x) a fallback p nodes b) :
    x ∈ collectAll src f a.pushBody.2 p.body ↔ FromRead src f x a.pushBody.2 p.body := by
  obtain ⟨hsection, hinside⟩ := h
  obtain ⟨inside, -, -, hstatements, -⟩ := sectionOf_ok hsection
  exact hinside inside hstatements

theorem Inside?.mem_collect {fallback : Nat} {p : Option (Mustache.Program Mustache.Statement)}
    {nodes : Option (Section Statement)}
    (h : Inside? src (Collects src f x) a fallback p nodes b) :
    x ∈ collectSection? src f a p ↔ ∃ q, p = some q ∧ FromRead src f x a.pushBody.2 q.body := by
  cases p with
  | none => simp [collectSection?]
  | some p =>
    obtain ⟨s, -, hs⟩ := h
    obtain ⟨body, params, chained⟩ := p
    simpa [collectSection?, collectSection] using hs.mem_collect

theorem collects (src : Source) (f : Assembly → Mustache.Statement → List α) (x : α) :
    Follows src (Collects src f x) where
  nil a := by
    simp only [Collects, collectAll, List.not_mem_nil, false_iff]
    rintro ⟨s, a', h, -⟩
    cases h
  flat {a b c s ss} hflat hb ih := by
    rw [Collects, collectAll_cons hb, collect_flat hflat, List.mem_append, fromRead_cons hb,
      show _ ↔ _ from ih]
    refine or_congr Iff.rfl ⟨.inr, ?_⟩
    rintro (⟨_, _, _, henters, -⟩ | h)
    · exact absurd hflat henters.not_flat
    · exact h
  block {a mid b c s child m node ss program inverse} hs hdata hcall hprogram hinverse hp hi hblock
      hb ih := by
    have hs' : s = .block m ∨ s = .decoratorBlock m := hs.imp And.left And.left
    rw [Collects, collectAll_cons hb, collect_block hs' hdata hprogram.read, List.mem_append,
      List.mem_append, List.mem_append, hprogram.mem_collect, hinverse.mem_collect,
      fromRead_cons hb, show _ ↔ _ from ih]
    constructor
    · rintro (((hx | ⟨p, hp, h⟩) | ⟨p, hp, h⟩) | h)
      · exact .inl hx
      · exact .inr (.inl ⟨_, p, _, .program hs' hdata hcall hp, h⟩)
      · exact .inr (.inl ⟨_, p, _, .inverse hs' hdata hcall hprogram.read hp, h⟩)
      · exact .inr (.inr h)
    · rintro (hx | ⟨_, p, _, henters, h⟩ | h)
      · exact .inl (.inl (.inl hx))
      · rcases henters.of_block hs' hprogram.read with ⟨hp, rfl⟩ | ⟨hp, rfl⟩
        · exact .inl (.inl (.inr ⟨p, hp, h⟩))
        · exact .inl (.inr ⟨p, hp, h⟩)
      · exact .inr h
  partialBlock {a b c m callee nodes ss} hcomment hcallee hsection hb ih := by
    rw [Collects, collectAll_cons hb, collect_partialBlock hcomment, List.mem_append,
      List.mem_append, hsection.mem_collect, fromRead_cons hb, show _ ↔ _ from ih]
    constructor
    · rintro ((hx | h) | h)
      · exact .inl hx
      · exact .inr (.inl ⟨_, _, _, .partialBlock hcomment hcallee, h⟩)
      · exact .inr (.inr h)
    · rintro (hx | ⟨_, _, _, henters, h⟩ | h)
      · exact .inl (.inl hx)
      · cases henters with
        | program hs | inverse hs => simp at hs
        | partialBlock => exact .inl (.inr h)
      · exact .inr h

end Collect

end HtmlTemplate.Tree.Assembly
