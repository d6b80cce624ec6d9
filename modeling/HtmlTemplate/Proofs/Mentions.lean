import HtmlTemplate.Proofs.Segments
import HtmlTemplate.Proofs.Spelling

/-! The calls of a template and the paths in them, all of which have been read from its tokens. -/

namespace HtmlTemplate.Mustache

mutual

def Expression.paths : Expression → List Path
  | .path p => [p]
  | .call c _ => Call.paths c
  | .literal _ _ => []

def Call.paths : Call Expression → List Path
  | ⟨callee, params, none⟩ => callee.paths ++ pathsAll params
  | ⟨callee, params, some ⟨pairs, _⟩⟩ => callee.paths ++ (pathsAll params ++ pairsPaths pairs)

def pathsAll : List Expression → List Path
  | [] => []
  | e :: es => e.paths ++ pathsAll es

def pairsPaths : List (Pair Expression) → List Path
  | [] => []
  | ⟨_, value, _⟩ :: pairs => value.paths ++ pairsPaths pairs

end

mutual

def Statement.calls : Statement → List (Position × Call Expression)
  | .mustache m => [(m.loc.start, m.call)]
  | .decorator m => [(m.loc.start, m.call)]
  | .content _ => []
  | .comment _ => []
  | .partialCall p => [(p.loc.start, p.call)]
  | .block b => Block.calls b
  | .decoratorBlock b => Block.calls b
  | .partialBlock ⟨call, program, _, _, loc⟩ => (loc.start, call) :: Program.calls program

def Block.calls : Block Statement → List (Position × Call Expression)
  | ⟨call, program, inverse, _, _, _, loc⟩ =>
    (loc.start, call) :: (sectionCalls program ++ sectionCalls inverse)

def Program.calls : Program Statement → List (Position × Call Expression)
  | ⟨body, _, _⟩ => callsAll body

def sectionCalls : Option (Program Statement) → List (Position × Call Expression)
  | none => []
  | some p => Program.calls p

def callsAll : List Statement → List (Position × Call Expression)
  | [] => []
  | s :: ss => s.calls ++ callsAll ss

end

variable {lo : Position} {ts rest : List Token}

def Path.Mentioned (ts : List Token) (p : Path) : Prop :=
  p.From ts ∨ p.written = ['@'] ∧ p.parts = []

theorem Path.Mentioned.mono {p : Path} (h : p.Mentioned rest) (hrest : rest <:+ ts) :
    p.Mentioned ts := by
  refine h.imp_left ?_
  rintro ⟨run, w, hrun, hwritten, hread⟩
  exact ⟨run, w, hrun.trans hrest.isInfix, hwritten, hread⟩

mutual

theorem Expression.Read.mentions {lo : Position} {ts rest : List Token} {e : Expression} :
    Expression.Read ts e rest → Sorted lo ts → ∀ p ∈ e.paths, p.Mentioned ts
  | .call _ hcall _, hts => fun p hp =>
    (hcall.mentions hts.2.2 p hp).mono (List.suffix_cons _ _)
  | .name hsymbol hpath, _ => by
    obtain ⟨p, rfl, hfrom⟩ := namePath_from hsymbol hpath
    exact List.forall_mem_singleton.mpr (.inl hfrom)
  | .data hsymbol hpath, _ => by
    obtain ⟨p, rfl, hmentioned⟩ := pathFrom_from hsymbol hpath
    exact List.forall_mem_singleton.mpr hmentioned
  | .literal _, _ => List.forall_mem_nil _

theorem Call.Read.mentions {lo : Position} {ts rest : List Token} {c : Call Expression} :
    Call.Read ts c rest → Sorted lo ts → ∀ p ∈ c.paths, p.Mentioned ts
  | @Call.Read.intro _ _ _ _ _ params pairs hcallee hparams hpairs, hts => by
    obtain ⟨mid₁, hleaves₁, -⟩ := hcallee.within hts
    obtain ⟨mid₂, hleaves₂, -⟩ := hparams.within hleaves₁.sorted
    have hcallee := hcallee.mentions hts
    have hparams : ∀ p ∈ pathsAll params, p.Mentioned ts := fun p hp =>
      (hparams.mentions hleaves₁.sorted p hp).mono hleaves₁.suffix
    have hpairs : ∀ p ∈ pairsPaths pairs, p.Mentioned ts := fun p hp =>
      (hpairs.mentions hleaves₂.sorted p hp).mono (hleaves₁.trans hleaves₂).suffix
    cases hhash : Hash.ofPairs? pairs with
    | none => exact List.forall_mem_append.mpr ⟨hcallee, hparams⟩
    | some hash =>
      obtain ⟨_, _, -, -, rfl⟩ := Hash.ofPairs?_eq_some hhash
      exact List.forall_mem_append.mpr ⟨hcallee, List.forall_mem_append.mpr ⟨hparams, hpairs⟩⟩

theorem paramsRead.mentions {lo : Position} {ts rest : List Token} {es : List Expression} :
    paramsRead ts es rest → Sorted lo ts → ∀ p ∈ pathsAll es, p.Mentioned ts
  | .nil _, _ => List.forall_mem_nil _
  | .cons _ he hes, hts => by
    obtain ⟨mid, hleaves, -⟩ := he.within hts
    exact List.forall_mem_append.mpr ⟨he.mentions hts, fun p hp =>
      (hes.mentions hleaves.sorted p hp).mono hleaves.suffix⟩

theorem pairsRead.mentions {lo : Position} {ts rest : List Token} {ps : List (Pair Expression)} :
    pairsRead ts ps rest → Sorted lo ts → ∀ p ∈ pairsPaths ps, p.Mentioned ts
  | .nil _, _ => List.forall_mem_nil _
  | @pairsRead.cons key eq ts _ _ _ _ _ _ _ _ hvalue hpairs, hts => by
    have hvalues : ts <:+ key :: eq :: ts := List.suffix_append [key, eq] ts
    obtain ⟨mid, hleaves, -⟩ := hvalue.within hts.2.2.2.2
    exact List.forall_mem_append.mpr
      ⟨fun p hp => (hvalue.mentions hts.2.2.2.2 p hp).mono hvalues, fun p hp =>
        (hpairs.mentions hleaves.sorted p hp).mono (hleaves.suffix.trans hvalues)⟩

end

/-- What stands around the call of a tag: the token that opens it, its block parameters if there
are any, and the token that closes it. -/
structure Surrounds (opening : Token) (names : List Token) (closing : Token) : Prop where
  names : Barred names
  ends : ∃ o, opening.symbol = .opener o ∧ closing.symbol = o.ending

/-- A call has been read as all that is called in a tag that begins at a position. -/
inductive Call.ReadIn (ts : List Token) : Position → Call Expression → Prop
  | intro {lo : Position} {opening closing : Token} {rest names after : List Token}
    {c : Call Expression} (hrest : opening :: rest <:+ ts) (hsorted : Sorted lo (opening :: rest))
    (hcall : Call.Read rest c (names ++ closing :: after))
    (hends : Surrounds opening names closing) : Call.ReadIn ts opening.loc.start c

def ReadIn (ts : List Token) (calls : List (Position × Call Expression)) : Prop :=
  ∀ call ∈ calls, call.2.ReadIn ts call.1

theorem Call.ReadIn.mono {start : Position} {c : Call Expression} (h : c.ReadIn rest start)
    (hrest : rest <:+ ts) : c.ReadIn ts start := by
  obtain ⟨hlast, hsorted, hcall, hends⟩ := h
  exact .intro (hlast.trans hrest) hsorted hcall hends

theorem ReadIn.mono {calls : List (Position × Call Expression)} (h : ReadIn rest calls)
    (hrest : rest <:+ ts) : ReadIn ts calls :=
  fun call hcall => (h call hcall).mono hrest

theorem Call.ReadIn.mentions {start : Position} {c : Call Expression} (h : c.ReadIn ts start) :
    ∀ p ∈ c.paths, p.Mentioned ts := by
  obtain ⟨hrest, hsorted, hcall, -⟩ := h
  intro p hp
  exact (hcall.mentions hsorted.2.2 p hp).mono ((List.suffix_cons _ _).trans hrest)

theorem CallTag.readIn {t : Token} {o : Opener} {ending : Symbol} {c : Call Expression}
    {strip : Strip} {loc : Location} {rest : List Token}
    (h : CallTag t ending ts c strip loc rest) (ht : t.symbol = .opener o)
    (hending : ending = o.ending) (hts : Sorted lo (t :: ts)) : c.ReadIn (t :: ts) loc.start := by
  obtain ⟨hcall, hclosing⟩ := h
  have hends := Surrounds.mk Barred.none ⟨o, ht, hclosing.trans hending⟩
  exact .intro (List.suffix_refl _) hts hcall hends

theorem Head.Read.readIn {t : Token} {o : Opener} {opened : Head} {rest : List Token}
    (h : Head.Read t ts opened rest) (ht : t.symbol = .opener o) (hending : o.ending = .close)
    (hts : Sorted lo (t :: ts)) : opened.call.ReadIn (t :: ts) opened.start := by
  obtain ⟨hcall, hparams, hclosing⟩ := h
  obtain ⟨names, hmid, hnames⟩ := blockParams_tokens hparams
  rw [hmid] at hcall
  exact .intro (List.suffix_refl _) hts hcall ⟨hnames, o, ht, hclosing.trans hending.symm⟩

def Sections.calls (s : Sections) : List (Position × Call Expression) :=
  s.chain.flatMap (fun (head, body) => (head.start, head.call) :: callsAll body)
    ++ s.last.elim [] fun (_, body) => callsAll body

theorem Sections.calls_cons (head : Head) (body : List Statement) (s : Sections) :
    Sections.calls { s with chain := (head, body) :: s.chain }
      = (head.start, head.call) :: (callsAll body ++ s.calls) := by
  simp [Sections.calls]

private theorem inverse?_calls (closer : Closer) (first : Bool) (s : Sections) :
    sectionCalls ((Sections.inverse? closer s.last first s.chain).map (·.2)) = s.calls := by
  obtain ⟨chain, last⟩ := s
  induction chain generalizing first with
  | nil => cases last <;> rfl
  | cons x more ih =>
    rw [← Prod.mk.eta (p := x), Sections.calls_cons x.1 x.2 ⟨more, last⟩, ← ih false]
    simp [Sections.inverse?, sectionCalls, Program.calls, callsAll, Statement.calls, Block.calls]

theorem ofSections_calls {head : Head} {inverted : Bool} {body : List Statement}
    {sections : Sections} {closer : Closer} (hhead : head.call.ReadIn ts head.start)
    (hbody : ReadIn ts (callsAll body)) (hsections : ReadIn ts sections.calls) :
    ReadIn ts (Block.calls (.ofSections head inverted body sections closer)) := by
  rw [← inverse?_calls closer true sections] at hsections
  cases inverted with
  | false =>
    exact List.forall_mem_cons.mpr ⟨hhead, List.forall_mem_append.mpr ⟨hbody, hsections⟩⟩
  | true =>
    exact List.forall_mem_cons.mpr ⟨hhead, List.forall_mem_append.mpr ⟨hsections, hbody⟩⟩

mutual

theorem bodyRead.calls {lo : Position} {ts rest : List Token} {ss : List Statement} :
    bodyRead ts ss rest → Sorted lo ts → ReadIn ts (callsAll ss)
  | .nil _, _ => List.forall_mem_nil _
  | .cons _ hs hss, hts => by
    obtain ⟨mid, hleaves, -⟩ := hs.laid hts
    exact List.forall_mem_append.mpr
      ⟨hs.calls hts, (hss.calls hleaves.sorted).mono hleaves.suffix⟩

theorem Statement.Read.calls {lo : Position} {ts rest : List Token} {s : Statement} :
    Statement.Read ts s rest → Sorted lo ts → ReadIn ts s.calls
  | .content _, _ => List.forall_mem_nil _
  | .comment _, _ => List.forall_mem_nil _
  | .mustache hsymbol _ htag, hts => List.forall_mem_singleton.mpr (htag.readIn hsymbol rfl hts)
  | .decorator hsymbol htag, hts => List.forall_mem_singleton.mpr (htag.readIn hsymbol rfl hts)
  | .partialCall hsymbol htag, hts => List.forall_mem_singleton.mpr (htag.readIn hsymbol rfl hts)
  | .block inverted hsymbol hhead hfirst hmore _, hts => by
    obtain ⟨_, -, -, hleaves₁, -⟩ := hhead.leaves hts
    obtain ⟨_, hleaves₂, -⟩ := hfirst.laid hleaves₁.sorted
    refine ofSections_calls (hhead.readIn hsymbol (by cases inverted <;> rfl) hts) ?_ ?_
    · exact (hfirst.calls hleaves₁.sorted).mono hleaves₁.suffix
    · exact (hmore.calls hleaves₂.sorted).mono (hleaves₁.trans hleaves₂).suffix
  | .decoratorBlock hsymbol hhead hfirst _, hts => by
    obtain ⟨_, -, -, hleaves₁, -⟩ := hhead.leaves hts
    refine ofSections_calls (hhead.readIn hsymbol rfl hts) ?_ (List.forall_mem_nil _)
    exact (hfirst.calls hleaves₁.sorted).mono hleaves₁.suffix
  | .partialBlock hsymbol hhead hfirst _, hts => by
    obtain ⟨_, -, -, hleaves₁, -⟩ := hhead.leaves hts
    exact List.forall_mem_cons.mpr ⟨hhead.readIn hsymbol rfl hts,
      (hfirst.calls hleaves₁.sorted).mono hleaves₁.suffix⟩

theorem Sections.Read.calls {inverted : Bool} {lo : Position} {ts rest : List Token}
    {more : Sections} :
    Sections.Read inverted ts more rest → Sorted lo ts → ReadIn ts more.calls
  | .nil _ _, _ => List.forall_mem_nil _
  | .chain hsymbol hhead hfirst hmore, hts => by
    obtain ⟨_, -, -, hleaves₁, -⟩ := hhead.leaves hts
    obtain ⟨_, hleaves₂, -⟩ := hfirst.laid hleaves₁.sorted
    rw [Sections.calls_cons]
    exact List.forall_mem_cons.mpr ⟨hhead.readIn hsymbol rfl hts, List.forall_mem_append.mpr
      ⟨(hfirst.calls hleaves₁.sorted).mono hleaves₁.suffix,
        (hmore.calls hleaves₂.sorted).mono (hleaves₁.trans hleaves₂).suffix⟩⟩
  | .last _ hbody, hts => (hbody.calls hts.2.2).mono (List.suffix_cons _ _)

end

mutual

theorem calls_bare : (s : Statement) → s.bare.calls = s.calls
  | .mustache _ => by rfl
  | .decorator _ => by rfl
  | .content _ => by rfl
  | .comment _ => by rfl
  | .partialCall _ => by rfl
  | .block ⟨_, program, inverse, _, _, _, _⟩ =>
    congrArg₂ (fun cs cs' => _ :: (cs ++ cs')) (calls_bareSection program)
      (calls_bareSection inverse)
  | .decoratorBlock ⟨_, program, inverse, _, _, _, _⟩ =>
    congrArg₂ (fun cs cs' => _ :: (cs ++ cs')) (calls_bareSection program)
      (calls_bareSection inverse)
  | .partialBlock ⟨_, ⟨body, _, _⟩, _, _, _⟩ => congrArg (_ :: ·) (callsAll_bareAll body)

theorem calls_bareSection : (p : Option (Program Statement)) →
    sectionCalls (bareSection p) = sectionCalls p
  | none => by rfl
  | some ⟨body, _, _⟩ => callsAll_bareAll body

theorem callsAll_bareAll : (ss : List Statement) → callsAll (bareAll ss) = callsAll ss
  | [] => by rfl
  | s :: ss => congrArg₂ (· ++ ·) (calls_bare s) (callsAll_bareAll ss)

end

theorem parse_calls {text : List Char} {keepLines : Bool} {p : Program Statement}
    (h : parse text keepLines = .ok p) :
    ∃ ts, scan text = .ok ts ∧ ReadIn ts (callsAll p.body) := by
  obtain ⟨ts, body, rest, hscan, hbody, -, htrims⟩ := parse_written h
  have hbare : bareAll p.body = bareAll body := htrims.1
  refine ⟨ts, hscan, ?_⟩
  rw [← callsAll_bareAll, hbare, callsAll_bareAll]
  exact hbody.calls (scan_sorted hscan)

end HtmlTemplate.Mustache
