import HtmlTemplate.Proofs.Reading
import HtmlTemplate.Proofs.Written

/-! Every part of the mustache tree stands in the text between the delimiters that it was read
with, except for the block of an `{{else if}}`: it ends where the closing tag begins. -/

namespace HtmlTemplate.Mustache

variable {src : Source} {lo : Position} {ts : List Token}

mutual

def Expression.Exact (src : Source) : Expression → Prop
  | .path _ => True
  | .literal l loc => l.Written (src.slice (src.spanFor loc))
  | .call c loc => src.Delimits ['('] [')'] (src.spanFor loc) ∧ Call.Exact src c

def Call.Exact (src : Source) : Call Expression → Prop
  | ⟨callee, params, none⟩ => callee.Exact src ∧ paramsExact src params
  | ⟨callee, params, some ⟨pairs, _⟩⟩ =>
    callee.Exact src ∧ paramsExact src params ∧ pairsExact src pairs

def paramsExact (src : Source) : List Expression → Prop
  | [] => True
  | e :: es => e.Exact src ∧ paramsExact src es

def pairsExact (src : Source) : List (Pair Expression) → Prop
  | [] => True
  | ⟨_, value, _⟩ :: pairs => value.Exact src ∧ pairsExact src pairs

end

mutual

/-- A block is `linked` if it is that of an `{{else if}}`. -/
def Statement.Exact (src : Source) (linked : Bool) : Statement → Prop
  | .mustache m => src.Braced (src.spanFor m.loc) ∧ m.call.Exact src
  | .decorator m => src.Braced (src.spanFor m.loc) ∧ m.call.Exact src
  | .content _ => True
  | .comment c => src.Braced (src.spanFor c.loc)
  | .partialCall p => src.Braced (src.spanFor p.loc) ∧ p.call.Exact src
  | .block b => (linked = false → src.Braced (src.spanFor b.loc)) ∧ Block.Exact src b
  | .decoratorBlock b => src.Braced (src.spanFor b.loc) ∧ Block.Exact src b
  | .partialBlock ⟨call, ⟨body, _, chained⟩, _, _, loc⟩ =>
    src.Braced (src.spanFor loc) ∧ call.Exact src ∧ chained = false ∧ allExact src false body

def Block.Exact (src : Source) : Block Statement → Prop
  | ⟨call, program, inverse, _, _, _, _⟩ =>
    call.Exact src ∧ sectionExact src program ∧ sectionExact src inverse

def sectionExact (src : Source) : Option (Program Statement) → Prop
  | none => True
  | some p => Program.Exact src p

def Program.Exact (src : Source) : Program Statement → Prop
  | ⟨body, _, chained⟩ => (chained = true → ∃ b, body = [.block b]) ∧ allExact src chained body

def allExact (src : Source) (linked : Bool) : List Statement → Prop
  | [] => True
  | s :: ss => s.Exact src linked ∧ allExact src linked ss

end

def AllWritten (src : Source) (ts : List Token) : Prop :=
  ∀ t ∈ ts, t.Written src

theorem AllWritten.suffix {rest : List Token} (h : AllWritten src ts) (hrest : rest <:+ ts) :
    AllWritten src rest :=
  fun t ht => h t (hrest.subset ht)

theorem AllWritten.tail {t : Token} (h : AllWritten src (t :: ts)) : AllWritten src ts :=
  h.suffix (List.suffix_cons t ts)

namespace Token.Written

variable {t close : Token}

theorem literal {l : Literal} (h : t.Written src) (hsymbol : t.symbol = .literal l) :
    l.Written (src.slice (src.spanFor t.loc)) := by
  obtain ⟨cs, hcovers, hcs⟩ := h
  rw [hsymbol] at hcs
  exact hcovers.slice_spanFor ▸ hcs

theorem comment {text : List Char} (h : t.Written src) (hsymbol : t.symbol = .comment text) :
    src.Braced (src.spanFor t.loc) := by
  obtain ⟨cs, hcovers, hcs⟩ := h
  rw [hsymbol] at hcs
  obtain ⟨inner, rfl⟩ := hcs
  exact ⟨inner, hcovers.slice_spanFor⟩

theorem parentheses (h : t.Written src) (hclose : close.Written src)
    (hsymbol : t.symbol = .openCall) (hsymbol' : close.symbol = .closeCall)
    (hle : t.loc.stop ≤ close.loc.start) :
    src.Delimits ['('] [')'] (src.spanFor ⟨t.loc.start, close.loc.stop⟩) := by
  obtain ⟨cs, hcovers, hcs⟩ := h
  obtain ⟨cs', hcovers', hcs'⟩ := hclose
  rw [hsymbol] at hcs
  rw [hsymbol'] at hcs'
  obtain rfl : cs = ['('] := hcs
  obtain rfl : cs' = [')'] := hcs'
  exact hcovers.delimits hcovers' hle

theorem braces {o : Opener} (h : t.Written src) (hclose : close.Written src)
    (hsymbol : t.symbol = .opener o) (hsymbol' : close.symbol = .close ∨ close.symbol = .closeRaw)
    (hle : t.loc.stop ≤ close.loc.start) :
    src.Braced (src.spanFor ⟨t.loc.start, close.loc.stop⟩) := by
  obtain ⟨cs, hcovers, hcs⟩ := h
  obtain ⟨cs', hcovers', hcs'⟩ := hclose
  rw [hsymbol] at hcs
  have hsuffix : ['}', '}'] <:+ cs' := by
    rcases hsymbol' with hsymbol' | hsymbol' <;> rwa [hsymbol'] at hcs'
  obtain ⟨more, rfl⟩ : ['{', '{'] <+: cs := hcs
  obtain ⟨before, rfl⟩ := hsuffix
  obtain ⟨hopen, hstop⟩ := hcovers.left
  obtain ⟨hclose, hstart⟩ := hcovers'.right
  exact hopen.delimits hclose (le_trans hstop (le_trans hle hstart))

end Token.Written

theorem pathFrom_exact {p : Path} {r : ParsedAny ts Expression} (h : pathFrom p ts = .ok r) :
    r.value.Exact src := by
  cases ts with
  | nil =>
    cases h
    trivial
  | cons t ts =>
    simp only [pathFrom] at h
    split at h
    · simp only [bind_eq_ok, pure_eq_ok] at h
      obtain ⟨_, _, _, _, rfl⟩ := h
      trivial
    · cases h
      trivial

theorem AllWritten.closed {t closing : Token} {mid : Position} {rest : List Token}
    (hwritten : AllWritten src (t :: ts)) (hleaves : Leaves t.loc.stop ts mid (closing :: rest)) :
    closing.Written src ∧ t.loc.stop ≤ closing.loc.start :=
  ⟨hwritten.tail.suffix hleaves.suffix closing List.mem_cons_self,
    le_trans hleaves.le hleaves.sorted.1⟩

mutual

theorem Expression.Read.exact {lo : Position} {ts rest : List Token} {e : Expression} :
    Expression.Read ts e rest → Sorted lo ts → AllWritten src ts → e.Exact src
  | .call hopening hcall hclosing, hts, hwritten => by
    obtain ⟨mid, hleaves, -⟩ := hcall.within hts.2.2
    obtain ⟨hclosed, hle⟩ := hwritten.closed hleaves
    exact ⟨(hwritten _ List.mem_cons_self).parentheses hclosed hopening hclosing hle,
      hcall.exact hts.2.2 hwritten.tail⟩
  | .name _ hpath, _, _ => by
    simp only [namePath, bind_eq_ok, pure_eq_ok] at hpath
    obtain ⟨_, -, _, -, hpath⟩ := hpath
    cases hpath
    trivial
  | .data _ hpath, _, _ => pathFrom_exact hpath
  | .literal hsymbol, _, hwritten => (hwritten _ List.mem_cons_self).literal hsymbol

theorem Call.Read.exact {lo : Position} {ts rest : List Token} {c : Call Expression} :
    Call.Read ts c rest → Sorted lo ts → AllWritten src ts → c.Exact src
  | @Call.Read.intro _ _ _ _ _ _ pairs hcallee hparams hpairs, hts, hwritten => by
    obtain ⟨mid₁, hleaves₁, -⟩ := hcallee.within hts
    obtain ⟨mid₂, hleaves₂, -⟩ := hparams.within hleaves₁.sorted
    have hwritten₁ := hwritten.suffix hleaves₁.suffix
    have hcallee := hcallee.exact hts hwritten
    have hparams := hparams.exact hleaves₁.sorted hwritten₁
    have hpairs := hpairs.exact hleaves₂.sorted (hwritten₁.suffix hleaves₂.suffix)
    cases hhash : Hash.ofPairs? pairs with
    | none => exact ⟨hcallee, hparams⟩
    | some hash =>
      obtain ⟨_, _, -, -, rfl⟩ := Hash.ofPairs?_eq_some hhash
      exact ⟨hcallee, hparams, hpairs⟩

theorem paramsRead.exact {lo : Position} {ts rest : List Token} {es : List Expression} :
    paramsRead ts es rest → Sorted lo ts → AllWritten src ts → paramsExact src es
  | .nil _, _, _ => trivial
  | .cons _ he hes, hts, hwritten => by
    obtain ⟨mid, hleaves, -⟩ := he.within hts
    exact ⟨he.exact hts hwritten, hes.exact hleaves.sorted (hwritten.suffix hleaves.suffix)⟩

theorem pairsRead.exact {lo : Position} {ts rest : List Token} {ps : List (Pair Expression)} :
    pairsRead ts ps rest → Sorted lo ts → AllWritten src ts → pairsExact src ps
  | .nil _, _, _ => trivial
  | .cons _ _ hvalue hpairs, hts, hwritten => by
    have hvalues := hwritten.tail.tail
    obtain ⟨mid, hleaves, -⟩ := hvalue.within hts.2.2.2.2
    exact ⟨hvalue.exact hts.2.2.2.2 hvalues,
      hpairs.exact hleaves.sorted (hvalues.suffix hleaves.suffix)⟩

end

theorem CallTag.exact {t : Token} {o : Opener} {ending : Symbol} {c : Call Expression}
    {strip : Strip} {loc : Location} {rest : List Token}
    (h : CallTag t ending ts c strip loc rest) (ht : t.symbol = .opener o)
    (hending : ending = .close ∨ ending = .closeRaw) (hts : Sorted lo (t :: ts))
    (hwritten : AllWritten src (t :: ts)) : src.Braced (src.spanFor loc) ∧ c.Exact src := by
  obtain ⟨hcall, rfl⟩ := h
  obtain ⟨mid, hleaves, -⟩ := hcall.within hts.2.2
  obtain ⟨hclosed, hle⟩ := hwritten.closed hleaves
  exact ⟨(hwritten t List.mem_cons_self).braces hclosed ht hending hle,
    hcall.exact hts.2.2 hwritten.tail⟩

theorem Head.Read.exact {t : Token} {opened : Head} {rest : List Token}
    (h : Head.Read t ts opened rest) (hts : Sorted lo (t :: ts))
    (hwritten : AllWritten src (t :: ts)) : opened.call.Exact src := by
  obtain ⟨hcall, -, -⟩ := h
  exact hcall.exact hts.2.2 hwritten.tail

theorem Closer.Read.braces {t : Token} {o : Opener} {hi : Position} {rest rest' : List Token}
    {opened : Head} {closed : Closer} (h : Closer.Read opened rest closed rest')
    (ht : t.symbol = .opener o) (hleaves : Leaves lo (t :: ts) hi rest) (hle : t.loc.stop ≤ hi)
    (hwritten : AllWritten src (t :: ts)) :
    src.Braced (src.spanFor ⟨t.loc.start, closed.stop⟩) := by
  obtain ⟨-, hname, hclosing⟩ := h
  obtain ⟨mid, hleaves', -⟩ := hname.within hleaves.sorted.2.2
  obtain ⟨hclosed, hle'⟩ := (hwritten.suffix hleaves.suffix).closed hleaves'
  have hstart := le_trans hleaves.sorted.1 hleaves.sorted.2.1.1
  exact (hwritten t List.mem_cons_self).braces hclosed ht (.inl hclosing)
    (le_trans hle (le_trans hstart hle'))

structure Sections.Exact (src : Source) (s : Sections) : Prop where
  chain : ∀ x ∈ s.chain, x.1.call.Exact src ∧ allExact src false x.2
  last : ∀ x ∈ s.last, allExact src false x.2

private theorem inverse?_exact {closer : Closer} {last : Option (Strip × List Statement)}
    {first : Bool}
    {chain : List (Head × List Statement)} (h : Sections.Exact src ⟨chain, last⟩) :
    sectionExact src ((Sections.inverse? closer last first chain).map (·.2)) := by
  obtain ⟨hchain, hlast⟩ := h
  induction chain generalizing first with
  | nil =>
    cases last with
    | none => trivial
    | some last => exact ⟨by rintro ⟨⟩, hlast last rfl⟩
  | cons x more ih =>
    obtain ⟨⟨hcall, hbody⟩, hmore⟩ := List.forall_mem_cons.mp hchain
    exact ⟨fun _ => ⟨_, rfl⟩, ⟨by rintro ⟨⟩, hcall, ⟨by rintro ⟨⟩, hbody⟩, ih hmore hlast⟩, trivial⟩

theorem ofSections_exact {head : Head} {inverted : Bool} {body : List Statement}
    {sections : Sections} {closer : Closer} (hcall : head.call.Exact src)
    (hbody : allExact src false body) (hsections : sections.Exact src) :
    Block.Exact src (.ofSections head inverted body sections closer) := by
  have hmain : Program.Exact src ⟨body, head.params, false⟩ := ⟨by rintro ⟨⟩, hbody⟩
  cases inverted with
  | false => exact ⟨hcall, hmain, inverse?_exact hsections⟩
  | true => exact ⟨hcall, inverse?_exact hsections, hmain⟩

mutual

theorem bodyRead.exact {lo : Position} {ts rest : List Token} {ss : List Statement} :
    bodyRead ts ss rest → Sorted lo ts → AllWritten src ts → allExact src false ss
  | .nil _, _, _ => trivial
  | .cons _ hs hss, hts, hwritten => by
    obtain ⟨mid, hleaves, -⟩ := hs.laid hts
    exact ⟨hs.exact hts hwritten, hss.exact hleaves.sorted (hwritten.suffix hleaves.suffix)⟩

theorem Statement.Read.exact {lo : Position} {ts rest : List Token} {s : Statement} :
    Statement.Read ts s rest → Sorted lo ts → AllWritten src ts → s.Exact src false
  | .content _, _, _ => trivial
  | .comment hsymbol, _, hwritten => (hwritten _ List.mem_cons_self).comment hsymbol
  | .mustache hsymbol _ htag, hts, hwritten =>
    htag.exact hsymbol (Opener.ending_eq _) hts hwritten
  | .decorator hsymbol htag, hts, hwritten => htag.exact hsymbol (.inl rfl) hts hwritten
  | .partialCall hsymbol htag, hts, hwritten => htag.exact hsymbol (.inl rfl) hts hwritten
  | .block _ hsymbol hhead hfirst hmore hcloser, hts, hwritten => by
    obtain ⟨_, -, -, hleaves₁, hstart, -, hopen⟩ := hhead.leaves hts
    obtain ⟨_, hleaves₂, -⟩ := hfirst.laid hleaves₁.sorted
    obtain ⟨-, _, hleaves₃, -⟩ := hmore.laid hleaves₂.sorted hcloser.starts
    have hwritten₁ := hwritten.suffix hleaves₁.suffix
    have hbraces := hcloser.braces hsymbol ((hleaves₁.trans hleaves₂).trans hleaves₃)
      (le_trans hopen (le_trans hleaves₂.le hleaves₃.le)) hwritten
    rw [← hstart] at hbraces
    exact ⟨fun _ => hbraces, ofSections_exact (hhead.exact hts hwritten)
      (hfirst.exact hleaves₁.sorted hwritten₁)
      (hmore.exact hleaves₂.sorted (hwritten₁.suffix hleaves₂.suffix))⟩
  | .decoratorBlock hsymbol hhead hfirst hcloser, hts, hwritten => by
    obtain ⟨_, -, -, hleaves₁, hstart, -, hopen⟩ := hhead.leaves hts
    obtain ⟨_, hleaves₂, -⟩ := hfirst.laid hleaves₁.sorted
    have hbraces := hcloser.braces hsymbol (hleaves₁.trans hleaves₂)
      (le_trans hopen hleaves₂.le) hwritten
    rw [← hstart] at hbraces
    exact ⟨hbraces, ofSections_exact (hhead.exact hts hwritten)
      (hfirst.exact hleaves₁.sorted (hwritten.suffix hleaves₁.suffix))
      ⟨List.forall_mem_nil _, by rintro _ ⟨⟩⟩⟩
  | .partialBlock hsymbol hhead hfirst hcloser, hts, hwritten => by
    obtain ⟨_, -, -, hleaves₁, hstart, -, hopen⟩ := hhead.leaves hts
    obtain ⟨_, hleaves₂, -⟩ := hfirst.laid hleaves₁.sorted
    have hbraces := hcloser.braces hsymbol (hleaves₁.trans hleaves₂)
      (le_trans hopen hleaves₂.le) hwritten
    rw [← hstart] at hbraces
    exact ⟨hbraces, hhead.exact hts hwritten, rfl,
      hfirst.exact hleaves₁.sorted (hwritten.suffix hleaves₁.suffix)⟩

theorem Sections.Read.exact {inverted : Bool} {lo : Position} {ts rest : List Token}
    {more : Sections} :
    Sections.Read inverted ts more rest → Sorted lo ts → AllWritten src ts → more.Exact src
  | .nil _ _, _, _ => ⟨List.forall_mem_nil _, by rintro _ ⟨⟩⟩
  | .chain _ hhead hfirst hmore, hts, hwritten => by
    obtain ⟨_, -, -, hleaves₁, -⟩ := hhead.leaves hts
    obtain ⟨_, hleaves₂, -⟩ := hfirst.laid hleaves₁.sorted
    have hwritten₁ := hwritten.suffix hleaves₁.suffix
    obtain ⟨hchain, hlast⟩ := hmore.exact hleaves₂.sorted (hwritten₁.suffix hleaves₂.suffix)
    exact ⟨List.forall_mem_cons.mpr ⟨⟨hhead.exact hts hwritten,
      hfirst.exact hleaves₁.sorted hwritten₁⟩, hchain⟩, hlast⟩
  | .last _ hbody, hts, hwritten => by
    refine ⟨List.forall_mem_nil _, ?_⟩
    rintro _ ⟨⟩
    exact hbody.exact hts.2.2 hwritten.tail

end

mutual

theorem exact_bare {linked : Bool} :
    (s : Statement) → (s.bare.Exact src linked ↔ s.Exact src linked)
  | .mustache _ => by rfl
  | .decorator _ => by rfl
  | .content _ => by rfl
  | .comment _ => by rfl
  | .partialCall _ => by rfl
  | .block ⟨_, program, inverse, _, _, _, _⟩ =>
    and_congr_right fun _ => and_congr_right fun _ =>
      and_congr (sectionExact_bare program) (sectionExact_bare inverse)
  | .decoratorBlock ⟨_, program, inverse, _, _, _, _⟩ =>
    and_congr_right fun _ => and_congr_right fun _ =>
      and_congr (sectionExact_bare program) (sectionExact_bare inverse)
  | .partialBlock ⟨_, ⟨body, _, _⟩, _, _, _⟩ =>
    and_congr_right fun _ => and_congr_right fun _ => and_congr_right fun _ => allExact_bareAll body

theorem sectionExact_bare :
    (p : Option (Program Statement)) → (sectionExact src (bareSection p) ↔ sectionExact src p)
  | none => by rfl
  | some ⟨body, _, _⟩ =>
    and_congr (imp_congr_right fun _ => exists_block_bareAll) (allExact_bareAll body)

theorem allExact_bareAll {linked : Bool} :
    (ss : List Statement) → (allExact src linked (bareAll ss) ↔ allExact src linked ss)
  | [] => by rfl
  | s :: ss => and_congr (exact_bare s) (allExact_bareAll ss)

end

/-- Every part of the tree of a template is delimited. -/
theorem parse_exact {text : List Char} {keepLines : Bool} {p : Program Statement}
    (name : Option String) (h : parse text keepLines = .ok p) :
    allExact ⟨text, name⟩ false p.body := by
  obtain ⟨ts, body, rest, hscan, hbody, -, htrims⟩ := parse_written h
  have hwritten : AllWritten ⟨text, name⟩ ts := scan_written hscan
  have hbare : bareAll p.body = bareAll body := htrims.1
  rw [← allExact_bareAll, hbare, allExact_bareAll]
  exact hbody.exact (scan_sorted hscan) hwritten

end HtmlTemplate.Mustache
