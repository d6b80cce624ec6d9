import HtmlTemplate.Proofs.Evaluation
import HtmlTemplate.Proofs.Neighbours
import Mathlib.Data.List.Permutation

/-! Blocks with `{{else if}}`. Each of them is a block in the inverse of the one before, so that
a block with its sections is a chain of blocks. Following the chain gives back the sections as
they are written, in order: nothing is lost, exchanged or put into another section. -/

namespace HtmlTemplate.Mustache

/-- A block and the blocks that its `{{else if}}`s are, each in the inverse of the one before. -/
def Block.chain : Block Statement → List (Block Statement)
  | ⟨call, program, some ⟨[.block next], params, true⟩, openStrip, inverseStrip, closeStrip, loc⟩ =>
    ⟨call, program, some ⟨[.block next], params, true⟩, openStrip, inverseStrip, closeStrip, loc⟩
      :: next.chain
  | b => [b]

/-- What is left when a chain has been followed to its end. -/
def Block.lastInverse (b : Block Statement) : Option (Program Statement) :=
  b.chain.getLast?.bind (·.inverse)

/-- A tag that opens a section of a block, with the section: their tokens, and what is read
of them. -/
structure ChainSection where
  opening : Token
  /-- The tokens between the braces of the tag. -/
  inside : List Token
  closing : Token
  main : List Token
  call : Call Expression
  params : List (List Char)
  body : List Statement

/-- An `{{else}}` with the section after it. -/
structure ElseSection where
  tag : Token
  main : List Token
  body : List Statement

/-- A block with its sections and its closing tag. -/
structure WrittenBlock where
  first : ChainSection
  links : List ChainSection
  last : Option ElseSection
  opening : Token
  /-- The tokens between the braces of the closing tag. -/
  name : List Token
  closing : Token

namespace ChainSection

def tokens (s : ChainSection) : List Token :=
  s.opening :: (s.inside ++ s.closing :: s.main)

def head (s : ChainSection) : Head :=
  ⟨s.call, s.params, tagStrip s.opening s.closing, s.opening.loc.start⟩

/-- The section is read in front of other tokens. -/
structure Reads (o : Opener) (s : ChainSection) (rest : List Token) : Prop where
  opening : s.opening.symbol = .opener o
  inside : ∀ t ∈ s.inside, t.symbol.isInner = true
  closing : s.closing.symbol = .close
  head : ∃ h, Mustache.head s.opening (s.inside ++ s.closing :: (s.main ++ rest))
    = .ok ⟨s.head, s.main ++ rest, h⟩
  body : ∃ h, statements (s.main ++ rest) = .ok ⟨s.body, rest, h⟩

end ChainSection

namespace ElseSection

def tokens (s : ElseSection) : List Token :=
  s.tag :: s.main

structure Reads (s : ElseSection) (rest : List Token) : Prop where
  tag : s.tag.symbol = .elseTag
  body : ∃ h, statements (s.main ++ rest) = .ok ⟨s.body, rest, h⟩

end ElseSection

/-- The tokens of the sections after the first one. -/
def linkTokens (last : Option ElseSection) (links : List ChainSection) : List Token :=
  links.flatMap (·.tokens) ++ last.elim [] (·.tokens)

/-- The sections after the first one are read in front of other tokens. -/
def LinksRead (last : Option ElseSection) (rest : List Token) : List ChainSection → Prop
  | [] => ∀ s, last = some s → s.Reads rest
  | s :: links => s.Reads .elseChain (linkTokens last links ++ rest) ∧ LinksRead last rest links

namespace WrittenBlock

def closer (w : WrittenBlock) : List Token :=
  w.opening :: (w.name ++ [w.closing])

/-- `{{#call …}} … {{else call …}} … {{else}} … {{/call}}` -/
def tokens (w : WrittenBlock) : List Token :=
  w.first.tokens ++ (linkTokens w.last w.links ++ w.closer)

/-- The block is read in front of other tokens. -/
structure Reads (o : Opener) (w : WrittenBlock) (rest : List Token) : Prop where
  first : w.first.Reads o (linkTokens w.last w.links ++ (w.closer ++ rest))
  links : LinksRead w.last (w.closer ++ rest) w.links
  opening : w.opening.symbol = .opener .endBlock
  name : ∀ t ∈ w.name, t.symbol.isInner = true
  closing : w.closing.symbol = .close
  callee : ∃ e h, expression (w.name ++ w.closing :: rest) = .ok ⟨e, w.closing :: rest, h⟩
    ∧ e.written = w.first.call.callee.written

end WrittenBlock

/-- Following the chain of a block gives the sections that are written, with what their tags
call and name. The markers of a tag are found at the block in whose inverse its section is, and
a link, like the program around it, goes from its own tag to the closing tag. -/
structure Block.Unfolds (b : Block Statement) (w : WrittenBlock) : Prop where
  calls : b.chain.map (·.call) = (w.first :: w.links).map (·.call)
  sections : b.chain.map (fun b => bareSection b.program)
    = (w.first :: w.links).map fun s => some ⟨bareAll s.body, s.params, false⟩
  last : bareSection b.lastInverse = w.last.map fun s => ⟨bareAll s.body, [], false⟩
  strips : b.chain.map (·.inverseStrip)
    = w.links.map (fun s => tagStrip s.opening s.closing) ++ [w.last.elim {} (·.tag.strip)]
  locs : b.chain.tail.map (·.loc)
    = w.links.map fun s => ⟨s.opening.loc.start, w.opening.loc.start⟩
  programs : b.chain.dropLast.map (·.inverse.bind Program.loc?)
    = b.chain.tail.map (some ·.loc)

/-- An inverse block has its sections exchanged, and no links. -/
structure Block.Inverted (b : Block Statement) (w : WrittenBlock) : Prop where
  links : w.links = []
  call : b.call = w.first.call
  inverse : bareSection b.inverse = some ⟨bareAll w.first.body, w.first.params, false⟩
  program : bareSection b.program = w.last.map fun s => ⟨bareAll s.body, [], false⟩

/-- A block stands among some tokens, as it is written there. -/
def Block.StandsIn (ts : List Token) (b : Block Statement) : Prop :=
  ∃ (o : Opener) (w : WrittenBlock) (before after : List Token),
    ts = before ++ (w.tokens ++ after) ∧ w.Reads o after
      ∧ b.loc = ⟨w.first.opening.loc.start, w.closing.loc.stop⟩
      ∧ (o = .block ∧ b.Unfolds w ∨ o = .inverse ∧ b.Inverted w)

theorem Block.StandsIn.mono {ts ts' : List Token} {b : Block Statement} (h : b.StandsIn ts)
    (hts : ts <:+ ts') : b.StandsIn ts' := by
  obtain ⟨o, w, before, after, rfl, h⟩ := h
  obtain ⟨more, rfl⟩ := hts
  exact ⟨o, w, more ++ before, after, by simp only [List.append_assoc], h⟩

private theorem loc?_bare (p : Program Statement) : p.bare.loc? = p.loc? := by
  obtain ⟨body, params, chained⟩ := p
  simp only [Program.bare, Program.loc?, bareAll_eq_map, List.head?_map, List.getLast?_map]
  cases body.head? with
  | none => rfl
  | some first =>
    cases body.getLast? with
    | none => rfl
    | some last => simp only [Option.map_some, loc_bare]

private theorem loc?_bareSection (p : Option (Program Statement)) :
    (bareSection p).bind Program.loc? = p.bind Program.loc? := by
  cases p with
  | none => rfl
  | some p => exact loc?_bare p

private theorem bareSection_lastInverse (b : Block Statement) :
    bareSection b.lastInverse
      = (b.chain.map fun b => bareSection b.inverse).getLast?.bind id := by
  rw [Block.lastInverse, List.getLast?_map]
  cases b.chain.getLast? with
  | none => rfl
  | some b => rfl

private theorem chain_bare (b : Block Statement) : b.bare.chain = b.chain.map Block.bare := by
  fun_induction Block.chain b with
  | case1 call program next params openStrip inverseStrip closeStrip loc ih =>
    rw [List.map_cons, ← ih]
    exact Block.chain.eq_1 call (bareSection program) next.bare params openStrip inverseStrip
      closeStrip loc
  | case2 b hlast =>
    refine Block.chain.eq_2 _ fun call program next params openStrip inverseStrip closeStrip loc
      hb => ?_
    have hinverse : bareSection b.inverse = some ⟨[.block next], params, true⟩ :=
      congrArg Block.inverse hb
    obtain ⟨call', program', inverse', openStrip', inverseStrip', closeStrip', loc'⟩ := b
    rcases inverse' with _ | ⟨body, params', chained⟩
    · cases hinverse
    · obtain ⟨hbody, hparams, hchained⟩ := Program.mk.inj (Option.some.inj hinverse)
      obtain ⟨next', rfl⟩ := exists_block_bareAll.mp ⟨_, hbody⟩
      subst hchained
      exact hlast _ _ _ _ _ _ _ _ rfl

theorem Block.Unfolds.of_bare {b b' : Block Statement} {w : WrittenBlock} (h : b'.Unfolds w)
    (hbare : b.bare = b'.bare) : b.Unfolds w := by
  have hchain : b.chain.map Block.bare = b'.chain.map Block.bare := by
    rw [← chain_bare, ← chain_bare, hbare]
  -- What is told of a block without its texts, is told of it with them.
  have hmap {α : Type} (f : Block Statement → α) (hf : ∀ b, f b.bare = f b) :
      b.chain.map f = b'.chain.map f := by
    have h := congrArg (List.map f) hchain
    simpa only [List.map_map, Function.comp_def, hf] using h
  have hlocs := hmap (·.loc) fun _ => rfl
  have hprograms := hmap (·.inverse.bind Program.loc?) fun b => loc?_bareSection b.inverse
  have hlast := congrArg List.getLast? (hmap (fun b => bareSection b.inverse)
    fun b => bareSection_bareSection _)
  have hsome := hmap (some ·.loc) fun _ => rfl
  refine ⟨?_, ?_, ?_, ?_, ?_, ?_⟩
  · exact (hmap (·.call) fun _ => rfl).trans h.calls
  · exact (hmap _ fun b => bareSection_bareSection _).trans h.sections
  · rw [← h.last, bareSection_lastInverse, bareSection_lastInverse, hlast]
  · exact (hmap (·.inverseStrip) fun _ => rfl).trans h.strips
  · have h := h.locs
    rw [List.map_tail] at h ⊢
    rwa [hlocs]
  · have h := h.programs
    rw [List.map_dropLast, List.map_tail] at h ⊢
    rw [hprograms, h, hsome]

theorem Block.Inverted.of_bare {b b' : Block Statement} {w : WrittenBlock} (h : b'.Inverted w)
    (hbare : b.bare = b'.bare) : b.Inverted w :=
  ⟨h.links, (congrArg Block.call hbare).trans h.call,
    (congrArg Block.inverse hbare).trans h.inverse, (congrArg Block.program hbare).trans h.program⟩

theorem Block.StandsIn.of_bare {ts : List Token} {b b' : Block Statement} (h : b'.StandsIn ts)
    (hbare : b.bare = b'.bare) : b.StandsIn ts := by
  obtain ⟨o, w, before, after, hts, hreads, hloc, hb⟩ := h
  refine ⟨o, w, before, after, hts, hreads, (congrArg Block.loc hbare).trans hloc, ?_⟩
  exact hb.imp (And.imp_right (·.of_bare hbare)) (And.imp_right (·.of_bare hbare))

private theorem chain_some {b next : Block Statement} {params : List (List Char)}
    (h : b.inverse = some ⟨[.block next], params, true⟩) : b.chain = b :: next.chain := by
  obtain ⟨call, program, inverse, openStrip, inverseStrip, closeStrip, loc⟩ := b
  obtain rfl : inverse = _ := h
  rw [Block.chain]

private theorem chain_last {b : Block Statement} (h : ∀ p, b.inverse = some p → p.chained = false) :
    b.chain = [b] := by
  refine Block.chain.eq_2 _ fun call program next params openStrip inverseStrip closeStrip loc
    hb => ?_
  subst hb
  cases h _ rfl

private theorem chain_eq_cons (b : Block Statement) : ∃ bs, b.chain = b :: bs := by
  fun_induction Block.chain b with
  | case1 | case2 => exact ⟨_, rfl⟩

theorem Block.Unfolds.cons {b next : Block Statement} {w : WrittenBlock} {s : ChainSection}
    {links : List ChainSection} {params : List (List Char)}
    (h : next.Unfolds { w with first := s, links }) (hlinks : w.links = s :: links)
    (hcall : b.call = w.first.call)
    (hprogram : b.program = some ⟨w.first.body, w.first.params, false⟩)
    (hinverse : b.inverse = some ⟨[.block next], params, true⟩)
    (hstrip : b.inverseStrip = tagStrip s.opening s.closing)
    (hloc : next.loc = ⟨s.opening.loc.start, w.opening.loc.start⟩) : b.Unfolds w := by
  have hchain := chain_some hinverse
  obtain ⟨bs, hbs⟩ := chain_eq_cons next
  have hne : next.chain ≠ [] := hbs ▸ List.cons_ne_nil _ _
  refine ⟨?_, ?_, ?_, ?_, ?_, ?_⟩
  · rw [hchain, hlinks, List.map_cons, List.map_cons, h.calls, hcall]
  · rw [hchain, hlinks, List.map_cons, List.map_cons, h.sections, hprogram]
    rfl
  · rw [Block.lastInverse, hchain, List.getLast?_cons_of_ne_nil hne]
    exact h.last
  · rw [hchain, hlinks, List.map_cons, List.map_cons, h.strips, hstrip]
    rfl
  · have hlocs := h.locs
    rw [hbs] at hlocs
    rw [hchain, hlinks, List.tail_cons, hbs, List.map_cons, List.map_cons, hloc]
    exact congrArg (_ :: ·) hlocs
  · have hprograms := h.programs
    have hsection : b.inverse.bind Program.loc? = some next.loc := by
      rw [hinverse]
      rfl
    rw [hchain, List.tail_cons, List.dropLast_cons_of_ne_nil hne, List.map_cons, hsection,
      hprograms, hbs]
    rfl

theorem unfolds_of_inverse (w : WrittenBlock) {close : Closer}
    (hstart : close.start = w.opening.loc.start) (first : Bool) {b : Block Statement}
    {inverse : Option (Strip × Program Statement)}
    (hsections : inverse = Sections.inverse? close (w.last.map fun s => (s.tag.strip, s.body))
      first (w.links.map fun s => (s.head, s.body)))
    (hcall : b.call = w.first.call)
    (hprogram : b.program = some ⟨w.first.body, w.first.params, false⟩)
    (hinverse : b.inverse = inverse.map (·.2))
    (hstrip : b.inverseStrip = inverse.elim {} (·.1)) : b.Unfolds w := by
  obtain ⟨opened, links, last, opening, name, closing⟩ := w
  induction links generalizing opened first b inverse with
  | nil =>
    have hnone : inverse = last.map fun s => (s.tag.strip, ⟨s.body, [], false⟩) := by
      rw [hsections, List.map_nil, Sections.inverse?, Option.map_map]
      rfl
    have hchain : b.chain = [b] := by
      refine chain_last fun p hp => ?_
      rw [hinverse, hnone, Option.map_map] at hp
      obtain ⟨_, -, rfl⟩ := Option.map_eq_some_iff.mp hp
      rfl
    refine ⟨?_, ?_, ?_, ?_, ?_, ?_⟩
    · rw [hchain, List.map_singleton, hcall]
      rfl
    · rw [hchain, List.map_singleton, hprogram]
      rfl
    · rw [Block.lastInverse, hchain, List.getLast?_singleton, Option.bind_some, hinverse, hnone]
      cases last <;> rfl
    · rw [hchain, List.map_singleton, hstrip, hnone]
      cases last <;> rfl
    · rw [hchain]
      rfl
    · rw [hchain]
      rfl
  | cons s links ih =>
    subst hsections
    simp only [List.map_cons, Sections.inverse?, Option.map_some, Option.elim_some]
      at hinverse hstrip
    exact .cons (ih false rfl rfl s hstart rfl rfl rfl) rfl hcall hprogram hinverse hstrip
      (congrArg (Location.mk _) hstart)

variable {ts : List Token}

theorem Head.Read.section {o : Opener} {t : Token} {opened : Head} {body : List Statement}
    {rest₁ rest : List Token} (h : Head.Read t ts opened rest₁) (hbody : bodyRead rest₁ body rest)
    (ht : t.symbol = .opener o) :
    ∃ s : ChainSection, t :: ts = s.tokens ++ rest ∧ s.Reads o rest ∧ s.opening = t
      ∧ opened = s.head ∧ body = s.body := by
  have hgives := h.gives
  obtain ⟨hcall, hparams, hclosing⟩ := h
  obtain ⟨inner, rfl, hinner⟩ := hcall.inside.trans (blockParams_inside hparams)
  obtain ⟨main, rfl, -⟩ := hbody.spelled
  refine ⟨⟨t, inner, _, main, _, _, body⟩, ?_, ⟨ht, hinner, hclosing, hgives, hbody.gives⟩, rfl,
    rfl, rfl⟩
  simp only [ChainSection.tokens, List.cons_append, List.append_assoc]

private theorem linksRead_nil (rest : List Token) : LinksRead none rest [] := by
  rintro _ ⟨⟩

theorem Sections.Read.links {inverted : Bool} {ts rest : List Token} {more : Sections}
    (h : Sections.Read inverted ts more rest) :
    ∃ links last, ts = linkTokens last links ++ rest ∧ LinksRead last rest links
      ∧ more = ⟨links.map fun s => (s.head, s.body), last.map fun s => (s.tag.strip, s.body)⟩
      ∧ (inverted = true → links = []) := by
  induction h with
  | nil => exact ⟨[], none, rfl, linksRead_nil _, rfl, fun _ => rfl⟩
  | chain hsymbol hhead hfirst _ ih =>
    obtain ⟨s, hts, hreads, -, rfl, rfl⟩ := hhead.section hfirst hsymbol
    obtain ⟨links, last, rfl, hlinks, rfl, -⟩ := ih
    refine ⟨s :: links, last, hts.trans ?_, ⟨hreads, hlinks⟩, rfl, Bool.noConfusion⟩
    simp only [linkTokens, List.flatMap_cons, List.append_assoc]
  | @last _ t _ _ body hsymbol hbody =>
    obtain ⟨main, rfl, -⟩ := hbody.spelled
    refine ⟨[], some ⟨t, main, body⟩, rfl, ?_, rfl, fun _ => rfl⟩
    rintro _ ⟨⟩
    exact ⟨hsymbol, hbody.gives⟩

theorem Closer.Read.tokens {opened : Head} {closed : Closer} {rest : List Token}
    (h : Closer.Read opened ts closed rest) :
    ∃ opening name closing, ts = opening :: (name ++ [closing]) ++ rest
      ∧ opening.symbol = .opener .endBlock ∧ (∀ t ∈ name, t.symbol.isInner = true)
      ∧ closing.symbol = .close ∧ closed.start = opening.loc.start
      ∧ closed.stop = closing.loc.stop
      ∧ ∃ e h, expression (name ++ closing :: rest) = .ok ⟨e, closing :: rest, h⟩
        ∧ e.written = opened.call.callee.written := by
  obtain ⟨hopening, hname, hclosing, hsame⟩ := h
  obtain ⟨hshorter, hgives⟩ := hname.gives
  obtain ⟨inner, rfl, hinner⟩ := hname.inside
  exact ⟨_, inner, _, by simp, hopening, hinner, hclosing, rfl, rfl, _, hshorter, hgives, hsame⟩

theorem Statement.Read.standsIn {s : Statement} {rest : List Token} (h : Statement.Read ts s rest)
    {b : Block Statement} (hb : s = .block b) : b.StandsIn ts := by
  cases h with
  | @block t _ _ _ _ rest inverted _ _ _ close ht hhead hfirst hmore hcloser =>
    obtain rfl := Statement.block.inj hb
    obtain ⟨s, hts, hreads, -, rfl, rfl⟩ := hhead.section hfirst ht
    obtain ⟨links, last, rfl, hlinks, rfl, hinverted⟩ := hmore.links
    obtain ⟨opening, name, closing, rfl, hsymbol, hname, hclosing, hstart, hstop, hcallee⟩ :=
      hcloser.tokens
    let w : WrittenBlock := ⟨s, links, last, opening, name, closing⟩
    have hw : w.Reads (if inverted then .inverse else .block) rest :=
      ⟨hreads, hlinks, hsymbol, hname, hclosing, hcallee⟩
    refine ⟨_, w, [], rest, ?_, hw, ?_, ?_⟩
    · simpa only [WrittenBlock.tokens, WrittenBlock.closer, w, List.nil_append,
        List.append_assoc] using hts
    · simp only [Block.ofSections, hstop]
      rfl
    · cases inverted with
      | false => exact .inl ⟨rfl, unfolds_of_inverse w hstart true rfl rfl rfl rfl rfl⟩
      | true =>
        obtain rfl := hinverted rfl
        refine .inr ⟨rfl, rfl, rfl, rfl, ?_⟩
        cases last <;> rfl
  | _ => cases hb

theorem bodyRead.standIn {ts rest : List Token} {ss : List Statement} (h : bodyRead ts ss rest)
    (b : Block Statement) (hb : .block b ∈ ss) : b.StandsIn ts := by
  induction h with
  | nil => cases hb
  | cons _ hs _ ih =>
    obtain ⟨toks, hts, -⟩ := hs.spelled
    rcases List.mem_cons.mp hb with hb | hb
    · exact hs.standsIn hb.symm
    · exact (ih hb).mono ⟨toks, hts.symm⟩

theorem bodyRead.standIn_trimmed {rest : List Token} {ss body : List Statement}
    (h : bodyRead ts ss rest) (hbody : bareAll ss = bareAll body) {b : Block Statement}
    (hb : .block b ∈ body) : b.StandsIn ts := by
  rw [bareAll_eq_map, bareAll_eq_map] at hbody
  obtain ⟨s, hs, hbare⟩ := List.mem_map.mp (hbody ▸ List.mem_map_of_mem hb)
  cases s with
  | block b' => exact (h.standIn b' hs).of_bare (Statement.block.inj hbare).symm
  | _ => cases hbare

theorem Between.standsIn {body : List Statement} {opening closing : Token}
    (h : Between ts body opening closing) {b : Block Statement} (hb : .block b ∈ body) :
    b.StandsIn ts := by
  obtain ⟨before, inside, after, written, hshorter, rfl, -, -, hread, hbare⟩ := h
  refine ((statements_read _ hread).standIn_trimmed hbare hb).mono ⟨before ++ [opening], ?_⟩
  rw [List.append_assoc]
  rfl

def Statement.block? : Statement → Option (Block Statement)
  | .block b => some b
  | _ => none

def Statement.HoldsStanding (ts : List Token) (s : Statement) : Prop :=
  ∃ inner, s.blocks = s.block?.toList ++ inner ∧ ∀ b ∈ inner, b.StandsIn ts

theorem blocksAll_standIn {ss : List Statement} (hholds : ∀ s ∈ ss, s.HoldsStanding ts)
    (hss : ∀ b, Statement.block b ∈ ss → b.StandsIn ts) : ∀ b ∈ blocksAll ss, b.StandsIn ts := by
  induction ss with
  | nil => exact List.forall_mem_nil _
  | cons s ss ih =>
    obtain ⟨hfirst, hmore⟩ := List.forall_mem_cons.mp hholds
    obtain ⟨inner, hinner, hstand⟩ := hfirst
    refine List.forall_mem_append.mpr ⟨?_, ih hmore fun b hb => hss b (List.mem_cons_of_mem s hb)⟩
    rw [hinner]
    refine List.forall_mem_append.mpr ⟨fun b hb => hss b ?_, hstand⟩
    cases s with
    | block b' =>
      obtain rfl := List.mem_singleton.mp hb
      exact List.mem_cons_self
    | _ => cases hb

mutual

theorem statement_holds : (s : Statement) → s.Tagged ts → s.HoldsStanding ts
  | .block ⟨_, program, inverse, _, _, _, _⟩, htagged =>
    ⟨_, rfl, List.forall_mem_append.mpr
      ⟨section_standsIn program htagged.1, section_standsIn inverse htagged.2⟩⟩
  | .decoratorBlock ⟨_, program, inverse, _, _, _, _⟩, htagged =>
    ⟨_, rfl, List.forall_mem_append.mpr
      ⟨section_standsIn program htagged.1, section_standsIn inverse htagged.2⟩⟩
  | .partialBlock ⟨_, program, _, _, _⟩, htagged => ⟨_, rfl, program_standsIn program htagged⟩
  | .mustache _, _ => ⟨_, rfl, List.forall_mem_nil _⟩
  | .decorator _, _ => ⟨_, rfl, List.forall_mem_nil _⟩
  | .content _, _ => ⟨_, rfl, List.forall_mem_nil _⟩
  | .comment _, _ => ⟨_, rfl, List.forall_mem_nil _⟩
  | .partialCall _, _ => ⟨_, rfl, List.forall_mem_nil _⟩

theorem all_hold : (ss : List Statement) → allTagged ts ss → ∀ s ∈ ss, s.HoldsStanding ts
  | [], _ => List.forall_mem_nil _
  | s :: ss, htagged =>
    List.forall_mem_cons.mpr ⟨statement_holds s htagged.1, all_hold ss htagged.2⟩

theorem program_standsIn : (p : Program Statement) → Program.Tagged ts p →
    ∀ b ∈ p.blocks, b.StandsIn ts
  | ⟨body, params, chained⟩, htagged => by
    obtain ⟨hbody, hall⟩ := htagged
    have hholds := all_hold body hall
    rcases hbody with ⟨rfl, b, rfl⟩ | ⟨opening, closing, hbetween⟩
    · obtain ⟨inner, hinner, hstand⟩ := hholds _ (List.mem_singleton_self _)
      simpa only [Program.blocks, blocksAll, hinner, Statement.block?, Option.toList_some,
        List.append_nil, List.singleton_append, List.tail_cons, ↓reduceIte] using hstand
    · have hstand := blocksAll_standIn hholds fun b hb => hbetween.standsIn hb
      intro b hb
      simp only [Program.blocks] at hb
      split at hb
      · exact hstand b (List.mem_of_mem_tail hb)
      · exact hstand b hb

theorem section_standsIn : (p : Option (Program Statement)) → sectionTagged ts p →
    ∀ b ∈ sectionBlocks p, b.StandsIn ts
  | none, _ => List.forall_mem_nil _
  | some p, htagged => program_standsIn p htagged

end

/-- Chains of `{{else if}}` keep every section: a block stands among the tokens of the template
with its sections, and if it is not an inverse block, following its chain gives their calls,
block parameters and bodies in the order they are written, and in the end the section of
`{{else}}`. -/
theorem parse_chains {text : List Char} {keepLines : Bool} {p : Program Statement}
    (h : parse text keepLines = .ok p) :
    ∃ ts, scan text = .ok ts ∧ ∀ b ∈ p.blocks, b.StandsIn ts := by
  obtain ⟨ts, body, rest, hscan, hread, -, htrims⟩ := parse_written h
  obtain ⟨ts', hi, hscan', -, -, -, -, htagged⟩ := parse_laid h
  obtain rfl : ts = ts' := Except.ok.inj (hscan.symm.trans hscan')
  have hall := blocksAll_standIn (all_hold p.body htagged)
    fun b hb => hread.standIn_trimmed htrims.1.symm hb
  refine ⟨ts, hscan, fun b hb => ?_⟩
  obtain ⟨body, params, chained⟩ := p
  simp only [Program.blocks] at hb
  split at hb
  · exact hall b (List.mem_of_mem_tail hb)
  · exact hall b hb

/-- A chain of two. -/
theorem parse_chains_link :
    ∃ p, parse "{{#a}}x{{else b}}y{{/a}}".toList false = .ok p
      ∧ p.blocks.map (fun b => b.chain.map (·.loc))
        = [[⟨⟨1, 0⟩, ⟨1, 24⟩⟩, ⟨⟨1, 7⟩, ⟨1, 18⟩⟩]]
      ∧ ∃ ts, scan "{{#a}}x{{else b}}y{{/a}}".toList = .ok ts
        ∧ ∀ b ∈ p.blocks, b.StandsIn ts := by
  have hscan : scan "{{#a}}x{{else b}}y{{/a}}".toList = .ok
      [.onLine (.opener .block) 0 3, .onLine (.name ['a'] false) 3 4, .onLine .close 4 6,
        .onLine (.content ['x']) 6 7, .onLine (.opener .elseChain) 7 13,
        .onLine (.name ['b'] false) 14 15, .onLine .close 15 17, .onLine (.content ['y']) 17 18,
        .onLine (.opener .endBlock) 18 21, .onLine (.name ['a'] false) 21 22, .onLine .close 22 24,
        .onLine .endOfInput 24 24] := by
    decide +kernel
  have hparse := parse_of_tokens false hscan (by cbv)
  refine ⟨_, hparse, ?_, parse_chains hparse⟩
  show [List.map (·.loc) (Block.chain _)] = _
  rw [chain_some rfl, chain_last (by rintro _ ⟨⟩)]
  rfl

end HtmlTemplate.Mustache
