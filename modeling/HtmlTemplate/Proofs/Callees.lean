import HtmlTemplate.Proofs.Accounts
import HtmlTemplate.Proofs.Evaluation
import HtmlTemplate.Proofs.WrittenCalls

/-! What is called in a template. A literal is refused wherever it is called, however deep in
parentheses and sections; only the name of a partial may be one, and a mustache alone. -/

namespace HtmlTemplate.Mustache

mutual

def Expression.callees : Expression → List Expression
  | .path _ => []
  | .literal _ _ => []
  | .call c _ => Call.callees c

/-- What is called, and what is called in parentheses within the call. -/
def Call.callees : Call Expression → List Expression
  | ⟨callee, params, none⟩ => callee :: (callee.callees ++ calleesAll params)
  | ⟨callee, params, some ⟨pairs, _⟩⟩ =>
    callee :: (callee.callees ++ (calleesAll params ++ pairsCallees pairs))

def calleesAll : List Expression → List Expression
  | [] => []
  | e :: es => e.callees ++ calleesAll es

def pairsCallees : List (Pair Expression) → List Expression
  | [] => []
  | ⟨_, value, _⟩ :: pairs => value.callees ++ pairsCallees pairs

end

/-- What a statement calls, its sections aside. Neither the name of a partial counts nor a
literal that is a mustache alone. -/
def Statement.callees : Statement → List Expression
  | .content _ => []
  | .comment _ => []
  | .mustache ⟨⟨.literal _ _, [], none⟩, _, _, _⟩ => []
  | .mustache m => m.call.callees
  | .decorator m => m.call.callees
  | .partialCall p => p.call.callees.tail
  | .block b => b.call.callees
  | .decoratorBlock b => b.call.callees
  | .partialBlock b => b.call.callees.tail

mutual

def Statement.subtree : Statement → List Statement
  | .content c => [.content c]
  | .comment c => [.comment c]
  | .mustache m => [.mustache m]
  | .decorator m => [.decorator m]
  | .partialCall p => [.partialCall p]
  | .block b => .block b :: Block.subtree b
  | .decoratorBlock b => .decoratorBlock b :: Block.subtree b
  | .partialBlock ⟨call, program, openStrip, closeStrip, loc⟩ =>
    .partialBlock ⟨call, program, openStrip, closeStrip, loc⟩ :: Program.subtree program

def Block.subtree : Block Statement → List Statement
  | ⟨_, program, inverse, _, _, _, _⟩ => sectionSubtree program ++ sectionSubtree inverse

def Program.subtree : Program Statement → List Statement
  | ⟨body, _, _⟩ => subtreeAll body

def sectionSubtree : Option (Program Statement) → List Statement
  | none => []
  | some p => Program.subtree p

def subtreeAll : List Statement → List Statement
  | [] => []
  | s :: ss => s.subtree ++ subtreeAll ss

end

end HtmlTemplate.Mustache

namespace HtmlTemplate.Tree

variable {src : Source}

def LiteralFree (es : List Mustache.Expression) : Prop :=
  ∀ e ∈ es, e.isLiteral = false

namespace LiteralFree

variable {es es' : List Mustache.Expression}

theorem nil : LiteralFree [] :=
  List.forall_mem_nil _

theorem append (h : LiteralFree es) (h' : LiteralFree es') : LiteralFree (es ++ es') :=
  List.forall_mem_append.mpr ⟨h, h'⟩

theorem cons {e : Mustache.Expression} (he : e.isLiteral = false) (h : LiteralFree es) :
    LiteralFree (e :: es) :=
  List.forall_mem_cons.mpr ⟨he, h⟩

end LiteralFree

private theorem isLiteral_of_callable {e : Mustache.Expression} {e' : Expression} {u : Unit}
    (h : expression src e = .ok e') (hcallable : callable src e' = .ok u) :
    e.isLiteral = false := by
  cases e with
  | literal l loc =>
    cases h
    simp [callable, fault] at hcallable
  | path _ => rfl
  | call _ _ => rfl

mutual

theorem expression_callees : (e : Mustache.Expression) → {e' : Expression} →
    expression src e = .ok e' → LiteralFree e.callees
  | .path _, _, _ => .nil
  | .literal _ _, _, _ => .nil
  | .call c loc, e', h => by
    simp only [expression, map_eq_ok] at h
    obtain ⟨c', hc, rfl⟩ := h
    exact call_callees c hc

theorem call_callees : (c : Mustache.Call Mustache.Expression) → {c' : Call Expression} →
    call src c = .ok c' → LiteralFree c.callees
  | ⟨callee, params, none⟩, c', h => by
    simp only [call, bind_eq_ok, pure_eq_ok] at h
    obtain ⟨callee', hcallee, _, hcallable, params', hparams, rfl⟩ := h
    exact .cons (isLiteral_of_callable hcallee hcallable)
      ((expression_callees callee hcallee).append (expressions_callees params hparams))
  | ⟨callee, params, some ⟨pairs, loc⟩⟩, c', h => by
    simp only [call, bind_eq_ok, pure_eq_ok] at h
    obtain ⟨callee', hcallee, _, hcallable, params', hparams, pairs', hpairs, rfl⟩ := h
    exact .cons (isLiteral_of_callable hcallee hcallable)
      ((expression_callees callee hcallee).append
        ((expressions_callees params hparams).append (hashPairs_callees pairs hpairs)))

theorem expressions_callees : (es : List Mustache.Expression) → {es' : List Expression} →
    expressions src es = .ok es' → LiteralFree (Mustache.calleesAll es)
  | [], _, _ => .nil
  | e :: es, es', h => by
    simp only [expressions, bind_eq_ok, pure_eq_ok] at h
    obtain ⟨e', he, es', hes, rfl⟩ := h
    exact (expression_callees e he).append (expressions_callees es hes)

theorem hashPairs_callees : (ps : List (Mustache.Pair Mustache.Expression)) →
    {ps' : List (Pair Expression)} → hashPairs src ps = .ok ps' →
      LiteralFree (Mustache.pairsCallees ps)
  | [], _, _ => .nil
  | ⟨key, value, loc⟩ :: ps, ps', h => by
    simp only [hashPairs, bind_eq_ok, pure_eq_ok] at h
    obtain ⟨value', hvalue, ps', hps, rfl⟩ := h
    exact (expression_callees value hvalue).append (hashPairs_callees ps hps)

end

private theorem partialName_callees {c : Mustache.Call Mustache.Expression} {c' : Call Expression}
    (h : partialName src c = .ok c') : LiteralFree c.callees.tail := by
  obtain ⟨callee, params, _ | ⟨pairs, loc⟩⟩ := c
  · simp only [partialName, bind_eq_ok, pure_eq_ok] at h
    obtain ⟨callee', hcallee, params', hparams, rfl⟩ := h
    exact (expression_callees callee hcallee).append (expressions_callees params hparams)
  · simp only [partialName, bind_eq_ok, pure_eq_ok] at h
    obtain ⟨callee', hcallee, params', hparams, pairs', hpairs, rfl⟩ := h
    exact (expression_callees callee hcallee).append
      ((expressions_callees params hparams).append (hashPairs_callees pairs hpairs))

private theorem callees_mustache_subset (m : Mustache.Interpolation) :
    (Mustache.Statement.mustache m).callees ⊆ m.call.callees := by
  obtain ⟨⟨callee, params, hash⟩, escaped, strip, loc⟩ := m
  cases callee <;> cases params <;> cases hash <;>
    first | exact List.Subset.refl _ | exact List.nil_subset _

namespace Assembly

variable {a b : Assembly} {s : Mustache.Statement}

theorem statement_callees (hcomment : a.tokenizer.state.isComment = false)
    (h : statement src a s = .ok b) : LiteralFree s.callees := by
  cases statement_ok h with
  | content _ => exact .nil
  | commented _ hcomment' => simp [hcomment] at hcomment'
  | @mustache m d _ _ hd _ =>
    obtain ⟨l, loc, hcall, -⟩ | ⟨c, hc, -⟩ := dynamic_ok hd
    · obtain ⟨call, escaped, strip, loc'⟩ := m
      obtain rfl : call = _ := hcall
      exact .nil
    · exact fun e he => call_callees _ hc e (callees_mustache_subset m he)
  | decorator _ hc => exact call_callees _ hc
  | comment _ _ => exact .nil
  | partialCall _ hc => exact partialName_callees hc
  | block hblock =>
    obtain ⟨-, c, _, _, _, hc, -⟩ := block_ok hblock
    exact call_callees _ hc
  | decoratorBlock hblock =>
    obtain ⟨-, c, _, _, _, hc, -⟩ := block_ok hblock
    exact call_callees _ hc
  | partialBlock _ hc _ => exact partialName_callees hc

def Reached (src : Source) (a : Assembly) (ss : List Mustache.Statement)
    (s : Mustache.Statement) : Prop :=
  (∃ b, Passes src a ss (.reads s b)) ∨ ∃ outer b, Passes src a ss (.reads outer b)
    ∧ b.tokenizer.state.isComment = true ∧ s ∈ outer.subtree

theorem Reached.mono {ss ss' : List Mustache.Statement}
    (hpasses : ∀ {moment}, Passes src b ss' moment → Passes src a ss moment)
    (h : Reached src b ss' s) : Reached src a ss s := by
  rcases h with ⟨c, hreads⟩ | ⟨outer, c, hreads, hcomment, hs⟩
  · exact .inl ⟨c, hpasses hreads⟩
  · exact .inr ⟨outer, c, hpasses hreads, hcomment, hs⟩

def ReachesAll (src : Source) : RunProperty :=
  fun a ss _ => ∀ s ∈ Mustache.subtreeAll ss, Reached src a ss s

theorem mem_subtree (s : Mustache.Statement) : s ∈ s.subtree := by
  cases s with
  | partialBlock b =>
    obtain ⟨_, _, _, _, _⟩ := b
    exact List.mem_cons_self
  | _ => exact List.mem_cons_self

private theorem subtree_of_flat (h : isSectioned s = false) : s.subtree = [s] := by
  cases s <;> first | rfl | cases h

theorem Inside.reached {fallback : Nat} {p : Mustache.Program Mustache.Statement}
    {nodes : Section Statement} (h : Inside src (ReachesAll src) a fallback p nodes b) :
    ∀ s ∈ Mustache.Program.subtree p, Reached src a.pushBody.2 p.body s := by
  obtain ⟨hsection, hinside⟩ := h
  obtain ⟨inside, -, -, hstatements, -⟩ := sectionOf_ok hsection
  obtain ⟨body, params, chained⟩ := p
  exact hinside inside hstatements

theorem Inside?.reached {fallback : Nat} {p : Option (Mustache.Program Mustache.Statement)}
    {nodes : Option (Section Statement)} (h : Inside? src (ReachesAll src) a fallback p nodes b) :
    ∀ s ∈ Mustache.sectionSubtree p, ∃ q, p = some q ∧ Reached src a.pushBody.2 q.body s := by
  cases p with
  | none => exact List.forall_mem_nil _
  | some p =>
    obtain ⟨nodes', -, hinside⟩ := h
    exact fun s hs => ⟨p, rfl, hinside.reached s hs⟩

theorem reachesAll (src : Source) : Follows src (ReachesAll src) where
  nil _ := List.forall_mem_nil _
  flat {a b c s ss} hflat hb ih := by
    refine List.forall_mem_append.mpr ⟨fun t ht => ?_, fun t ht => (ih t ht).mono (.later hb)⟩
    rcases hflat with hflat | hcomment
    · rw [subtree_of_flat hflat, List.mem_singleton] at ht
      exact .inl ⟨a, ht ▸ .reads⟩
    · exact .inr ⟨s, a, .reads, hcomment, ht⟩
  block {a mid b c s child m node ss program inverse} hs hdata hcall hprogram hinverse hp hi hblock
      hb ih := by
    have hs' : s = .block m ∨ s = .decoratorBlock m := hs.imp And.left And.left
    refine List.forall_mem_append.mpr ⟨fun t ht => ?_, fun t ht => (ih t ht).mono (.later hb)⟩
    have hsubtree : s.subtree
        = s :: (Mustache.sectionSubtree m.program ++ Mustache.sectionSubtree m.inverse) := by
      obtain ⟨_, _, _, _, _, _, _⟩ := m
      rcases hs' with rfl | rfl <;> rfl
    rw [hsubtree, List.mem_cons, List.mem_append] at ht
    rcases ht with rfl | ht | ht
    · exact .inl ⟨a, .reads⟩
    · obtain ⟨p, hp, hreached⟩ := hprogram.reached t ht
      exact hreached.mono (.inside (.program hs' hdata hcall hp))
    · obtain ⟨p, hp, hreached⟩ := hinverse.reached t ht
      exact hreached.mono (.inside (.inverse hs' hdata hcall hprogram.read hp))
  partialBlock {a b c m callee nodes ss} hcomment hcallee hsection hb ih := by
    refine List.forall_mem_append.mpr ⟨fun t ht => ?_, fun t ht => (ih t ht).mono (.later hb)⟩
    have hsubtree : (Mustache.Statement.partialBlock m).subtree
        = .partialBlock m :: Mustache.Program.subtree m.program := by
      obtain ⟨_, _, _, _, _⟩ := m
      rfl
    rw [hsubtree, List.mem_cons] at ht
    rcases ht with rfl | ht
    · exact .inl ⟨a, .reads⟩
    · exact (hsection.reached t ht).mono (.inside (.partialBlock hcomment hcallee))

end Assembly

/-- A call is spelled by all that stands in the tag of its node between the token that opens the
tag, where the span of the node begins, and the block parameters or the token that closes it. -/
def Call.Stands (src : Source) (span : Span) (c : Call Expression) : Prop :=
  ∃ ts opening run names closing, Mustache.scan src.text = .ok ts
    ∧ opening :: (run ++ (names ++ [closing])) <:+: ts
    ∧ Mustache.Surrounds opening names closing
    ∧ span.start = src.offsetFor opening.loc.start
    ∧ Call.Written src run c

theorem Call.stands {ts : List Mustache.Token} {start : Position} {span : Span}
    {m : Mustache.Call Mustache.Expression} {c : Call Expression}
    (hscan : Mustache.scan src.text = .ok ts) (hm : Mustache.Call.ReadIn ts start m)
    (hspan : span.start = src.offsetFor start) (h : partialName src m = .ok c) :
    c.Stands src span := by
  obtain ⟨hrest, -, hcall, hends⟩ := hm
  rename_i opening closing rest names after
  have hsorted := (Mustache.scan_sorted hscan).suffix ((List.suffix_cons _ _).trans hrest)
  obtain ⟨run, rfl, hwritten⟩ := call_written hcall hsorted (Nat.le_refl _) h
  refine ⟨ts, opening, run, names, closing, hscan, ?_, hends, hspan, hwritten⟩
  have htag : opening :: (run ++ (names ++ closing :: after))
      = opening :: (run ++ (names ++ [closing])) ++ after := by simp
  rw [htag] at hrest
  exact (List.prefix_append _ after).isInfix.trans hrest.isInfix

/-- Every call stands in the tag of its node, and only that of a partial calls a literal. -/
def standing (src : Source) : Checks where
  call span c := c.Stands src span ∧ c.callee.isLiteral = false
  name span c := c.Stands src span

theorem dynamic_of_literalItem {m : Mustache.Interpolation} {d : Dynamic} {span : Span}
    (h : dynamic src m = .ok d) (hspan : (Origin.literal, span) ∈ d.items) :
    (∃ l loc, m.call = ⟨.literal l loc, [], none⟩) ∧ span = src.spanFor m.loc := by
  obtain ⟨l, loc, hcall, rfl⟩ | ⟨c, -, rfl⟩ := dynamic_ok h
  · rw [Dynamic.items, List.mem_singleton, Prod.mk.injEq] at hspan
    exact ⟨⟨l, loc, hcall⟩, hspan.2⟩
  · simp [Dynamic.items] at hspan

theorem item_of_literal {s : Mustache.Statement} {span : Span}
    (h : (Origin.literal, span) ∈ s.item src) : ∃ m, s = .mustache m := by
  cases s with
  | mustache m => exact ⟨m, rfl⟩
  | _ => simp [Mustache.Statement.item, Mustache.Statement.origin?] at h

end HtmlTemplate.Tree

namespace HtmlTemplate

variable {text : List Char} {options : Options} {t : Tree.Template}

private theorem preprocess_literals (h : preprocess text options = .ok t) {e : Tree.Entry}
    (he : e ∈ t.entries) (hkind : e.kind = .literalMustache) :
    ∃ m l loc a, Passes text options (.reads (.mustache m) a)
      ∧ a.tokenizer.state.isComment = false ∧ m.call = ⟨.literal l loc, [], none⟩
      ∧ e.span = Source.spanFor ⟨text, options.moduleName⟩ m.loc := by
  obtain ⟨program, hparse, hall, -⟩ := preprocess_accounted h
  obtain ⟨program', c, _, hparse', hstatements, -⟩ := preprocess_ok h
  obtain rfl : program' = program := Except.ok.inj (hparse'.symm.trans hparse)
  have hitem : (Origin.literal, e.span) ∈ t.items :=
    List.mem_filterMap.mpr ⟨e, he, by rw [hkind]; rfl⟩
  have hwritten := hall.mem_iff.mpr (List.mem_append_left _ hitem)
  obtain ⟨s, a, hreads, hs⟩ := ((Tree.Assembly.collects _ _ _).statements _ hstatements).mp hwritten
  cases hcomment : a.tokenizer.state.isComment with
  | true => simp [Tree.Assembly.written_of_comment hcomment] at hs
  | false =>
    rw [Tree.Assembly.written_of_not_comment hcomment] at hs
    obtain ⟨m, rfl⟩ := Tree.item_of_literal hs
    obtain ⟨b, hb⟩ := hreads.statement_ok hstatements
    cases Tree.Assembly.statement_ok hb with
    | commented _ hcomment' => simp [hcomment] at hcomment'
    | mustache _ hd _ =>
      rw [Tree.Assembly.item_mustache hd] at hs
      obtain ⟨⟨l, loc, hcall⟩, hspan⟩ := Tree.dynamic_of_literalItem hd hs
      exact ⟨m, l, loc, a, .statements hparse hreads, hcomment, hcall, hspan⟩

private theorem preprocess_literalFree (h : preprocess text options = .ok t) :
    ∃ program, Mustache.parse text options.keepLines = .ok program
      ∧ ∀ s ∈ Mustache.subtreeAll program.body, Tree.LiteralFree s.callees
        ∨ ∃ outer a, Passes text options (.reads outer a)
          ∧ a.tokenizer.state.isComment = true ∧ s ∈ outer.subtree := by
  obtain ⟨program, a, _, hparse, hstatements, -⟩ := preprocess_ok h
  refine ⟨program, hparse, fun s hs => ?_⟩
  rcases (Tree.Assembly.reachesAll _).statements _ hstatements s hs with
    ⟨b, hreads⟩ | ⟨outer, b, hreads, hcomment, hs⟩
  · cases hcomment : b.tokenizer.state.isComment with
    | true =>
      exact .inr ⟨s, b, .statements hparse hreads, hcomment, Tree.Assembly.mem_subtree s⟩
    | false =>
      obtain ⟨c, hc⟩ := hreads.statement_ok hstatements
      exact .inl (Tree.Assembly.statement_callees hcomment hc)
  · exact .inr ⟨outer, b, .statements hparse hreads, hcomment, hs⟩

/-- Calls are put together as they are written, at every depth, and call no literals, partials
aside. A mustache is a literal only if it has nothing else, and a statement that calls a literal
is not accepted unless it is part of an HTML comment. -/
theorem preprocess_calls (h : preprocess text options = .ok t) :
    t.Satisfies (Tree.standing ⟨text, options.moduleName⟩)
      ∧ (∀ e ∈ t.entries, e.kind = .literalMustache →
        ∃ m l loc a, Passes text options (.reads (.mustache m) a)
          ∧ a.tokenizer.state.isComment = false ∧ m.call = ⟨.literal l loc, [], none⟩
          ∧ e.span = Source.spanFor ⟨text, options.moduleName⟩ m.loc)
      ∧ ∃ program, Mustache.parse text options.keepLines = .ok program
        ∧ ∀ s ∈ Mustache.subtreeAll program.body, Tree.LiteralFree s.callees
          ∨ ∃ outer a, Passes text options (.reads outer a)
            ∧ a.tokenizer.state.isComment = true ∧ s ∈ outer.subtree := by
  refine ⟨preprocess_eachCall (fun _ => trivial) (fun hscan hm hc => ?_)
    (fun hscan hm hc => Tree.Call.stands hscan hm rfl hc) h,
    fun e he hkind => preprocess_literals h he hkind, preprocess_literalFree h⟩
  obtain ⟨hname, hcallee⟩ := Tree.call_ok hc
  exact ⟨Tree.Call.stands hscan hm rfl hname, hcallee⟩

/-- Keys that are written twice stay twice, and the comment keeps the call of a literal. -/
theorem preprocess_calls_pairs :
    ∃ t c, preprocess "{{f (g) k=a k=b}}{{true}}<!--{{true a}}-->".toList {} = .ok t
      ∧ t.body.head? = some (.dynamic (.call ⟨c, false, {}, ⟨0, 17⟩⟩))
      ∧ c.hash.pairs.map (·.key) = [['k'], ['k']] ∧ c.hash.span = ⟨8, 15⟩
      ∧ t.Satisfies (Tree.standing ⟨"{{f (g) k=a k=b}}{{true}}<!--{{true a}}-->".toList, none⟩)
      ∧ (∀ e ∈ t.entries, e.kind = .literalMustache →
        ∃ m l loc a, Passes "{{f (g) k=a k=b}}{{true}}<!--{{true a}}-->".toList {}
            (.reads (.mustache m) a)
          ∧ a.tokenizer.state.isComment = false ∧ m.call = ⟨.literal l loc, [], none⟩
          ∧ e.span
            = Source.spanFor ⟨"{{f (g) k=a k=b}}{{true}}<!--{{true a}}-->".toList, none⟩ m.loc)
      ∧ ∃ program,
        Mustache.parse "{{f (g) k=a k=b}}{{true}}<!--{{true a}}-->".toList false = .ok program
        ∧ ∀ s ∈ Mustache.subtreeAll program.body, Tree.LiteralFree s.callees
          ∨ ∃ outer a, Passes "{{f (g) k=a k=b}}{{true}}<!--{{true a}}-->".toList {}
              (.reads outer a)
            ∧ a.tokenizer.state.isComment = true ∧ s ∈ outer.subtree := by
  have hscan : Mustache.scan "{{f (g) k=a k=b}}{{true}}<!--{{true a}}-->".toList = .ok
      [.onLine (.opener .escaped) 0 2, .onLine (.name ['f'] false) 2 3, .onLine .openCall 4 5,
        .onLine (.name ['g'] false) 5 6, .onLine .closeCall 6 7, .onLine (.name ['k'] false) 8 9,
        .onLine .equals 9 10, .onLine (.name ['a'] false) 10 11, .onLine (.name ['k'] false) 12 13,
        .onLine .equals 13 14, .onLine (.name ['b'] false) 14 15, .onLine .close 15 17,
        .onLine (.opener .escaped) 17 19, .onLine (.literal (.boolean true)) 19 23,
        .onLine .close 23 25, .onLine (.content "<!--".toList) 25 29,
        .onLine (.opener .escaped) 29 31, .onLine (.literal (.boolean true)) 31 35,
        .onLine (.name ['a'] false) 36 37, .onLine .close 37 39,
        .onLine (.content "-->".toList) 39 42, .onLine .endOfInput 42 42] := by decide +kernel
  have hparse := Mustache.parse_of_tokens false hscan (by cbv)
  let plain (c : Char) (start : Nat) : Tree.Expression :=
    .path ⟨[c], .plain [c] ⟨start, start + 1⟩, [], ⟨start, start + 1⟩⟩
  have hread : preprocess "{{f (g) k=a k=b}}{{true}}<!--{{true a}}-->".toList {} = .ok
      ⟨[.dynamic (.call ⟨⟨plain 'f' 2, [.call ⟨plain 'g' 5, [], .empty 6⟩ ⟨4, 7⟩],
            ⟨[⟨['k'], plain 'a' 10, ⟨8, 11⟩⟩, ⟨['k'], plain 'b' 14, ⟨12, 15⟩⟩], ⟨8, 15⟩⟩⟩,
          false, {}, ⟨0, 17⟩⟩),
        .dynamic (.literal ⟨.boolean true, ⟨19, 23⟩, false, {}, ⟨17, 25⟩⟩),
        .comment ⟨"{{true a}}".toList, ⟨25, 42⟩⟩], [], ⟨0, 42⟩⟩ :=
    (preprocess_of_parse {} hparse).trans (by rfl)
  exact ⟨_, _, hread, rfl, rfl, rfl, preprocess_calls hread⟩

end HtmlTemplate
