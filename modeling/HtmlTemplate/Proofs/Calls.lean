import HtmlTemplate.Proofs.Reads
import Mathlib.Data.List.Forall2

/-! Reading back the calls of a draft: what is called, its parameters, its pairs and the
names that a block is given. -/

namespace HtmlTemplate.Mustache

variable {next : List Token}

/-- A call ends in front. -/
def EndsCall (ts : List Token) : Prop :=
  (peek ts).symbol ∈ [Symbol.close, .closeRaw, .closeCall]

theorem EndsCall.unjoined (h : EndsCall next) : Unjoined next := by
  cases next with
  | nil => exact fun t ht => by cases ht
  | cons t ts =>
    intro t' ht'
    obtain rfl : t = t' := Option.some.inj ht'
    simp only [EndsCall, peek, List.head?_cons, Option.getD_some, List.mem_cons, List.not_mem_nil,
      or_false] at h
    obtain h | h | h := h <;> rw [h] <;> simp

theorem EndsCall.endsParams (h : EndsCall next) : endsParams next = true := by
  simp only [EndsCall, List.mem_cons, List.not_mem_nil, or_false] at h
  unfold Mustache.endsParams
  obtain h | h | h := h <;> rw [h]

theorem EndsCall.pairs (h : EndsCall next) : GivesAny (pairs next) [] next := by
  match next with
  | [] => exact ⟨_, Mustache.pairs.eq_2 [] (by simp)⟩
  | [t] => exact ⟨_, Mustache.pairs.eq_2 [t] (by simp)⟩
  | key :: eq :: ts =>
    have hkey : ∀ text bracketed, key.symbol ≠ .name text bracketed := by
      intro text bracketed heq
      simp [EndsCall, peek, heq] at h
    rw [Mustache.pairs]
    split
    · rename_i hname _
      exact absurd hname (hkey _ _)
    · exact ⟨_, rfl⟩

theorem EndsCall.blockParams (h : EndsCall next) : GivesAny (blockParams next) [] next := by
  cases next with
  | nil => exact ⟨_, rfl⟩
  | cons t ts =>
    have ht : t.symbol ≠ .openParams := by
      intro heq
      simp [EndsCall, peek, heq] at h
    simp only [Mustache.blockParams, if_neg ht]
    exact ⟨_, rfl⟩

theorem blockParams_names {opening closing : Token} {ts : List Token} {ns : List (List Char)}
    (hopening : opening.symbol = .openParams) (hne : ns ≠ [])
    (hnames : ∃ h, names ts = ⟨ns, closing :: next, h⟩) (hclosing : closing.symbol = .closeParams) :
    GivesAny (blockParams (opening :: ts)) ns next := by
  obtain ⟨hlength, hnames⟩ := hnames
  rw [Mustache.blockParams]
  dsimp only
  rw [if_pos hopening]
  generalize names ts = read at *
  subst hnames
  simp only [List.isEmpty_eq_false_iff.mpr hne, if_neg Bool.false_ne_true, expect, if_pos hclosing,
    bind, Except.bind]
  exact ⟨_, rfl⟩

end HtmlTemplate.Mustache

namespace HtmlTemplate.Draft

open Mustache

variable {src : Source} {raw : Bool} {p : Position} {start : Nat} {text rest : List Char}

theorem intercalate_cons (c : Char) (w : List Char) (ws : List (List Char)) :
    List.intercalate [c] (w :: ws) = w ++ ws.flatMap (c :: ·) := by
  induction ws generalizing w with
  | nil => simp
  | cons v ws ih =>
    rw [List.flatMap_cons, List.cons_append, ← ih v]
    simp

theorem scans_spaced {names : List (List Char)} (hnames : ∀ w ∈ names, isWord w = true)
    (hrest : rest.head?.all (!isNameChar ·) = true) (p : Position) :
    ∃ ts, Scans (.tag raw) p (names.flatMap (' ' :: ·)) ts (.tag raw) rest ∧
      ∀ (t : Token) (next : List Token), (∀ text bracketed, t.symbol ≠ .name text bracketed) →
        ∃ h, Mustache.names (ts ++ t :: next) = ⟨names, t :: next, h⟩ := by
  induction names generalizing p with
  | nil =>
    refine ⟨[], Scans.nil _ p rest, fun t next ht => ?_⟩
    simp only [List.nil_append, Mustache.names]
    exact ⟨Nat.le_refl _, rfl⟩
  | cons w ws ih =>
    obtain ⟨hw, hws⟩ := List.forall_mem_cons.mp hnames
    obtain ⟨ts, hscans, hreads⟩ := ih hws ((p.next ' ').after w)
    obtain ⟨c, cs, hcs, hc, -, -⟩ := chars_of_isWord hw
    have hstop : (ws.flatMap (' ' :: ·) ++ rest).head?.all (!isNameChar ·) = true := by
      cases ws with
      | nil => exact hrest
      | cons v ws => rfl
    have hword : Scans (.tag raw) (p.next ' ') w _ (.tag raw) (ws.flatMap (' ' :: ·) ++ rest) :=
      scans_word hw hstop
    have hblank : Scans (.tag raw) p (' ' :: w) [tokenAt (p.next ' ') w (.name w false)] (.tag raw)
        (ws.flatMap (' ' :: ·) ++ rest) := by
      rw [hcs] at hword ⊢
      exact hword.blank (isBlank_of_startsWord (startsWord_of_isAlpha hc))
    refine ⟨_, hblank.append hscans, fun t next ht => ?_⟩
    obtain ⟨hlength, hnames⟩ := hreads t next ht
    show ∃ h, Mustache.names (tokenAt (p.next ' ') w (.name w false) :: (ts ++ t :: next)) = _
    rw [Mustache.names]
    dsimp only [tokenAt]
    rw [hnames]
    exact ⟨_, rfl⟩

theorem span_treeAt (e : Expression) (start : Nat) :
    (e.treeAt start).span = span start e.text := by
  cases e <;> simp only [Expression.treeAt, Tree.Expression.span, pathAt, Expression.text]

theorem pairs_after (args : List (Argument Expression)) (start : Nat) :
    ∀ pair ∈ (argumentsAt start args).pairs,
      start ≤ pair.span.start ∧ pair.span.start ≤ pair.span.stop := by
  induction args generalizing start with
  | nil => simp [argumentsAt]
  | cons arg args ih =>
    cases arg with
    | param e =>
      intro pair hpair
      have := ih _ pair hpair
      omega
    | params names =>
      intro pair hpair
      have := ih _ pair hpair
      omega
    | pair key e =>
      intro pair hpair
      rw [argumentsAt] at hpair
      obtain rfl | hpair := List.mem_cons.mp hpair
      · simp only [span_treeAt, span]
        omega
      · have := ih _ pair hpair
        omega

theorem pairs_inOrder (args : List (Argument Expression)) (start : Nat) :
    (argumentsAt start args).pairs.Pairwise (fun a b => a.span.stop ≤ b.span.start) := by
  induction args generalizing start with
  | nil => exact .nil
  | cons arg args ih =>
    cases arg with
    | param e => exact ih _
    | params names => exact ih _
    | pair key e =>
      rw [argumentsAt]
      refine List.pairwise_cons.mpr ⟨fun pair hpair => ?_, ih _⟩
      have := (pairs_after args _ pair hpair).1
      simpa [span_treeAt, span] using this

structure PairReads (src : Source) (pair : Mustache.Pair Mustache.Expression)
    (tree : Tree.Pair Tree.Expression) : Prop where
  key : pair.key = tree.key
  value : Tree.expression src pair.value = .ok tree.value
  span : src.spanFor pair.loc = tree.span
  start : src.offsetFor pair.loc.start = tree.span.start
  stop : src.offsetFor pair.loc.stop = tree.span.stop

structure ArgumentsRead (src : Source) (raw : Bool) (p : Position) (text rest : List Char)
    (ts ts' ts'' : List Token) (params : List Mustache.Expression)
    (pairs : List (Mustache.Pair Mustache.Expression)) (args : Arguments) : Prop where
  scans : Scans (.tag raw) p text (ts ++ (ts' ++ ts'')) (.tag raw) rest
  givesParams : ∀ next, EndsCall next →
    GivesAny (Mustache.params (ts ++ (ts' ++ (ts'' ++ next)))) params (ts' ++ (ts'' ++ next))
  givesPairs : ∀ next, EndsCall next →
    GivesAny (Mustache.pairs (ts' ++ (ts'' ++ next))) pairs (ts'' ++ next)
  givesNames : ∀ next, EndsCall next → GivesAny (blockParams (ts'' ++ next)) args.names next
  unjoined : ∀ next, EndsCall next → Unjoined (ts ++ (ts' ++ (ts'' ++ next)))
  paramTrees : List.Forall₂ (fun e tree => Tree.expression src e = .ok tree) params args.params
  pairTrees : List.Forall₂ (PairReads src) pairs args.pairs

theorem argumentsText_param (e : Expression) (args : List (Argument Expression)) :
    argumentsText (.param e :: args) = ' ' :: e.text ++ argumentsText args :=
  rfl

theorem argumentsText_pair (key : List Char) (e : Expression)
    (args : List (Argument Expression)) :
    argumentsText (.pair key e :: args) = ' ' :: key ++ '=' :: e.text ++ argumentsText args :=
  rfl

theorem endsLiteral_arguments (args : List (Argument Expression))
    (hrest : rest.head?.all endsLiteral = true) :
    (argumentsText args ++ rest).head?.all endsLiteral = true := by
  cases args with
  | nil => exact hrest
  | cons arg args => cases arg <;> rfl

theorem arguments_read_nil :
    ArgumentsRead src raw p [] rest [] [] [] [] [] (argumentsAt start []) where
  scans := Scans.nil _ p rest
  givesParams next hnext := by
    exact params_gives_iff.mpr (.nil hnext.endsParams)
  givesPairs next hnext := hnext.pairs
  givesNames next hnext := hnext.blockParams
  unjoined next hnext := hnext.unjoined
  paramTrees := .nil
  pairTrees := .nil

variable {ts ts' ts'' : List Token} {params : List Mustache.Expression}
  {pairs : List (Mustache.Pair Mustache.Expression)} {args : Arguments}

theorem ArgumentsRead.param {value : List Char} {tsE : List Token} {e : Mustache.Expression}
    {tree : Tree.Expression} (he : Reads src raw (p.next ' ') value (text ++ rest) tsE e tree)
    (h : ArgumentsRead src raw (p.after (' ' :: value)) text rest ts ts' ts'' params pairs args) :
    ArgumentsRead src raw p (' ' :: value ++ text) rest (tsE ++ ts) ts' ts'' (e :: params) pairs
      { args with params := tree :: args.params } where
  scans := by
    rw [List.append_assoc]
    exact he.blank.append h.scans
  givesParams next hnext := by
    have hunjoined := h.unjoined next hnext
    have hparam := he.isParam _ hunjoined
    have hparams := params_gives_iff.mp (h.givesParams next hnext)
    have hexpression := expression_gives_iff.mp (he.gives _ hunjoined)
    rw [List.append_assoc]
    exact params_gives_iff.mpr (.cons hparam hexpression hparams)
  givesPairs := h.givesPairs
  givesNames := h.givesNames
  unjoined next hnext := by
    rw [List.append_assoc]
    exact he.unjoined _
  paramTrees := .cons he.tree h.paramTrees
  pairTrees := h.pairTrees

theorem ArgumentsRead.pair {key value : List Char} {tsE : List Token} {e : Mustache.Expression}
    {tree : Tree.Expression} (hkey : isWord key = true)
    (he : Reads src raw ((p.next ' ').after (key ++ ['='])) value (text ++ rest) tsE e tree)
    (h : ArgumentsRead src raw (((p.next ' ').after (key ++ ['='])).after value) text rest []
      ts' ts'' [] pairs args)
    (hstands : src.Stands p start (' ' :: key ++ '=' :: value ++ text ++ rest))
    (hspan : tree.span.stop = start + 1 + byteLength key + 1 + byteLength value) :
    ArgumentsRead src raw p (' ' :: key ++ '=' :: value ++ text) rest []
      (tokenAt (p.next ' ') key (.name key false) :: tokenAt ((p.next ' ').after key) ['='] .equals
        :: tsE ++ ts') ts'' []
      (⟨key, e, ⟨p.next ' ', e.loc.stop⟩⟩ :: pairs)
      { args with pairs := ⟨key, tree, ⟨start + 1, tree.span.stop⟩⟩ :: args.pairs } where
  scans := by
    have hvalue : Scans (.tag raw) (((p.next ' ').after key).after ['=']) value tsE (.tag raw)
        (text ++ rest) := by
      rw [← Position.after_append]
      exact he.scans
    have hrest : Scans (.tag raw) ((((p.next ' ').after key).after ['=']).after value) text
        (ts' ++ ts'') (.tag raw) rest := by
      rw [← Position.after_append (p.next ' ')]
      exact h.scans
    have hword : Scans (.tag raw) (p.next ' ') key [tokenAt (p.next ' ') key (.name key false)]
        (.tag raw) (['='] ++ (value ++ text) ++ rest) :=
      scans_word hkey rfl
    have hblank : Scans (.tag raw) p (' ' :: key) [tokenAt (p.next ' ') key (.name key false)]
        (.tag raw) (['='] ++ (value ++ text) ++ rest) := by
      obtain ⟨c, cs, hcs, hc, -, -⟩ := chars_of_isWord hkey
      rw [hcs] at hword ⊢
      exact hword.blank (isBlank_of_startsWord (startsWord_of_isAlpha hc))
    have hall := hblank.append (scans_equals.append (hvalue.append hrest))
    simpa using hall
  givesParams next hnext := by
    exact params_gives_iff.mpr (.nil rfl)
  givesPairs next hnext := by
    have hunjoined : Unjoined (ts' ++ (ts'' ++ next)) := h.unjoined next hnext
    have hpairs := pairs_gives_iff.mp (h.givesPairs next hnext)
    have hexpression := expression_gives_iff.mp (he.gives _ hunjoined)
    rw [List.cons_append, List.cons_append, List.append_assoc]
    exact pairs_gives_iff.mpr (.cons rfl rfl hexpression hpairs)
  givesNames := h.givesNames
  unjoined next hnext := unjoined_cons (by simp [tokenAt]) (by simp [tokenAt])
  paramTrees := h.paramTrees
  pairTrees := by
    have htext : src.Stands (p.next ' ') (start + 1) (key ++ '=' :: value ++ (text ++ rest)) := by
      have hnext : src.Stands (p.next ' ') (start + 1) (key ++ '=' :: value ++ text ++ rest) :=
        hstands.next
      simpa using hnext
    have hstop : e.loc.stop = (p.next ' ').after (key ++ '=' :: value) := by
      rw [he.loc]
      simp [Position.after_append]
    have hoffset : src.offsetFor e.loc.stop = tree.span.stop := by
      rw [hstop, htext.after.offsetFor, hspan, byteLength_append, byteLength_cons]
      have : '='.utf8Size = 1 := rfl
      omega
    have hpair : src.spanFor ⟨p.next ' ', e.loc.stop⟩ = ⟨start + 1, tree.span.stop⟩ := by
      have hequals : '='.utf8Size = 1 := rfl
      rw [hstop, htext.spanFor, hspan, span, byteLength_append, byteLength_cons, hequals]
      congr 1
      omega
    exact .cons ⟨rfl, he.tree, hpair, htext.offsetFor, hoffset⟩ h.pairTrees

theorem arguments_read_names {names : List (List Char)} (hne : names ≠ [])
    (hnames : ∀ w ∈ names, isWord w = true) :
    ∃ ts, ArgumentsRead src raw p (argumentsText [.params names]) rest [] [] ts [] []
      (argumentsAt start [.params names]) := by
  obtain ⟨w, ws, rfl⟩ := List.exists_cons_of_ne_nil hne
  obtain ⟨hw, hws⟩ := List.forall_mem_cons.mp hnames
  have htext : argumentsText [.params (w :: ws)]
      = ' ' :: ['a', 's', ' ', '|'] ++ (w ++ (ws.flatMap (' ' :: ·) ++ ['|'])) := by
    have hargs : argumentsText [.params (w :: ws)]
        = [' ', 'a', 's', ' ', '|'] ++ List.intercalate [' '] (w :: ws) ++ ['|'] := rfl
    rw [hargs, intercalate_cons]
    simp
  have hopen : Scans (.tag raw) p (' ' :: ['a', 's', ' ', '|'])
      [tokenAt (p.next ' ') ['a', 's', ' ', '|'] .openParams] (.tag raw)
      (w ++ (ws.flatMap (' ' :: ·) ++ ['|']) ++ rest) :=
    Scans.blank (by decide) scans_openParams
  have hends : (['|'] ++ rest).head?.all (!isNameChar ·) = true := rfl
  obtain ⟨ts, hspaced, hgives⟩ := scans_spaced hws hends
    ((p.after (' ' :: ['a', 's', ' ', '|'])).after w)
  have hword : Scans (.tag raw) (p.after (' ' :: ['a', 's', ' ', '|'])) w
      [tokenAt (p.after (' ' :: ['a', 's', ' ', '|'])) w (.name w false)] (.tag raw)
      (ws.flatMap (' ' :: ·) ++ ['|'] ++ rest) := by
    refine scans_word hw ?_
    cases ws <;> rfl
  obtain ⟨bar, hsymbol, hbar⟩ : ∃ bar : Token, bar.symbol = .closeParams
      ∧ Scans (.tag raw) (((p.after (' ' :: ['a', 's', ' ', '|'])).after w).after
        (ws.flatMap (' ' :: ·))) ['|'] [bar] (.tag raw) rest := ⟨_, rfl, scans_closeParams⟩
  have hall := hopen.append (hword.append (hspaced.append hbar))
  rw [← htext] at hall
  refine ⟨tokenAt (p.next ' ') ['a', 's', ' ', '|'] .openParams
    :: tokenAt (p.after (' ' :: ['a', 's', ' ', '|'])) w (.name w false) :: (ts ++ [bar]),
    hall, ?_, ?_, ?_, ?_, .nil, .nil⟩
  · intro next _
    rw [List.nil_append, List.nil_append, Mustache.params, if_pos (by rfl)]
    exact ⟨_, rfl⟩
  · intro next _
    rw [List.nil_append, List.cons_append, List.cons_append, Mustache.pairs]
    exact ⟨_, rfl⟩
  · intro next _
    obtain ⟨hlength, hnames⟩ := hgives bar next (by simp [hsymbol])
    have hgiven : (argumentsAt start [.params (w :: ws)]).names = w :: ws := List.append_nil _
    rw [hgiven, List.cons_append, List.cons_append, List.append_assoc, List.singleton_append]
    refine blockParams_names rfl (List.cons_ne_nil w ws) ?_ hsymbol
    rw [Mustache.names]
    dsimp only [tokenAt]
    rw [hnames]
    exact ⟨_, rfl⟩
  · intro next _
    exact unjoined_cons (by simp [tokenAt]) (by simp [tokenAt])

private theorem expressions_eq {es : List Mustache.Expression} {trees : List Tree.Expression}
    (h : List.Forall₂ (fun e tree => Tree.expression src e = .ok tree) es trees) :
    Tree.expressions src es = .ok trees := by
  induction h with
  | nil => rfl
  | cons he _ ih =>
    rw [Tree.expressions, he, ih]
    rfl

private theorem hashPairs_eq {trees : List (Tree.Pair Tree.Expression)}
    (h : List.Forall₂ (PairReads src) pairs trees) : Tree.hashPairs src pairs = .ok trees := by
  induction h with
  | nil => rfl
  | @cons pair tree _ _ hpair _ ih =>
    rw [Tree.hashPairs, hpair.value, ih]
    show Except.ok _ = _
    rw [hpair.key, hpair.span]

theorem last_reads {pair : Mustache.Pair Mustache.Expression} {tree : Tree.Pair Tree.Expression}
    {trees : List (Tree.Pair Tree.Expression)}
    (h : List.Forall₂ (PairReads src) (pair :: pairs) (tree :: trees)) :
    ∃ last last', (pair :: pairs).getLast? = some last ∧ (tree :: trees).getLast? = some last'
      ∧ PairReads src last last' := by
  induction pairs generalizing pair tree trees with
  | nil =>
    obtain ⟨hpair, htrees⟩ := List.forall₂_cons.mp h
    obtain rfl := List.forall₂_nil_left_iff.mp htrees
    exact ⟨pair, tree, rfl, rfl, hpair⟩
  | cons next pairs ih =>
    obtain ⟨-, htrees⟩ := List.forall₂_cons.mp h
    obtain ⟨next', trees', hnext, hpairs, rfl⟩ := List.forall₂_cons_left_iff.mp htrees
    obtain ⟨last, last', hlast, hlast', hreads⟩ := ih htrees
    refine ⟨last, last', ?_, ?_, hreads⟩
    · rw [List.getLast?_cons_cons, hlast]
    · rw [List.getLast?_cons_cons, hlast']

private theorem merge_last {first last : Tree.Pair Tree.Expression}
    {trees : List (Tree.Pair Tree.Expression)} (hlast : (first :: trees).getLast? = some last)
    (hordered : (first :: trees).Pairwise fun a b => a.span.stop ≤ b.span.start)
    (hspans : ∀ pair ∈ first :: trees, pair.span.start ≤ pair.span.stop) :
    first.span.merge last.span = ⟨first.span.start, last.span.stop⟩
      ∧ first.span.start ≤ last.span.stop := by
  have hfirst := hspans first List.mem_cons_self
  have hend := hspans last (List.mem_of_getLast? hlast)
  have hle : first = last ∨ first.span.stop ≤ last.span.start := by
    obtain rfl | hmem := List.mem_cons.mp (List.mem_of_getLast? hlast)
    · exact .inl rfl
    · exact .inr ((List.pairwise_cons.mp hordered).1 last hmem)
  unfold Span.merge
  obtain rfl | hle := hle
  · exact ⟨by simp, hfirst⟩
  · rw [Nat.min_eq_left (by omega), Nat.max_eq_right (by omega)]
    exact ⟨rfl, by omega⟩

private theorem call_tree {callee : Mustache.Expression} {path : Tree.Path}
    (hcallee : Tree.expression src callee = .ok (.path path))
    (hparams : List.Forall₂ (fun e tree => Tree.expression src e = .ok tree) params args.params)
    (hpairs : List.Forall₂ (PairReads src) pairs args.pairs)
    (hordered : args.pairs.Pairwise fun a b => a.span.stop ≤ b.span.start)
    (hspans : ∀ pair ∈ args.pairs, pair.span.start ≤ pair.span.stop) :
    Tree.call src ⟨callee, params, Hash.ofPairs? pairs⟩ = .ok (args.call (.path path)) := by
  have hparams := expressions_eq hparams
  obtain ⟨trees, pairTrees, names⟩ := args
  cases pairs with
  | nil =>
    obtain rfl := List.forall₂_nil_left_iff.mp hpairs
    show Tree.call src ⟨callee, params, none⟩ = _
    rw [Tree.call, hcallee]
    simp only [bind, Except.bind]
    rw [hparams]
    rfl
  | cons pair pairs =>
    obtain ⟨first, more, -, -, rfl⟩ := List.forall₂_cons_left_iff.mp hpairs
    obtain ⟨last, last', hlast, hlast', hreads⟩ := last_reads hpairs
    obtain ⟨hmerge, hle⟩ := merge_last hlast' hordered hspans
    have hfirst := (List.forall₂_cons.mp hpairs).1
    have htrees := hashPairs_eq hpairs
    have hspan : src.spanFor ⟨pair.loc.start, last.loc.stop⟩ = first.span.merge last'.span := by
      unfold Source.spanFor
      rw [hfirst.start, hreads.stop, hmerge]
      simp only [Nat.max_eq_left hle]
    have hhash : Hash.ofPairs? (pair :: pairs)
        = some ⟨pair :: pairs, ⟨pair.loc.start, last.loc.stop⟩⟩ := by
      unfold Hash.ofPairs?
      rw [List.head?_cons, hlast]
    rw [hhash, Tree.call, hcallee]
    simp only [bind, Except.bind]
    rw [hparams]
    simp only [Tree.callable]
    rw [htrees, hspan]
    unfold Arguments.call
    simp only [List.head?_cons, hlast']
    rfl

/-- A text is read as a call, with the names of a block after it. -/
structure CallReads (src : Source) (raw : Bool) (p : Position) (text rest : List Char)
    (ts ts' : List Token) (c : Mustache.Call Mustache.Expression) (path : Mustache.Path)
    (names : List (List Char)) (tree : Tree.Call Tree.Expression) : Prop where
  scans : Scans (.tag raw) p text (ts ++ ts') (.tag raw) rest
  gives : ∀ next, EndsCall next → Gives (Mustache.call (ts ++ (ts' ++ next))) c (ts' ++ next)
  givesNames : ∀ next, EndsCall next → GivesAny (blockParams (ts' ++ next)) names next
  callee : c.callee = .path path
  calleeTree : Tree.expression src (.path path) = .ok tree.callee
  tree : Tree.call src c = .ok tree

theorem ArgumentsRead.call {written : List Char} {tsP : List Token} {path : Mustache.Path}
    {given : List (Argument Expression)} {stop : Nat} {path' : Tree.Path}
    (hpath : Reads src raw p written (text ++ rest) tsP (.path path) (.path path'))
    (h : ArgumentsRead src raw (p.after written) text rest ts ts' ts'' params pairs
      (argumentsAt stop given)) :
    CallReads src raw p (written ++ text) rest (tsP ++ (ts ++ ts')) ts''
      ⟨.path path, params, Hash.ofPairs? pairs⟩ path (argumentsAt stop given).names
      ((argumentsAt stop given).call (.path path')) where
  scans := by
    have hscans := hpath.scans.append h.scans
    simpa using hscans
  gives next hnext := by
    have hunjoined := h.unjoined next hnext
    have hcallee := expression_gives_iff.mp (hpath.gives _ hunjoined)
    have hparams := params_gives_iff.mp (h.givesParams next hnext)
    have hpairs := pairs_gives_iff.mp (h.givesPairs next hnext)
    rw [List.append_assoc, List.append_assoc]
    exact call_gives_iff.mpr (.intro hcallee hparams hpairs)
  givesNames := h.givesNames
  callee := rfl
  calleeTree := hpath.tree
  tree := call_tree hpath.tree h.paramTrees h.pairTrees (pairs_inOrder given stop)
    fun pair hpair => (pairs_after given stop pair hpair).2

theorem CallReads.enclosed {c : Mustache.Call Mustache.Expression} {path : Mustache.Path}
    {names : List (List Char)} {tree : Tree.Call Tree.Expression}
    (h : CallReads src raw (p.next '(') text ([')'] ++ rest) ts [] c path names tree)
    (hstands : src.Stands p start ('(' :: text ++ [')'] ++ rest)) :
    Reads src raw p ('(' :: text ++ [')']) rest
      (tokenAt p ['('] .openCall :: ts
        ++ [tokenAt ((p.next '(').after text) [')'] .closeCall])
      (.call c ⟨p, p.after ('(' :: text ++ [')'])⟩)
      (.call tree (span start ('(' :: text ++ [')']))) where
  scans := by
    have hopen : Scans (.tag raw) p ['('] [tokenAt p ['('] .openCall] (.tag raw)
        (text ++ [')'] ++ rest) := scans_openCall
    have hcall : Scans (.tag raw) (p.after ['(']) text ts (.tag raw) ([')'] ++ rest) := by
      have hscans := h.scans
      rwa [List.append_nil] at hscans
    exact hopen.append (hcall.append scans_closeCall)
  starts := ⟨'(', text ++ [')'], rfl, by decide⟩
  gives next hnext := by
    have hcall := call_gives_iff.mp (h.gives
      (tokenAt ((p.next '(').after text) [')'] .closeCall :: next)
      (by simp [EndsCall, peek, tokenAt]))
    have hafter : p.after ('(' :: text ++ [')']) = ((p.next '(').after text).after [')'] :=
      Position.after_append (p.next '(') text [')']
    rw [List.append_assoc, List.cons_append, hafter]
    exact expression_gives_iff.mpr (.call rfl hcall rfl)
  isParam next _ := by
    rw [List.append_assoc, List.cons_append]
    cases ts <;> rfl
  unjoined next := unjoined_cons (by simp [tokenAt]) (by simp [tokenAt])
  tree := by
    rw [Tree.expression, h.tree, hstands.spanFor]
    rfl
  loc := rfl

mutual

theorem expression_reads : (e : Expression) → {p : Position} → {start : Nat} → {rest : List Char} →
    e.WellFormed → rest.head?.all endsLiteral = true → src.Stands p start (e.text ++ rest) →
    ∃ ts e', Reads src raw p e.text rest ts e' (e.treeAt start)
  | .constant c, _, _, _, hwf, hrest, hstands => ⟨_, _, constant_reads hwf hrest hstands⟩
  | .path written, _, _, _, hwf, hrest, hstands => by
    obtain ⟨ts, path, hreads, -⟩ := path_reads hwf hrest hstands
    exact ⟨ts, _, hreads⟩
  | .call path args, p, start, rest, hwf, hrest, hstands => by
    obtain ⟨hpathwf, hargs⟩ := hwf
    have hstands : src.Stands p start ('(' :: (path ++ argumentsText args) ++ [')'] ++ rest) := by
      simpa [Expression.text] using hstands
    have hinside : src.Stands (p.next '(') (start + 1)
        (path ++ (argumentsText args ++ (')' :: rest))) := by
      have hnext : src.Stands (p.next '(') (start + 1)
          (path ++ argumentsText args ++ [')'] ++ rest) := hstands.next
      simpa using hnext
    have hends : (')' :: rest).head?.all endsLiteral = true := rfl
    obtain ⟨tsP, path', hpath, -⟩ :=
      path_reads hpathwf (endsLiteral_arguments args hends) hinside
    obtain ⟨ts, ts', ts'', params, pairs, hread, -, hnames⟩ :=
      arguments_read args hargs rfl hinside.after
    obtain rfl := hnames rfl
    exact ⟨_, _, (hread.call hpath).enclosed hstands⟩

theorem arguments_read : (args : List (Argument Expression)) → {named paired : Bool} →
    {p : Position} → {start : Nat} → {rest : List Char} → argumentsWellFormed named paired args →
    rest.head?.all endsLiteral = true → src.Stands p start (argumentsText args ++ rest) →
    ∃ ts ts' ts'' params pairs, ArgumentsRead src raw p (argumentsText args) rest ts ts' ts'' params
      pairs (argumentsAt start args) ∧ (paired = true → ts = [] ∧ params = [])
      ∧ (named = false → ts'' = [])
  | [], _, _, _, _, _, _, _, _ =>
    ⟨_, _, _, _, _, arguments_read_nil, fun _ => ⟨rfl, rfl⟩, fun _ => rfl⟩
  | .param e :: args, _, _, p, start, rest, hwf, hrest, hstands => by
    obtain ⟨hpaired, he, hargs⟩ := hwf
    have hstands : src.Stands p start (' ' :: (e.text ++ (argumentsText args ++ rest))) := by
      simpa [argumentsText_param] using hstands
    obtain ⟨tsE, e', hreads⟩ :=
      expression_reads e he (endsLiteral_arguments args hrest) hstands.next
    obtain ⟨ts, ts', ts'', params, pairs, hread, -, hnames⟩ :=
      arguments_read args hargs hrest hstands.next.after
    refine ⟨_, _, _, _, _, hread.param hreads, fun hcon => ?_, hnames⟩
    rw [hpaired] at hcon
    cases hcon
  | .pair key e :: args, _, _, p, start, rest, hwf, hrest, hstands => by
    obtain ⟨hkey, he, hargs⟩ := hwf
    have hstands : src.Stands p start
        (' ' :: key ++ '=' :: e.text ++ argumentsText args ++ rest) := by
      simpa [argumentsText_pair] using hstands
    have hvalue : src.Stands ((p.next ' ').after (key ++ ['=']))
        (start + 1 + byteLength key + 1) (e.text ++ (argumentsText args ++ rest)) := by
      have hnext : src.Stands (p.next ' ') (start + 1)
          ((key ++ ['=']) ++ (e.text ++ (argumentsText args ++ rest))) := by
        have hnext : src.Stands (p.next ' ') (start + 1)
            (key ++ '=' :: e.text ++ argumentsText args ++ rest) := hstands.next
        simpa using hnext
      have hbytes : byteLength (key ++ ['=']) = byteLength key + 1 := byteLength_append _ _
      have hafter := hnext.after
      rwa [hbytes, ← Nat.add_assoc] at hafter
    obtain ⟨tsE, e', hreads⟩ := expression_reads e he (endsLiteral_arguments args hrest) hvalue
    obtain ⟨ts, ts', ts'', params, pairs, hread, hpaired, hnames⟩ :=
      arguments_read args hargs hrest hvalue.after
    obtain ⟨rfl, rfl⟩ := hpaired rfl
    have hspan : (e.treeAt (start + 1 + byteLength key + 1)).span.stop
        = start + 1 + byteLength key + 1 + byteLength e.text := by
      rw [span_treeAt]
      rfl
    exact ⟨_, _, _, _, _, hread.pair hkey hreads hstands hspan, fun _ => ⟨rfl, rfl⟩, hnames⟩
  | .params names :: args, _, _, _, _, _, hwf, hrest, hstands => by
    obtain ⟨hnamed, hne, hnames, rfl⟩ := hwf
    obtain ⟨ts, hread⟩ := arguments_read_names hne hnames
    refine ⟨[], [], ts, [], [], hread, fun _ => ⟨rfl, rfl⟩, fun hnot => ?_⟩
    rw [hnamed] at hnot
    cases hnot

end

theorem Call.reads {call : Call} {named : Bool} (h : call.WellFormed named)
    (hrest : rest.head?.all endsLiteral = true) (hstands : src.Stands p start (call.text ++ rest)) :
    ∃ ts ts' c path, CallReads src raw p call.text rest ts ts' c path (call.arguments start).names
      (call.treeAt start) ∧ path.written = call.path ∧ (named = false → ts' = []) := by
  obtain ⟨hpath, hargs⟩ := h
  have hstands : src.Stands p start (call.path ++ (argumentsText call.args ++ rest)) := by
    simpa [Call.text] using hstands
  obtain ⟨tsP, path, hreads, hwritten⟩ := path_reads hpath
    (endsLiteral_arguments call.args hrest) hstands
  obtain ⟨ts, ts', ts'', params, pairs, hread, -, hnames⟩ :=
    arguments_read call.args hargs hrest hstands.after
  exact ⟨_, _, _, path, hread.call hreads, hwritten, hnames⟩

end HtmlTemplate.Draft
