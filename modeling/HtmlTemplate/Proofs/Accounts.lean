import HtmlTemplate.Proofs.Boundaries
import HtmlTemplate.Proofs.Evaluation
import HtmlTemplate.Proofs.Holdings
import HtmlTemplate.Proofs.Runs

/-! Every statement that is neither text nor part of an HTML comment gives just one node, of
its kind and in its place, except in attributes that are read as block parameters. -/

namespace HtmlTemplate.Tree.Assembly

open Html (InStep Moves Tokenizer)

/-- The statement as an item, unless it is text or part of an HTML comment. -/
def written (src : Source) (a : Assembly) (s : Mustache.Statement) : List Item :=
  if a.tokenizer.state.isComment then [] else s.item src

/-- The items that are lost while a statement is read, sections aside. -/
def lost (src : Source) (a : Assembly) (s : Mustache.Statement) : List Item :=
  a.markup.losesIn src ((a.report src s).map (·.event))

variable {src : Source} {g : Ground} {now : Nat} {a b : Assembly}

theorem written_of_comment {s : Mustache.Statement} (h : a.tokenizer.state.isComment = true) :
    a.written src s = [] :=
  if_pos h

theorem written_of_not_comment {s : Mustache.Statement}
    (h : a.tokenizer.state.isComment = false) : a.written src s = s.item src := by
  simp [written, h]

theorem lost_of_ne {s : Mustache.Statement} (hs : ∀ c, s ≠ .content c)
    (h : a.tokenizer.state.isComment = false) : a.lost src s = [] := by
  simp [lost, report_of_ne hs, h, Markup.losesIn]

theorem held_endAttribute (ha : a.markup.Honest) (h : a.endAttribute src = .ok b) :
    b.markup.held = a.markup.held ∧ b.markup.Honest := by
  simp only [endAttribute, withMarkup, bind_eq_ok, pure_eq_ok] at h
  obtain ⟨n, hn, rfl⟩ := h
  have hbegun : (a.markup.beginValue false (a.offset src)).Honest := ha.mapAttribute fun _ h => h
  refine ⟨?_, Markup.honest_finishValue hn⟩
  rw [Markup.held_finishValue hbegun hn]
  exact Markup.held_mapAttribute fun _ => rfl

theorem held_addModifier {d : Dynamic} (ha : a.markup.Honest) (h : a.addModifier src d = .ok b) :
    b.markup.held = a.markup.held + ↑d.items ∧ b.markup.Honest := by
  cases d with
  | call m =>
    simp only [addModifier, withMarkup, bind_eq_ok, pure_eq_ok] at h
    obtain ⟨n, hn, rfl⟩ := h
    exact ⟨Markup.held_addModifier hn, ha.withStartTag hn⟩
  | literal m => simp [addModifier, fault] at h

theorem held_addTagComment {c : Comment} (ha : a.markup.Honest)
    (h : a.withMarkup (·.addTagComment src c) = .ok b) :
    b.markup.held = a.markup.held + ↑c.items ∧ b.markup.Honest := by
  simp only [withMarkup, bind_eq_ok, pure_eq_ok] at h
  obtain ⟨n, hn, rfl⟩ := h
  exact ⟨Markup.held_addTagComment hn, ha.withStartTag hn⟩

theorem Settled.held_place {d : Dynamic} (h : Settled g now a) (ha : a.markup.Honest)
    (hb : a.place src d = .ok b) :
    b.markup.held = a.markup.held + ↑d.items ∧ b.markup.Honest := by
  unfold Assembly.place at hb
  split at hb
  · simp [fault] at hb
  · simp [fault] at hb
  · exact held_addModifier ha hb
  · simp only [bind_eq_ok, pure_eq_ok] at hb
    obtain ⟨a₁, h₁, a₂, h₂, rfl⟩ := hb
    obtain ⟨hheld, ha₁⟩ := held_endAttribute ha h₁
    rw [← hheld]
    exact held_addModifier (b := a₂) ha₁ h₂
  · simp only [bind_eq_ok, pure_eq_ok] at hb
    obtain ⟨a₁, h₁, a₂, h₂, rfl⟩ := hb
    obtain ⟨hheld, ha₁⟩ := held_endAttribute ha h₁
    rw [← hheld]
    exact held_addModifier (b := a₂) ha₁ h₂
  · simp only [bind_eq_ok, pure_eq_ok] at hb
    obtain ⟨a₁, h₁, rfl⟩ := hb
    exact held_addModifier (b := a₁) ha h₁
  · rename_i hstate
    cases hb
    obtain ⟨-, p, hp, -⟩ := (h.at_of_state hstate).phase
    have hbegun : (a.markup.beginValue false (a.offset src)).Honest := ha.mapAttribute fun _ h => h
    have hheld : (a.markup.beginValue false (a.offset src)).held = a.markup.held :=
      Markup.held_mapAttribute fun _ => rfl
    rw [← hheld]
    refine ⟨Markup.held_addValuePart (a := { p with quoted := false, valueStart := a.offset src
                                                    text := none }) ?_ d, hbegun.addValuePart d⟩
    simp [Markup.beginValue, Markup.mapAttribute, hp]
  · rename_i hstate
    cases hb
    obtain ⟨-, p, hp⟩ := (h.at_of_state hstate).phase
    exact ⟨Markup.held_addValuePart hp d, ha.addValuePart d⟩
  · rename_i hstate
    cases hb
    obtain ⟨-, p, hp⟩ := (h.at_of_state hstate).phase
    exact ⟨Markup.held_addValuePart hp d, ha.addValuePart d⟩
  · rename_i hstate
    cases hb
    obtain ⟨-, p, hp⟩ := (h.at_of_state hstate).phase
    exact ⟨Markup.held_addValuePart hp d, ha.addValuePart d⟩
  · cases hb
    exact ⟨Markup.held_append h.at_.framed.ne_nil (.dynamic d), ha⟩

theorem Settled.held_placeComment {c : Comment} (h : Settled g now a) (ha : a.markup.Honest)
    (hb : a.placeComment src c = .ok b) :
    b.markup.held = a.markup.held + ↑c.items ∧ b.markup.Honest := by
  unfold Assembly.placeComment at hb
  split at hb
  · exact held_addTagComment ha hb
  · simp only [bind_eq_ok, pure_eq_ok] at hb
    obtain ⟨a₁, h₁, a₂, h₂, rfl⟩ := hb
    obtain ⟨hheld, ha₁⟩ := held_endAttribute ha h₁
    rw [← hheld]
    exact held_addTagComment (b := a₂) ha₁ h₂
  · cases hb
    exact ⟨Markup.held_append h.at_.framed.ne_nil (.mustacheComment c), ha⟩
  · cases hb
    exact ⟨Markup.held_append h.at_.framed.ne_nil (.mustacheComment c), ha⟩
  · simp [fault] at hb

theorem item_mustache {m : Mustache.Interpolation} {d : Dynamic} (h : dynamic src m = .ok d) :
    (Mustache.Statement.mustache m).item src = d.items := by
  obtain ⟨⟨callee, params, hash⟩, escaped, strip, loc⟩ := m
  obtain ⟨l, loc', hcall, rfl⟩ | ⟨c, hc, rfl⟩ := dynamic_ok h
  · cases hcall
    rfl
  · cases callee with
    | literal l loc' =>
      exact absurd hc (call_literal l loc' params hash)
    | path _ => rfl
    | call _ _ => rfl

theorem Settled.reports_held {lo hi : Position} {s : Mustache.Statement} {n : Markup}
    (h : Settled g (g.src.offsetFor lo) a) (hlo : 1 ≤ lo.line) (hloc : s.loc.Within lo hi)
    (ha : a.markup.Honest)
    (hn : ((a.report g.src s).map (·.event)).foldlM (Markup.receive g.src) a.markup = .ok n) :
    n.held + ↑(a.lost g.src s) = a.markup.held ∧ n.Honest := by
  by_cases hcontent : ∃ c, s = .content c
  · obtain ⟨c, rfl⟩ := hcontent
    obtain ⟨k, hmoves⟩ := report_moves g.src a c .start
    exact hmoves.held (h.inStep hlo hloc.1 .start) ha hn
  · have hne : ∀ c, s ≠ .content c := fun c hc => hcontent ⟨c, hc⟩
    rw [lost]
    rw [report_of_ne hne] at hn ⊢
    by_cases hcomment : a.tokenizer.state.isComment = true
    · rw [if_pos hcomment] at hn ⊢
      have hinStep := (Tokenizer.sound_iff .start).mp (h.sound hlo (Nat.le_refl _))
      have hconstruct : (a.tokenizer.moveTo lo).construct .start = .comment :=
        Tokenizer.construct_of_isComment hcomment
      rw [hconstruct] at hinStep
      exact (Moves.commentDatas fun he => by
        obtain ⟨e', he', rfl⟩ := List.mem_map.mp he
        exact Tokenizer.events_appendComment he').held hinStep ha hn
    · rw [if_neg hcomment] at hn ⊢
      obtain rfl := pure_eq_ok.mp hn
      exact ⟨by simp [Markup.losesIn], ha⟩

theorem Settled.held_flat {lo hi : Position} {s : Mustache.Statement}
    (h : Settled g (g.src.offsetFor lo) a) (hlo : 1 ≤ lo.line) (hloc : s.loc.Within lo hi)
    (ha : a.markup.Honest) (hflat : isSectioned s = false ∨ a.tokenizer.state.isComment = true)
    (hb : statement g.src a s = .ok b) :
    b.markup.held + ↑(a.lost g.src s) = a.markup.held + ↑(a.written g.src s)
      ∧ b.markup.Honest := by
  have hchild (hne : ∀ c, s ≠ .content c) (hcomment : a.tokenizer.state.isComment = false)
      {n : Markup} (hn : n.held = a.markup.held + ↑(s.item g.src) ∧ n.Honest) :
      n.held + ↑(a.lost g.src s) = a.markup.held + ↑(a.written g.src s) ∧ n.Honest := by
    rw [lost_of_ne hne hcomment, written_of_not_comment hcomment, Multiset.coe_nil, add_zero]
    exact hn
  cases statement_ok hb with
  | @content c _ hb =>
    have hwritten : a.written g.src (.content c) = [] := ite_self []
    rw [hwritten, Multiset.coe_nil, add_zero]
    exact h.reports_held hlo hloc ha (content_ok hb).1
  | commented hne hcomment hb =>
    rw [written_of_comment hcomment, Multiset.coe_nil, add_zero]
    refine h.reports_held hlo hloc ha ?_
    rw [report_of_ne hne, if_pos hcomment, List.foldlM_map]
    exact (follow_ok hb).1
  | mustache hcomment hd hb =>
    refine hchild (by simp) hcomment ?_
    rw [item_mustache hd]
    exact h.held_place ha hb
  | decorator hdata _ =>
    exact hchild (by simp) (Html.State.isComment_of_isData hdata)
      ⟨Markup.held_append h.at_.framed.ne_nil _, ha⟩
  | comment hcomment hb => exact hchild (by simp) hcomment (h.held_placeComment ha hb)
  | partialCall hcomment _ =>
    exact hchild (by simp) hcomment ⟨Markup.held_append h.at_.framed.ne_nil _, ha⟩
  | block hblock | decoratorBlock hblock =>
    have hcomment := Html.State.isComment_of_isData (block_ok hblock).1
    simp [isSectioned, hcomment] at hflat
  | partialBlock hcomment _ _ => simp [isSectioned, hcomment] at hflat

def Balances (src : Source) (ts : List Mustache.Token) : RunProperty := fun a ss b =>
  Laid src ts a ss → a.markup.Honest →
    b.markup.held + ↑(collectAll src (lost src) a ss)
        = a.markup.held + ↑(collectAll src (written src) a ss)
      ∧ b.markup.Honest

variable {ts : List Mustache.Token}

theorem held_pushBody (a : Assembly) : a.pushBody.2.markup.held = a.markup.held := by
  rfl

theorem Inside.balance {fallback : Nat} {p : Mustache.Program Mustache.Statement}
    {nodes : Section Statement} (h : Inside src (Balances src ts) a fallback p nodes b)
    (hlaid : Laid src ts a.pushBody.2 p.body) (ha : a.markup.Honest) :
    b.markup.held + (↑nodes.items + ↑(collectAll src (lost src) a.pushBody.2 p.body))
        = a.markup.held + ↑(collectAll src (written src) a.pushBody.2 p.body)
      ∧ b.markup.Honest := by
  obtain ⟨hsection, hinside⟩ := h
  obtain ⟨inside, frame, stack, hstatements, -, hpop, rfl, rfl⟩ := sectionOf_ok hsection
  obtain ⟨hheld, hhonest⟩ := hinside inside hstatements hlaid ha
  have hfills := (statements_keepsFilling p.body hstatements).2 _ _
    (OpenElements.fills_pushBody a.markup.stack)
  obtain ⟨-, -, children, rfl⟩ := hfills.popExpecting_ok hpop
  refine ⟨?_, hhonest⟩
  rw [held_pushBody] at hheld
  rw [← hheld]
  simp only [Markup.held, OpenElements.items_popExpecting hpop, Frame.items, Frame.children,
    Section.items, ← Multiset.coe_add]
  abel

theorem Inside?.balance {fallback : Nat} {p : Option (Mustache.Program Mustache.Statement)}
    {nodes : Option (Section Statement)}
    (h : Inside? src (Balances src ts) a fallback p nodes b)
    (hlaid : ∀ q, p = some q → Laid src ts a.pushBody.2 q.body) (ha : a.markup.Honest) :
    b.markup.held + (↑(inverseItems nodes) + ↑(collectSection? src (lost src) a p))
        = a.markup.held + ↑(collectSection? src (written src) a p)
      ∧ b.markup.Honest := by
  cases p with
  | none =>
    obtain ⟨rfl, rfl⟩ := h
    exact ⟨rfl, ha⟩
  | some p =>
    obtain ⟨s, rfl, hs⟩ := h
    obtain ⟨body, params, chained⟩ := p
    exact hs.balance (hlaid _ rfl) ha

theorem Laid.held_append {ss : List Mustache.Statement} {node : Statement}
    (h : Laid src ts (b.append node) ss) :
    (b.append node).markup.held = b.markup.held + ↑node.items := by
  obtain ⟨_, _, _, _, _, _, _, _, hsettled⟩ := h
  refine Markup.held_append (fun hnil => hsettled.at_.framed.ne_nil ?_) node
  show (b.markup.stack.append node).frames = []
  rw [OpenElements.append, OpenElements.mapTop, hnil]
  exact hnil

theorem items_block {m : Mustache.Block Mustache.Statement} {node : Block Statement}
    {program inverse : Option (Section Statement)} {origin : Origin}
    (hprogram : node.program = program.getD ⟨[], [], false, .empty (src.spanFor m.loc).start⟩)
    (hinverse : node.inverse = inverse) (hblock : Assembly.block src a m = .ok (node, b)) :
    Block.items origin node
      = (origin, src.spanFor m.loc) :: inverseItems program ++ inverseItems inverse := by
  obtain ⟨-, _, _, _, _, -, -, -, rfl⟩ := block_ok hblock
  simp only at hprogram hinverse
  rw [hprogram, hinverse, Block.items]
  cases program <;> rfl

theorem balances (src : Source) (ts : List Mustache.Token) : Follows src (Balances src ts) where
  nil a _ ha := ⟨rfl, ha⟩
  flat {a b c s ss} hflat hb ih hlaid ha := by
    obtain ⟨bottom, base, lo, hi, hlo, hordered, -, -, hsettled⟩ := id hlaid
    obtain ⟨hfirst, hb'⟩ := hsettled.held_flat hlo hordered.1 ha hflat hb
    obtain ⟨hrest, hc⟩ := ih (hlaid.tail hb) hb'
    refine ⟨?_, hc⟩
    simp only [collectAll_cons hb, collect_flat hflat, ← Multiset.coe_add]
    ext x
    replace hfirst := congrArg (Multiset.count x) hfirst
    replace hrest := congrArg (Multiset.count x) hrest
    simp only [Multiset.count_add] at hfirst hrest ⊢
    omega
  block {a mid b c s child m node ss program inverse} hs hdata hcall hprogram hinverse hp hi hblock
      hb ih hlaid ha := by
    have hs' : s = .block m ∨ s = .decoratorBlock m := hs.imp And.left And.left
    have hcomment := Html.State.isComment_of_isData hdata
    obtain ⟨hbefore, hmid⟩ := hprogram.balance
      (fun q hq => hlaid.inside (.program hs' hdata hcall hq)) ha
    obtain ⟨hafter, hb'⟩ := hinverse.balance
      (fun q hq => hlaid.inside (.inverse hs' hdata hcall hprogram.read hq)) hmid
    have htail := hlaid.tail hb
    obtain ⟨hrest, hc⟩ := ih htail hb'
    have hchild : (↑child.items : Multiset Item)
        = ↑(s.item src) + (↑(inverseItems program) + ↑(inverseItems inverse)) := by
      rcases hs with ⟨rfl, rfl⟩ | ⟨rfl, rfl⟩
      all_goals
        rw [Statement.items, items_block hp hi hblock]
        rfl
    have hlost : a.lost src s = [] :=
      lost_of_ne (by rcases hs' with rfl | rfl <;> simp) hcomment
    refine ⟨?_, hc⟩
    rw [htail.held_append, hchild] at hrest
    simp only [collectAll_cons hb, collect_block hs' hdata hprogram.read, hlost,
      written_of_not_comment hcomment, List.nil_append, ← Multiset.coe_add]
    ext x
    replace hbefore := congrArg (Multiset.count x) hbefore
    replace hafter := congrArg (Multiset.count x) hafter
    replace hrest := congrArg (Multiset.count x) hrest
    simp only [Multiset.count_add] at hbefore hafter hrest ⊢
    omega
  partialBlock {a b c m callee nodes ss} hcomment hcallee hsection hb ih hlaid ha := by
    obtain ⟨hinside, hb'⟩ := hsection.balance
      (hlaid.inside (.partialBlock hcomment hcallee)) ha
    have htail := hlaid.tail hb
    obtain ⟨hrest, hc⟩ := ih htail hb'
    have hchild : (↑(Statement.partialBlock
        ⟨callee, nodes, m.openStrip, m.closeStrip, src.spanFor m.loc⟩).items : Multiset Item)
          = ↑((Mustache.Statement.partialBlock m).item src) + ↑nodes.items := by
      rw [Statement.items]
      rfl
    have hlost : a.lost src (.partialBlock m) = [] := lost_of_ne (by simp) hcomment
    refine ⟨?_, hc⟩
    rw [htail.held_append, hchild] at hrest
    simp only [collectAll_cons hb, collect_partialBlock hcomment, hlost,
      written_of_not_comment hcomment, List.nil_append, ← Multiset.coe_add]
    ext x
    replace hinside := congrArg (Multiset.count x) hinside
    replace hrest := congrArg (Multiset.count x) hrest
    simp only [Multiset.count_add] at hinside hrest ⊢
    omega

theorem held_initial (mode : Html.Mode) : (initial mode).markup.held = 0 :=
  held_pushBody ⟨{ mode }, {}⟩

theorem collect_lost_eq_nil {ss : List Mustache.Statement} (h : statements src a ss = .ok b) :
    collectAll src (lost src) a ss = [] ↔
      ∀ s a', Passes src a ss (.reads s a') → a'.lost src s = [] := by
  simp only [List.eq_nil_iff_forall_not_mem]
  constructor
  · intro hnone s a' hreads x hx
    exact hnone x (((collects src (lost src) x).statements ss h).mpr ⟨s, a', hreads, hx⟩)
  · intro hnone x hx
    obtain ⟨s, a', hreads, hx⟩ := ((collects src (lost src) x).statements ss h).mp hx
    exact hnone s a' hreads x hx

end HtmlTemplate.Tree.Assembly

namespace HtmlTemplate

open HtmlTemplate.Tree (Assembly)
open HtmlTemplate.Tree.Assembly (collectAll written lost)

theorem items_perm {text : List Char} {options : Options} {t : Tree.Template}
    (h : preprocess text options = .ok t) :
    let src : Source := ⟨text, options.moduleName⟩
    ∃ program a, Mustache.parse text options.keepLines = .ok program
      ∧ Assembly.statements src (.initial options.mode) program.body = .ok a
      ∧ (t.items ++ collectAll src (lost src) (.initial options.mode) program.body).Perm
          (collectAll src (written src) (.initial options.mode) program.body) := by
  intro src
  obtain ⟨program, a, stack, hparse, ha, hidle, hpop, hstack⟩ := preprocess_ok h
  refine ⟨program, a, hparse, ha, ?_⟩
  obtain ⟨ts, -, -, hlaid⟩ := laid_initial hparse
  obtain ⟨hheld, -⟩ := (Assembly.balances src ts).statements program.body ha hlaid
    (Tree.Markup.honest_of_none rfl)
  have hrest : stack.items = [] := by
    rw [Tree.OpenElements.items, hstack]
    rfl
  have hbody : a.markup.held = ↑t.items := by
    simp [Tree.Markup.held, hidle.current, hidle.pending, Tree.OpenElements.items_popExpecting hpop,
      hrest, Tree.Frame.items, Tree.Template.items_eq]
  rwa [hbody, Assembly.held_initial, zero_add, Multiset.coe_add, Multiset.coe_eq_coe] at hheld

/-- What is written in a template apart from text and HTML comments is in its nodes or is lost,
and nothing else is. All of it is in the nodes if no attribute with a mustache in its value is
read as a block parameter. -/
theorem preprocess_accounted {text : List Char} {options : Options} {t : Tree.Template}
    (h : preprocess text options = .ok t) :
    ∃ program, Mustache.parse text options.keepLines = .ok program ∧
      let src : Source := ⟨text, options.moduleName⟩
      let all := collectAll src (written src) (.initial options.mode) program.body
      all.Perm (t.items ++ collectAll src (lost src) (.initial options.mode) program.body)
        ∧ (all.Perm t.items ↔ ∀ s a, Passes text options (.reads s a) → a.lost src s = []) := by
  obtain ⟨program, a, hparse, ha, hheld⟩ := items_perm h
  refine ⟨program, hparse, ?_⟩
  intro src all
  change (t.items ++ collectAll src (lost src) _ _).Perm all at hheld
  have hreads : (∀ s a, Passes text options (.reads s a) → a.lost src s = []) ↔
      collectAll src (lost src) (.initial options.mode) program.body = [] := by
    rw [Assembly.collect_lost_eq_nil ha]
    exact forall₂_congr fun s a' => imp_congr (passes_iff hparse (by simp)) Iff.rfl
  refine ⟨hheld.symm, ?_⟩
  rw [hreads]
  constructor
  · intro hall
    have hlength := (hheld.trans hall).length_eq
    rw [List.length_append] at hlength
    exact List.length_eq_zero_iff.mp (by omega)
  · intro hnone
    rw [hnone, List.append_nil] at hheld
    exact hheld.symm

/-- A mustache as the value of an attribute is there once. -/
theorem preprocess_accounted_value :
    ∃ t program, preprocess "<a b={{c}}></a>".toList {} = .ok t
      ∧ Mustache.parse "<a b={{c}}></a>".toList false = .ok program
      ∧ (collectAll ⟨"<a b={{c}}></a>".toList, none⟩ (written ⟨"<a b={{c}}></a>".toList, none⟩)
          (.initial .precompile) program.body).Perm t.items := by
  have hscan : Mustache.scan "<a b={{c}}></a>".toList = .ok
      [.onLine (.content "<a b=".toList) 0 5, .onLine (.opener .escaped) 5 7,
        .onLine (.name ['c'] false) 7 8, .onLine .close 8 10,
        .onLine (.content "></a>".toList) 10 15, .onLine .endOfInput 15 15] := by decide +kernel
  have hparse := Mustache.parse_of_tokens false hscan (by cbv)
  have hok : (preprocess "<a b={{c}}></a>".toList {}).isOk = true := by
    rw [preprocess_of_parse {} hparse]
    decide +kernel
  obtain ⟨t, h⟩ := exists_of_isOk hok
  obtain ⟨program, hprogram, haccount, -⟩ := preprocess_accounted h
  obtain rfl := Except.ok.inj (hparse.symm.trans hprogram)
  refine ⟨t, _, h, hparse, haccount.trans (.of_eq ?_)⟩
  refine (congrArg (t.items ++ ·) ?_).trans (List.append_nil _)
  decide +kernel

/-- A mustache as the value of a block parameter is lost. -/
theorem not_accounted_blockParam :
    ∃ t program, preprocess "<a as |b|={{c}}></a>".toList {} = .ok t
      ∧ Mustache.parse "<a as |b|={{c}}></a>".toList false = .ok program
      ∧ ¬ (collectAll ⟨"<a as |b|={{c}}></a>".toList, none⟩
          (written ⟨"<a as |b|={{c}}></a>".toList, none⟩) (.initial .precompile)
          program.body).Perm t.items := by
  have hscan : Mustache.scan "<a as |b|={{c}}></a>".toList = .ok
      [.onLine (.content "<a as |b|=".toList) 0 10, .onLine (.opener .escaped) 10 12,
        .onLine (.name ['c'] false) 12 13, .onLine .close 13 15,
        .onLine (.content "></a>".toList) 15 20, .onLine .endOfInput 20 20] := by decide +kernel
  have hparse := Mustache.parse_of_tokens false hscan (by cbv)
  have hnone : (preprocess "<a as |b|={{c}}></a>".toList {}).map (·.items) = .ok [] := by
    rw [preprocess_of_parse {} hparse]
    decide +kernel
  obtain ⟨t, ht, hnone⟩ := map_eq_ok.mp hnone
  refine ⟨t, _, ht, hparse, fun hperm => ?_⟩
  have hlength := hperm.length_eq
  rw [hnone] at hlength
  revert hlength
  decide +kernel

end HtmlTemplate
