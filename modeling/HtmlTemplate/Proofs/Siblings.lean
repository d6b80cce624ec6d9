import HtmlTemplate.Proofs.Boundaries
import HtmlTemplate.Proofs.Evaluation
import HtmlTemplate.Proofs.Rows
import HtmlTemplate.Proofs.Runs

/-! Siblings are in the order of the text and do not overlap, as long as nothing is put among
them while something that begins earlier is not finished: neither while a start tag is under
way nor after a `<` that may begin a tag or a comment. -/

namespace HtmlTemplate.Tree

open Html (Tokenizer State)

namespace Assembly

variable {src : Source} {g : Ground} {now now' : Nat} {a b : Assembly}

def opened? (src : Source) (a : Assembly) : Option Nat :=
  match a.tokenizer.state with
  | .tagOpen | .markupDeclarationOpen => some (src.offsetFor a.tokenizer.tagStart)
  | _ => none

theorem opened?_construct (src : Source) (a : Assembly) (k : Html.TagKind) :
    Tree.opened? src (a.tokenizer.construct k) = a.opened? src := by
  unfold opened?
  cases hstate : a.tokenizer.state <;> simp [Html.Tokenizer.construct, hstate, Tree.opened?]

def InLine (g : Ground) (now : Nat) (a : Assembly) : Prop :=
  Lined g.base (a.markup.mark (a.opened? g.src) now) a.markup.stack.frames

/-- A node that begins before now is under way among the siblings, or may be. -/
def Interrupted (a : Assembly) : Prop :=
  (∃ t, a.markup.current = some (.startTag t))
    ∨ a.tokenizer.state = .tagOpen ∨ a.tokenizer.state = .markupDeclarationOpen

/-- What a statement gives becomes a child where the machine stands. -/
def AddsChild (a : Assembly) : Mustache.Statement → Prop
  | .partialCall _ => a.tokenizer.state.isComment = false
  | .mustache _ =>
    match a.tokenizer.state with
    | .beforeData | .data | .markupDeclarationOpen | .endTagOpen | .endTagName
    | .selfClosingStartTag => True
    | _ => False
  | _ => False

/-- No child is put among siblings that something under way is going to precede. -/
def Apart (a : Assembly) (s : Mustache.Statement) : Prop :=
  a.AddsChild s → ¬ a.Interrupted

theorem InLine.later (h : InLine g now a) (hle : now ≤ now') : InLine g now' a :=
  Lined.later h (Markup.mark_le _ _ hle)

theorem InLine.content {lo hi : Position} {c : Mustache.Content}
    (h : InLine g (g.src.offsetFor lo) a) (ha : Settled g (g.src.offsetFor lo) a)
    (hlo : 1 ≤ lo.line) (hloc : c.loc.Within lo hi)
    (hstop : c.loc.start.after c.written ≤ c.loc.stop) (hfits : c.value <:+: c.written)
    (hb : a.content g.src c = .ok b) : InLine g (g.src.offsetFor c.loc.stop) b := by
  have hle := le_textStart (c := c) hloc.1
  have hrow : InRow g (a.tokenizer.construct .start) (textStart c) a.markup := by
    refine ⟨ha.inStep hlo hloc.1 .start, ?_⟩
    rw [opened?_construct]
    exact h.later (g.src.offsetFor_mono hlo hle)
  obtain ⟨k, hrow'⟩ := content_keeps (I := InRow g) InRow.silent InRow.receive hb hrow
  have hlined := hrow'.lined
  rw [opened?_construct] at hlined
  exact InLine.later hlined
    (g.src.offsetFor_mono hrow'.inStep.line (content_position hstop hfits hb))

def Clear (src : Source) (a : Assembly) : Prop :=
  ∀ now, a.markup.mark (a.opened? src) now = now

theorem InLine.sameNode (h : InLine g now a) (hsame : a.markup.SameNode b.markup)
    (hopened : b.opened? g.src = a.opened? g.src) : InLine g now b := by
  rw [InLine, hsame.mark, hsame.1, hopened]
  exact h

theorem InLine.append (h : InLine g now a) (hclear : a.Clear g.src) {node : Statement}
    (hnode : node.InOrder) (hspan : Span.Encloses ⟨now, now'⟩ node.span) :
    InLine g now' (a.append node) := by
  have hmark : (a.append node).markup.mark ((a.append node).opened? g.src) now' = now' :=
    hclear now'
  rw [InLine, hclear] at h
  rw [InLine, hmark]
  exact Lined.append h hnode hspan.1 hspan.2.2

theorem Idle.clear (h : a.Idle) (src : Source) : a.Clear src := by
  intro now
  simp [Markup.mark, h.current, opened?, h.state]

theorem Settled.clear (h : Settled g now a) (hcomment : a.tokenizer.state.isComment = false)
    (hfree : ¬ a.Interrupted) : a.Clear g.src := by
  intro now'
  have hphase := h.at_.phase
  have hdata := h.notData
  simp only [Interrupted, not_or, not_exists] at hfree
  obtain ⟨hstart, htagOpen, hdeclaration⟩ := hfree
  unfold Markup.mark
  cases hc : a.markup.current with
  | none =>
    unfold opened?
    split <;> simp_all
  | some c =>
    cases c with
    | endTag => rfl
    | startTag t => exact absurd hc (hstart t)
    | text | comment =>
      exfalso
      revert hphase hcomment hdata
      cases a.tokenizer.state <;>
        simp [Phase.of, Phase.Shows, hc, Current.IsText, Current.IsComment, Current.IsStartTag,
          Current.IsEndTag, State.isComment]

theorem Settled.mark_le (h : Settled g now a) : a.markup.mark (a.opened? g.src) now ≤ now := by
  unfold Markup.mark
  split
  · rename_i c hc
    have hstart := (h.at_.current c hc).2.1
    cases c <;> first | exact hstart | exact Nat.le_refl _
  · unfold opened?
    split
    · rename_i hstate
      exact (h.opening (by rw [hstate]; rfl)).2
    · rename_i hstate
      exact (h.opening (by rw [hstate]; rfl)).2
    · exact Nat.le_refl _

theorem InLine.restore (h : InLine g now a) (ha : Settled g now a) (hb : b.Idle)
    (hframes : b.markup.stack.frames = a.markup.stack.frames) : InLine g now b := by
  rw [InLine, hb.clear, hframes]
  exact Lined.later h ha.mark_le

private theorem sameNode_commentDatas {es : List Html.Emission} {m n : Markup}
    (hes : ∀ {e}, e ∈ es → ∃ text, e.event = .commentData text)
    (hn : es.foldlM (fun m e => m.receive src e.event) m = .ok n) : m.SameNode n := by
  refine Markup.reports_keep (P := m.SameNode) (fun e he _ _ hm hn => ?_) hn ⟨rfl, rfl⟩
  obtain ⟨text, htext⟩ := hes he
  rw [htext] at hn
  exact hm.trans (Markup.sameNode_receive rfl hn)

theorem InLine.commentText {loc : Location} (h : InLine g now a)
    (hcomment : a.tokenizer.state.isComment = true) (hb : a.commentText g.src loc = .ok b) :
    InLine g now b := by
  obtain ⟨hmarkup, htokenizer⟩ := follow_ok hb
  rw [Tokenizer.now_appendComment] at htokenizer
  refine h.sameNode (sameNode_commentDatas Tokenizer.events_appendComment hmarkup) ?_
  have hnone : a.opened? g.src = none := by
    revert hcomment
    unfold opened?
    cases a.tokenizer.state <;> simp [State.isComment]
  rw [hnone, opened?, htokenizer]

theorem endAttribute_sameNode (h : a.endAttribute src = .ok b) :
    a.markup.SameNode b.markup ∧ b.tokenizer = a.tokenizer := by
  simp only [endAttribute, withMarkup, bind_eq_ok, pure_eq_ok] at h
  obtain ⟨n, hn, rfl⟩ := h
  exact ⟨Markup.sameNode_finishValue (m := a.markup.beginValue false (a.offset src)) hn, rfl⟩

theorem addModifier_sameNode {d : Dynamic} (h : a.addModifier src d = .ok b) :
    a.markup.SameNode b.markup ∧ b.tokenizer = a.tokenizer := by
  cases d with
  | call m =>
    simp only [addModifier, withMarkup, bind_eq_ok, pure_eq_ok] at h
    obtain ⟨n, hn, rfl⟩ := h
    unfold Markup.addModifier at hn
    refine ⟨Markup.sameNode_withStartTag ?_ hn, rfl⟩
    exact fun _ => rfl
  | literal m => simp [addModifier, fault] at h

theorem addTagComment_sameNode {c : Comment}
    (h : a.withMarkup (·.addTagComment src c) = .ok b) :
    a.markup.SameNode b.markup ∧ b.tokenizer = a.tokenizer := by
  simp only [withMarkup, bind_eq_ok, pure_eq_ok] at h
  obtain ⟨n, hn, rfl⟩ := h
  unfold Markup.addTagComment at hn
  refine ⟨Markup.sameNode_withStartTag ?_ hn, rfl⟩
  exact fun _ => rfl

structure InTag (a b : Assembly) : Prop where
  sameNode : a.markup.SameNode b.markup
  before : a.tokenizer.state.opensTag = false
  after : b.tokenizer.state.opensTag = false

private theorem opened?_eq_none (src : Source) (h : a.tokenizer.state.opensTag = false) :
    a.opened? src = none := by
  revert h
  unfold opened?
  cases a.tokenizer.state <;> simp [State.opensTag]

theorem InLine.inTag (h : InLine g now a) (hb : InTag a b) : InLine g now b :=
  h.sameNode hb.sameNode (by rw [opened?_eq_none _ hb.before, opened?_eq_none _ hb.after])

theorem InTag.withPart (d : Dynamic) (h : a.tokenizer.state.opensTag = false) :
    InTag a { a with markup := a.markup.addValuePart d } :=
  ⟨⟨rfl, rfl⟩, h, h⟩

private theorem place_ok {d : Dynamic} (h : a.place src d = .ok b) :
    InTag a b ∨ b = a.append (.dynamic d)
      ∧ (a.tokenizer.state.isComment = false → ∀ m, a.AddsChild (.mustache m)) := by
  unfold Assembly.place at h
  split at h
  · simp [fault] at h
  · simp [fault] at h
  · rename_i hstate
    obtain ⟨hsame, ht⟩ := addModifier_sameNode h
    exact .inl ⟨hsame, by rw [hstate]; rfl, by rw [ht, hstate]; rfl⟩
  · rename_i hstate
    simp only [bind_eq_ok, pure_eq_ok] at h
    obtain ⟨a₁, h₁, a₂, h₂, rfl⟩ := h
    exact .inl ⟨(endAttribute_sameNode h₁).1.trans (addModifier_sameNode h₂).1,
      by rw [hstate]; rfl, rfl⟩
  · rename_i hstate
    simp only [bind_eq_ok, pure_eq_ok] at h
    obtain ⟨a₁, h₁, a₂, h₂, rfl⟩ := h
    exact .inl ⟨(endAttribute_sameNode h₁).1.trans (addModifier_sameNode h₂).1,
      by rw [hstate]; rfl, rfl⟩
  · rename_i hstate
    simp only [bind_eq_ok, pure_eq_ok] at h
    obtain ⟨a₁, h₁, rfl⟩ := h
    exact .inl ⟨(addModifier_sameNode h₁).1, by rw [hstate]; rfl, rfl⟩
  · rename_i hstate
    cases h
    exact .inl ⟨⟨rfl, rfl⟩, by rw [hstate]; rfl, rfl⟩
  · rename_i hstate
    cases h
    exact .inl (.withPart d (by rw [hstate]; rfl))
  · rename_i hstate
    cases h
    exact .inl (.withPart d (by rw [hstate]; rfl))
  · rename_i hstate
    cases h
    exact .inl (.withPart d (by rw [hstate]; rfl))
  · cases h
    refine .inr ⟨rfl, fun hcomment _ => ?_⟩
    unfold AddsChild
    revert hcomment
    cases hstate : a.tokenizer.state <;> simp_all [State.isComment]

private theorem placeComment_ok {c : Comment} (h : a.placeComment src c = .ok b) :
    InTag a b ∨ b = a.append (.mustacheComment c) ∧ a.tokenizer.state.isData = true := by
  unfold Assembly.placeComment at h
  split at h
  · rename_i hstate
    obtain ⟨hsame, ht⟩ := addTagComment_sameNode h
    exact .inl ⟨hsame, by rw [hstate]; rfl, by rw [ht, hstate]; rfl⟩
  · rename_i hstate
    simp only [bind_eq_ok, pure_eq_ok] at h
    obtain ⟨a₁, h₁, a₂, h₂, rfl⟩ := h
    exact .inl ⟨(endAttribute_sameNode h₁).1.trans (addTagComment_sameNode h₂).1,
      by rw [hstate]; rfl, rfl⟩
  · rename_i hstate
    cases h
    exact .inr ⟨rfl, by rw [hstate]; rfl⟩
  · rename_i hstate
    cases h
    exact .inr ⟨rfl, by rw [hstate]; rfl⟩
  · simp [fault] at h

theorem InLine.flat {lo hi : Position} {s : Mustache.Statement}
    (h : InLine g (g.src.offsetFor lo) a) (ha : Settled g (g.src.offsetFor lo) a)
    (hlo : 1 ≤ lo.line) (hloc : s.loc.Within lo hi) (hnested : s.Nested) (hfits : s.Fits)
    (hapart : a.Apart s) (hflat : isSectioned s = false ∨ a.tokenizer.state.isComment = true)
    (hb : statement g.src a s = .ok b) : InLine g (g.src.offsetFor s.loc.stop) b := by
  have hnow : g.src.offsetFor lo ≤ g.src.offsetFor s.loc.stop :=
    g.src.offsetFor_mono hlo (le_trans hloc.1 hloc.2.1)
  have hspan := (spanFor_within g.src hlo hloc.tight).1
  cases statement_ok hb with
  | content hb => exact h.content ha hlo hloc hnested hfits hb
  | commented _ hcomment hb => exact (h.commentText hcomment hb).later hnow
  | mustache hcomment hd hb =>
    obtain ⟨hd, -⟩ := dynamic_nested hlo hloc.tight hnested hd
    rcases place_ok hb with htag | ⟨rfl, hadds⟩
    · exact (h.inTag htag).later hnow
    · exact h.append (ha.clear hcomment (hapart (hadds hcomment _))) trivial
        (Statement.Nested.span (s := .dynamic _) hd)
  | decorator hdata _ => exact h.append ((ha.idle hdata).clear _) trivial hspan
  | comment _ hb =>
    rcases placeComment_ok hb with htag | ⟨rfl, hdata⟩
    · exact (h.inTag htag).later hnow
    · exact h.append ((ha.idle hdata).clear _) trivial hspan
  | partialCall hcomment _ =>
    exact h.append (ha.clear hcomment (hapart hcomment)) trivial hspan
  | block hblock | decoratorBlock hblock =>
    have hcomment := State.isComment_of_isData (block_ok hblock).1
    simp [isSectioned, hcomment] at hflat
  | partialBlock hcomment _ _ => simp [isSectioned, hcomment] at hflat

def StaysInLine (src : Source) : RunProperty := fun a ss b =>
  ∀ bottom base lo hi, 1 ≤ lo.line → lo ≤ hi → Mustache.Ordered lo hi ss → Mustache.allFit ss →
    Settled ⟨src, bottom, base⟩ (src.offsetFor lo) a →
    InLine ⟨src, bottom, base⟩ (src.offsetFor lo) a →
    (∀ s a', Passes src a ss (.reads s a') → a'.Apart s) →
    InLine ⟨src, bottom, base⟩ (src.offsetFor hi) b

theorem Inside.inOrder {fallback bottom : Nat} {base : List (Nat × Frame)} {lo hi : Position}
    {p : Mustache.Program Mustache.Statement} {nodes : Section Statement}
    (h : Inside src (StaysInLine src) a fallback p nodes b) (hlo : 1 ≤ lo.line) (hle : lo ≤ hi)
    (hnow : now ≤ src.offsetFor lo) (hwithin : p.Within lo hi) (hfits : p.Fits)
    (ha : Settled ⟨src, bottom, base⟩ now a)
    (hapart : ∀ s a', Passes src a.pushBody.2 p.body (.reads s a') → a'.Apart s) :
    nodes.InOrder := by
  obtain ⟨hsection, hinside⟩ := h
  obtain ⟨inside, frame, stack, hstatements, -, hpop, -, rfl⟩ := sectionOf_ok hsection
  obtain ⟨body, params, chained⟩ := p
  have hpushed := (ha.later hnow).pushBody (Nat.zero_le _) (above_zero src a)
  have hlined := hinside inside hstatements 0 a.markup.stack.frames lo hi hlo hle hwithin hfits
    hpushed (.body (row_nil _)) hapart
  have hfills := (statements_keepsFilling body hstatements).2 _ _
    (OpenElements.fills_pushBody a.markup.stack)
  obtain ⟨-, -, children, rfl⟩ := hfills.popExpecting_ok hpop
  exact Lined.popped hlined hpop

theorem Inside?.inOrder {fallback bottom : Nat} {base : List (Nat × Frame)} {lo hi : Position}
    {p : Option (Mustache.Program Mustache.Statement)} {nodes : Option (Section Statement)}
    (h : Inside? src (StaysInLine src) a fallback p nodes b) (hlo : 1 ≤ lo.line) (hle : lo ≤ hi)
    (hnow : now ≤ src.offsetFor lo) (hwithin : Mustache.sectionWithin lo hi p)
    (hfits : Mustache.sectionFits p) (ha : Settled ⟨src, bottom, base⟩ now a)
    (hapart : ∀ q, p = some q → ∀ s a', Passes src a.pushBody.2 q.body (.reads s a') → a'.Apart s) :
    sectionInOrder nodes := by
  cases p with
  | none =>
    obtain ⟨rfl, -⟩ := h
    exact trivial
  | some p =>
    obtain ⟨s, rfl, hs⟩ := h
    exact hs.inOrder hlo hle hnow hwithin hfits ha (hapart p rfl)

theorem sectionOf_isData {fallback : Nat} {p : Mustache.Program Mustache.Statement}
    {nodes : Section Statement} (h : sectionOf src a fallback p = .ok (nodes, b)) :
    b.tokenizer.state.isData = true := by
  obtain ⟨inside, frame, stack, -, hfinish, -, rfl, -⟩ := sectionOf_ok h
  exact isData_of_finish hfinish

theorem sectionOf?_isData {fallback : Nat} {p : Option (Mustache.Program Mustache.Statement)}
    {nodes : Option (Section Statement)} (h : sectionOf? src a fallback p = .ok (nodes, b))
    (ha : a.tokenizer.state.isData = true) : b.tokenizer.state.isData = true := by
  cases p with
  | none =>
    rw [sectionOf?, Except.ok.injEq, Prod.mk.injEq] at h
    exact h.2 ▸ ha
  | some p =>
    obtain ⟨s, -, hs⟩ := sectionOf?_ok h
    exact sectionOf_isData hs

theorem Inside?.isData {P : RunProperty} {fallback : Nat}
    {p : Option (Mustache.Program Mustache.Statement)} {nodes : Option (Section Statement)}
    (h : Inside? src P a fallback p nodes b) (ha : a.tokenizer.state.isData = true) :
    b.tokenizer.state.isData = true :=
  sectionOf?_isData h.read ha

/-- A block ends where it begins, between tags. -/
theorem block_isData {m : Mustache.Block Mustache.Statement} {node : Block Statement}
    (h : block src a m = .ok (node, b)) : b.tokenizer.state.isData = true := by
  obtain ⟨hdata, _, _, _, _, -, hprogram, hinverse, -⟩ := block_ok h
  exact sectionOf?_isData hinverse (sectionOf?_isData hprogram hdata)

def Apart? (src : Source) (a : Assembly) (p : Option (Mustache.Program Mustache.Statement)) :
    Prop :=
  ∀ q, p = some q → ∀ s a', Passes src a.pushBody.2 q.body (.reads s a') → a'.Apart s

theorem InLine.block {bottom : Nat} {base : List (Nat × Frame)} {lo hi : Position} {mid : Assembly}
    {child : Statement} {m : Mustache.Block Mustache.Statement} {node : Block Statement}
    {program inverse : Option (Section Statement)}
    (h : InLine ⟨src, bottom, base⟩ (src.offsetFor lo) a)
    (ha : Settled ⟨src, bottom, base⟩ (src.offsetFor lo) a)
    (hlo : 1 ≤ lo.line) (hloc : m.loc.Within lo hi) (hnested : m.Nested)
    (hfits : Mustache.Block.Fits m) (hchild : child = .block node ∨ child = .decoratorBlock node)
    (hdata : a.tokenizer.state.isData = true)
    (hprogram : Inside? src (StaysInLine src) a (src.spanFor m.loc).start m.program program mid)
    (hinverse : Inside? src (StaysInLine src) mid (src.spanFor m.loc).start m.inverse inverse b)
    (hp : node.program = program.getD ⟨[], [], false, .empty (src.spanFor m.loc).start⟩)
    (hi : node.inverse = inverse) (hblock : Assembly.block src a m = .ok (node, b))
    (hapart : Apart? src a m.program) (hapart' : Apart? src mid m.inverse) :
    InLine ⟨src, bottom, base⟩ (src.offsetFor m.loc.stop) (b.append child) := by
  obtain ⟨hb, hnode⟩ := block_settled (g := ⟨src, bottom, base⟩) hlo m hloc.tight hnested hfits ha
    hblock
  have hidle := hb.idle (hinverse.isData (hprogram.isData hdata))
  have hmid := (ha.between_sections hlo hloc hnested hfits hdata hprogram.read).1
  obtain ⟨callee, written, writtenInverse, openStrip, inverseStrip, closeStrip, loc⟩ := m
  have hline := Position.one_le_line_of_le hloc.1 hlo
  have hstart := src.offsetFor_mono hlo hloc.1
  have hprogram' := hprogram.inOrder hline hloc.2.1 hstart hnested.2.1 hfits.1 ha hapart
  have hinverse' := hinverse.inOrder hline hloc.2.1 hstart hnested.2.2 hfits.2 hmid hapart'
  have hinOrder : node.InOrder := by
    obtain ⟨call, program', inverse', openStrip', inverseStrip', closeStrip', span⟩ := node
    obtain rfl : program' = _ := hp
    obtain rfl : inverse' = _ := hi
    refine ⟨?_, hinverse'⟩
    cases program with
    | none => exact trivial
    | some s => exact hprogram'
  have hframes := (block_sameFrames _ hblock).1
  refine (h.restore ha hidle hframes).append (hidle.clear src) ?_ ?_
  · rcases hchild with rfl | rfl <;> exact hinOrder
  · rcases hchild with rfl | rfl
    · exact Statement.Nested.span (s := .block node) hnode
    · exact Statement.Nested.span (s := .decoratorBlock node) hnode

theorem InLine.partialBlock {bottom : Nat} {base : List (Nat × Frame)} {lo hi : Position}
    {m : Mustache.PartialBlock Mustache.Statement} {callee : Call Expression}
    {nodes : Section Statement} (h : InLine ⟨src, bottom, base⟩ (src.offsetFor lo) a)
    (ha : Settled ⟨src, bottom, base⟩ (src.offsetFor lo) a)
    (hlo : 1 ≤ lo.line) (hloc : m.loc.Within lo hi)
    (hnested : (Mustache.Statement.partialBlock m).Nested)
    (hfits : (Mustache.Statement.partialBlock m).Fits)
    (hcallee : partialName src m.call = .ok callee)
    (hsection : Inside src (StaysInLine src) a (src.spanFor m.loc).start m.program nodes b)
    (hapart : Apart? src a (some m.program)) :
    InLine ⟨src, bottom, base⟩ (src.offsetFor m.loc.stop) (b.append
      (.partialBlock ⟨callee, nodes, m.openStrip, m.closeStrip, src.spanFor m.loc⟩)) := by
  obtain ⟨hb, hnode⟩ := partialBlock_settled (g := ⟨src, bottom, base⟩) hlo m hloc.tight hnested
    hfits ha hcallee hsection.1
  have hidle := hb.idle (sectionOf_isData hsection.1)
  obtain ⟨callee', program, openStrip, closeStrip, loc⟩ := m
  have hline := Position.one_le_line_of_le hloc.1 hlo
  have hinOrder := hsection.inOrder hline hloc.2.1 (src.offsetFor_mono hlo hloc.1) hnested.2 hfits
    ha (hapart _ rfl)
  have hframes := (sectionOf_sameFrames _ hsection.1).1
  exact (h.restore ha hidle hframes).append (hidle.clear src) hinOrder
    (Statement.Nested.span hnode)

theorem staysInLine (src : Source) : Follows src (StaysInLine src) where
  nil a bottom base lo hi hlo hle _ _ _ h _ := h.later (src.offsetFor_mono hlo hle)
  flat {a b c s ss} hflat hb ih bottom base lo hi hlo hle hordered hfits ha h hapart := by
    obtain ⟨hloc, hnested, hrest⟩ := hordered
    have hline := Position.one_le_line_of_le (le_trans hloc.1 hloc.2.1) hlo
    exact ih bottom base _ hi hline hloc.2.2 hrest hfits.2
      (statement_settled (g := ⟨src, bottom, base⟩) hlo s hloc hnested hfits.1 ha hb)
      (h.flat (g := ⟨src, bottom, base⟩) ha hlo hloc hnested hfits.1 (hapart s a .reads) hflat hb)
      fun s' a' hs' => hapart s' a' (.later hb hs')
  block {a mid b c s child m node ss program inverse} hs hdata hcall hprogram hinverse hp hi hblock
      hb ih bottom base lo hi' hlo hle hordered hfits ha h hapart := by
    obtain ⟨hloc, hnested, hrest⟩ := hordered
    have hline := Position.one_le_line_of_le (le_trans hloc.1 hloc.2.1) hlo
    have hs' : s = .block m ∨ s = .decoratorBlock m := hs.imp And.left And.left
    have hchild : child = .block node ∨ child = .decoratorBlock node := hs.imp And.right And.right
    have hinside : m.loc.Within lo hi' ∧ m.Nested ∧ Mustache.Block.Fits m ∧ s.loc = m.loc := by
      rcases hs' with rfl | rfl <;> exact ⟨hloc, hnested, hfits.1, rfl⟩
    obtain ⟨hloc', hnested', hfits', hsame⟩ := hinside
    have hafter := h.block ha hlo hloc' hnested' hfits' hchild hdata hprogram hinverse hp hi hblock
      (fun q hq s' a' hs'' => hapart s' a' (.inside (.program hs' hdata hcall hq) hs''))
      (fun q hq s' a' hs'' =>
        hapart s' a' (.inside (.inverse hs' hdata hcall hprogram.read hq) hs''))
    rw [← hsame] at hafter
    exact ih bottom base _ hi' hline hloc.2.2 hrest hfits.2
      (statement_settled (g := ⟨src, bottom, base⟩) hlo s hloc hnested hfits.1 ha hb) hafter
      fun s' a' hs'' => hapart s' a' (.later hb hs'')
  partialBlock {a b c m callee nodes ss} hcomment hcallee hsection hb ih bottom base lo hi hlo hle
      hordered hfits ha h hapart := by
    obtain ⟨hloc, hnested, hrest⟩ := hordered
    have hline := Position.one_le_line_of_le (le_trans hloc.1 hloc.2.1) hlo
    refine ih bottom base _ hi hline hloc.2.2 hrest hfits.2
      (statement_settled (g := ⟨src, bottom, base⟩) hlo _ hloc hnested hfits.1 ha hb)
      (h.partialBlock ha hlo hloc hnested hfits.1 hcallee hsection ?_)
      fun s' a' hs' => hapart s' a' (.later hb hs')
    rintro q ⟨⟩ s' a' hs'
    exact hapart s' a' (.inside (.partialBlock hcomment hcallee) hs')

end Assembly

end HtmlTemplate.Tree

namespace HtmlTemplate

open HtmlTemplate.Tree (Assembly)

/-- Siblings come in the order of the text and do not overlap, provided that no partial call
and no mustache becomes a child while a start tag or a `<` before it is still open. -/
theorem preprocess_inOrder {text : List Char} {options : Options} {t : Tree.Template}
    (h : preprocess text options = .ok t)
    (hapart : ∀ s a, Passes text options (.reads s a) → a.Apart s) : t.InOrder := by
  obtain ⟨program, a, stack, hparse, ha, -, hpop, -⟩ := preprocess_ok h
  obtain ⟨ts, hi, -, -, hhi, hordered, hfits, -⟩ := Mustache.parse_laid hparse
  have hlined := (Assembly.staysInLine ⟨text, options.moduleName⟩).statements program.body ha 0 []
    .first hi (Nat.le_refl 1) hhi hordered hfits
    (Assembly.settled_initial ⟨text, options.moduleName⟩ options.mode) (.body (Tree.row_nil _))
    fun s a' hs => hapart s a' (.statements hparse hs)
  exact Tree.Lined.popped hlined hpop

/-- A partial call and the text after it. -/
theorem preprocess_inOrder_partialCall :
    ∃ t, preprocess "{{> p}} q".toList {} = .ok t
      ∧ (∀ s a, Passes "{{> p}} q".toList {} (.reads s a) → a.Apart s) ∧ t.InOrder := by
  have hscan : Mustache.scan "{{> p}} q".toList = .ok
      [.onLine (.opener .partialCall) 0 3, .onLine (.name ['p'] false) 4 5, .onLine .close 5 7,
        .onLine (.content " q".toList) 7 9, .onLine .endOfInput 9 9] := by decide +kernel
  have hparse := Mustache.parse_of_tokens false hscan (by cbv)
  have hok : (preprocess "{{> p}} q".toList {}).isOk = true := by
    rw [preprocess_of_parse {} hparse]
    decide +kernel
  have hapart : ∀ s a, Passes "{{> p}} q".toList {} (.reads s a) → a.Apart s := by
    intro s a h
    cases h with
    | statements hparse' h =>
      obtain rfl := Except.ok.inj (hparse.symm.trans hparse')
      cases h with
      | reads =>
        rintro - (⟨t, ht⟩ | hstate | hstate)
        · cases ht
        · cases hstate
        · cases hstate
      | inside henters => cases henters with | program hs | inverse hs => simp at hs
      | later _ h =>
        cases h with
        | reads => exact False.elim
        | inside henters => cases henters with | program hs | inverse hs => simp at hs
        | later _ h => cases h
  obtain ⟨t, h⟩ := exists_of_isOk hok
  exact ⟨t, h, hapart, preprocess_inOrder h hapart⟩

/-- In a start tag the partial call comes before the element that the tag begins. -/
theorem not_inOrder_partialCall :
    ∃ t, preprocess "<a {{> p}}></a>".toList {} = .ok t ∧ ¬ t.InOrder := by
  have hscan : Mustache.scan "<a {{> p}}></a>".toList = .ok
      [.onLine (.content "<a ".toList) 0 3, .onLine (.opener .partialCall) 3 6,
        .onLine (.name ['p'] false) 7 8, .onLine .close 8 10,
        .onLine (.content "></a>".toList) 10 15, .onLine .endOfInput 15 15] := by decide +kernel
  have hparse := Mustache.parse_of_tokens false hscan (by cbv)
  have hspans : (preprocess "<a {{> p}}></a>".toList {}).map (·.body.map (·.span))
      = .ok [⟨3, 10⟩, ⟨0, 15⟩] := by
    rw [preprocess_of_parse {} hparse]
    decide +kernel
  obtain ⟨t, ht, hspans⟩ := map_eq_ok.mp hspans
  refine ⟨t, ht, fun hinOrder => ?_⟩
  obtain ⟨body, params, span⟩ := t
  obtain ⟨first, rest, rfl, hfirst, hrest⟩ := List.map_eq_cons_iff.mp hspans
  obtain ⟨second, _, rfl, hsecond, -⟩ := List.map_eq_cons_iff.mp hrest
  have hnext := hinOrder.2.1 second (by simp)
  rw [hfirst, hsecond] at hnext
  exact absurd hnext (by decide)

end HtmlTemplate
