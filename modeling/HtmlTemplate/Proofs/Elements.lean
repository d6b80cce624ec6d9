import HtmlTemplate.Proofs.Boundaries
import HtmlTemplate.Proofs.History
import Mathlib.Data.List.Forall2

/-! The elements of a template. Each start tag that ends opens one element, which keeps what the
tag has but for attributes that are read as block parameters; nothing else makes an element, and
none is lost or changed places with another. -/

namespace HtmlTemplate.Tree

open Html (Event)

mutual

/-- The elements of a statement at any depth, each before those in it. -/
def Statement.elements : Statement → List (Element Statement)
  | .dynamic _ | .decorator _ | .partialCall _ | .mustacheComment _ | .comment _ | .text _ => []
  | .block b => Block.elements b
  | .decoratorBlock b => Block.elements b
  | .partialBlock ⟨_, program, _, _, _⟩ => Section.elements program
  | .element ⟨tag, selfClosing, attributes, params, modifiers, comments, children, span⟩ =>
    ⟨tag, selfClosing, attributes, params, modifiers, comments, children, span⟩
      :: elementsAll children

def Block.elements : Block Statement → List (Element Statement)
  | ⟨_, program, inverse, _, _, _, _⟩ => Section.elements program ++ sectionElements inverse

def Section.elements : Section Statement → List (Element Statement)
  | ⟨body, _, _, _⟩ => elementsAll body

def sectionElements : Option (Section Statement) → List (Element Statement)
  | none => []
  | some s => Section.elements s

def elementsAll : List Statement → List (Element Statement)
  | [] => []
  | s :: ss => s.elements ++ elementsAll ss

end

def Template.elements (t : Template) : List (Element Statement) :=
  elementsAll t.body

theorem elementsAll_eq (ss : List Statement) : elementsAll ss = ss.flatMap Statement.elements := by
  induction ss with
  | nil => rfl
  | cons s ss ih => rw [elementsAll, ih, List.flatMap_cons]

abbrev Opened : Type :=
  StartTag × List (List Char)

def Element.opened (e : Element Statement) : Opened :=
  (⟨e.tag, e.span.start, e.attributes, e.modifiers, e.comments, e.selfClosing⟩, e.params)

def OpenElement.opened (e : OpenElement) : Opened :=
  (⟨e.tag, e.startTag.start, e.attributes, e.modifiers, e.comments, e.selfClosing⟩, e.params)

def StartTag.Opens (t : StartTag) (o : Opened) : Prop :=
  ∃ kept params, blockParams? (t.attributes.map (·.name)) = .ok (kept, params)
    ∧ o = ({ t with attributes := t.attributes.take kept }, params)

def openedAll (ss : List Statement) : List Opened :=
  (elementsAll ss).map Element.opened

private theorem openedAll_append (ss ss' : List Statement) :
    openedAll (ss ++ ss') = openedAll ss ++ openedAll ss' := by
  rw [openedAll, openedAll, openedAll, elementsAll_eq, elementsAll_eq, elementsAll_eq,
    List.flatMap_append, List.map_append]

theorem openedAll_element (e : OpenElement) (stop : Nat) :
    openedAll [.element (e.finish stop)] = e.opened :: openedAll e.children := by
  simp only [openedAll, OpenElement.finish, elementsAll, Statement.elements, List.append_nil,
    List.map_cons]
  rfl

theorem openedAll_of_elements {node : Statement} (h : node.elements = []) :
    openedAll [node] = [] := by
  simp only [openedAll, elementsAll, h, List.append_nil, List.map_nil]

def Frame.opened : Frame → List Opened
  | .body children => openedAll children
  | .element e => e.opened :: openedAll e.children

theorem Frame.opened_mapChildren (frame : Frame) (node : Statement) :
    (frame.mapChildren (· ++ [node])).opened = frame.opened ++ openedAll [node] := by
  cases frame with
  | body children => exact openedAll_append children [node]
  | element e => exact congrArg (e.opened :: ·) (openedAll_append e.children [node])

namespace OpenElements

def opened (s : OpenElements) : List Opened :=
  s.frames.reverse.flatMap (·.2.opened)

variable {s t : OpenElements} {src : Source}

theorem opened_eq (hframes : t.frames = s.frames) : t.opened = s.opened := by
  rw [opened, hframes, opened]

theorem opened_append (h : s.frames ≠ []) (node : Statement) :
    (s.append node).opened = s.opened ++ openedAll [node] := by
  obtain ⟨_ | ⟨⟨id, top⟩, frames⟩, nextId⟩ := s
  · exact absurd rfl h
  · simp only [opened, append, mapTop, List.reverse_cons, List.flatMap_append,
      List.flatMap_singleton, Frame.opened_mapChildren, List.append_assoc]

theorem opened_push (s : OpenElements) (frame : Frame) :
    (s.push frame).2.opened = s.opened ++ frame.opened := by
  simp only [opened, push, List.reverse_cons, List.flatMap_append, List.flatMap_singleton]

theorem opened_popElement {e : OpenElement} (h : s.popElement? = some (e, t)) :
    s.opened = t.opened ++ (e.opened :: openedAll e.children) := by
  unfold popElement? at h
  split at h
  · rename_i hframes
    cases h
    simp only [opened, hframes, List.reverse_cons, List.flatMap_append, List.flatMap_singleton,
      Frame.opened]
  · cases h

theorem opened_popExpecting {id : Nat} {frame : Frame}
    (h : s.popExpecting src id = .ok (frame, t)) : s.opened = t.opened ++ frame.opened := by
  unfold popExpecting at h
  split at h
  · rename_i hframes
    split at h
    · cases h
      simp only [opened, hframes, List.reverse_cons, List.flatMap_append, List.flatMap_singleton]
    · split at h <;> simp [fault] at h
  · simp [fault] at h

def Filling (s : OpenElements) : Prop :=
  ∃ id base, Fills id base s

theorem Filling.ne_nil (h : s.Filling) : s.frames ≠ [] := by
  obtain ⟨id, base, -, elements, children, -, hframes⟩ := h
  rw [hframes]
  exact List.append_ne_nil_of_right_ne_nil _ (List.cons_ne_nil _ _)

theorem Filling.popElement (h : s.Filling) {e : OpenElement}
    (hpop : s.popElement? = some (e, t)) : t.frames ≠ [] := by
  obtain ⟨id, base, hfills⟩ := h
  obtain ⟨above, children, -, hframes⟩ := hfills.holds.popElement hpop
  rw [hframes]
  exact List.append_ne_nil_of_right_ne_nil _ (List.cons_ne_nil _ _)

end OpenElements

namespace Markup

variable {src : Source} {m n : Markup}

def ended (m : Markup) : Event → List StartTag
  | .finishTag _ =>
    match m.current with
    | some (.startTag t) => [t]
    | _ => []
  | _ => []

/-- The start tags that end while some reports are put into the tree. -/
def endedIn (src : Source) (m : Markup) : List Event → List StartTag
  | [] => []
  | e :: es =>
    m.ended e ++
      match m.receive src e with
      | .ok n => n.endedIn src es
      | .error _ => []

def OpensTo (m : Markup) (tags : List StartTag) (n : Markup) : Prop :=
  ∃ new, n.stack.opened = m.stack.opened ++ new ∧ List.Forall₂ StartTag.Opens tags new

theorem OpensTo.of_eq (h : n.stack.opened = m.stack.opened) : m.OpensTo [] n :=
  ⟨[], h.trans (List.append_nil _).symm, .nil⟩

theorem OpensTo.trans {k : Markup} {tags tags' : List StartTag} (h : m.OpensTo tags n)
    (h' : n.OpensTo tags' k) : m.OpensTo (tags ++ tags') k := by
  obtain ⟨new, hnew, hopens⟩ := h
  obtain ⟨new', hnew', hopens'⟩ := h'
  exact ⟨new ++ new', by rw [hnew', hnew, List.append_assoc], List.rel_append hopens hopens'⟩

private theorem closeElement_opened {name : List Char} {tagSpan : Span} {implicit : Bool}
    (hm : m.stack.Filling) (h : m.closeElement src name tagSpan implicit = .ok n) :
    n.stack.opened = m.stack.opened := by
  obtain ⟨e, stack, hpop, -, rfl⟩ := closeElement_ok h
  rw [OpenElements.opened_append (hm.popElement hpop), openedAll_element,
    OpenElements.opened_popElement hpop]

private theorem openElement_opened {t : StartTag} {stop : Nat} (hm : m.stack.Filling)
    (h : m.openElement src t stop = .ok n) : m.OpensTo [t] n := by
  obtain ⟨kept, params, hparams, hn⟩ := openElement_ok h
  refine ⟨[({ t with attributes := t.attributes.take kept }, params)], ?_,
    .cons ⟨kept, params, hparams, rfl⟩ .nil⟩
  rcases hn with rfl | rfl
  · exact OpenElements.opened_push m.stack _
  · exact (OpenElements.opened_append (s := { m.stack with nextId := m.stack.nextId + 1 })
      hm.ne_nil _).trans rfl

private theorem receive_opened {e : Event} (hm : m.stack.Filling) (h : m.receive src e = .ok n) :
    m.OpensTo (m.ended e) n := by
  cases e with
  | reset | beginStartTag | beginEndTag | beginAttribute | attributeName | beginAttributeValue
  | attributeValue | beginData | beginComment =>
    cases h
    exact .of_eq rfl
  | tagName c =>
    cases h
    exact .of_eq (congrArg OpenElements.opened (growTagName_stack m c))
  | selfClosing => exact .of_eq (congrArg OpenElements.opened (markSelfClosing_stack h))
  | finishAttributeValue p => exact .of_eq (congrArg OpenElements.opened (finishValue_stack h))
  | data text | commentData text =>
    simp only [receive] at h
    split at h <;> cases h <;> exact .of_eq rfl
  | finishData p | finishComment p =>
    simp only [receive] at h
    split at h <;> cases h
    · refine .of_eq ((OpenElements.opened_append hm.ne_nil _).trans ?_)
      rw [openedAll_of_elements rfl, List.append_nil]
    · exact .of_eq rfl
  | finishTag p =>
    obtain ⟨stack, current, pending⟩ := m
    rcases current with _ | (_ | _ | t | ⟨name, start⟩)
    · cases h
      exact .of_eq rfl
    · cases h
      exact .of_eq rfl
    · cases h
      exact .of_eq rfl
    · obtain ⟨new, hnew, hopens⟩ := openElement_opened (m := ⟨stack, none, pending⟩) hm h
      exact ⟨new, hnew, hopens⟩
    · have hclosed := closeElement_opened (m := ⟨stack, none, pending⟩) hm h
      exact .of_eq hclosed
  | syntaxError f p => simp [receive, fault] at h

private theorem receive_filling {e : Event} (hm : m.stack.Filling) (h : m.receive src e = .ok n) :
    n.stack.Filling := by
  obtain ⟨id, base, hfills⟩ := hm
  exact ⟨id, base, hfills.changes (receive_changes h)⟩

theorem reports_opened {es : List Event} (hm : m.stack.Filling)
    (h : es.foldlM (receive src) m = .ok n) : m.OpensTo (m.endedIn src es) n := by
  induction es generalizing m with
  | nil =>
    obtain rfl := pure_eq_ok.mp h
    exact .of_eq rfl
  | cons e es ih =>
    simp only [List.foldlM_cons, bind_eq_ok] at h
    obtain ⟨k, hk, h⟩ := h
    simp only [endedIn, hk]
    exact (receive_opened hm hk).trans (ih (receive_filling hm hk) h)

end Markup

namespace Assembly

variable {src : Source} {a b : Assembly}

/-- The start tags that end while a statement is read, sections aside. -/
def endedTags (src : Source) (a : Assembly) (s : Mustache.Statement) : List StartTag :=
  a.markup.endedIn src (told src a s)

theorem append_opened {node : Statement} (ha : a.markup.stack.Filling)
    (hnode : node.elements = []) :
    (a.append node).markup.stack.opened = a.markup.stack.opened := by
  refine (OpenElements.opened_append ha.ne_nil _).trans ?_
  rw [openedAll_of_elements hnode, List.append_nil]

private theorem place_opened {d : Dynamic} (ha : a.markup.stack.Filling)
    (h : a.place src d = .ok b) :
    b.markup.stack.opened = a.markup.stack.opened := by
  unfold place at h
  split at h
  · simp [fault] at h
  · simp [fault] at h
  · rw [addModifier_stack h]
  iterate 2
    simp only [bind_eq_ok, pure_eq_ok] at h
    obtain ⟨a₁, h₁, a₂, h₂, rfl⟩ := h
    simp only [become, addModifier_stack h₂, endAttribute_stack h₁]
  · simp only [bind_eq_ok, pure_eq_ok] at h
    obtain ⟨a₁, h₁, rfl⟩ := h
    simp only [become, addModifier_stack h₁]
  iterate 4
    cases h
    rfl
  · cases h
    exact append_opened ha rfl

private theorem placeComment_opened {c : Comment} (ha : a.markup.stack.Filling)
    (h : a.placeComment src c = .ok b) :
    b.markup.stack.opened = a.markup.stack.opened := by
  unfold placeComment at h
  split at h
  · simp only [withMarkup, bind_eq_ok, pure_eq_ok] at h
    obtain ⟨m, hm, rfl⟩ := h
    rw [Markup.withStartTag_stack hm]
  · simp only [withMarkup, bind_eq_ok, pure_eq_ok] at h
    obtain ⟨a₁, h₁, _, ⟨m, hm, rfl⟩, rfl⟩ := h
    simp only [become, Markup.withStartTag_stack hm, endAttribute_stack h₁]
  iterate 2
    cases h
    exact append_opened ha rfl
  · simp [fault] at h

theorem flat_opened {s : Mustache.Statement} (ha : a.markup.stack.Filling)
    (hflat : isSectioned s = false ∨ a.tokenizer.state.isComment = true)
    (hb : statement src a s = .ok b) : a.markup.OpensTo (endedTags src a s) b.markup := by
  have hquiet (hcomment : a.tokenizer.state.isComment = false) (hne : ∀ c, s ≠ .content c)
      (hopened : b.markup.stack.opened = a.markup.stack.opened) :
      a.markup.OpensTo (endedTags src a s) b.markup := by
    rw [endedTags, told_eq_nil hcomment hne]
    exact .of_eq hopened
  have hdata (hdata : a.tokenizer.state.isData = true) : a.tokenizer.state.isComment = false :=
    Html.State.isComment_of_isData hdata
  cases statement_ok hb with
  | content hb => exact Markup.reports_opened ha (content_ok hb).1
  | commented hne hcomment hb =>
    have hreports := Markup.reports_opened ha (follow_told hb).1
    rwa [endedTags, told, report_of_ne hne, if_pos hcomment]
  | mustache hcomment _ hb => exact hquiet hcomment (by simp) (place_opened ha hb)
  | decorator hstate _ => exact hquiet (hdata hstate) (by simp) (append_opened ha rfl)
  | comment hcomment hb => exact hquiet hcomment (by simp) (placeComment_opened ha hb)
  | partialCall hcomment _ => exact hquiet hcomment (by simp) (append_opened ha rfl)
  | block hblock | decoratorBlock hblock =>
    have hcomment := hdata (block_ok hblock).1
    simp [isSectioned, hcomment] at hflat
  | partialBlock hcomment _ _ => simp [isSectioned, hcomment] at hflat

def OpensInTurn (src : Source) : RunProperty := fun a ss b =>
  a.markup.stack.Filling → a.markup.OpensTo (collectAll src (endedTags src) a ss) b.markup

private theorem filling_statement {s : Mustache.Statement} (ha : a.markup.stack.Filling)
    (hb : statement src a s = .ok b) : b.markup.stack.Filling := by
  obtain ⟨id, base, hfills⟩ := ha
  exact ⟨id, base, (statement_keepsFilling s hb).2 id base hfills⟩

theorem Inside.opened {fallback : Nat} {p : Mustache.Program Mustache.Statement}
    {nodes : Section Statement} (h : Inside src (OpensInTurn src) a fallback p nodes b) :
    b.markup.stack.opened = a.markup.stack.opened
      ∧ List.Forall₂ StartTag.Opens (collectSection src (endedTags src) a p)
          (nodes.elements.map Element.opened) := by
  obtain ⟨hsection, hinside⟩ := h
  have hsame := sectionOf_sameFrames p hsection
  obtain ⟨inside, frame, stack, hstatements, -, hpop, rfl, rfl⟩ := sectionOf_ok hsection
  have hbody := OpenElements.fills_pushBody a.markup.stack
  obtain ⟨new, hnew, hopens⟩ := hinside inside hstatements ⟨_, _, hbody⟩
  obtain ⟨-, -, children, rfl⟩ :=
    ((statements_keepsFilling _ hstatements).2 _ _ hbody).popExpecting_ok hpop
  have hstack : OpenElements.opened stack = a.markup.stack.opened :=
    OpenElements.opened_eq hsame.1
  have hpushed : a.pushBody.2.markup.stack.opened = a.markup.stack.opened :=
    (OpenElements.opened_push _ _).trans (List.append_nil _)
  have hinner := OpenElements.opened_popExpecting hpop
  rw [hnew, hpushed, hstack] at hinner
  obtain rfl := List.append_cancel_left hinner
  obtain ⟨body, params, chained⟩ := p
  exact ⟨hstack, hopens⟩

theorem Inside?.opened {fallback : Nat} {p : Option (Mustache.Program Mustache.Statement)}
    {nodes : Option (Section Statement)}
    (h : Inside? src (OpensInTurn src) a fallback p nodes b) :
    b.markup.stack.opened = a.markup.stack.opened
      ∧ List.Forall₂ StartTag.Opens (collectSection? src (endedTags src) a p)
          ((sectionElements nodes).map Element.opened) := by
  cases p with
  | none =>
    obtain ⟨rfl, rfl⟩ := h
    exact ⟨rfl, .nil⟩
  | some p =>
    obtain ⟨s, rfl, hs⟩ := h
    exact hs.opened

private theorem append_opensTo {child : Statement} {tags : List StartTag}
    (hne : b.markup.stack.frames ≠ [])
    (hb : b.markup.stack.opened = a.markup.stack.opened)
    (hchild : List.Forall₂ StartTag.Opens tags (openedAll [child])) :
    a.markup.OpensTo tags (b.append child).markup :=
  ⟨openedAll [child], (OpenElements.opened_append hne child).trans (congrArg (· ++ _) hb), hchild⟩

theorem opensInTurn (src : Source) : Follows src (OpensInTurn src) where
  nil a _ := .of_eq rfl
  flat {a b c s ss} hflat hb ih := fun ha => by
    rw [collectAll_cons hb, collect_flat hflat]
    exact (flat_opened ha hflat hb).trans (ih (filling_statement ha hb))
  block {a mid b c s child m node ss program inverse} hs hdata hcall hprogram hinverse hp hi hblock
      hb ih := fun ha => by
    have hs' : s = .block m ∨ s = .decoratorBlock m := hs.imp And.left And.left
    have hne : ∀ x, s ≠ .content x := by rcases hs' with rfl | rfl <;> simp
    have htold : endedTags src a s = [] := by
      rw [endedTags, told_eq_nil (Html.State.isComment_of_isData hdata) hne]
      rfl
    have hframes : b.markup.stack.frames ≠ [] := by
      rw [(block_sameFrames m hblock).1]
      exact ha.ne_nil
    rw [collectAll_cons hb, collect_block hs' hdata hprogram.read, htold, List.nil_append]
    obtain ⟨hmid, hprogram⟩ := hprogram.opened
    obtain ⟨hafter, hinverse⟩ := hinverse.opened
    have hchild : openedAll [child]
        = (sectionElements program).map Element.opened
          ++ (sectionElements inverse).map Element.opened := by
      have hnode : node.elements = sectionElements program ++ sectionElements inverse := by
        obtain ⟨call, program', inverse', openStrip, inverseStrip, closeStrip, span⟩ := node
        obtain rfl : program' = _ := hp
        obtain rfl : inverse' = _ := hi
        cases program <;> rfl
      rcases hs with ⟨-, rfl⟩ | ⟨-, rfl⟩ <;>
        rw [openedAll, elementsAll, elementsAll, List.append_nil, Statement.elements, hnode,
          List.map_append]
    refine (append_opensTo hframes (hafter.trans hmid) ?_).trans (ih (filling_statement ha hb))
    rw [hchild]
    exact List.rel_append hprogram hinverse
  partialBlock {a b c m callee nodes ss} hcomment hcallee hsection hb ih := fun ha => by
    have htold : endedTags src a (.partialBlock m) = [] := by
      rw [endedTags, told_eq_nil hcomment (by simp)]
      rfl
    have hframes : b.markup.stack.frames ≠ [] := by
      rw [(sectionOf_sameFrames _ hsection.1).1]
      exact ha.ne_nil
    obtain ⟨hafter, hopens⟩ := hsection.opened
    rw [collectAll_cons hb, collect_partialBlock hcomment, htold, List.nil_append]
    refine (append_opensTo hframes hafter ?_).trans (ih (filling_statement ha hb))
    rw [openedAll, elementsAll, elementsAll, List.append_nil, Statement.elements]
    obtain ⟨callee', ⟨body, params, chained⟩, openStrip, closeStrip, loc⟩ := m
    exact hopens

end Assembly

end HtmlTemplate.Tree

namespace HtmlTemplate

open HtmlTemplate.Tree (StartTag)
open HtmlTemplate.Tree.Assembly (collectAll endedTags)

/-- The start tags of a template, in the order in which they end. -/
def startTags (text : List Char) (options : Options)
    (program : Mustache.Program Mustache.Statement) : List StartTag :=
  collectAll ⟨text, options.moduleName⟩ (endedTags ⟨text, options.moduleName⟩)
    (.initial options.mode) program.body

theorem preprocess_elements {text : List Char} {options : Options} {t : Tree.Template}
    (h : preprocess text options = .ok t) :
    ∃ program, Mustache.parse text options.keepLines = .ok program
      ∧ List.Forall₂ (fun tag e => StartTag.Opens tag e.opened)
          (startTags text options program) t.elements := by
  obtain ⟨program, a, stack, hparse, ha, -, hpop, hempty⟩ := preprocess_ok h
  refine ⟨program, hparse, ?_⟩
  have hfills := Tree.Assembly.fills_initial options.mode
  obtain ⟨new, hnew, hopens⟩ :=
    (Tree.Assembly.opensInTurn _).statements program.body ha ⟨0, [], hfills⟩
  have hall : a.markup.stack.opened = Tree.openedAll t.body := by
    rw [Tree.OpenElements.opened_popExpecting hpop, Tree.OpenElements.opened, hempty]
    rfl
  have hinitial : (Tree.Assembly.initial options.mode).markup.stack.opened = [] := rfl
  rw [hall, hinitial, List.nil_append] at hnew
  rw [← hnew] at hopens
  exact List.forall₂_map_right_iff.mp hopens

theorem reads_of_mem_startTags {text : List Char} {options : Options} {t : Tree.Template}
    {program : Mustache.Program Mustache.Statement} {tag : StartTag}
    (h : preprocess text options = .ok t)
    (hparse : Mustache.parse text options.keepLines = .ok program)
    (htag : tag ∈ startTags text options program) :
    ∃ s a b, Tree.Assembly.Passes ⟨text, options.moduleName⟩ (.initial options.mode) program.body
        (.reads s a)
      ∧ Tree.Assembly.statement ⟨text, options.moduleName⟩ a s = .ok b
      ∧ tag ∈ endedTags ⟨text, options.moduleName⟩ a s := by
  obtain ⟨program', last, stack, hparse', hstatements, -⟩ := preprocess_ok h
  obtain rfl := Except.ok.inj (hparse'.symm.trans hparse)
  obtain ⟨s, a, hreads, htag⟩ :=
    ((Tree.Assembly.collects _ _ _).statements program'.body hstatements).mp htag
  obtain ⟨b, hb⟩ := hreads.statement_ok hstatements
  exact ⟨s, a, b, hreads, hb, htag⟩

theorem startTag_of_mem_elements {text : List Char} {options : Options} {t : Tree.Template}
    {e : Tree.Element Tree.Statement} (h : preprocess text options = .ok t)
    (he : e ∈ t.elements) :
    ∃ program tag kept, Mustache.parse text options.keepLines = .ok program
      ∧ tag ∈ startTags text options program ∧ e.attributes = tag.attributes.take kept := by
  obtain ⟨program, hparse, hopens⟩ := preprocess_elements h
  obtain ⟨i, hi, rfl⟩ := List.mem_iff_getElem.mp he
  have hlength := hopens.length_eq
  obtain ⟨kept, params, -, heq⟩ := hopens.get (hlength ▸ hi) hi
  exact ⟨program, _, kept, hparse, List.getElem_mem (hlength ▸ hi),
    congrArg (fun o => o.1.attributes) heq⟩

end HtmlTemplate
