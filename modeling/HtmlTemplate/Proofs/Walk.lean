import HtmlTemplate.Proofs.Report
import HtmlTemplate.Proofs.Tags

/-! A walk through a tree meets the tags, texts and comments that it was put together from.
While it is, the elements that are open are those whose start tags have not been matched. -/

namespace HtmlTemplate

open Html (Token)

namespace Tree

/-- What a walk through a tree meets. -/
inductive Visit where
  /-- A start tag without the attributes that are block parameters, and these. An attribute has
  a value if that is text. -/
  | opens (name : List Char) (attributes : List (List Char × Option (List Char)))
    (params : List (List Char)) (selfClosing : Bool)
  | closes (name : List Char)
  | text (chars : List Char)
  | comment (value : List Char)
  /-- A mustache of any kind, between tags or in one. -/
  | mustache
deriving DecidableEq, Repr

def AttributeValue.text? : AttributeValue → Option (List Char)
  | .text t => some t.chars
  | .dynamic _ | .concat .. => none

def Attribute.written (a : Attribute) : List Char × Option (List Char) :=
  (a.name, a.value.text?)

mutual

/-- The start tag of an element comes first, then its children and its end tag, which there is
none of if the element is void or closes itself. -/
def Statement.walk : Statement → List Visit
  | .text t => [.text t.chars]
  | .comment c => [.comment c.value]
  | .element ⟨tag, selfClosing, attributes, params, modifiers, comments, children, _⟩ =>
    .opens tag (attributes.map Attribute.written) params selfClosing
      :: List.replicate (modifiers.length + comments.length) .mustache ++ walkAll children
      ++ if selfClosing || Html.isVoid tag then [] else [.closes tag]
  | .block ⟨_, program, inverse, _, _, _, _⟩ =>
    .mustache :: walkSection program ++ walkSection? inverse
  | .decoratorBlock ⟨_, program, inverse, _, _, _, _⟩ =>
    .mustache :: walkSection program ++ walkSection? inverse
  | .partialBlock ⟨_, program, _, _, _⟩ => .mustache :: walkSection program
  | .dynamic _ | .decorator _ | .partialCall _ | .mustacheComment _ => [.mustache]

def walkAll : List Statement → List Visit
  | [] => []
  | s :: ss => s.walk ++ walkAll ss

def walkSection : Section Statement → List Visit
  | ⟨body, _, _, _⟩ => walkAll body

def walkSection? : Option (Section Statement) → List Visit
  | none => []
  | some s => walkSection s

end

theorem walkAll_concat (ss : List Statement) (s : Statement) :
    walkAll (ss ++ [s]) = walkAll ss ++ s.walk := by
  induction ss with
  | nil => simp [walkAll]
  | cons s' ss ih => simp [walkAll, ih]

def visit? : Token → Except Fault Visit
  | .startTag t => do
    let (kept, params) ← blockParams? (t.attributes.map (·.1))
    return .opens t.name ((t.attributes.take kept).map (Prod.map id some)) params t.selfClosing
  | .endTag t => .ok (.closes t.name)
  | .text chars => .ok (.text chars)
  | .comment value => .ok (.comment value)

theorem visits_concat {ts : List Token} {vs : List Visit} {t : Token} {v : Visit}
    (hts : ts.mapM visit? = .ok vs) (ht : visit? t = .ok v) :
    (ts ++ [t]).mapM visit? = .ok (vs ++ [v]) := by
  rw [List.mapM_append, hts, List.mapM_cons, ht]
  rfl

def Allowed : Token → Prop
  | .endTag t => t.attributes = [] ∧ t.selfClosing = false
  | .startTag t => t.name ≠ [':'] ∧ ∃ split, blockParams? (t.attributes.map (·.1)) = .ok split
  | .text _ | .comment _ => True

/-- Each end tag closes the element opened last. -/
structure Sound (ts : List Token) : Prop where
  allowed : ∀ t ∈ ts, Allowed t
  opened : ∃ names, Html.openAfter [] ts = some names

theorem Sound.of_isPrefix {ts ts' : List Token} (h : Sound ts') (hts : ts <+: ts') : Sound ts where
  allowed t ht := h.allowed t (hts.subset ht)
  opened := by
    obtain ⟨rest, rfl⟩ := hts
    obtain ⟨names, hnames⟩ := h.opened
    rw [Html.openAfter_append] at hnames
    exact (Option.bind_eq_some_iff.mp hnames).imp fun _ h => h.1

inductive Rooted : List (Nat × Frame) → Prop
  | body {children : List Statement} : Rooted [(0, .body children)]
  | element {id : Nat} {e : OpenElement} {frames : List (Nat × Frame)} :
      id ≠ 0 → e.selfClosing = false → Html.isVoid e.tag = false → Rooted frames →
      Rooted ((id, .element e) :: frames)

/-- The names of the open elements, innermost first. -/
def openNames : List (Nat × Frame) → List (List Char)
  | [] => []
  | (_, .element e) :: frames => e.tag :: openNames frames
  | (_, .body _) :: frames => openNames frames

def OpenElement.walk (e : OpenElement) : List Visit :=
  .opens e.tag (e.attributes.map Attribute.written) e.params e.selfClosing
    :: List.replicate (e.modifiers.length + e.comments.length) .mustache

def walkFrames : List (Nat × Frame) → List Visit
  | [] => []
  | (_, .element e) :: frames => walkFrames frames ++ e.walk ++ walkAll e.children
  | (_, .body children) :: frames => walkFrames frames ++ walkAll children

theorem Rooted.eq_body {frames : List (Nat × Frame)} (h : Rooted frames)
    (hopen : openNames frames = []) : ∃ children, frames = [(0, .body children)] := by
  cases h with
  | body => exact ⟨_, rfl⟩
  | element => cases hopen

theorem Rooted.of_popExpecting {src : Source} {s stack : OpenElements} {frame : Frame}
    (h : Rooted s.frames) (hpop : s.popExpecting src 0 = .ok (frame, stack)) :
    s.frames = [(0, .body frame.children)] := by
  obtain ⟨frames, nextId⟩ := s
  cases h with
  | body =>
    cases hpop
    rfl
  | element hid => simp [OpenElements.popExpecting, hid, fault] at hpop

section
variable {s : OpenElements} {node : Statement}

theorem rooted_append (h : Rooted s.frames) (node : Statement) : Rooted (s.append node).frames := by
  obtain ⟨frames, nextId⟩ := s
  cases h with
  | body => exact .body
  | element hid hclosing hvoid hframes => exact .element hid hclosing hvoid hframes

theorem openNames_append (s : OpenElements) (node : Statement) :
    openNames (s.append node).frames = openNames s.frames := by
  obtain ⟨_ | ⟨⟨id, frame⟩, frames⟩, nextId⟩ := s
  · rfl
  · cases frame <;> rfl

theorem nextId_append (s : OpenElements) (node : Statement) :
    (s.append node).nextId = s.nextId := by
  obtain ⟨_ | _, nextId⟩ := s <;> rfl

theorem walkFrames_append (h : Rooted s.frames) (node : Statement) :
    walkFrames (s.append node).frames = walkFrames s.frames ++ node.walk := by
  obtain ⟨frames, nextId⟩ := s
  cases h with
  | body => simp [OpenElements.append, OpenElements.mapTop, Frame.mapChildren, walkFrames,
      walkAll_concat]
  | element => simp [OpenElements.append, OpenElements.mapTop, Frame.mapChildren, walkFrames,
      walkAll_concat, OpenElement.walk]

end

/-- The tokens so far have led to the open elements. -/
structure Stacked (ts : List Token) (s : OpenElements) : Prop where
  rooted : Rooted s.frames
  nextId : s.nextId ≠ 0
  allowed : ∀ t ∈ ts, Allowed t
  opened : Html.openAfter [] ts = some (openNames s.frames)
  visits : ts.mapM visit? = .ok (walkFrames s.frames)

def StartTag.tag (t : StartTag) : Html.Tag :=
  ⟨t.name, t.attributes.map fun a => (a.name, a.value.text?.getD []), t.selfClosing⟩

theorem StartTag.tag_names (t : StartTag) :
    t.tag.attributes.map (·.1) = t.attributes.map (·.name) := by
  simp [StartTag.tag]

structure StartTag.Static (t : StartTag) : Prop where
  values : ∀ a ∈ t.attributes, a.value.text?.isSome = true
  modifiers : t.modifiers = []
  comments : t.comments = []

theorem StartTag.Static.written {t : StartTag} (h : t.Static) :
    t.tag.attributes.map (Prod.map id some) = t.attributes.map Attribute.written := by
  rw [StartTag.tag, List.map_map]
  refine List.map_congr_left fun a ha => ?_
  obtain ⟨chars, hchars⟩ := Option.isSome_iff_exists.mp (h.values a ha)
  simp [Attribute.written, hchars]

def StartTag.element (t : StartTag) (kept : Nat) (params : List (List Char)) (stop : Nat) :
    OpenElement where
  tag := t.name
  selfClosing := t.selfClosing
  attributes := t.attributes.take kept
  params := params
  modifiers := t.modifiers
  comments := t.comments
  children := []
  startTag := ⟨t.start, stop⟩

section
variable {src : Source} {m : Markup} {t : StartTag} {kept : Nat} {params : List (List Char)}

theorem openElement_childless (hname : t.name ≠ [':'])
    (hparams : blockParams? (t.attributes.map (·.name)) = .ok (kept, params))
    (hchildless : t.tag.isChildless = true) (stop : Nat) :
    m.openElement src t stop = .ok { m with
      stack := { m.stack with nextId := m.stack.nextId + 1 }.append
        (.element ((t.element kept params stop).finish stop)) } := by
  have hchildless' : (t.selfClosing || Html.isVoid t.name) = true := hchildless
  simp only [Markup.openElement, if_neg hname, hparams, hchildless', if_true]
  simp [Markup.closeElement, OpenElements.popElement?, OpenElements.push, StartTag.element]

theorem openElement_children (hname : t.name ≠ [':'])
    (hparams : blockParams? (t.attributes.map (·.name)) = .ok (kept, params))
    (hchildren : t.tag.isChildless = false) (stop : Nat) :
    m.openElement src t stop
      = .ok { m with stack := (m.stack.push (.element (t.element kept params stop))).2 } := by
  have hchildren' : (t.selfClosing || Html.isVoid t.name) = false := hchildren
  simp only [Markup.openElement, if_neg hname, hparams, hchildren', Bool.false_eq_true, if_false]
  rfl

theorem visit?_startTag (h : t.Static)
    (hparams : blockParams? (t.attributes.map (·.name)) = .ok (kept, params)) (stop : Nat) :
    ∃ v, visit? (.startTag t.tag) = .ok v ∧ (t.element kept params stop).walk = [v] := by
  refine ⟨.opens t.name ((t.attributes.take kept).map Attribute.written) params t.selfClosing, ?_,
    ?_⟩
  · simp only [visit?, StartTag.tag_names, hparams, List.map_take, h.written]
    rfl
  · simp [OpenElement.walk, StartTag.element, h.modifiers, h.comments]

theorem closeElement_eq_ok {e : OpenElement} {stack : OpenElements}
    (hpop : m.stack.popElement? = some (e, stack)) (hvoid : Html.isVoid e.tag = false)
    (span : Span) :
    m.closeElement src e.tag span false
      = .ok { m with stack := stack.append (.element (e.finish span.stop)) } := by
  simp [Markup.closeElement, hvoid, hpop]

theorem closeElement_eq_error (src : Source) (m : Markup) {name : List Char} (span : Span)
    (hpop : ∀ e stack, m.stack.popElement? = some (e, stack) → e.tag ≠ name) :
    ∃ e, m.closeElement src name span false = .error e := by
  unfold Markup.closeElement
  split
  · exact ⟨_, rfl⟩
  · split
    · exact ⟨_, rfl⟩
    · rw [if_neg (hpop _ _ ‹_›)]
      exact ⟨_, rfl⟩

end

private theorem walk_childless {t : StartTag} {kept stop : Nat} {params : List (List Char)}
    (hchildless : t.tag.isChildless = true) :
    Statement.walk (.element ((t.element kept params stop).finish stop))
      = (t.element kept params stop).walk := by
  have hchildless' : (t.selfClosing || Html.isVoid t.name) = true := hchildless
  simp [Statement.walk, OpenElement.finish, OpenElement.walk, StartTag.element, walkAll,
    hchildless']

theorem walk_finish {e : OpenElement} (hclosing : e.selfClosing = false)
    (hvoid : Html.isVoid e.tag = false) (stop : Nat) :
    Statement.walk (.element (e.finish stop))
      = e.walk ++ walkAll e.children ++ [.closes e.tag] := by
  simp [Statement.walk, OpenElement.finish, OpenElement.walk, hclosing, hvoid]

namespace Stacked

variable {src : Source} {ts : List Token} {s s' : OpenElements} {m : Markup}

theorem next (h : Stacked ts s) {t : Token} {v : Visit} (hrooted : Rooted s'.frames)
    (hid : s'.nextId ≠ 0) (ht : Allowed t)
    (hopened : Html.openAfter (openNames s.frames) [t] = some (openNames s'.frames))
    (hv : visit? t = .ok v) (hwalk : walkFrames s'.frames = walkFrames s.frames ++ [v]) :
    Stacked (ts ++ [t]) s' where
  rooted := hrooted
  nextId := hid
  allowed := List.forall_mem_append.mpr ⟨h.allowed, by simpa using ht⟩
  opened := by
    rw [Html.openAfter_append, h.opened]
    exact hopened
  visits := hwalk ▸ visits_concat h.visits hv

theorem append (h : Stacked ts s) {t : Token} {node : Statement} {v : Visit} (ht : Allowed t)
    (hopened : ∀ names, Html.openAfter names [t] = some names) (hv : visit? t = .ok v)
    (hwalk : node.walk = [v]) : Stacked (ts ++ [t]) (s.append node) := by
  refine h.next (rooted_append h.rooted node) ?_ ht ?_ hv ?_
  · rw [nextId_append]
    exact h.nextId
  · rw [openNames_append]
    exact hopened _
  · rw [walkFrames_append h.rooted, hwalk]

theorem openElement (h : Stacked ts m.stack) {t : StartTag} (ht : t.Static) (stop : Nat) :
    (∃ n, m.openElement src t stop = .ok n ∧ Stacked (ts ++ [.startTag t.tag]) n.stack
        ∧ n.current = m.current ∧ n.pending = m.pending)
      ∨ ∃ e, m.openElement src t stop = .error e ∧ ¬ Sound (ts ++ [.startTag t.tag]) := by
  by_cases hname : t.name = [':']
  · refine .inr ⟨_, by rw [Markup.openElement, if_pos hname]; rfl, fun hsound => ?_⟩
    exact (hsound.allowed (.startTag t.tag) (by simp)).1 hname
  cases hparams : blockParams? (t.attributes.map (·.name)) with
  | error f =>
    refine .inr ⟨_, by simp only [Markup.openElement, if_neg hname, hparams]; rfl, fun hsound => ?_⟩
    obtain ⟨split, hsplit⟩ := (hsound.allowed (.startTag t.tag) (by simp)).2
    rw [StartTag.tag_names, hparams] at hsplit
    cases hsplit
  | ok split =>
    obtain ⟨kept, params⟩ := split
    have hallowed : Allowed (.startTag t.tag) := ⟨hname, _, (StartTag.tag_names t).symm ▸ hparams⟩
    obtain ⟨v, hvisit, hwalk⟩ := visit?_startTag ht hparams stop
    left
    cases hchildless : t.tag.isChildless with
    | true =>
      refine ⟨_, openElement_childless hname hparams hchildless stop, ?_, rfl, rfl⟩
      have hcounted : Stacked ts { m.stack with nextId := m.stack.nextId + 1 } :=
        ⟨h.rooted, Nat.succ_ne_zero _, h.allowed, h.opened, h.visits⟩
      exact hcounted.append hallowed (fun names => by simp [Html.openAfter, hchildless]) hvisit
        ((walk_childless hchildless).trans hwalk)
    | false =>
      refine ⟨_, openElement_children hname hparams hchildless stop, ?_, rfl, rfl⟩
      obtain ⟨hclosing, hvoid⟩ := Bool.or_eq_false_iff.mp hchildless
      refine h.next (.element h.nextId hclosing hvoid h.rooted) (Nat.succ_ne_zero _) hallowed
        (by simp [Html.openAfter, hchildless]; rfl) hvisit ?_
      show walkFrames m.stack.frames ++ (t.element kept params stop).walk ++ [] = _
      rw [hwalk, List.append_nil]

theorem not_sound_endTag (h : Stacked ts s) {name : List Char}
    (hne : (openNames s.frames).head? ≠ some name) : ¬ Sound (ts ++ [.endTag { name }]) := by
  rintro ⟨-, names, hnames⟩
  rw [Html.openAfter_append, h.opened] at hnames
  cases hopened : openNames s.frames with
  | nil =>
    rw [hopened] at hnames
    cases hnames
  | cons opened _ =>
    rw [hopened] at hne hnames
    simp only [Option.bind_some, Html.openAfter] at hnames
    split at hnames
    · exact hne (congrArg some ‹_›)
    · cases hnames

theorem closeElement (h : Stacked ts m.stack) (name : List Char) (span : Span) :
    (∃ n, m.closeElement src name span false = .ok n
        ∧ Stacked (ts ++ [.endTag { name }]) n.stack
        ∧ n.current = m.current ∧ n.pending = m.pending)
      ∨ ∃ e, m.closeElement src name span false = .error e
        ∧ ¬ Sound (ts ++ [.endTag { name }]) := by
  obtain ⟨⟨frames, nextId⟩, current, pending⟩ := m
  cases hrooted : h.rooted with
  | body =>
    exact .inr ((closeElement_eq_error src _ span (by rintro _ _ ⟨⟩)).imp fun _ he =>
      ⟨he, h.not_sound_endTag (by simp [openNames])⟩)
  | @element id e frames hid hclosing hvoid hframes =>
    by_cases hname : e.tag = name
    · subst hname
      refine .inl ⟨_, closeElement_eq_ok rfl hvoid span, ?_, rfl, rfl⟩
      refine h.next (rooted_append (s := ⟨frames, nextId⟩) hframes _) ?_ ⟨rfl, rfl⟩ ?_ rfl ?_
      · rw [nextId_append]
        exact h.nextId
      · rw [openNames_append]
        simp [openNames, Html.openAfter]
      · rw [walkFrames_append (s := ⟨frames, nextId⟩) hframes, walk_finish hclosing hvoid]
        simp [walkFrames]
    · exact .inr ((closeElement_eq_error src _ span (by rintro _ _ ⟨⟩; exact hname)).imp
        fun _ he => ⟨he, h.not_sound_endTag (by simpa [openNames] using hname)⟩)

end Stacked

end Tree
end HtmlTemplate
