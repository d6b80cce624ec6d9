import HtmlTemplate.Preprocess
import HtmlTemplate.Tree.Outline

/-! What a template consists of apart from HTML: the nodes that come from statements which are
not text, each known by its kind and its place. -/

namespace HtmlTemplate

/-- The kinds of statements that are not text. -/
inductive Origin where
  | mustache
  /-- A mustache of just a literal. -/
  | literal
  | decorator
  | block
  | decoratorBlock
  | partialCall
  | partialBlock
  | comment
deriving DecidableEq, Repr

/-- A statement or a node by its kind and its place. -/
abbrev Item : Type :=
  Origin × Span

def Mustache.Statement.origin? : Mustache.Statement → Option Origin
  | .content _ => none
  | .mustache m =>
    match m.call.callee with
    | .literal .. => some .literal
    | _ => some .mustache
  | .decorator _ => some .decorator
  | .block _ => some .block
  | .decoratorBlock _ => some .decoratorBlock
  | .comment _ => some .comment
  | .partialCall _ => some .partialCall
  | .partialBlock _ => some .partialBlock

/-- The statement as an item, unless it is text. -/
def Mustache.Statement.item (src : Source) (s : Mustache.Statement) : List Item :=
  s.origin?.toList.map (·, src.spanFor s.loc)

namespace Tree

/-- Which statements give nodes of a kind. A mustache may become a modifier, and a comment may
be put into a tag. -/
def Kind.origin? : Kind → Option Origin
  | mustache | modifier => some .mustache
  | literalMustache => some .literal
  | decorator => some .decorator
  | block => some .block
  | decoratorBlock => some .decoratorBlock
  | partialCall => some .partialCall
  | partialBlock => some .partialBlock
  | mustacheComment | tagComment => some .comment
  | _ => none

def items (es : List Entry) : List Item :=
  es.filterMap fun e => e.kind.origin?.map (·, e.span)

def Template.items (t : Template) : List Item :=
  Tree.items t.entries

def Dynamic.items : Dynamic → List Item
  | .call m => [(.mustache, m.span)]
  | .literal m => [(.literal, m.span)]

def Part.items : Part → List Item
  | .text _ => []
  | .dynamic d => d.items

def AttributeValue.items : AttributeValue → List Item
  | .text _ => []
  | .dynamic d => d.items
  | .concat parts _ => parts.flatMap Part.items

def Attribute.items (a : Attribute) : List Item :=
  a.value.items

def Modifier.items (m : Modifier) : List Item :=
  [(.mustache, m.span)]

def Comment.items (c : Comment) : List Item :=
  [(.comment, c.span)]

mutual

def Statement.items : Statement → List Item
  | .dynamic d => d.items
  | .decorator m => [(.decorator, m.span)]
  | .block b => Block.items .block b
  | .decoratorBlock b => Block.items .decoratorBlock b
  | .partialCall p => [(.partialCall, p.span)]
  | .partialBlock ⟨_, program, _, _, span⟩ => (.partialBlock, span) :: Section.items program
  | .mustacheComment c => c.items
  | .comment _ | .text _ => []
  | .element ⟨_, _, attributes, _, modifiers, comments, children, _⟩ =>
    attributes.flatMap Attribute.items ++ modifiers.flatMap Modifier.items
      ++ comments.flatMap Comment.items ++ bodyItems children

def Block.items (origin : Origin) : Block Statement → List Item
  | ⟨_, program, inverse, _, _, _, span⟩ =>
    (origin, span) :: Section.items program ++ inverseItems inverse

def Section.items : Section Statement → List Item
  | ⟨body, _, _, _⟩ => bodyItems body

def inverseItems : Option (Section Statement) → List Item
  | none => []
  | some s => Section.items s

def bodyItems : List Statement → List Item
  | [] => []
  | s :: ss => s.items ++ bodyItems ss

end

theorem bodyItems_eq (ss : List Statement) : bodyItems ss = ss.flatMap Statement.items := by
  induction ss with
  | nil => simp [bodyItems]
  | cons s ss ih => simp [bodyItems, ih]

theorem items_cons (e : Entry) (es : List Entry) :
    items (e :: es) = (e.kind.origin?.map (·, e.span)).toList ++ items es := by
  unfold items
  cases h : e.kind.origin? <;> simp [h]

@[simp] theorem items_append (es fs : List Entry) : items (es ++ fs) = items es ++ items fs :=
  List.filterMap_append

mutual

theorem items_expression (d : Nat) : (e : Expression) → items (e.entries d) = []
  | .path p => by
    cases hhead : p.head <;>
      simp [Expression.entries, Path.entries, items, hhead, PathHead.kind, Kind.origin?]
  | .literal l span => rfl
  | .call c span => by
    rw [Expression.entries, items_cons, items_call]
    rfl

theorem items_call (d : Nat) : (c : Call Expression) → items (callEntries d c) = []
  | ⟨callee, params, ⟨pairs, span⟩⟩ => by
    rw [callEntries, items_append, items_append, items_cons, items_expression, items_params,
      items_pairs]
    rfl

theorem items_params (d : Nat) : (es : List Expression) → items (paramEntries d es) = []
  | [] => rfl
  | e :: es => by rw [paramEntries, items_append, items_expression, items_params]; rfl

theorem items_pairs (d : Nat) : (ps : List (Pair Expression)) → items (pairEntries d ps) = []
  | [] => rfl
  | ⟨key, value, span⟩ :: ps => by
    rw [pairEntries, List.cons_append, items_cons, items_append, items_expression, items_pairs]
    rfl

end

theorem items_dynamic (d : Nat) (x : Dynamic) : items (x.entries d) = x.items := by
  cases x with
  | call m => rw [Dynamic.entries, Mustache.entries, items_cons, items_call]; rfl
  | literal m => rfl

private theorem items_part (d : Nat) (p : Part) : items (p.entries d) = p.items := by
  cases p with
  | text t => rfl
  | dynamic x => exact items_dynamic d x

theorem items_flatMap {α : Type} (entries : α → List Entry) (own : α → List Item)
    (h : ∀ x, items (entries x) = own x) (xs : List α) :
    items (xs.flatMap entries) = xs.flatMap own := by
  induction xs with
  | nil => rfl
  | cons x xs ih => simp [h, ih]

private theorem items_attribute (d : Nat) (a : Attribute) : items (a.entries d) = a.items := by
  rw [Attribute.entries, items_cons, Attribute.items]
  cases a.value with
  | text t => rfl
  | dynamic x => simp [AttributeValue.entries, AttributeValue.items, items_dynamic, Kind.origin?]
  | concat parts span =>
    rw [AttributeValue.entries, items_cons, items_flatMap _ _ (items_part (d + 1 + 1))]
    rfl

private theorem items_modifier (d : Nat) (m : Modifier) : items (m.entries d) = m.items := by
  rw [Modifier.entries, items_cons, items_call]
  rfl

private theorem items_tagComments (d : Nat) (cs : List Comment) :
    items (cs.map fun c => ⟨d, .tagComment, c.span, c.value⟩) = cs.flatMap Comment.items := by
  induction cs with
  | nil => rfl
  | cons c cs ih =>
    rw [List.map_cons, items_cons, ih]
    rfl

mutual

theorem items_statement (d : Nat) : (s : Statement) → items (s.entries d) = s.items
  | .dynamic x => items_dynamic d x
  | .decorator m => by rw [Statement.entries, Mustache.entries, items_cons, items_call]; rfl
  | .block b => by rw [Statement.entries, items_block d b rfl]; rfl
  | .decoratorBlock b => by rw [Statement.entries, items_block d b rfl]; rfl
  | .partialCall p => by rw [Statement.entries, items_cons, items_call]; rfl
  | .partialBlock ⟨call, program, openStrip, closeStrip, span⟩ => by
    rw [Statement.entries, List.cons_append, items_cons, items_append, items_call,
      items_section (d + 1) program rfl]
    rfl
  | .mustacheComment c => rfl
  | .comment c => rfl
  | .text t => rfl
  | .element ⟨tag, selfClosing, attributes, params, modifiers, comments, children, span⟩ => by
    rw [Statement.entries, List.cons_append, List.cons_append, List.cons_append, items_cons,
      items_append, items_append, items_append, items_flatMap _ _ (items_attribute (d + 1)),
      items_flatMap _ _ (items_modifier (d + 1)), items_tagComments, items_body]
    rfl

theorem items_block (d : Nat) {kind : Kind} {origin : Origin} :
    (b : Block Statement) → kind.origin? = some origin →
      items (blockEntries d kind b) = Block.items origin b
  | ⟨call, program, inverse, openStrip, inverseStrip, closeStrip, span⟩, h => by
    rw [blockEntries, List.cons_append, List.cons_append, items_cons, items_append, items_append,
      items_call, items_section (d + 1) program rfl, items_inverse]
    simp [h, Block.items]

theorem items_inverse (d : Nat) :
    (s : Option (Section Statement)) → items (inverseEntries d s) = inverseItems s
  | none => rfl
  | some s => by rw [inverseEntries, items_section d s rfl]; rfl

theorem items_section (d : Nat) {kind : Kind} :
    (s : Section Statement) → kind.origin? = none → items (sectionEntries d kind s) = s.items
  | ⟨body, params, chained, span⟩, h => by
    rw [sectionEntries, items_cons, items_body]
    simp [h, Section.items]

theorem items_body (d : Nat) : (ss : List Statement) → items (bodyEntries d ss) = bodyItems ss
  | [] => rfl
  | s :: ss => by rw [bodyEntries, items_append, items_statement, items_body]; rfl

end

theorem Template.items_eq (t : Template) : t.items = bodyItems t.body := by
  rw [Template.items, Template.entries, items_cons, items_body]
  rfl

end Tree

end HtmlTemplate
