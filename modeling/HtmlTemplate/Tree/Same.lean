import HtmlTemplate.Tree.Basic

/-! Equality of templates, all spans included. Numbers are compared as numbers, so
that the two zeros are equal; their text is compared as well. -/

namespace HtmlTemplate.Tree

mutual

def Expression.same : Expression → Expression → Bool
  | .path p, .path q => p == q
  | .literal l s, .literal m t => l.same m && s == t
  | .call c s, .call d t => sameCall c d && s == t
  | _, _ => false

def sameCall : Call Expression → Call Expression → Bool
  | ⟨callee, params, ⟨pairs, s⟩⟩, ⟨callee', params', ⟨pairs', t⟩⟩ =>
    callee.same callee' && sameParams params params' && samePairs pairs pairs' && s == t

def sameParams : List Expression → List Expression → Bool
  | [], [] => true
  | e :: es, f :: fs => e.same f && sameParams es fs
  | _, _ => false

def samePairs : List (Pair Expression) → List (Pair Expression) → Bool
  | [], [] => true
  | ⟨key, value, s⟩ :: ps, ⟨key', value', t⟩ :: qs =>
    key == key' && value.same value' && s == t && samePairs ps qs
  | _, _ => false

end

def sameList {α : Type} (same : α → α → Bool) : List α → List α → Bool
  | [], [] => true
  | a :: as, b :: bs => same a b && sameList same as bs
  | _, _ => false

def Mustache.same (m n : Mustache) : Bool :=
  sameCall m.call n.call && m.trusting == n.trusting && m.strip == n.strip && m.span == n.span

def Dynamic.same : Dynamic → Dynamic → Bool
  | .call m, .call n => m.same n
  | .literal m, .literal n =>
    m.value.same n.value && m.valueSpan == n.valueSpan && m.trusting == n.trusting
      && m.strip == n.strip && m.span == n.span
  | _, _ => false

def Part.same : Part → Part → Bool
  | .text t, .text u => t == u
  | .dynamic d, .dynamic e => d.same e
  | _, _ => false

def AttributeValue.same : AttributeValue → AttributeValue → Bool
  | .text t, .text u => t == u
  | .dynamic d, .dynamic e => d.same e
  | .concat ps s, .concat qs t => sameList Part.same ps qs && s == t
  | _, _ => false

def Attribute.same (a b : Attribute) : Bool :=
  a.name == b.name && a.value.same b.value && a.span == b.span

def Modifier.same (m n : Modifier) : Bool :=
  sameCall m.call n.call && m.span == n.span

def PartialCall.same (p q : PartialCall) : Bool :=
  sameCall p.call q.call && p.indent == q.indent && p.strip == q.strip && p.span == q.span

mutual

def Statement.same : Statement → Statement → Bool
  | .dynamic d, .dynamic e => d.same e
  | .block b, .block c => sameBlock b c
  | .decorator m, .decorator n => m.same n
  | .decoratorBlock b, .decoratorBlock c => sameBlock b c
  | .partialCall p, .partialCall q => p.same q
  | .partialBlock ⟨call, program, openStrip, closeStrip, s⟩,
      .partialBlock ⟨call', program', openStrip', closeStrip', t⟩ =>
    sameCall call call' && sameSection program program' && openStrip == openStrip'
      && closeStrip == closeStrip' && s == t
  | .mustacheComment c, .mustacheComment d => c == d
  | .comment c, .comment d => c == d
  | .element ⟨tag, selfClosing, attributes, params, modifiers, comments, children, s⟩,
      .element ⟨tag', selfClosing', attributes', params', modifiers', comments', children', t⟩ =>
    tag == tag' && selfClosing == selfClosing' && sameList Attribute.same attributes attributes'
      && params == params' && sameList Modifier.same modifiers modifiers'
      && comments == comments' && sameBody children children' && s == t
  | .text t, .text u => t == u
  | _, _ => false

def sameBlock : Block Statement → Block Statement → Bool
  | ⟨call, program, inverse, openStrip, inverseStrip, closeStrip, s⟩,
      ⟨call', program', inverse', openStrip', inverseStrip', closeStrip', t⟩ =>
    sameCall call call' && sameSection program program' && sameInverse inverse inverse'
      && openStrip == openStrip' && inverseStrip == inverseStrip' && closeStrip == closeStrip'
      && s == t

def sameInverse : Option (Section Statement) → Option (Section Statement) → Bool
  | none, none => true
  | some s, some t => sameSection s t
  | _, _ => false

def sameSection : Section Statement → Section Statement → Bool
  | ⟨body, params, chained, s⟩, ⟨body', params', chained', t⟩ =>
    sameBody body body' && params == params' && chained == chained' && s == t

def sameBody : List Statement → List Statement → Bool
  | [], [] => true
  | s :: ss, t :: ts => s.same t && sameBody ss ts
  | _, _ => false

end

def Template.same (t u : Template) : Bool :=
  sameBody t.body u.body && t.params == u.params && t.span == u.span

end HtmlTemplate.Tree
