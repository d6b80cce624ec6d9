/-! Half-open byte ranges of the template text. -/

namespace HtmlTemplate

structure Span where
  start : Nat
  stop : Nat
deriving DecidableEq, Repr, Inhabited

namespace Span

def empty (offset : Nat) : Span := ⟨offset, offset⟩

def collapseToStart (s : Span) : Span := empty s.start

def collapseToStop (s : Span) : Span := empty s.stop

def merge (s t : Span) : Span := ⟨min s.start t.start, max s.stop t.stop⟩

def size (s : Span) : Nat := s.stop - s.start

def isEmpty (s : Span) : Bool := s.start == s.stop

def contains (s t : Span) : Bool := s.start ≤ t.start && t.stop ≤ s.stop

@[simp] theorem contains_iff (s t : Span) :
    s.contains t = true ↔ s.start ≤ t.start ∧ t.stop ≤ s.stop := by
  simp [contains]

end Span

end HtmlTemplate
