/-! Byte ranges of a source. -/
namespace Pedigree

/-- The bytes from `start` up to, but not including, `stop`. -/
structure Span where
  start : Nat
  stop : Nat
  start_le_stop : start ≤ stop := by omega
  deriving DecidableEq, Repr

namespace Span

instance : Inhabited Span := ⟨⟨0, 0, Nat.le_refl 0⟩⟩

/-- The span between two offsets, unless they are in the wrong order. -/
def between? (start stop : Nat) : Option Span :=
  if h : start ≤ stop then some ⟨start, stop, h⟩ else none

def length (s : Span) : Nat := s.stop - s.start

def isEmpty (s : Span) : Bool := s.start == s.stop

/-- The smallest span around two. -/
def union (s t : Span) : Span :=
  ⟨min s.start t.start, max s.stop t.stop, by
    have := s.start_le_stop; have := t.start_le_stop; omega⟩

def text (s : Span) : String := toString s.start ++ ".." ++ toString s.stop

end Span

end Pedigree
