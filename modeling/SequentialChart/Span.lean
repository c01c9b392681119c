/-!
# Spans

A span is a range of byte offsets into a source text. Its end is never before its start.

## Main definitions

* `Span`, `Span.ofBounds`, `Span.union`, `Span.shift`.
* `Located` — a value together with the span it was written at.
-/

namespace SequentialChart

/-- The bytes from `start` up to, but without, `stop`. -/
structure Span where
  start : Nat
  stop : Nat
  start_le_stop : start ≤ stop
  deriving DecidableEq

namespace Span

/-- The span between two bounds; it is empty if they are in the wrong order. -/
def ofBounds (start stop : Nat) : Span := ⟨start, max stop start, Nat.le_max_right ..⟩

def ofLength (start length : Nat) : Span := ⟨start, start + length, Nat.le_add_right ..⟩

instance : Inhabited Span := ⟨ofLength 0 0⟩

def length (s : Span) : Nat := s.stop - s.start

def isEmpty (s : Span) : Bool := s.start == s.stop

/-- The least span that covers both. -/
def union (s t : Span) : Span :=
  ⟨min s.start t.start, max s.stop t.stop, by have := s.start_le_stop; omega⟩

def shift (s : Span) (base : Nat) : Span :=
  ⟨s.start + base, s.stop + base, Nat.add_le_add_right s.start_le_stop base⟩

@[simp] theorem length_ofLength (start length : Nat) : (ofLength start length).length = length := by
  simp [Span.length, ofLength]

end Span

structure Located (α : Type) where
  value : α
  span : Span

end SequentialChart
