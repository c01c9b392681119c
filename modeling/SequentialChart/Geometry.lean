/-!
# Lengths, points and rectangles

Diagrams are drawn in a plane whose `x` grows to the right and whose `y` grows downwards. What is
drawn does not depend on how lengths are represented; a type of lengths has the few operations that
drawing needs.

## Main definitions

* `Length` — the operations on lengths; singles are lengths.
* `Point`, `Size`, `Bounds`, `Bounds.merge`, `Bounds.extent?`.
-/

namespace SequentialChart

/-- A type whose values can be used as lengths and coordinates. -/
class Length (α : Type) extends Add α, Sub α where
  ofNat : Nat → α
  scale : Nat → α → α
  half : α → α
  larger : α → α → α
  smaller : α → α → α
  same : α → α → Bool

/-- A single that is no number does not count where the larger or the smaller of two is asked
for. -/
instance : Length Float32 where
  ofNat n := Float32.ofNat n
  scale n x := x * Float32.ofNat n
  half x := x / 2
  larger x y := if x.isNaN then y else if y.isNaN then x else if x < y then y else x
  smaller x y := if x.isNaN then y else if y.isNaN then x else if y < x then y else x
  same x y := x == y

structure Point (α : Type) where
  x : α
  y : α

structure Size (α : Type) where
  width : α
  height : α

structure Bounds (α : Type) where
  least : Point α
  greatest : Point α

variable {α : Type} [Length α]

namespace Point

def add (p q : Point α) : Point α := ⟨p.x + q.x, p.y + q.y⟩

def withX (p : Point α) (x : α) : Point α := { p with x }

def withY (p : Point α) (y : α) : Point α := { p with y }

end Point

namespace Bounds

def ofPosition (p : Point α) (s : Size α) : Bounds α := ⟨p, ⟨p.x + s.width, p.y + s.height⟩⟩

def left (b : Bounds α) : α := b.least.x

def top (b : Bounds α) : α := b.least.y

def right (b : Bounds α) : α := b.greatest.x

def bottom (b : Bounds α) : α := b.greatest.y

def centerX (b : Bounds α) : α := Length.half (b.least.x + b.greatest.x)

def topCenter (b : Bounds α) : Point α := ⟨b.centerX, b.top⟩

def bottomCenter (b : Bounds α) : Point α := ⟨b.centerX, b.bottom⟩

def merge (a b : Bounds α) : Bounds α where
  least := ⟨Length.smaller a.least.x b.least.x, Length.smaller a.least.y b.least.y⟩
  greatest := ⟨Length.larger a.greatest.x b.greatest.x, Length.larger a.greatest.y b.greatest.y⟩

def extent? : List (Bounds α) → Option (Bounds α)
  | [] => none
  | b :: bs => some (bs.foldl merge b)

@[simp] theorem extent?_eq_none_iff {bs : List (Bounds α)} : extent? bs = none ↔ bs = [] := by
  cases bs <;> simp [extent?]

end Bounds

end SequentialChart
