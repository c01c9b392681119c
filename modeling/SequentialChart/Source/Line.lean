import SequentialChart.Span
import SequentialChart.Text.Ascii

/-!
# Lines

A source is read line by line. A comment runs from `//` to the end of its line, unless the `//`
stands between double quotes; blanks around what is left do not count, and a line of which nothing
is left is skipped. Every line knows where its text stands in the source.

## Main definitions

* `Line` — a text that is not empty, with its place.
* `Line.physical` — the lines of a source, with their line feeds.
* `Line.code` — a line up to its comment.
* `Line.ofSource` — the lines with something on them.
-/

namespace SequentialChart

structure Line where
  /-- The text, without the blanks around it and without a comment. -/
  text : List Char
  /-- The byte offset of the text. -/
  start : Nat
  /-- The number of the line, the first being number one. -/
  number : Nat

namespace Line

open Text

def span (l : Line) : Span := .ofLength l.start (width l.text)

/-- The lines of a text, each with the line feed that ends it. -/
def physical : List Char → List (List Char)
  | [] => []
  | c :: s =>
    if c = '\n' then [c] :: physical s
    else match physical s with
      | [] => [[c]]
      | line :: lines => (c :: line) :: lines

/-- The text up to the first `//` that does not stand between double quotes; `quoted` tells whether
the text begins between them. -/
def code (quoted : Bool) : List Char → List Char
  | [] => []
  | c :: s =>
    if c = '"' then c :: code (!quoted) s
    else if !quoted && ['/', '/'].isPrefixOf (c :: s) then []
    else c :: code quoted s

def ofPhysical? (number offset : Nat) (raw : List Char) : Option Line :=
  let content := code false raw
  let text := trim content
  if text.isEmpty then none
  else some { text, start := offset + width (content.takeWhile isBlank), number }

def ofPhysicals (number offset : Nat) : List (List Char) → List Line
  | [] => []
  | raw :: rest =>
    (ofPhysical? number offset raw).toList ++ ofPhysicals (number + 1) (offset + width raw) rest

/-- The lines of a source with something on them. -/
def ofSource (source : List Char) : List Line := ofPhysicals 1 0 (physical source)

theorem flatten_physical (s : List Char) : (physical s).flatten = s := by
  induction s with
  | nil => rfl
  | cons c s ih =>
    simp only [physical]
    split
    · simp [ih]
    · split
      · next h => rw [h] at ih; simpa using ih
      · next h => rw [h] at ih; simpa using ih

theorem code_isPrefix (quoted : Bool) (s : List Char) : code quoted s <+: s := by
  induction s generalizing quoted with
  | nil => exact List.prefix_rfl
  | cons c s ih =>
    simp only [code]
    split
    · exact List.cons_prefix_cons.2 ⟨rfl, ih _⟩
    · split
      · exact ⟨c :: s, rfl⟩
      · exact List.cons_prefix_cons.2 ⟨rfl, ih _⟩

end Line

end SequentialChart
