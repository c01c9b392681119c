import SequentialChart.Text.Blank

/-!
# Keywords and quotes

Keywords are compared without regard to the case of the letters `a` to `z`; every other character
has to agree exactly. A value may stand between double quotes.

## Main definitions

* `Text.upper`, `Text.lower`, `Text.sameWord` — folding the case of ASCII letters.
* `Text.isWordChar` — the characters of a name that needs no quotes.
* `Text.unquote` — a text without the pair of quotes around it.
* `Text.width` — how many bytes a text takes in UTF-8.
-/

namespace SequentialChart.Text

/-- The text with its ASCII letters in upper case. -/
def upper (s : List Char) : List Char := s.map Char.toUpper

def lower (s : List Char) : List Char := s.map Char.toLower

/-- Equality up to the case of ASCII letters. -/
def sameWord (s t : List Char) : Bool := lower s == lower t

/-- Letters, digits, `_` and `.`, all of them ASCII. -/
def isWordChar (c : Char) : Bool := c.isAlphanum || c == '_' || c == '.'

def dropEnding? (ending s : List Char) : Option (List Char) :=
  if ending.isSuffixOf s then some (s.take (s.length - ending.length)) else none

/-- The text between the double quotes around it; a text without such a pair stays as it is, and one
lone quote is no pair. -/
def unquote (s : List Char) : List Char :=
  match s with
  | '"' :: rest => (dropEnding? ['"'] rest).getD s
  | _ => s

@[simp] theorem unquote_quoted (s : List Char) : unquote ('"' :: s ++ ['"']) = s := by
  simp [unquote, dropEnding?]

/-! ### Bytes -/

/-- The number of bytes of the text in UTF-8. -/
def width : List Char → Nat
  | [] => 0
  | c :: s => c.utf8Size + width s

@[simp] theorem width_nil : width [] = 0 := rfl

@[simp] theorem width_cons (c : Char) (s : List Char) : width (c :: s) = c.utf8Size + width s := rfl

@[simp] theorem width_append (s t : List Char) : width (s ++ t) = width s + width t := by
  induction s with
  | nil => simp
  | cons c s ih => simp [ih, Nat.add_assoc]

end SequentialChart.Text
