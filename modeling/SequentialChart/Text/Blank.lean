/-!
# Blank characters

The characters that count as white space wherever a text is trimmed or cut into words: the
twenty-five code points with the Unicode property `White_Space`.

## Main definitions

* `Text.isBlank` — membership in that property.
* `Text.trim`, `Text.trimStart`, `Text.trimEnd` — a text without the blanks around it.
* `Text.words` — the maximal runs without a blank.
-/

namespace SequentialChart.Text

/-- The code points with the property `White_Space`, in increasing order. -/
def blanks : List Nat :=
  [0x09, 0x0A, 0x0B, 0x0C, 0x0D, 0x20, 0x85, 0xA0, 0x1680, 0x2000, 0x2001, 0x2002, 0x2003, 0x2004,
   0x2005, 0x2006, 0x2007, 0x2008, 0x2009, 0x200A, 0x2028, 0x2029, 0x202F, 0x205F, 0x3000]

def isBlank (c : Char) : Bool := blanks.contains c.toNat

/-! ### Trimming -/

def trimStart (s : List Char) : List Char := s.dropWhile isBlank

def trimEnd (s : List Char) : List Char := (s.reverse.dropWhile isBlank).reverse

def trim (s : List Char) : List Char := trimEnd (trimStart s)

@[simp] theorem trimStart_nil : trimStart [] = [] := rfl

@[simp] theorem trimEnd_nil : trimEnd [] = [] := rfl

@[simp] theorem trim_nil : trim [] = [] := rfl

theorem takeWhile_append_trimStart (s : List Char) : s.takeWhile isBlank ++ trimStart s = s :=
  List.takeWhile_append_dropWhile

theorem trimEnd_append_blanks (s : List Char) :
    trimEnd s ++ (s.reverse.takeWhile isBlank).reverse = s := by
  unfold trimEnd
  rw [← List.reverse_append, List.takeWhile_append_dropWhile, List.reverse_reverse]

/-! ### Words -/

/-- The pieces of a text between its blanks, empty ones included. -/
def pieces : List Char → List (List Char)
  | [] => [[]]
  | c :: s => if isBlank c then [] :: pieces s else (pieces s).modifyHead (c :: ·)

/-- The maximal runs of characters that are not blank. -/
def words (s : List Char) : List (List Char) := (pieces s).filter (· ≠ [])

@[simp] theorem words_nil : words [] = [] := rfl

theorem words_cons_blank {c : Char} (h : isBlank c) (s : List Char) : words (c :: s) = words s := by
  simp [words, pieces, h]

end SequentialChart.Text
