import SequentialChart.Data.Basic
import SequentialChart.Decimal.Write

/-!
# JSON texts

Data written in the JSON format, in two ways: on one line, and over several lines with two blanks a
level.

## Main definitions

* `Data.doubleStyle`, `Data.singleStyle` — how numbers are written.
* `Data.compactJson`, `Data.prettyJson`.
-/

namespace SequentialChart

namespace Data

/-- Numbers that are not finite have no place in the format and become `null`; a tie goes to the
even digit, and a whole number that is written positionally keeps one zero after the point. -/
def numberStyle (least greatest : Int) : NumberStyle where
  tie := .even
  positional := some (least, greatest)
  wholeEnd := ".0".toList
  infinity := "null".toList
  negativeInfinity := "null".toList
  nan := "null".toList

/-- Doubles are written positionally from `1e-5` up to below `1e16`. -/
def doubleStyle : NumberStyle := numberStyle (-5) 15

/-- Singles are written positionally from `1e-6` up to below `1e13`. -/
def singleStyle : NumberStyle := numberStyle (-6) 12

def escape (c : Char) : List Char :=
  match c with
  | '"' => ['\\', '"']
  | '\\' => ['\\', '\\']
  | '\n' => ['\\', 'n']
  | '\r' => ['\\', 'r']
  | '\t' => ['\\', 't']
  | '\x08' => ['\\', 'b']
  | '\x0c' => ['\\', 'f']
  | c =>
    if c.toNat < 0x20 then
      "\\u00".toList ++ [Nat.digitChar (c.toNat / 16), Nat.digitChar (c.toNat % 16)]
    else [c]

def quote (s : String) : String :=
  String.ofList ('"' :: s.toList.flatMap escape ++ ['"'])

def atom : Data → String
  | null | noNumber => "null"
  | bool b => if b then "true" else "false"
  | integer n => if n < 0 then "-" ++ Nat.repr n.natAbs else Nat.repr n.natAbs
  | double x => String.ofList (doubleStyle.write (.ofFloat x))
  | single x => String.ofList (singleStyle.write (.ofFloat32 x))
  | text s => quote s
  | list _ => "[]"
  | record _ => "\x7b\x7d"

mutual

def compactJson : Data → String
  | list items => "[" ++ compactItems items ++ "]"
  | record entries => "\x7b" ++ compactEntries entries ++ "\x7d"
  | value => value.atom

def compactItems : List Data → String
  | [] => ""
  | [item] => item.compactJson
  | item :: items => item.compactJson ++ "," ++ compactItems items

def compactEntries : List (String × Data) → String
  | [] => ""
  | [(name, value)] => quote name ++ ":" ++ value.compactJson
  | (name, value) :: entries =>
    quote name ++ ":" ++ value.compactJson ++ "," ++ compactEntries entries

end

def lineBreak (depth : Nat) : String := String.ofList ('\n' :: List.replicate (2 * depth) ' ')

mutual

/-- The data over several lines, its own lines at the level `depth`. -/
def prettyAt (depth : Nat) : Data → String
  | list (item :: items) =>
    "[" ++ lineBreak (depth + 1) ++ item.prettyAt (depth + 1) ++ prettyItems (depth + 1) items ++
      lineBreak depth ++ "]"
  | record ((name, value) :: entries) =>
    "\x7b" ++ lineBreak (depth + 1) ++ quote name ++ ": " ++ value.prettyAt (depth + 1) ++
      prettyEntries (depth + 1) entries ++ lineBreak depth ++ "\x7d"
  | value => value.atom

/-- The items of a list after the first. -/
def prettyItems (depth : Nat) : List Data → String
  | [] => ""
  | item :: items => "," ++ lineBreak depth ++ item.prettyAt depth ++ prettyItems depth items

def prettyEntries (depth : Nat) : List (String × Data) → String
  | [] => ""
  | (name, value) :: entries =>
    "," ++ lineBreak depth ++ quote name ++ ": " ++ value.prettyAt depth ++
      prettyEntries depth entries

end

def prettyJson (value : Data) : String := value.prettyAt 0

end Data

end SequentialChart
