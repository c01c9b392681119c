import SequentialChart.Decimal.Basic

/-!
# Nested data

What a data file holds and what is written to one: plain values, lists of data, and records of named
data.

## Main definitions

* `Data` — the type of such data; numbers are whole numbers, doubles or singles.
* `Data.entry?` — a named part of a record.
* `Data.toFloat?`, `Data.toBool?`, `Data.toText?`, `Data.toList?` — data of a certain kind.
* `DataFormat` — what the formats of data leave open; `toml` and `json` are the two in use.
* `Data.asRecord?` — a record, or the values of its entries in a fixed order.
* `Data.toChoice?` — one of several names.
-/

namespace SequentialChart

/-- Nested data. The entries of a record keep their order. -/
inductive Data where
  | null
  /-- A numeral that denotes no number, or none that can be held. It may stand where nobody reads
  it. -/
  | noNumber
  | bool (b : Bool)
  | integer (n : Int)
  | double (x : Float)
  | single (x : Float32)
  | text (s : String)
  | list (items : List Data)
  | record (entries : List (String × Data))

namespace Data

instance : Inhabited Data := ⟨null⟩

/-- Whether a whole number fits into 64 bits, with a sign or without one. Larger ones are not
read. -/
def fitsWord (n : Int) : Bool := -UInt64.size ≤ 2 * n && n < UInt64.size

/-- The number that the data is, be it written as a whole number or not. -/
def toFloat? : Data → Option Float
  | integer n => if fitsWord n then some (Decimal.ofInt n).toFloat else none
  | double x => some x
  | _ => none

/-- The same as a single. A whole number is rounded once, a double once more. -/
def toFloat32? : Data → Option Float32
  | integer n => if fitsWord n then some (Decimal.ofInt n).toFloat32 else none
  | double x => some x.toFloat32
  | _ => none

def toBool? : Data → Option Bool
  | bool b => some b
  | _ => none

def toText? : Data → Option String
  | text s => some s
  | _ => none

def toList? : Data → Option (List Data)
  | list items => some items
  | _ => none

/-- A whole number from zero to `2 ^ 32 - 1`. -/
def toCount? : Data → Option Nat
  | integer n => if 0 ≤ n ∧ n < UInt32.size then some n.toNat else none
  | _ => none

def entry? (d : Data) (name : String) : Option Data :=
  match d with
  | record entries => entries.lookup name
  | _ => none


/-- What `read` makes of the entry, or `default` if there is no such entry; nothing, if the entry
cannot be read. -/
def entryOr {α : Type} (d : Data) (name : String) (default : α) (read : Data → Option α) :
    Option α :=
  match d.entry? name with
  | none => some default
  | some value => read value

/-- Reads what may be missing: `null` is nothing. -/
def optional {α : Type} (read : Data → Option α) : Data → Option (Option α)
  | null => some none
  | d => (read d).map some

mutual

/-- Whether every numeral in the data denotes a number. -/
def isReadable : Data → Bool
  | noNumber => false
  | list items => areReadable items
  | record entries => areEntriesReadable entries
  | _ => true

def areReadable : List Data → Bool
  | [] => true
  | item :: items => item.isReadable && areReadable items

def areEntriesReadable : List (String × Data) → Bool
  | [] => true
  | (_, d) :: entries => d.isReadable && areEntriesReadable entries

end

end Data

/-! ### Formats -/

/-- What a format of data leaves open where data stands for something else. -/
structure DataFormat where
  /-- Whether a list in place of a record may go on after the last entry. -/
  allowsSurplus : Bool
  /-- The data that adds nothing to the name in front of it. -/
  isVoid : Data → Bool

namespace DataFormat

def toml : DataFormat where
  allowsSurplus := true
  isVoid
    | .list [] | .record [] => true
    | _ => false

def json : DataFormat where
  allowsSurplus := false
  isVoid
    | .null => true
    | _ => false

end DataFormat

namespace Data

/-- The data as a record whose entries have known names. Entries with other names do not matter, but
have to be readable. The entries may also be given as a list, by their places; those at the end may
be missing then, and surplus items are not read. -/
def asRecord? (format : DataFormat) (names : List String) : Data → Option Data
  | record entries =>
    if entries.all fun (name, d) => names.contains name || d.isReadable then some (record entries)
    else none
  | list items =>
    if format.allowsSurplus || items.length ≤ names.length then some (record (names.zip items))
    else none
  | _ => none

/-- The name that a choice among names is given by. It may also be the only name in a record, with
data that adds nothing to it. -/
def toChoice? (format : DataFormat) : Data → Option String
  | text name => some name
  | record [(name, d)] => if format.isVoid d then some name else none
  | _ => none

@[simp] theorem toChoice?_text (format : DataFormat) (name : String) :
    (text name).toChoice? format = some name := rfl

end Data

end SequentialChart
