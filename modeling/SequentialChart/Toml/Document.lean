import SequentialChart.Toml.Scalar
import SequentialChart.Toml.Table

/-!
# Data files

The text of a data file: assignments and headings, one a line, with comments from `#` to the end of
the line. A value is a text, a word, a list in brackets or a table in braces.

## Main definitions

* `Toml.readPath?` — the keys of an assignment or a heading.
* `Toml.readValue?` — a value.
* `Toml.Statement`, `Toml.readStatement?` — an assignment or a heading.
* `Data.ofToml?` — the data that a file holds.
-/

namespace SequentialChart

namespace Toml

/-! ### Blanks and comments -/

def skipSpaces (s : List Char) : List Char := s.dropWhile isSpace

/-- What follows blanks, line breaks and comments. The flag says that the text begins within a
comment. -/
def skipLines? (inComment : Bool) : List Char → Option (List Char)
  | [] => some []
  | c :: s =>
    if c = '\n' then skipLines? false s
    else if inComment then if isTextChar c || isSpace c then skipLines? true s else none
    else if isSpace c then skipLines? false s
    else if c = '#' then skipLines? true s
    else some (c :: s)

def endsLine (s : List Char) : Bool :=
  match skipSpaces s with
  | [] => true
  | c :: _ => c = '\n' || c = '#'

/-- Whether every carriage return stands before a line feed. -/
def hasWholeBreaks : List Char → Bool
  | [] => true
  | '\r' :: s => s.head? = some '\n' && hasWholeBreaks s
  | _ :: s => hasWholeBreaks s

/-! ### Keys -/

def isKeyChar (c : Char) : Bool := c.isAlphanum || c = '_' || c = '-'

def readKey? : List Char → Option (String × List Char)
  | [] => none
  | c :: s =>
    if c = '"' ∨ c = '\'' then (readLine? c s).map fun (key, rest) => (String.ofList key, rest)
    else
      match (c :: s).takeWhile isKeyChar with
      | [] => none
      | key => some (String.ofList key, (c :: s).dropWhile isKeyChar)

/-- At most `bound` keys, with blanks around them and points between them. -/
def readKeys? : Nat → List Char → Option (Path × List Char)
  | 0, _ => none
  | bound + 1, s => do
    let (key, rest) ← readKey? (skipSpaces s)
    match skipSpaces rest with
    | '.' :: rest =>
      let (path, rest) ← readKeys? bound rest
      some ({ path with parents := key :: path.parents }, rest)
    | rest => some (⟨[], key⟩, rest)

/-- A path and what follows it. A path has eighty keys at most. -/
def readPath? (s : List Char) : Option (Path × List Char) := readKeys? 80 s

/-! ### Values -/

def endsWord (c : Char) : Bool :=
  isSpace c || c ∈ ['\n', ',', '=', '[', ']', '\x7b', '\x7d', '#']

/-- A word and what follows it. A date may be continued after a blank by a time. -/
def cutWord (s : List Char) : List Char × List Char :=
  let word := s.takeWhile (!endsWord ·)
  let rest := s.dropWhile (!endsWord ·)
  match rest with
  | ' ' :: c :: t =>
    if c.isDigit ∧ dropDate? word = some [] then
      (word ++ ' ' :: (c :: t).takeWhile (!endsWord ·), (c :: t).dropWhile (!endsWord ·))
    else (word, rest)
  | _ => (word, rest)

def readAtom? : List Char → Option (Data × List Char)
  | '"' :: '"' :: '"' :: s =>
    (readBlock? '"' s).map fun (text, rest) => (.text (String.ofList text), rest)
  | '\'' :: '\'' :: '\'' :: s =>
    (readBlock? '\'' s).map fun (text, rest) => (.text (String.ofList text), rest)
  | '"' :: s => (readLine? '"' s).map fun (text, rest) => (.text (String.ofList text), rest)
  | '\'' :: s => (readLine? '\'' s).map fun (text, rest) => (.text (String.ofList text), rest)
  | s =>
    let (word, rest) := cutWord s
    (readWord? word).map (·, rest)

/-- An assignment and what follows it; `skip` drops what may stand around the equals sign. -/
def readAssignment? (skip : List Char → Option (List Char))
    (readValue : List Char → Option (Data × List Char)) (s : List Char) :
    Option (Assignment × List Char) := do
  let (path, rest) ← readPath? s
  let (value, rest) ← readValue (← skip (← dropChar? '=' (← skip rest)))
  some (⟨path, value⟩, rest)

/-- Fewer than `bound` items with commas between them, up to the closing character. A comma may
follow the last one, and lines may end anywhere between. -/
def readItems? {α : Type} (readItem : List Char → Option (α × List Char)) (close : Char) :
    Nat → List Char → Option (List α × List Char)
  | 0, _ => none
  | bound + 1, s => do
    let s ← skipLines? false s
    if s.head? = some close then some ([], s.tail)
    else
      let (item, rest) ← readItem s
      match ← skipLines? false rest with
      | [] => none
      | c :: rest =>
        if c = close then some ([item], rest)
        else if c = ',' then
          (readItems? readItem close bound rest).map fun (items, rest) => (item :: items, rest)
        else none

/-- A value of at most `depth` nested lists and tables, and what follows it. In a table lines may
also end around an equals sign. -/
def readNested? : Nat → List Char → Option (Data × List Char)
  | 0, s => readAtom? s
  | depth + 1, s =>
    match s with
    | '[' :: s =>
      (readItems? (readNested? depth) ']' (s.length + 1) s).map fun (items, rest) =>
        (.list items, rest)
    | '\x7b' :: s => do
      let (entries, rest) ←
        readItems? (readAssignment? (skipLines? false) (readNested? depth)) '\x7d' (s.length + 1) s
      let t ← Table.assignAll [] entries
      some (t.toData, rest)
    | s => readAtom? s

/-- A value and what follows it. Lists and tables are nested eighty deep at most. -/
def readValue? (s : List Char) : Option (Data × List Char) := readNested? 80 s

/-! ### Statements -/

inductive Statement where
  | assignment (a : Assignment)
  | heading (h : Heading)

def readHeading? (s : List Char) : Option (Heading × List Char) :=
  match s with
  | '[' :: '[' :: s => do
    let (path, rest) ← readPath? s
    let rest ← dropChar? ']' (← dropChar? ']' rest)
    some (⟨path, true⟩, rest)
  | '[' :: s => do
    let (path, rest) ← readPath? s
    let rest ← dropChar? ']' rest
    some (⟨path, false⟩, rest)
  | _ => none

def readStatement? (s : List Char) : Option (Statement × List Char) := do
  let (statement, rest) ←
    if s.head? = some '[' then (readHeading? s).map fun (h, rest) => (Statement.heading h, rest)
    else
      (readAssignment? (some ∘ skipSpaces) readValue? s).map fun (a, rest) =>
        (Statement.assignment a, rest)
  if endsLine rest then some (statement, rest) else none

def readStatements? : Nat → List Char → Option (List Statement)
  | 0, _ => none
  | bound + 1, s => do
    match ← skipLines? false s with
    | [] => some []
    | s =>
      let (statement, rest) ← readStatement? s
      (readStatements? bound rest).map (statement :: ·)

/-- The assignments before the first heading, and the sections. -/
def divide : List Statement → List Assignment × List Section
  | [] => ([], [])
  | .assignment a :: rest =>
    let (assignments, sections) := divide rest
    (a :: assignments, sections)
  | .heading h :: rest =>
    let (assignments, sections) := divide rest
    ([], ⟨h, assignments⟩ :: sections)

/-- The text without the mark of the byte order in front. -/
def dropMark : List Char → List Char
  | '\ufeff' :: s => s
  | s => s

def readTable? (s : List Char) : Option Table := do
  let s := dropMark s
  if hasWholeBreaks s then
    let (assignments, sections) := divide (← readStatements? (s.length + 1) s)
    Table.ofSections? assignments sections
  else none

end Toml

/-- The data that a file holds, as a record with sorted keys. -/
def Data.ofToml? (s : List Char) : Option Data := (Toml.readTable? s).map Toml.Table.toData

end SequentialChart
