import SequentialChart.Data.Basic

/-!
# Growing tables

A data file is a list of assignments under headings. They fill tables, and tables within tables, in
any order, but each key is set once, and each table is opened in one way only: by a heading of its
own, or by dotted keys. A heading in double brackets adds a new table to a list of tables.

## Main definitions

* `Toml.Node` — what a key stands for while the tables grow.
* `Toml.Path` — where a value or a table belongs.
* `Toml.Table.within` — a change of a table deep inside.
* `Toml.Table.assign`, `Toml.Table.fill` — the effect of an assignment and of a heading.
* `Toml.Table.toData` — the finished table, its entries sorted by key.
-/

namespace SequentialChart.Toml

inductive Origin where
  | heading
  /-- By a heading of a table inside of it. -/
  | passed
  /-- By a dotted key. -/
  | dotted
  deriving DecidableEq, Repr

inductive Node where
  | value (data : Data)
  | table (origin : Origin) (entries : List (String × Node))
  /-- A list of tables. Only the last one can still grow. -/
  | tables (earlier : List Data) (last : List (String × Node))

/-- The entries of a growing table, with distinct keys. -/
abbrev Table := List (String × Node)

structure Path where
  parents : List String
  name : String
  deriving DecidableEq, Repr

structure Assignment where
  path : Path
  value : Data

structure Heading where
  path : Path
  /-- Whether the table is a new one of a list of tables. -/
  listed : Bool

structure Section where
  heading : Heading
  assignments : List Assignment

namespace Table

/-- Changes what the key stands for. The change is given nothing if the key is new, and may
refuse. -/
def alter (name : String) (change : Option Node → Option Node) : Table → Option Table
  | [] => (change none).map fun node => [(name, node)]
  | (name', node) :: rest =>
    if name' = name then (change (some node)).map fun node => (name', node) :: rest
    else (alter name change rest).map ((name', node) :: ·)

def add (name : String) (node : Node) : Table → Option Table :=
  alter name fun
    | none => some node
    | some _ => none

/-- Changes a table deep inside; tables that do not exist yet come into being on the way, by dotted
keys or else in passing. Values cannot be entered. Dotted keys do not enter tables with a heading of
their own, except the last of a list. The change is told how its table came into being. -/
def within (dotted : Bool) (change : Origin → Table → Option Table) :
    List String → Origin → Table → Option Table
  | [], origin, t => change origin t
  | name :: path, _, t =>
    alter name (fun
      | none =>
        let origin := if dotted then .dotted else .passed
        (within dotted change path origin []).map (.table origin)
      | some (.table origin entries) =>
        if dotted ∧ origin = .heading then none
        else (within dotted change path origin entries).map (.table origin)
      | some (.tables earlier last) =>
        (within dotted change path .heading last).map (.tables earlier)
      | some (.value _) => none) t

/-- Sets a value. A dotted key only adds to tables that dotted keys opened. -/
def assign (t : Table) (a : Assignment) : Option Table :=
  within true
    (fun origin t =>
      if a.path.parents ≠ [] ∧ origin ≠ .dotted then none else add a.path.name (.value a.value) t)
    a.path.parents .heading t

def assignAll (t : Table) (assignments : List Assignment) : Option Table :=
  assignments.foldlM assign t

def sortEntries (entries : List (String × Data)) : List (String × Data) :=
  entries.mergeSort fun a b => decide (a.1 ≤ b.1)

mutual

def nodeData : Node → Data
  | .value data => data
  | .table _ entries => .record (sortEntries (entriesData entries))
  | .tables earlier last => .list (earlier ++ [.record (sortEntries (entriesData last))])

def entriesData : List (String × Node) → List (String × Data)
  | [] => []
  | (name, node) :: rest => (name, nodeData node) :: entriesData rest

end

/-- The finished table, its entries sorted by key. -/
def toData (t : Table) : Data := nodeData (.table .heading t)

/-- What the key of a heading stands for below it. A table that was only passed so far is opened; a
list of tables gets one more. -/
def openNode (s : Section) : Option Node → Option Node
  | none =>
    (assignAll [] s.assignments).map (if s.heading.listed then .tables [] else .table .heading)
  | some (.table .passed entries) =>
    if s.heading.listed then none else (assignAll entries s.assignments).map (.table .heading)
  | some (.tables earlier last) =>
    if s.heading.listed then (assignAll [] s.assignments).map (.tables (earlier ++ [toData last]))
    else none
  | some _ => none

def fill (t : Table) (s : Section) : Option Table :=
  within false (fun _ => alter s.heading.path.name (openNode s)) s.heading.path.parents .heading t

def ofSections? (assignments : List Assignment) (sections : List Section) : Option Table := do
  sections.foldlM fill (← assignAll [] assignments)

end Table

end SequentialChart.Toml
