import SequentialChart.Files.Basic

/-!
# Folders in memory

A folder that is held as a value, together with the folders around it. The parts of a path stand
between slashes; a `.` stays in a folder and a `..` leaves it. A path that begins with a slash
starts at the top, every other path in the folder itself.

## Main definitions

* `Folder.locate` — the place that a path leads to.
* `Folder.read`, `Folder.write`.
* `Folder.access` — a folder as the state of a computation.

## Main statements

* `Folder.read_of_write` — what was written is read back.
-/

namespace SequentialChart

/-- A folder and all files. A place is given by the names of the folders that lead there from the
top, and its own name. -/
structure Folder where
  home : List String := []
  files : List (List String × ByteArray) := []

namespace Folder

def file? (f : Folder) (place : List String) : Option ByteArray := f.files.lookup place

/-- The folder itself, every folder that some file lies in, and the folders around these. -/
def isFolder (f : Folder) (place : List String) : Bool :=
  place.isPrefixOf f.home ||
    f.files.any fun (other, _) => place.isPrefixOf other && place ≠ other

/-- The place that the parts of a path lead to from a place on. All but the last have to be folders,
and a name has 255 bytes at most. -/
def locate (f : Folder) : List String → List String → Except FileFault (List String)
  | place, [] => .ok place
  | place, name :: names =>
    if !f.isFolder place then .error (if (f.file? place).isSome then .notFolder else .missing)
    else if name = "" ∨ name = "." then f.locate place names
    else if name = ".." then f.locate place.dropLast names
    else if 255 < name.utf8ByteSize then .error .tooLong
    else f.locate (place ++ [name]) names

/-- The place where a path starts, and its parts. A path has fewer than 4096 bytes. -/
def route (f : Folder) (path : String) : Except FileFault (List String × List String) :=
  if path.contains '\x00' then .error .holdsNul
  else if path = "" then .error .missing
  else if 4096 ≤ path.utf8ByteSize then .error .tooLong
  else .ok (if path.startsWith "/" then [] else f.home, path.splitOn "/")

def place (f : Folder) (path : String) : Except FileFault (List String) :=
  (f.route path).bind fun (start, parts) => f.locate start parts

def readAt (f : Folder) (place : List String) : Except FileFault String :=
  match f.file? place with
  | some bytes =>
    match String.fromUTF8? bytes with
    | some text => .ok text
    | none => .error .notText
  | none => .error (if f.isFolder place then .isFolder else .missing)

def read (f : Folder) (path : String) : Except FileFault String := (f.place path).bind f.readAt

def put (f : Folder) (place : List String) (text : String) : Folder where
  home := f.home
  files := (place, text.toUTF8) :: f.files.filter (·.1 ≠ place)

/-- The parts that lead to the folder in which the last name on a path with a slash at its end would
lie. -/
def around (parts : List String) : List String :=
  let names := match parts.reverse.dropWhile (· = "") with
    | name :: before => if name = "." ∨ name = ".." then name :: before else before
    | [] => []
  names.reverse ++ [""]

/-- Why nothing can be written to a path that ends with a slash: it leads to a folder, whether there
is one or not, unless it leads nowhere. -/
def slashFault (f : Folder) (path : String) : FileFault :=
  match (f.route path).bind fun (start, parts) => f.locate start (around parts) with
  | .error fault => fault
  | .ok _ => .isFolder

def write (f : Folder) (path text : String) : Except FileFault Folder :=
  if path.endsWith "/" then .error (f.slashFault path)
  else (f.place path).bind fun place =>
    if f.isFolder place then .error .isFolder else .ok (f.put place text)

/-! ### Reading after writing -/

@[simp] theorem file?_put (f : Folder) (place : List String) (text : String) :
    (f.put place text).file? place = some text.toUTF8 := by
  simp [file?, put]

theorem isFolder_put {f : Folder} {place other : List String} {text : String}
    (h : f.isFolder other = true) : (f.put place text).isFolder other = true := by
  simp only [isFolder, Bool.or_eq_true, List.any_eq_true] at h ⊢
  refine h.imp_right fun ⟨e, he, hp⟩ => ?_
  by_cases hplace : e.1 = place
  · exact ⟨(place, text.toUTF8), List.mem_cons_self, hplace ▸ hp⟩
  · exact ⟨e, List.mem_cons_of_mem _ (List.mem_filter.2 ⟨he, by simpa using hplace⟩), hp⟩

theorem locate_put {f : Folder} {place start found names : List String} {text : String}
    (h : f.locate start names = .ok found) : (f.put place text).locate start names = .ok found := by
  induction names generalizing start with
  | nil => simpa [locate] using h
  | cons name names ih =>
    cases hf : f.isFolder start with
    | false => simp [locate, hf] at h
    | true =>
      simp only [locate, hf, isFolder_put hf, Bool.not_true, Bool.false_eq_true, if_false] at h ⊢
      split
      · next hn => rw [if_pos hn] at h; exact ih h
      · next hn =>
        rw [if_neg hn] at h
        split
        · next hu => rw [if_pos hu] at h; exact ih h
        · next hu =>
          rw [if_neg hu] at h
          split
          · next hl => rw [if_pos hl] at h; cases h
          · next hl => rw [if_neg hl] at h; exact ih h

theorem place_put {f : Folder} {path text : String} {place found : List String}
    (h : f.place path = .ok found) : (f.put place text).place path = .ok found := by
  have hr : (f.put place text).route path = f.route path := rfl
  unfold Folder.place at h ⊢
  rw [hr]
  cases hp : f.route path with
  | error fault => rw [hp] at h; cases h
  | ok r => rw [hp] at h; exact locate_put h

theorem readAt_put (f : Folder) (place : List String) (text : String) :
    (f.put place text).readAt place = .ok text := by
  have hd : String.fromUTF8? text.toUTF8 = some text := dif_pos text.isValidUTF8
  simp only [readAt, file?_put, hd]

/-- What was written is read back. -/
theorem read_of_write {f g : Folder} {path text : String} (h : f.write path text = .ok g) :
    g.read path = .ok text := by
  unfold write at h
  split at h
  · cases h
  cases hp : f.place path with
  | error fault => rw [hp] at h; cases h
  | ok place =>
    simp only [hp, Except.bind] at h
    split at h
    · cases h
    · cases h
      simp only [read, place_put hp, Except.bind, readAt_put]

def access : FileAccess (StateM Folder) where
  read path := do return (← get).read path
  write path text := do
    match (← get).write path text with
    | .ok f => set f; return .ok ()
    | .error fault => return .error fault

end Folder

end SequentialChart
