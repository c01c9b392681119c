/-!
# Access to files

## Main definitions

* `FileFault`, `FileFault.message` — why a file cannot be read or written.
* `FileAccess` — reading and writing files by path.
-/

namespace SequentialChart

inductive FileFault where
  /-- There is no such file, or no folder to put it into. -/
  | missing
  /-- A part of the path that should be a folder is none. -/
  | notFolder
  | isFolder
  /-- The path, or a name on it, has too many bytes. -/
  | tooLong
  /-- The path holds a character that no name may hold. -/
  | holdsNul
  | notText
  | other (reason : String)
  deriving DecidableEq, Repr

namespace FileFault

def message : FileFault → String
  | missing => "No such file or directory (os error 2)"
  | notFolder => "Not a directory (os error 20)"
  | isFolder => "Is a directory (os error 21)"
  | tooLong => "File name too long (os error 36)"
  | holdsNul => "file name contained an unexpected NUL byte"
  | notText => "stream did not contain valid UTF-8"
  | other reason => reason

/-- Whether nothing lies at the path at all. -/
def isAbsence : FileFault → Bool
  | missing | notFolder | tooLong | holdsNul => true
  | _ => false

end FileFault

structure FileAccess (m : Type → Type) where
  read : String → m (Except FileFault String)
  /-- Gives a file a new text, and makes it if there is none. -/
  write : String → String → m (Except FileFault Unit)

end SequentialChart
