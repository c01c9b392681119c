/-!
# Quoted texts

A text in a data file stands between quotes. Between double quotes a backslash starts an escape;
between single quotes every character stands for itself. Three quotes in place of one let the text
run over several lines.

## Main definitions

* `Toml.Stage` — where the reading of escapes stands; `Stage.step` takes one character.
* `Toml.unescape` — the text that the characters between double quotes denote.
* `Toml.readLine?` — a text on one line, after its opening quote.
* `Toml.readBlock?` — a text over several lines, after its opening quotes.
-/

namespace SequentialChart.Toml

/-- The characters of texts and comments: no control characters but the tabulator. -/
def isTextChar (c : Char) : Bool := c = '\t' || (0x20 ≤ c.toNat && c.toNat ≠ 0x7F)

/-- The blanks within a line. A carriage return is one of them, since it only stands before a line
feed. -/
def isSpace (c : Char) : Bool := c = ' ' || c = '\t' || c = '\r'

def hexDigit? (c : Char) : Option Nat :=
  if c.isDigit then some (c.toNat - '0'.toNat)
  else if 'a' ≤ c ∧ c ≤ 'f' then some (10 + (c.toNat - 'a'.toNat))
  else if 'A' ≤ c ∧ c ≤ 'F' then some (10 + (c.toNat - 'A'.toNat))
  else none

/-! ### Escapes -/

inductive Stage where
  | plain
  | escape
  /-- Within a character code, of which `left` digits are missing after the next one. -/
  | code (left value : Nat)
  /-- Within the gap that a backslash at the end of a line leaves; `broken` after the first line
  break. -/
  | gap (broken : Bool)
  deriving DecidableEq, Repr

def shortEscape? : Char → Option Char
  | 'b' => some '\x08'
  | 't' => some '\t'
  | 'n' => some '\n'
  | 'f' => some '\x0c'
  | 'r' => some '\r'
  | 'e' => some '\x1b'
  | '"' => some '"'
  | '\\' => some '\\'
  | _ => none

/-- How many digits the character code has that the letter introduces. -/
def codeLength? : Char → Option Nat
  | 'x' => some 2
  | 'u' => some 4
  | 'U' => some 8
  | _ => none

def plainStep (c : Char) : Stage × List Char := if c = '\\' then (.escape, []) else (.plain, [c])

/-- The stage after one more character, and what it adds to the text. Only a text over several
lines, a `block`, has gaps. -/
def Stage.step (block : Bool) (stage : Stage) (c : Char) : Option (Stage × List Char) :=
  match stage with
  | .plain => some (plainStep c)
  | .escape =>
    match shortEscape? c, codeLength? c with
    | some d, _ => some (.plain, [d])
    | none, some n => some (.code (n - 1) 0, [])
    | none, none => if block && (isSpace c || c = '\n') then some (.gap (c = '\n'), []) else none
  | .code left value =>
    (hexDigit? c).bind fun d =>
      match left with
      | left + 1 => some (.code left (16 * value + d), [])
      | 0 =>
        if (16 * value + d).isValidChar then some (.plain, [Char.ofNat (16 * value + d)]) else none
  | .gap broken =>
    if isSpace c then some (.gap broken, [])
    else if c = '\n' then some (.gap true, [])
    else if broken then some (plainStep c)
    else none

def unescapeFrom (block : Bool) : Stage → List Char → Option (List Char)
  | stage, [] => if stage = .plain ∨ stage = .gap true then some [] else none
  | stage, c :: s =>
    (stage.step block c).bind fun (next, out) => (unescapeFrom block next s).map (out ++ ·)

def unescape (block : Bool) (s : List Char) : Option (List Char) := unescapeFrom block .plain s

/-! ### Finding the end -/

/-- The characters up to the closing quote, and what follows it. Between double quotes a quote after
a backslash closes nothing. -/
def cutLine (quote : Char) : List Char → Option (List Char × List Char)
  | [] => none
  | [c] => if c = quote then some ([], []) else none
  | c :: d :: s =>
    if c = quote then some ([], d :: s)
    else if c = '\\' ∧ quote = '"' then
      (cutLine quote s).map fun (body, rest) => (c :: d :: body, rest)
    else (cutLine quote (d :: s)).map fun (body, rest) => (c :: body, rest)

/-- The characters up to the three closing quotes, and what follows them. Up to two more quotes may
stand before the closing ones and belong to the text. -/
def cutBlock (quote : Char) : List Char → Option (List Char × List Char)
  | c :: d :: e :: s =>
    if c = quote ∧ d = quote ∧ e = quote then
      let extra := (s.take 2).takeWhile (· = quote)
      some (extra, s.drop extra.length)
    else if c = '\\' ∧ quote = '"' then
      (cutBlock quote (e :: s)).map fun (body, rest) => (c :: d :: body, rest)
    else (cutBlock quote (d :: e :: s)).map fun (body, rest) => (c :: body, rest)
  | _ => none

def dropFirstBreak : List Char → List Char
  | '\n' :: s => s
  | '\r' :: '\n' :: s => s
  | s => s

def isBlockChar (c : Char) : Bool := isTextChar c || c = '\n' || c = '\r'

def decode (quote : Char) (block : Bool) (body : List Char) : Option (List Char) :=
  if quote = '"' then unescape block body else some body

def readLine? (quote : Char) (s : List Char) : Option (List Char × List Char) := do
  let (body, rest) ← cutLine quote s
  if body.all isTextChar then (decode quote false body).map (·, rest) else none

def readBlock? (quote : Char) (s : List Char) : Option (List Char × List Char) := do
  let (body, rest) ← cutBlock quote (dropFirstBreak s)
  if body.all isBlockChar then (decode quote true body).map (·, rest) else none

end SequentialChart.Toml
