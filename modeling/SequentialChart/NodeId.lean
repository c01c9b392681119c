/-!
# Identifiers of nodes

Every node of a diagram has an identifier: a step and a transition by their numbers, a gate by its
place among the gates. In texts these are `S0`, `T3` and `G1`. A text that names no node of this
kind is an identifier too, which no node bears.

## Main definitions

* `NodeId`, `NodeId.text`, `NodeId.ofText`.
-/

namespace SequentialChart

/-- The identifier of a node, or a text that is none. -/
inductive NodeId where
  | step (number : Nat)
  | transition (number : Nat)
  | gate (index : Nat)
  | other (text : String)
  deriving DecidableEq, Repr

namespace NodeId

def text : NodeId → String
  | step n => "S" ++ Nat.repr n
  | transition n => "T" ++ Nat.repr n
  | gate i => "G" ++ Nat.repr i
  | other s => s

/-- The number that is written so. Leading zeros do not occur in a number. -/
def readNumber? (s : List Char) : Option Nat :=
  match (String.ofList s).toNat? with
  | some n => if (Nat.repr n).toList = s then some n else none
  | none => none

def ofText (s : String) : NodeId :=
  match s.toList with
  | 'S' :: digits => ((readNumber? digits).map step).getD (other s)
  | 'T' :: digits => ((readNumber? digits).map transition).getD (other s)
  | 'G' :: digits => ((readNumber? digits).map gate).getD (other s)
  | _ => other s

theorem repr_of_readNumber? {s : List Char} {n : Nat} (h : readNumber? s = some n) :
    (Nat.repr n).toList = s := by
  unfold readNumber? at h
  split at h
  · split at h
    · next h' => cases h; exact h'
    · cases h
  · cases h

/-- Reading a text as an identifier loses nothing. -/
@[simp] theorem text_ofText (s : String) : (ofText s).text = s := by
  have key : ∀ (c : String) (f : Nat → NodeId) (digits : List Char),
      (∀ n, (f n).text = c ++ Nat.repr n) → s.toList = c.toList ++ digits →
      (((readNumber? digits).map f).getD (other s)).text = s := by
    intro c f digits hf hs
    cases h : readNumber? digits with
    | none => rfl
    | some n =>
      simp only [Option.map_some, Option.getD_some, hf]
      apply String.toList_inj.1
      rw [String.toList_append, repr_of_readNumber? h, hs]
  unfold ofText
  split
  · next digits h => exact key "S" step digits (fun _ => rfl) h
  · next digits h => exact key "T" transition digits (fun _ => rfl) h
  · next digits h => exact key "G" gate digits (fun _ => rfl) h
  · rfl

end NodeId

end SequentialChart
