/-!
# Sets in insertion order

A finite set that remembers in which order its members came in.

## Main definitions

* `OrderedSet` — a list without repetitions.
* `OrderedSet.insert`, `OrderedSet.erase`, `OrderedSet.ofList`.

## Main statements

* `OrderedSet.toList_insert`, `OrderedSet.toList_erase` — what the operations do to the list of
  members.
* `OrderedSet.toList_insertAll`, `OrderedSet.toList_foldl_erase` — what many of them do to it.
-/

namespace SequentialChart

universe u

/-- A finite set whose members stand in the order in which they came in. -/
structure OrderedSet (α : Type u) where
  toList : List α
  nodup : toList.Nodup

namespace OrderedSet

variable {α : Type u}

def empty : OrderedSet α := ⟨[], List.nodup_nil⟩

instance : EmptyCollection (OrderedSet α) := ⟨empty⟩

instance : Inhabited (OrderedSet α) := ⟨empty⟩

instance : Membership α (OrderedSet α) := ⟨fun s a => a ∈ s.toList⟩

@[simp] theorem toList_empty : (∅ : OrderedSet α).toList = [] := rfl

theorem mem_toList {s : OrderedSet α} {a : α} : a ∈ s.toList ↔ a ∈ s := Iff.rfl

@[ext] theorem ext {s t : OrderedSet α} (h : s.toList = t.toList) : s = t := by
  cases s; cases t; cases h; rfl

variable [DecidableEq α]

instance (s : OrderedSet α) (a : α) : Decidable (a ∈ s) :=
  inferInstanceAs (Decidable (a ∈ s.toList))

instance : DecidableEq (OrderedSet α) := fun s t =>
  decidable_of_iff (s.toList = t.toList) ⟨ext, fun h => h ▸ rfl⟩

/-- The set with the member `a`, which comes last if it is new. -/
def insert (s : OrderedSet α) (a : α) : OrderedSet α :=
  if h : a ∈ s.toList then s
  else ⟨s.toList ++ [a], List.nodup_append.2 ⟨s.nodup, by simp, fun b hb c hc e => by
    rw [List.mem_singleton.1 hc] at e
    exact h (e ▸ hb)⟩⟩

def erase (s : OrderedSet α) (a : α) : OrderedSet α :=
  ⟨s.toList.filter (· ≠ a), s.nodup.sublist List.filter_sublist⟩

def insertAll (s : OrderedSet α) (l : List α) : OrderedSet α := l.foldl insert s

def ofList (l : List α) : OrderedSet α := insertAll ∅ l

theorem toList_insert (s : OrderedSet α) (a : α) :
    (s.insert a).toList = if a ∈ s then s.toList else s.toList ++ [a] := by
  unfold insert
  split <;> simp_all [← mem_toList]

@[simp] theorem toList_erase (s : OrderedSet α) (a : α) :
    (s.erase a).toList = s.toList.filter (· ≠ a) := rfl

@[simp] theorem mem_insert {s : OrderedSet α} {a b : α} : b ∈ s.insert a ↔ b ∈ s ∨ b = a := by
  rw [← mem_toList, toList_insert]
  split
  · next h => exact ⟨Or.inl, fun h' => h'.elim id fun e => e ▸ h⟩
  · simp [mem_toList]

@[simp] theorem mem_erase {s : OrderedSet α} {a b : α} : b ∈ s.erase a ↔ b ∈ s ∧ b ≠ a := by
  simp [← mem_toList]

/-- New members come after the old ones, each in the place where it comes in first. -/
theorem toList_insertAll (s : OrderedSet α) (l : List α) :
    (s.insertAll l).toList = s.toList ++ (l.filter (· ∉ s)).eraseDups := by
  induction l generalizing s with
  | nil => simp [insertAll]
  | cons a l ih =>
    have hcons : s.insertAll (a :: l) = (s.insert a).insertAll l := rfl
    rw [hcons, ih, toList_insert]
    by_cases ha : a ∈ s
    · have hmem : ∀ b, b ∈ s.insert a ↔ b ∈ s := by grind [mem_insert]
      simp [ha, hmem]
    · have hnew : l.filter (· ∉ s.insert a) = (l.filter (· ∉ s)).filter (!· == a) := by
        rw [List.filter_filter]
        refine List.filter_congr fun b _ => ?_
        grind [mem_insert]
      rw [List.filter_cons_of_pos (by simpa using ha), List.eraseDups_cons, hnew, if_neg ha]
      simp

theorem toList_foldl_erase (s : OrderedSet α) (l : List α) :
    (l.foldl erase s).toList = s.toList.filter (· ∉ l) := by
  induction l generalizing s with
  | nil => exact (List.filter_eq_self.2 (by simp)).symm
  | cons a l ih =>
    rw [List.foldl_cons, ih, toList_erase, List.filter_filter]
    refine List.filter_congr fun b _ => ?_
    grind

end OrderedSet

end SequentialChart
