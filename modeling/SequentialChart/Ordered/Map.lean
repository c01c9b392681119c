/-!
# Maps in insertion order

A finite map that remembers in which order its keys were first inserted. Giving a key a new value
leaves it in its place; a key that is erased and inserted again comes last.

## Main definitions

* `OrderedMap` — a list of entries with distinct keys.
* `OrderedMap.get?`, `OrderedMap.insert`, `OrderedMap.erase`, `OrderedMap.overlay`,
  `OrderedMap.ofList`.

## Main statements

* `OrderedMap.keys_insert`, `OrderedMap.keys_erase` — what the operations do to the keys.
* `OrderedMap.get?_insert`, `OrderedMap.get?_erase` — what they do to the values.
* `OrderedMap.mem_entries_iff` — entries are values of keys.
-/

namespace SequentialChart

universe u v

/-- A finite map whose entries stand in the order of first insertion. -/
structure OrderedMap (κ : Type u) (ν : Type v) where
  entries : List (κ × ν)
  nodup : (entries.map Prod.fst).Nodup

namespace OrderedMap

variable {κ : Type u} {ν : Type v}

def keys (m : OrderedMap κ ν) : List κ := m.entries.map Prod.fst

def empty : OrderedMap κ ν := ⟨[], .nil⟩

instance : EmptyCollection (OrderedMap κ ν) := ⟨empty⟩

instance : Inhabited (OrderedMap κ ν) := ⟨empty⟩

@[simp] theorem keys_empty : (∅ : OrderedMap κ ν).keys = [] := rfl

@[ext] theorem ext {m n : OrderedMap κ ν} (h : m.entries = n.entries) : m = n := by
  cases m; cases n; cases h; rfl

variable [DecidableEq κ]

/-! ### Entries as a list -/

def find (k : κ) : List (κ × ν) → Option ν
  | [] => none
  | (k', v) :: rest => if k' = k then some v else find k rest

/-- The list with the value of `k` replaced, or with a new last entry if `k` is no key of it. -/
def put (k : κ) (v : ν) : List (κ × ν) → List (κ × ν)
  | [] => [(k, v)]
  | (k', v') :: rest => if k' = k then (k', v) :: rest else (k', v') :: put k v rest

theorem map_fst_put (k : κ) (v : ν) (l : List (κ × ν)) :
    (put k v l).map Prod.fst =
      if k ∈ l.map Prod.fst then l.map Prod.fst else l.map Prod.fst ++ [k] := by
  induction l with
  | nil => simp [put]
  | cons e rest ih =>
    obtain ⟨k', v'⟩ := e
    by_cases h : k' = k
    · simp [put, h]
    · have h' : ¬ k = k' := fun e => h e.symm
      simp only [put, h, if_false, List.map_cons, ih, List.mem_cons, h', false_or]
      split <;> simp

theorem nodup_put (k : κ) (v : ν) {l : List (κ × ν)} (h : (l.map Prod.fst).Nodup) :
    ((put k v l).map Prod.fst).Nodup := by
  rw [map_fst_put]
  split
  · exact h
  · rename_i hk
    refine List.nodup_append.2 ⟨h, by simp, ?_⟩
    intro a ha b hb
    rw [List.mem_singleton.1 hb]
    exact fun e => hk (e ▸ ha)

theorem find_put (k k' : κ) (v : ν) (l : List (κ × ν)) :
    find k' (put k v l) = if k = k' then some v else find k' l := by
  induction l with
  | nil => simp [put, find]
  | cons e rest ih =>
    obtain ⟨a, w⟩ := e
    simp only [put]
    split
    · next h => subst h; simp only [find]; split <;> rfl
    · next h =>
      simp only [find, ih]
      by_cases h1 : k = k'
      · subst h1; simp [h]
      · simp [h1]

theorem find_eq_none_iff (k : κ) (l : List (κ × ν)) : find k l = none ↔ k ∉ l.map Prod.fst := by
  induction l with
  | nil => simp [find]
  | cons e rest ih =>
    obtain ⟨a, w⟩ := e
    by_cases h : a = k
    · simp [find, h]
    · have h' : ¬ k = a := fun e => h e.symm
      simp only [find, h, if_false, ih, List.map_cons, List.mem_cons, h', false_or]

/-! ### Operations -/

def get? (m : OrderedMap κ ν) (k : κ) : Option ν := find k m.entries

/-- The map in which `k` has the value `v`; a new key comes last. -/
def insert (m : OrderedMap κ ν) (k : κ) (v : ν) : OrderedMap κ ν :=
  ⟨put k v m.entries, nodup_put k v m.nodup⟩

def erase (m : OrderedMap κ ν) (k : κ) : OrderedMap κ ν :=
  ⟨m.entries.filter (fun e => e.1 ≠ k), m.nodup.sublist (List.filter_sublist.map Prod.fst)⟩

def overlay (m : OrderedMap κ ν) (l : List (κ × ν)) : OrderedMap κ ν :=
  l.foldl (fun m e => m.insert e.1 e.2) m

/-- The map with the entries of the list; of two entries with one key the first gives the place and
the second the value. -/
def ofList (l : List (κ × ν)) : OrderedMap κ ν := overlay ∅ l

def contains (m : OrderedMap κ ν) (k : κ) : Bool := m.keys.contains k

@[simp] theorem keys_insert (m : OrderedMap κ ν) (k : κ) (v : ν) :
    (m.insert k v).keys = if k ∈ m.keys then m.keys else m.keys ++ [k] :=
  map_fst_put k v m.entries

@[simp] theorem keys_erase (m : OrderedMap κ ν) (k : κ) :
    (m.erase k).keys = m.keys.filter (· ≠ k) := by
  simp [keys, erase, List.filter_map, Function.comp_def]

@[simp] theorem get?_empty (k : κ) : (∅ : OrderedMap κ ν).get? k = none := rfl

theorem get?_insert (m : OrderedMap κ ν) (k k' : κ) (v : ν) :
    (m.insert k v).get? k' = if k = k' then some v else m.get? k' :=
  find_put k k' v m.entries

@[simp] theorem get?_insert_self (m : OrderedMap κ ν) (k : κ) (v : ν) :
    (m.insert k v).get? k = some v := by simp [get?_insert]

theorem get?_eq_none_iff (m : OrderedMap κ ν) (k : κ) : m.get? k = none ↔ k ∉ m.keys :=
  find_eq_none_iff k m.entries

theorem get?_erase (m : OrderedMap κ ν) (k k' : κ) :
    (m.erase k).get? k' = if k = k' then none else m.get? k' := by
  simp only [get?, erase]
  induction m.entries with
  | nil => simp [find]
  | cons e rest ih =>
    obtain ⟨a, w⟩ := e
    by_cases h : a = k
    · subst h
      simp only [List.filter_cons, find]
      simp only [ne_eq, not_true, decide_false, Bool.false_eq_true, if_false, ih]
      split <;> simp_all
    · simp only [List.filter_cons, find]
      simp only [ne_eq, h, not_false_iff, decide_true, if_true, find, ih]
      by_cases h1 : a = k'
      · subst h1
        have h2 : ¬ k = a := fun e => h e.symm
        simp [h2]
      · simp [h1]

theorem mem_keys_iff (m : OrderedMap κ ν) (k : κ) : k ∈ m.keys ↔ ∃ v, m.get? k = some v := by
  rw [← Option.ne_none_iff_exists', ne_eq, get?_eq_none_iff, Classical.not_not]

theorem mem_of_find_eq_some {k : κ} {v : ν} {l : List (κ × ν)} (h : find k l = some v) :
    (k, v) ∈ l := by
  induction l with
  | nil => cases h
  | cons e rest ih =>
    obtain ⟨a, w⟩ := e
    simp only [find] at h
    split at h
    · next hk => cases h; simp [hk]
    · exact List.mem_cons_of_mem _ (ih h)

theorem find_eq_some_of_mem {k : κ} {v : ν} {l : List (κ × ν)} (hl : (l.map Prod.fst).Nodup)
    (h : (k, v) ∈ l) : find k l = some v := by
  induction l with
  | nil => cases h
  | cons e rest ih =>
    obtain ⟨a, w⟩ := e
    rw [List.map_cons, List.nodup_cons] at hl
    rcases List.mem_cons.1 h with h | h
    · cases h; simp [find]
    · have hne : a ≠ k := by
        rintro rfl
        exact hl.1 (List.mem_map.2 ⟨_, h, rfl⟩)
      simp only [find, hne, if_false]
      exact ih hl.2 h

theorem mem_entries_iff (m : OrderedMap κ ν) (k : κ) (v : ν) :
    (k, v) ∈ m.entries ↔ m.get? k = some v :=
  ⟨find_eq_some_of_mem m.nodup, mem_of_find_eq_some⟩

@[simp] theorem overlay_nil (m : OrderedMap κ ν) : m.overlay [] = m := rfl

@[simp] theorem overlay_cons (m : OrderedMap κ ν) (k : κ) (v : ν) (l : List (κ × ν)) :
    m.overlay ((k, v) :: l) = (m.insert k v).overlay l := rfl

theorem get?_overlay_of_not_mem (m : OrderedMap κ ν) (k : κ) {l : List (κ × ν)}
    (h : k ∉ l.map Prod.fst) : (m.overlay l).get? k = m.get? k := by
  induction l generalizing m with
  | nil => rfl
  | cons e rest ih =>
    obtain ⟨a, w⟩ := e
    rw [List.map_cons, List.mem_cons, not_or] at h
    rw [overlay_cons, ih _ h.2, get?_insert, if_neg (Ne.symm h.1)]

theorem get?_overlay_of_mem (m : OrderedMap κ ν) {k : κ} {v : ν} {l : List (κ × ν)}
    (h : (k, v) ∈ l) (hv : ∀ w, (k, w) ∈ l → w = v) : (m.overlay l).get? k = some v := by
  induction l generalizing m with
  | nil => cases h
  | cons e rest ih =>
    obtain ⟨a, w⟩ := e
    rw [overlay_cons]
    by_cases hrest : k ∈ rest.map Prod.fst
    · obtain ⟨⟨k', w'⟩, hmem, hk⟩ := List.mem_map.1 hrest
      obtain rfl : k' = k := hk
      obtain rfl := hv w' (List.mem_cons_of_mem _ hmem)
      exact ih _ hmem fun w hw => hv w (List.mem_cons_of_mem _ hw)
    · have hfirst : (k, v) = (a, w) := (List.mem_cons.1 h).resolve_right fun hmem =>
        hrest (List.mem_map_of_mem hmem)
      obtain ⟨rfl, rfl⟩ := Prod.mk.inj hfirst
      rw [get?_overlay_of_not_mem _ _ hrest, get?_insert_self]

end OrderedMap

end SequentialChart
