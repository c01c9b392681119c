import SequentialChart.Chart.Basic

/-!
# Numbering transitions

A transition whose number is not written in the source gets the next number, in document order, that
no transition bears in writing.

## Main definitions

* `firstFree` — the next number that is not taken.
* `Chart.numbered` — the chart with all its transitions numbered.
-/

namespace SequentialChart

/-- The least number from `start` on that is not taken. It is among the first `taken.length + 1`
candidates. -/
def firstFree (taken : List Nat) (start : Nat) : Nat :=
  ((List.range' start (taken.length + 1)).find? (!taken.contains ·)).getD start

mutual

/-- The element with its transitions numbered from `next` on, and the number to go on with. -/
def Element.numbered (taken : List Nat) (next : Nat) : Element → Element × Nat
  | .step s => (.step s, next)
  | .transition t =>
    if t.explicit then (.transition t, next)
    else
      let number := firstFree taken next
      (.transition { t with number }, number + 1)
  | .jump j => (.jump j, next)
  | .divergence junction branches span endSpan =>
    let (branches, next) := Branch.numberedAll taken next branches
    (.divergence junction branches span endSpan, next)

def Element.numberedAll (taken : List Nat) (next : Nat) : List Element → List Element × Nat
  | [] => ([], next)
  | e :: es =>
    let (e, next) := e.numbered taken next
    let (es, next) := Element.numberedAll taken next es
    (e :: es, next)

def Branch.numbered (taken : List Nat) (next : Nat) : Branch → Branch × Nat
  | .mk elements span =>
    let (elements, next) := Element.numberedAll taken next elements
    (.mk elements span, next)

def Branch.numberedAll (taken : List Nat) (next : Nat) : List Branch → List Branch × Nat
  | [] => ([], next)
  | b :: bs =>
    let (b, next) := b.numbered taken next
    let (bs, next) := Branch.numberedAll taken next bs
    (b :: bs, next)

end

namespace Chart

def writtenNumbers (c : Chart) : List Nat := (c.transitions.filter (·.explicit)).map (·.number)

def numbered (c : Chart) : Chart :=
  { c with elements := (Element.numberedAll c.writtenNumbers 0 c.elements).1 }

end Chart

/-! ### The next free number -/

theorem exists_free (taken : List Nat) (start : Nat) :
    ∃ n ∈ List.range' start (taken.length + 1), n ∉ taken := by
  refine Classical.byContradiction fun h => ?_
  have hsub : List.range' start (taken.length + 1) ⊆ taken := fun n hn =>
    Classical.byContradiction fun hn' => h ⟨n, hn, hn'⟩
  have hlen := (List.nodup_range' (s := start) (n := taken.length + 1)).length_le_of_subset hsub
  rw [List.length_range'] at hlen
  omega

theorem isLeast_firstFree (taken : List Nat) (start : Nat) :
    start ≤ firstFree taken start ∧ firstFree taken start ∉ taken ∧
      ∀ n, start ≤ n → n < firstFree taken start → n ∈ taken := by
  obtain ⟨m, hm, hfree⟩ := exists_free taken start
  cases hf : (List.range' start (taken.length + 1)).find? (!taken.contains ·) with
  | none =>
    have := List.find?_eq_none.1 hf m hm
    simp [hfree] at this
  | some k =>
    have hk : firstFree taken start = k := by unfold firstFree; rw [hf]; rfl
    rw [hk]
    obtain ⟨hp, as, bs, hsplit, has⟩ := List.find?_eq_some_iff_append.1 hf
    have hmem : k ∈ List.range' start (taken.length + 1) := by rw [hsplit]; simp
    refine ⟨(List.mem_range'_1.1 hmem).1, by simpa using hp, fun n h1 h2 => ?_⟩
    have hn : n ∈ List.range' start (taken.length + 1) :=
      List.mem_range'_1.2 ⟨h1, Nat.lt_trans h2 (List.mem_range'_1.1 hmem).2⟩
    rw [hsplit, List.mem_append, List.mem_cons] at hn
    rcases hn with hn | rfl | hn
    · simpa using has n hn
    · omega
    · have hsorted := List.pairwise_lt_range' (s := start) (n := taken.length + 1)
      rw [hsplit] at hsorted
      have := (List.pairwise_cons.1 (List.pairwise_append.1 hsorted).2.1).1 n hn
      omega

end SequentialChart
