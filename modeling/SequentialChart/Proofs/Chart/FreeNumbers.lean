import Mathlib
import SequentialChart.Proofs.Chart.Numbers

/-!
# Which numbers are assigned

Transitions without a written number get the free numbers in increasing order, where a number is
free if it is not written anywhere in the chart. So the first of them gets the least free number,
the next one the next, and so on through all branches; no number is left out that could have been
assigned, and therefore all of them are small.

## Main definitions

* `Transition.IsNumberedAs` — a transition before and after numbering.
* `Element.TakesFree` — the numbers that numbering assigns, and the number it goes on with.

## Main statements

* `firstFree_eq_nth` — the next number is the one after the free numbers passed so far.
* `Element.takesFree_walkAll` — the numbers assigned in a sequence.
* `Chart.assignedNumbers_numbered` — the numbers assigned in a chart.
-/

namespace SequentialChart

/-! ### Counting free numbers -/

section Counting

variable {taken : List Nat} {m n : Nat}

/-- Numbers that are taken do not count. -/
theorem count_free_eq (hle : n ≤ m) (h : ∀ k, n ≤ k → k < m → k ∈ taken) :
    Nat.count (· ∉ taken) m = Nat.count (· ∉ taken) n := by
  induction m, hle using Nat.le_induction with
  | base => rfl
  | succ m hm ih =>
    have htaken : m ∈ taken := h m hm (by omega)
    rw [Nat.count_succ, if_neg (not_not_intro htaken), Nat.add_zero]
    exact ih fun k h1 h2 => h k h1 (by omega)

theorem count_firstFree (taken : List Nat) (n : Nat) :
    Nat.count (· ∉ taken) (firstFree taken n) = Nat.count (· ∉ taken) n := by
  obtain ⟨hle, -, hleast⟩ := isLeast_firstFree taken n
  exact count_free_eq hle hleast

/-- The next number is the free number after those that have been passed. -/
theorem firstFree_eq_nth (taken : List Nat) (n : Nat) :
    firstFree taken n = Nat.nth (· ∉ taken) (Nat.count (· ∉ taken) n) := by
  obtain ⟨-, hfree, -⟩ := isLeast_firstFree taken n
  calc firstFree taken n
      = Nat.nth (· ∉ taken) (Nat.count (· ∉ taken) (firstFree taken n)) :=
        (Nat.nth_count hfree).symm
    _ = Nat.nth (· ∉ taken) (Nat.count (· ∉ taken) n) := by rw [count_firstFree]

/-- Behind the next number one more free number has been passed. -/
theorem count_firstFree_succ (taken : List Nat) (n : Nat) :
    Nat.count (· ∉ taken) (firstFree taken n + 1) = Nat.count (· ∉ taken) n + 1 := by
  obtain ⟨-, hfree, -⟩ := isLeast_firstFree taken n
  rw [Nat.count_succ, if_pos hfree, count_firstFree]

/-- All numbers below `n` are free but for those that are taken. -/
theorem le_count_free_add_length (taken : List Nat) (n : Nat) :
    n ≤ Nat.count (· ∉ taken) n + taken.length := by
  have htaken : ((Finset.range n).filter (· ∈ taken)).card ≤ taken.length := by
    refine (Finset.card_le_card fun k hk => ?_).trans taken.toFinset_card_le
    exact List.mem_toFinset.2 (Finset.mem_filter.1 hk).2
  have hall := Finset.card_filter_add_card_filter_not (s := Finset.range n) (· ∈ taken)
  rw [Finset.card_range] at hall
  rw [Nat.count_eq_card_filter_range]
  omega

end Counting

/-! ### Numbering in document order -/

/-- The transition `t` is `t'` after numbering: a number that is written stays, and nothing but the
number changes. -/
def Transition.IsNumberedAs (t t' : Transition) : Prop :=
  ∃ number, t' = { t with number } ∧ (t.explicit = true → number = t.number)

namespace Element

/-- The elements `fs` are the elements `es` after numbering from `lo` on, and `hi` is the number to
go on with: the transitions without a written number have got the free numbers that follow those
below `lo`. -/
structure TakesFree (taken : List Nat) (lo hi : Nat) (es fs : List Element) : Prop where
  transitions :
    List.Forall₂ Transition.IsNumberedAs (es.filterMap transition?) (fs.filterMap transition?)
  assigned : assignedNumbers fs =
    (List.range' (Nat.count (· ∉ taken) lo) (assignedNumbers es).length).map (Nat.nth (· ∉ taken))
  counter :
    Nat.count (· ∉ taken) hi = Nat.count (· ∉ taken) lo + (assignedNumbers es).length

namespace TakesFree

variable {taken : List Nat} {lo mid hi : Nat} {es es' fs fs' : List Element}

theorem nil (taken : List Nat) (n : Nat) : TakesFree taken n n [] [] := ⟨.nil, rfl, rfl⟩

theorem append (h : TakesFree taken lo mid es es') (h' : TakesFree taken mid hi fs fs') :
    TakesFree taken lo hi (es ++ fs) (es' ++ fs') where
  transitions := by
    rw [List.filterMap_append, List.filterMap_append]
    exact List.rel_append h.transitions h'.transitions
  assigned := by
    rw [assignedNumbers_append, assignedNumbers_append, h.assigned, h'.assigned, h.counter,
      List.length_append, ← List.map_append, List.range'_append_1]
  counter := by
    have h1 := h.counter
    have h2 := h'.counter
    rw [assignedNumbers_append, List.length_append]
    omega

/-- An element that is no transition stays as it is. -/
theorem refl (taken : List Nat) (n : Nat) {e : Element} (h : e.transition? = none) :
    TakesFree taken n n [e] [e] := by
  have hnone : assignedNumbers [e] = [] := by simp [assignedNumbers, h]
  refine ⟨?_, ?_, ?_⟩
  · simp [h]
  · rw [hnone]
    rfl
  · rw [hnone]
    rfl

/-- The element of a divergence itself has no number. -/
theorem divergence (h : TakesFree taken lo hi es fs) {junction junction' : Junction}
    {bs bs' : List Branch} {span endSpan span' endSpan' : Span} :
    TakesFree taken lo hi (.divergence junction bs span endSpan :: es)
      (.divergence junction' bs' span' endSpan' :: fs) :=
  ⟨h.transitions, h.assigned, h.counter⟩

end TakesFree

/-- One transition: a written number is passed over, and otherwise the next free number is taken. -/
theorem takesFree_transition (taken : List Nat) (n : Nat) (t : Transition) :
    TakesFree taken n ((transition t).numbered taken n).2 [transition t]
      ((transition t).numbered taken n).1.walk := by
  by_cases ht : t.explicit = true
  · simp only [numbered, ht, if_true]
    refine ⟨.cons ⟨t.number, rfl, fun _ => rfl⟩ .nil, ?_, ?_⟩
    · simp [assignedNumbers, transition?, walk, ht]
    · simp [assignedNumbers, transition?, ht]
  · have hnumbered : (transition t).numbered taken n =
        (.transition { t with number := firstFree taken n }, firstFree taken n + 1) := if_neg ht
    rw [hnumbered]
    refine ⟨.cons ⟨firstFree taken n, rfl, fun hexplicit => absurd hexplicit ht⟩ .nil, ?_, ?_⟩
    · simp [assignedNumbers, transition?, walk, ht, firstFree_eq_nth]
    · simpa [assignedNumbers, transition?, ht] using count_firstFree_succ taken n

end Element

theorem Branch.takesFree_walkBranches {taken : List Nat} {bs : List Branch}
    (h : ∀ b ∈ bs, ∀ n, Element.TakesFree taken n (Element.numberedAll taken n b.elements).2
      (Element.walkAll b.elements)
      (Element.walkAll (Element.numberedAll taken n b.elements).1)) (n : Nat) :
    Element.TakesFree taken n (Branch.numberedAll taken n bs).2 (Branch.walkBranches bs)
      (Branch.walkBranches (Branch.numberedAll taken n bs).1) := by
  induction bs generalizing n with
  | nil => exact .nil taken n
  | cons b bs ih =>
    obtain ⟨elements, span⟩ := b
    have hfirst := h (.mk elements span) List.mem_cons_self n
    exact hfirst.append (ih (fun b hb => h b (List.mem_cons_of_mem _ hb)) _)

/-- A sequence takes the free numbers in document order, through all its branches. -/
theorem Element.takesFree_walkAll (taken : List Nat) (es : List Element) (n : Nat) :
    Element.TakesFree taken n (Element.numberedAll taken n es).2 (Element.walkAll es)
      (Element.walkAll (Element.numberedAll taken n es).1) := by
  induction es using Element.sequence_induction generalizing n with
  | nil => exact .nil taken n
  | step s es ih => exact .append (.refl taken n rfl) (ih n)
  | transition t es ih => exact (Element.takesFree_transition taken n t).append (ih _)
  | jump j es ih => exact .append (.refl taken n rfl) (ih n)
  | divergence junction bs span endSpan es hbs ih =>
    exact ((Branch.takesFree_walkBranches hbs n).append (ih _)).divergence

/-! ### The numbers of a chart -/

namespace Chart

/-- The transitions whose numbers are not written, and those whose numbers are. -/
theorem length_assignedNumbers_add (c : Chart) :
    (Element.assignedNumbers c.walk).length + c.writtenNumbers.length = c.transitions.length := by
  have hsplit := (List.filter_append_perm (·.explicit) c.transitions).length_eq
  rw [List.length_append] at hsplit
  rw [Element.assignedNumbers, ← transitions, writtenNumbers, List.length_map, List.length_map]
  omega

/-- The number to go on with is never above the number of transitions. -/
theorem counter_le (c : Chart) :
    (Element.numberedAll c.writtenNumbers 0 c.elements).2 ≤ c.transitions.length := by
  have htakes := (Element.takesFree_walkAll c.writtenNumbers c.elements 0).counter
  have hbound := le_count_free_add_length c.writtenNumbers
    (Element.numberedAll c.writtenNumbers 0 c.elements).2
  have hlength := c.length_assignedNumbers_add
  rw [Nat.count_zero] at htakes
  rw [walk] at hlength
  omega

/-- Numbering keeps every number that is written, and the transitions without one get the free
numbers in document order, the `k`-th of them the `k`-th least number that is not written anywhere
in the chart. These numbers increase strictly, none of them is written, and all of them, like the
number with which the search goes on, are bounded by the number of transitions; so 32 bits are
enough for them as long as they are enough for the number of transitions. -/
theorem assignedNumbers_numbered (c : Chart) :
    List.Forall₂ Transition.IsNumberedAs c.transitions c.numbered.transitions ∧
    Element.assignedNumbers c.numbered.walk =
      (List.range (Element.assignedNumbers c.walk).length).map (Nat.nth (· ∉ c.writtenNumbers)) ∧
    (Element.assignedNumbers c.numbered.walk).Pairwise (· < ·) ∧
    (∀ n ∈ Element.assignedNumbers c.numbered.walk,
      n ∉ c.writtenNumbers ∧ n < c.transitions.length) ∧
    (c.transitions.length < UInt32.size →
      (Element.numberedAll c.writtenNumbers 0 c.elements).2 < UInt32.size) := by
  have htakes := Element.takesFree_walkAll c.writtenNumbers c.elements 0
  have hnumbered := (Element.areNumbered_walkAll c.writtenNumbers c.elements 0).assigned
  have hassigned := htakes.assigned
  rw [Nat.count_zero, ← List.range_eq_range'] at hassigned
  refine ⟨htakes.transitions, hassigned, hnumbered.sorted, fun n hn => ⟨?_, ?_⟩, fun hlength => ?_⟩
  · exact hnumbered.free n hn
  · exact (hnumbered.bounds n hn).2.trans_le c.counter_le
  · exact c.counter_le.trans_lt hlength

/-- A chart in which numbers are written twice, and behind transitions that get theirs. -/
def crowded : Chart where
  title := none
  elements :=
    let auto : Element :=
      .transition { number := 0, explicit := false, condition := "a", span := default }
    let written (number : Nat) : Element :=
      .transition { number, explicit := true, condition := "b", span := default }
    [auto, .divergence .or [.mk [auto, written 1] default, .mk [written 3, auto] default] default
      default, written 1, auto]

/-- Of the numbers `0` to `5`, the chart has two written, one of them twice. -/
theorem assignedNumbers_crowded :
    crowded.transitions.length < UInt32.size ∧
    (Element.numberedAll crowded.writtenNumbers 0 crowded.elements).2 < UInt32.size ∧
    Element.assignedNumbers crowded.numbered.walk = [0, 2, 4, 5] ∧
    Element.assignedNumbers crowded.numbered.walk =
      (List.range 4).map (Nat.nth (· ∉ crowded.writtenNumbers)) ∧
    crowded.numbered.transitions.map (·.number) = [0, 2, 1, 3, 4, 1, 5] := by
  obtain ⟨-, hassigned, -, -, hcounter⟩ := assignedNumbers_numbered crowded
  have hlength : crowded.transitions.length < UInt32.size := by decide
  exact ⟨hlength, hcounter hlength, by decide, hassigned, by decide⟩

end Chart

end SequentialChart
