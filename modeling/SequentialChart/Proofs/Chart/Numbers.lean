import Mathlib
import SequentialChart.Proofs.Chart.Rules

/-!
# The numbers of transitions

After numbering, no two transitions bear one number: written numbers are kept, and every number
that is assigned lies above the ones assigned before and is not written anywhere.

## Main definitions

* `Assigned` — numbers assigned from one number up to another.

## Main statements

* `Chart.nodup_transitions_numbered` — the numbers differ if the written ones do.
-/

namespace SequentialChart

/-- The numbers `ns` were assigned from `lo` on, and `hi` is the number to go on with. -/
structure Assigned (taken : List Nat) (lo hi : Nat) (ns : List Nat) : Prop where
  le : lo ≤ hi
  sorted : ns.Pairwise (· < ·)
  bounds : ∀ n ∈ ns, lo ≤ n ∧ n < hi
  free : ∀ n ∈ ns, n ∉ taken

namespace Assigned

variable {taken : List Nat} {lo mid hi : Nat} {ms ns : List Nat}

theorem nil (taken : List Nat) (n : Nat) : Assigned taken n n [] :=
  ⟨le_rfl, .nil, nofun, nofun⟩

theorem firstFree (taken : List Nat) (n : Nat) :
    Assigned taken n (firstFree taken n + 1) [SequentialChart.firstFree taken n] := by
  obtain ⟨hle, hfree, -⟩ := isLeast_firstFree taken n
  exact ⟨by omega, by simp, by simpa using hle, by simpa using hfree⟩

theorem append (h : Assigned taken lo mid ms) (h' : Assigned taken mid hi ns) :
    Assigned taken lo hi (ms ++ ns) where
  le := h.le.trans h'.le
  sorted := List.pairwise_append.2 ⟨h.sorted, h'.sorted, fun m hm n hn =>
    (h.bounds m hm).2.trans_le (h'.bounds n hn).1⟩
  bounds n hn := by
    have h1 := h.le
    have h2 := h'.le
    rcases List.mem_append.1 hn with hn | hn
    · have := h.bounds n hn
      omega
    · have := h'.bounds n hn
      omega
  free n hn := (List.mem_append.1 hn).elim (h.free n) (h'.free n)

end Assigned

namespace Element

/-- The numbers of the transitions among elements that are not written in the source. -/
def assignedNumbers (es : List Element) : List Nat :=
  ((es.filterMap transition?).filter (!·.explicit)).map (·.number)

@[simp] theorem assignedNumbers_append (es fs : List Element) :
    assignedNumbers (es ++ fs) = assignedNumbers es ++ assignedNumbers fs := by
  simp [assignedNumbers]

/-- All elements `fs` come from the elements `es` by assigning numbers from `lo` on. -/
structure AreNumbered (taken : List Nat) (lo hi : Nat) (es fs : List Element) : Prop where
  written : writtenNumbers fs = writtenNumbers es
  assigned : Assigned taken lo hi (assignedNumbers fs)

namespace AreNumbered

variable {taken : List Nat} {lo mid hi : Nat} {es es' fs fs' : List Element}

theorem nil (taken : List Nat) (n : Nat) : AreNumbered taken n n [] [] :=
  ⟨rfl, .nil taken n⟩

theorem append (h : AreNumbered taken lo mid es es') (h' : AreNumbered taken mid hi fs fs') :
    AreNumbered taken lo hi (es ++ fs) (es' ++ fs') where
  written := by rw [writtenNumbers_append, writtenNumbers_append, h.written, h'.written]
  assigned := by
    rw [assignedNumbers_append]
    exact h.assigned.append h'.assigned

/-- An element without a number to be assigned stands for itself. -/
theorem refl (taken : List Nat) (n : Nat) {e : Element} (h : assignedNumbers [e] = []) :
    AreNumbered taken n n [e] [e] :=
  ⟨rfl, h ▸ .nil taken n⟩

/-- Only transitions matter. -/
theorem divergence (h : AreNumbered taken lo hi es fs) {junction junction' : Junction}
    {bs bs' : List Branch} {span endSpan span' endSpan' : Span} :
    AreNumbered taken lo hi (.divergence junction bs span endSpan :: es)
      (.divergence junction' bs' span' endSpan' :: fs) :=
  ⟨h.written, h.assigned⟩

end AreNumbered

theorem areNumbered_transition (taken : List Nat) (n : Nat) (t : Transition) :
    AreNumbered taken n ((transition t).numbered taken n).2 [transition t]
      ((transition t).numbered taken n).1.walk := by
  by_cases ht : t.explicit = true
  · simp only [numbered, ht, if_true]
    exact .refl taken n (by simp [assignedNumbers, transition?, ht])
  · simp only [numbered, ht]
    refine ⟨by simp [walk, writtenNumbers, transition?, ht], ?_⟩
    simpa [walk, assignedNumbers, transition?, ht] using Assigned.firstFree taken n

end Element

theorem Branch.areNumbered_walkBranches {taken : List Nat} {bs : List Branch}
    (h : ∀ b ∈ bs, ∀ n, Element.AreNumbered taken n (Element.numberedAll taken n b.elements).2
      (Element.walkAll b.elements)
      (Element.walkAll (Element.numberedAll taken n b.elements).1)) (n : Nat) :
    Element.AreNumbered taken n (Branch.numberedAll taken n bs).2 (Branch.walkBranches bs)
      (Branch.walkBranches (Branch.numberedAll taken n bs).1) := by
  induction bs generalizing n with
  | nil => exact .nil taken n
  | cons b bs ih =>
    obtain ⟨elements, span⟩ := b
    exact (h (.mk elements span) (by simp) n).append (ih (fun b hb => h b (by simp [hb])) _)

theorem Element.areNumbered_walkAll (taken : List Nat) (es : List Element) (n : Nat) :
    Element.AreNumbered taken n (Element.numberedAll taken n es).2 (Element.walkAll es)
      (Element.walkAll (Element.numberedAll taken n es).1) := by
  induction es using Element.sequence_induction generalizing n with
  | nil => exact .nil taken n
  | step s es ih => exact .append (.refl taken n rfl) (ih n)
  | transition t es ih => exact (Element.areNumbered_transition taken n t).append (ih _)
  | jump j es ih => exact .append (.refl taken n rfl) (ih n)
  | divergence junction bs span endSpan es hbs ih =>
    exact ((Branch.areNumbered_walkBranches hbs n).append (ih _)).divergence

/-- The numbers of all transitions differ after numbering if those that are written do. -/
theorem Chart.nodup_transitions_numbered {c : Chart} (h : c.numbered.writtenNumbers.Nodup) :
    (c.numbered.transitions.map (·.number)).Nodup := by
  have hall := Element.areNumbered_walkAll c.writtenNumbers c.elements 0
  have hsplit : (Element.writtenNumbers c.numbered.walk ++
      Element.assignedNumbers c.numbered.walk).Perm (c.numbered.transitions.map (·.number)) := by
    unfold Element.writtenNumbers Element.assignedNumbers
    rw [← List.map_append]
    exact (List.filter_append_perm _ _).map _
  have hwritten : Element.writtenNumbers c.numbered.walk = c.writtenNumbers := hall.written
  refine hsplit.nodup_iff.1 (List.nodup_append'.2 ⟨h, ?_, fun n hn hn' => ?_⟩)
  · exact hall.assigned.sorted.imp ne_of_lt
  · exact hall.assigned.free n hn' (hwritten ▸ hn)

end SequentialChart
