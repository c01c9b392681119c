import Mathlib
import SequentialChart.Proofs.Chart.Neighbourhoods
import SequentialChart.Proofs.Chart.Validity

/-!
# Places in the sequences of a chart

The steps around a transition are collected on the way down through a chart. Most of them, though,
are determined by the place of the transition in its own sequence, however deep that is nested: they
stand next to the transition, or they end the branches in front of it.

## Main definitions

* `Element.IsWithin` — where a sequence stands within another one.

## Main statements

* `Element.IsWithin.exists_bounds` — every sequence but the root begins and ends like a branch.
* `Chart.exists_neighbourhoodsAll_subset` — the transitions of a sequence are transitions of the
  chart.
* `Chart.exists_neighbourhood_behind` — what leads to the transition behind an AND divergence.
* `Chart.exists_neighbourhood_opening` — what leads to the transitions that open the branches of an
  OR divergence.
-/

namespace SequentialChart

namespace Element

variable {es es' : List Element}

/-- A sequence stands within elements: as a branch of the first one, further inside such a branch,
or behind the first one. -/
inductive IsWithin : List Element → List Element → Prop
  | branch {junction bs span endSpan es b} : b ∈ bs →
    IsWithin b.elements (.divergence junction bs span endSpan :: es)
  | inside {junction bs span endSpan es es' b} : b ∈ bs → IsWithin es' b.elements →
    IsWithin es' (.divergence junction bs span endSpan :: es)
  | behind {e es es'} : IsWithin es' es → IsWithin es' (e :: es)

theorem isWithin_of_mem_nested (hes : es' ∈ nested es) : IsWithin es' es := by
  suffices ∀ es' ∈ nested es, IsWithin es' es from this es' hes
  clear hes
  induction es using sequence_induction with
  | nil => simp [nested, walkAll]
  | step s es ih | transition s es ih | jump s es ih =>
    intro es' hes
    exact .behind (ih es' (by simpa [nested_cons, branches, walk] using hes))
  | divergence junction bs span endSpan es hbs ih =>
    exact forall_mem_nested_divergence.2
      ⟨fun b hb => ⟨.branch hb, fun es' hes => .inside hb (hbs b hb es' hes)⟩,
        fun es' hes => .behind (ih es' hes)⟩

theorem walkAll_sublist_branch {junction : Junction} {bs : List Branch} {span endSpan : Span}
    {b : Branch} (hb : b ∈ bs) : (walkAll b.elements).Sublist
      (walkAll (.divergence junction bs span endSpan :: es)) :=
  (Branch.walkAll_sublist_walkBranches hb).trans StandIn.walkBranches_sublist

theorem mem_nested_of_mem_walkAll {junction : Junction} {bs : List Branch} {span endSpan : Span}
    (h : divergence junction bs span endSpan ∈ walkAll es) {b : Branch} (hb : b ∈ bs) :
    b.elements ∈ nested es :=
  List.mem_map_of_mem (List.mem_flatMap.2 ⟨_, h, hb⟩)

variable {before after : List NodeId} {previous : Option Element}

/-- The transitions of a branch are among those of its sequence. -/
theorem exists_neighbourhoodsAll_branch {junction : Junction} {bs : List Branch}
    {span endSpan : Span} {b : Branch} (hb : b ∈ bs) :
    ∃ before' after', neighbourhoodsAll before' after' none b.elements ⊆
      neighbourhoodsAll before after previous (.divergence junction bs span endSpan :: es) := by
  have hmem : ∀ before' after', neighbourhoodsAll before' after' none b.elements ⊆
      Branch.neighbourhoodsAll before' after' bs := fun before' after' n hn =>
    Branch.mem_neighbourhoodsAll.2 ⟨b, hb, hn⟩
  cases junction with
  | and => exact ⟨_, _, List.Subset.trans (hmem _ _) (List.subset_append_left _ _)⟩
  | or => exact ⟨_, _, List.Subset.trans (hmem _ _) (List.subset_append_left _ _)⟩

namespace IsWithin

/-- Every sequence within elements that are placed is bounded like a branch. -/
theorem exists_bounds (hes : IsWithin es' es) (h : ArePlaced false previous es) :
    ∃ junction : Junction, junction.Bounds es' := by
  induction hes generalizing previous with
  | branch hb => exact ⟨_, (h.branch hb).1⟩
  | inside hb _ ih => exact ih (h.branch hb).2
  | behind _ ih => exact ih h.tail

/-- The elements of a sequence within elements that are placed are placed as well. -/
theorem arePlaced (hes : IsWithin es' es) (h : ArePlaced false previous es) :
    ArePlaced false none es' := by
  induction hes generalizing previous with
  | branch hb => exact (h.branch hb).2
  | inside hb _ ih => exact ih (h.branch hb).2
  | behind _ ih => exact ih h.tail

/-- A sequence within elements is walked along with them. -/
theorem walkAll_sublist (hes : IsWithin es' es) : (walkAll es').Sublist (walkAll es) := by
  induction hes with
  | branch hb => exact walkAll_sublist_branch hb
  | inside hb _ ih => exact ih.trans (walkAll_sublist_branch hb)
  | behind _ ih => exact ih.trans (List.sublist_append_right _ _)

/-- The transitions of a sequence within elements are among those of the elements. -/
theorem exists_neighbourhoodsAll_subset (hes : IsWithin es' es) (before after : List NodeId)
    (previous : Option Element) : ∃ before' after', neighbourhoodsAll before' after' none es' ⊆
      neighbourhoodsAll before after previous es := by
  induction hes generalizing before after previous with
  | branch hb => exact exists_neighbourhoodsAll_branch hb
  | inside hb _ ih =>
    obtain ⟨before', after', hbranch⟩ := exists_neighbourhoodsAll_branch hb
    obtain ⟨before'', after'', hsub⟩ := ih before' after' none
    exact ⟨before'', after'', List.Subset.trans hsub hbranch⟩
  | behind _ ih =>
    obtain ⟨before', after', hsub⟩ := ih before after _
    exact ⟨before', after', List.Subset.trans hsub (List.subset_append_right _ _)⟩

end IsWithin

/-- What an element contributes depends on its neighbours in the sequence. -/
theorem neighbourhoods_subset (before after : List NodeId) (previous : Option Element)
    (front : List Element) (e : Element) (rest : List Element) :
    e.neighbourhoods before after (front.getLast?.or previous) rest ⊆
      neighbourhoodsAll before after previous (front ++ e :: rest) := by
  induction front generalizing previous with
  | nil => exact List.subset_append_left _ _
  | cons f front ih =>
    have htail := ih (some f)
    rw [List.getLast?_cons, Option.some_or, ← Option.or_some]
    exact List.Subset.trans htail (List.subset_append_right _ _)

end Element

namespace Chart

variable {c : Chart} {es front rest : List Element} {bs : List Branch} {span endSpan : Span}
  {t : Transition}

theorem walkAll_sublist_of_mem_sequences (hes : es ∈ c.sequences) :
    (Element.walkAll es).Sublist c.walk := by
  rcases List.mem_cons.1 hes with rfl | hes
  · exact .refl _
  · exact (Element.isWithin_of_mem_nested hes).walkAll_sublist

theorem exists_neighbourhoodsAll_subset (hes : es ∈ c.sequences) :
    ∃ before after, Element.neighbourhoodsAll before after none es ⊆ c.neighbourhoods := by
  rcases List.mem_cons.1 hes with rfl | hes
  · exact ⟨[], [], List.Subset.refl _⟩
  · exact (Element.isWithin_of_mem_nested hes).exists_neighbourhoodsAll_subset [] [] none

/-- The last steps of the branches of an AND divergence lead to the transition behind it. -/
theorem exists_neighbourhood_behind
    (hes : front ++ .divergence .and bs span endSpan :: .transition t :: rest ∈ c.sequences) :
    ∃ n ∈ c.neighbourhoods,
      n.transition = .transition t.number ∧ n.predecessors = Branch.lastSteps bs := by
  obtain ⟨before, after, hsub⟩ := exists_neighbourhoodsAll_subset hes
  have hplace := Element.neighbourhoods_subset before after none
    (front ++ [.divergence .and bs span endSpan]) (.transition t) rest
  rw [List.append_assoc, List.singleton_append] at hplace
  refine ⟨_, hsub (hplace (List.mem_singleton_self _)), rfl, ?_⟩
  simp [Element.stepsBehind]

/-- The step in front of an OR divergence leads to the transitions that open its branches. -/
theorem exists_neighbourhood_opening {s : Step} {b : Branch}
    (hes : front ++ .divergence .or bs span endSpan :: rest ∈ c.sequences)
    (hfront : front.getLast? = some (.step s)) (hb : b ∈ bs)
    (hopens : b.elements.head? = some (.transition t)) :
    ∃ n ∈ c.neighbourhoods,
      n.transition = .transition t.number ∧ n.predecessors = [.step s.number] := by
  obtain ⟨before, after, hsub⟩ := exists_neighbourhoodsAll_subset hes
  have hplace := Element.neighbourhoods_subset before after none front
    (.divergence .or bs span endSpan) rest
  obtain ⟨tail, htail⟩ := List.head?_eq_some_iff.1 hopens
  have hfirst : ∀ before' after', ⟨.transition t.number, before', Element.stepsAhead after' tail⟩ ∈
      Element.neighbourhoodsAll before' after' none b.elements := by
    intro before' after'
    rw [htail]
    exact List.mem_append_left _ (List.mem_singleton_self _)
  refine ⟨_, hsub (hplace (Branch.mem_neighbourhoodsAll.2 ⟨b, hb, hfirst _ _⟩)), rfl, ?_⟩
  simp [hfront, Element.stepsBehind]

end Chart

end SequentialChart
