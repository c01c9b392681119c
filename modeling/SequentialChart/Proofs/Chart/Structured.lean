import Mathlib
import SequentialChart.Ordered.Set
import SequentialChart.Proofs.Chart.Marking

/-!
# Structured charts

Which steps of a chart may be active together can be said without regions, by counting in each
sequence and in each divergence what is occupied.

## Main definitions

* `Element.isOccupied`, `Branch.isOccupied` — whether a step in the element or branch is active.
* `Chart.IsStructured` — the active steps go together.
* `Chart.IsSound` — the chart is in one of its slots or in none.

## Main statements

* `Chart.IsSound.isStructured` — the active steps of such a chart go together.
-/

namespace SequentialChart

/-- Whether the element is an active step or a divergence with an active step in a branch. -/
def Element.isOccupied (active : OrderedSet NodeId) (e : Element) : Bool :=
  e.steps.any (· ∈ active)

/-- Whether a step within the branch is active. -/
def Branch.isOccupied (active : OrderedSet NodeId) (b : Branch) : Bool :=
  b.steps.any (· ∈ active)

/-- How many elements of the branch are occupied. -/
def Branch.occupied (active : OrderedSet NodeId) (b : Branch) : Nat :=
  b.elements.countP (·.isOccupied active)

/-- If it is occupied, an AND divergence has one occupied element in every branch, an OR divergence
has one occupied branch and in that branch one occupied element. -/
def Element.IsDivided (active : OrderedSet NodeId) : Element → Prop
  | .divergence .and bs span endSpan =>
    (Element.divergence .and bs span endSpan).isOccupied active → ∀ b ∈ bs, b.occupied active = 1
  | .divergence .or bs span endSpan =>
    (Element.divergence .or bs span endSpan).isOccupied active →
      bs.countP (·.isOccupied active) = 1 ∧
        ∀ b ∈ bs, b.isOccupied active → b.occupied active = 1
  | _ => True

instance (active : OrderedSet NodeId) : DecidablePred (Element.IsDivided active)
  | .divergence .and bs span endSpan =>
    inferInstanceAs (Decidable ((Element.divergence .and bs span endSpan).isOccupied active →
      ∀ b ∈ bs, b.occupied active = 1))
  | .divergence .or bs span endSpan =>
    inferInstanceAs (Decidable ((Element.divergence .or bs span endSpan).isOccupied active →
      bs.countP (·.isOccupied active) = 1 ∧
        ∀ b ∈ bs, b.isOccupied active → b.occupied active = 1))
  | .step _ | .transition _ | .jump _ => isTrue trivial

/-- At most one element of the root is occupied, and what is occupied is divided as it has to be, at
every depth. -/
structure Chart.IsStructured (c : Chart) (active : OrderedSet NodeId) : Prop where
  root : c.elements.countP (·.isOccupied active) ≤ 1
  divided : ∀ e ∈ c.walk, e.IsDivided active

instance (c : Chart) (active : OrderedSet NodeId) : Decidable (c.IsStructured active) :=
  decidable_of_iff (c.elements.countP (·.isOccupied active) ≤ 1 ∧ ∀ e ∈ c.walk, e.IsDivided active)
    ⟨fun h => ⟨h.1, h.2⟩, fun h => ⟨h.1, h.2⟩⟩

namespace Element

variable {A : Set NodeId}

/-! ### Counting -/

section Count

variable {α : Type} {f : α → List Element} {p : α → Bool} {l : List α}

theorem countP_eq_zero (hp : ∀ a ∈ l, p a ↔ ¬ AreVacant A (f a)) (h : AreVacant A (l.flatMap f)) :
    l.countP p = 0 := by
  refine List.countP_eq_zero.2 fun a ha hpa => (hp a ha).1 hpa fun b hb => h b ?_
  exact List.mem_flatMap.2 ⟨a, ha, hb⟩

theorem countP_eq_one (hp : ∀ a ∈ l, p a ↔ ¬ AreVacant A (f a)) (h : IsFilled A (l.flatMap f)) :
    l.countP p = 1 := by
  induction l with
  | nil => exact absurd h not_isFilled_nil
  | cons a l ih =>
    have hrest : ∀ b ∈ l, p b ↔ ¬ AreVacant A (f b) := by
      intro b hb
      exact hp b (List.mem_cons_of_mem a hb)
    rw [List.flatMap_cons] at h
    rcases h.of_append with ⟨ha, hl⟩ | ⟨ha, hl⟩
    · have hpa : p a := (hp a (by simp)).2 ha.not_areVacant
      rw [List.countP_cons_of_pos hpa, countP_eq_zero hrest hl]
    · have hpa : ¬ p a := fun hpa => (hp a (by simp)).1 hpa ha
      rw [List.countP_cons_of_neg hpa, ih hrest hl]

end Count

theorem slots_eq_flatMap (es : List Element) : slots es = es.flatMap fun e => slots [e] := by
  induction es with
  | nil => rfl
  | cons e es ih => rw [slots_cons, ih, List.flatMap_cons]

variable {active : OrderedSet NodeId}

theorem isOccupied_iff (e : Element) :
    e.isOccupied active ↔ ¬ AreVacant {x | x ∈ active} (slots [e]) := by
  rw [areVacant_slots_iff, stepsAll_cons]
  simp [isOccupied]

end Element

namespace Branch

variable {active : OrderedSet NodeId} {b : Branch}

theorem isOccupied_iff (b : Branch) :
    b.isOccupied active ↔ ¬ Element.AreVacant {x | x ∈ active} b.slots := by
  rw [slots, Element.areVacant_slots_iff]
  simp [isOccupied, steps]

theorem occupied_eq_one (h : Element.IsFilled {x | x ∈ active} b.slots) :
    b.occupied active = 1 := by
  rw [slots, Element.slots_eq_flatMap] at h
  exact Element.countP_eq_one (fun e _ => e.isOccupied_iff) h

end Branch

namespace Element

variable {active : OrderedSet NodeId} {bs : List Branch} {span endSpan : Span}

theorem isDivided_and (h : IsSound {x | x ∈ active} [.divergence .and bs span endSpan]) :
    (divergence .and bs span endSpan).IsDivided active := by
  intro hoccupied b hb
  rcases h with h | h
  · exact Branch.occupied_eq_one ((isFull_and_iff.1 (isFilled_singleton_iff.1 h)).2 b hb)
  · exact absurd h ((isOccupied_iff _).1 hoccupied)

theorem isDivided_or (h : IsSound {x | x ∈ active} (bs.flatMap Branch.slots)) :
    (divergence .or bs span endSpan).IsDivided active := by
  intro hoccupied
  have hfilled : IsFilled {x | x ∈ active} (bs.flatMap Branch.slots) := by
    refine h.resolve_right fun hvacant => (isOccupied_iff _).1 hoccupied ?_
    simpa using hvacant
  refine ⟨countP_eq_one (fun b _ => b.isOccupied_iff) hfilled, fun b hb hoccupied => ?_⟩
  exact Branch.occupied_eq_one ((h.of_mem_flatMap hb).resolve_right (b.isOccupied_iff.1 hoccupied))

/-- A region in one of its slots or in none is divided as it has to be. -/
theorem isDivided_of_isSound {es : List Element} (h : IsSound {x | x ∈ active} (slots es)) :
    ∀ e ∈ walkAll es, e.IsDivided active := by
  induction es using sequence_induction with
  | nil => exact nofun
  | step s es ih =>
    have hsplit : IsSound {x | x ∈ active} ([.step s] ++ slots es) := h
    exact List.forall_mem_cons.2 ⟨trivial, ih hsplit.of_append.2⟩
  | transition t es ih => exact List.forall_mem_cons.2 ⟨trivial, ih h⟩
  | jump j es ih => exact List.forall_mem_cons.2 ⟨trivial, ih h⟩
  | divergence junction bs span endSpan es hbs ih =>
    -- the slots of an OR divergence are those of its branches, an AND divergence is one itself
    rw [slots_cons] at h
    obtain ⟨hfirst, hrest⟩ := h.of_append
    have hinner : ∀ b ∈ bs, IsSound {x | x ∈ active} b.slots := by
      cases junction with
      | and => exact fun b hb => hfirst.branch hb
      | or =>
        rw [slots_or, slots_nil, List.append_nil] at hfirst
        exact fun b hb => hfirst.of_mem_flatMap hb
    have hself : (divergence junction bs span endSpan).IsDivided active := by
      cases junction with
      | and => exact isDivided_and hfirst
      | or =>
        rw [slots_or, slots_nil, List.append_nil] at hfirst
        exact isDivided_or hfirst
    intro e he
    rcases List.mem_append.1 he with he | he
    · rw [walk, List.mem_cons, Branch.walkBranches_eq, List.mem_flatMap] at he
      rcases he with rfl | ⟨b, hb, he⟩
      · exact hself
      · exact hbs b hb (hinner b hb) e he
    · exact ih hrest e he

end Element

namespace Chart

/-- The chart is in one of its slots or in none. -/
def IsSound (c : Chart) (active : OrderedSet NodeId) : Prop :=
  Element.IsSound {x | x ∈ active} (Element.slots c.elements)

/-- The active steps go together if the chart is in one of its slots or in none. -/
theorem IsSound.isStructured {c : Chart} {active : OrderedSet NodeId} (h : c.IsSound active) :
    c.IsStructured active where
  root := by
    rw [IsSound, Element.slots_eq_flatMap] at h
    rcases h with h | h
    · exact (Element.countP_eq_one (fun e _ => e.isOccupied_iff) h).le
    · rw [Element.countP_eq_zero (fun e _ => e.isOccupied_iff) h]
      exact Nat.zero_le 1
  divided := Element.isDivided_of_isSound h

end Chart

end SequentialChart
