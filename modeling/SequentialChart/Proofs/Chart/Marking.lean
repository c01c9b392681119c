import Mathlib
import SequentialChart.Proofs.Chart.Regions

/-!
# Markings

Which steps may be active together: a region is in one of its slots, that is, in a step if the step
is active, and in an AND divergence if each of its branches is in one slot of its own.

## Main definitions

* `Element.IsFull`, `Element.IsFilled` — a region is in a slot; it is in exactly one.
* `Element.IsSound` — a region is in exactly one slot or in none.
-/

namespace SequentialChart

variable {A A' : Set NodeId} {a b : Element} {es S T : List Element}

namespace Element

/-- No step within the elements is active. -/
def AreVacant (A : Set NodeId) (S : List Element) : Prop := ∀ a ∈ S, ∀ x ∈ a.steps, x ∉ A

/-- All other slots than `a` are vacant. -/
def IsOnly (A : Set NodeId) (S : List Element) (a : Element) : Prop :=
  ∃ l r, S = l ++ a :: r ∧ AreVacant A (l ++ r)

/-- A region is in the slot, and so are the regions in it. -/
inductive IsFull (A : Set NodeId) : Element → Prop
  | step {s : Step} : NodeId.step s.number ∈ A → IsFull A (.step s)
  | parallel {bs : List Branch} {span endSpan : Span} (slot : Branch → Element) : bs ≠ [] →
    (∀ b ∈ bs, IsOnly A b.slots (slot b)) → (∀ b ∈ bs, IsFull A (slot b)) →
      IsFull A (.divergence .and bs span endSpan)

/-- A region with these slots is in exactly one of them. -/
def IsFilled (A : Set NodeId) (S : List Element) : Prop := ∃ a, IsOnly A S a ∧ IsFull A a

theorem isFull_and_iff {bs : List Branch} {span endSpan : Span} :
    IsFull A (.divergence .and bs span endSpan) ↔ bs ≠ [] ∧ ∀ b ∈ bs, IsFilled A b.slots := by
  constructor
  · intro h
    cases h with
    | parallel slot hne honly hfull => exact ⟨hne, fun b hb => ⟨slot b, honly b hb, hfull b hb⟩⟩
  · rintro ⟨hne, h⟩
    choose slot hslot using h
    classical
    refine .parallel (fun b => if hb : b ∈ bs then slot b hb else .jump ⟨0, default⟩) hne ?_ ?_
    · intro b hb
      simpa [hb] using (hslot b hb).1
    · intro b hb
      simpa [hb] using (hslot b hb).2

namespace IsOnly

theorem mem (h : IsOnly A S a) : a ∈ S := by
  obtain ⟨l, r, rfl, -⟩ := h
  simp

/-- What is active belongs to the slot that is not vacant. -/
theorem mem_steps (h : IsOnly A S a) (hb : b ∈ S) {x : NodeId} (hx : x ∈ b.steps) (hA : x ∈ A) :
    x ∈ a.steps := by
  obtain ⟨l, r, rfl, hvacant⟩ := h
  rcases List.mem_append.1 hb with hb | hb
  · exact absurd hA (hvacant b (by simp [hb]) x hx)
  · rcases List.mem_cons.1 hb with rfl | hb
    · exact hx
    · exact absurd hA (hvacant b (by simp [hb]) x hx)

theorem congr (h : IsOnly A S a) (hA : ∀ b ∈ S, ∀ x ∈ b.steps, x ∈ A' → x ∈ A) :
    IsOnly A' S a := by
  obtain ⟨l, r, rfl, hvacant⟩ := h
  refine ⟨l, r, rfl, fun b hb x hx hA' => hvacant b hb x hx (hA b ?_ x hx hA')⟩
  rcases List.mem_append.1 hb with hb | hb <;> simp [hb]

end IsOnly

/-- A region is in the slot in which some step is active. -/
theorem IsFilled.of_mem (h : IsFilled A S) (ha : a ∈ S) {x : NodeId} (hx : x ∈ a.steps)
    (hA : x ∈ A) : IsOnly A S a ∧ IsFull A a := by
  obtain ⟨b, honly, hfull⟩ := h
  obtain ⟨l, r, rfl, hvacant⟩ := honly
  rcases List.mem_append.1 ha with ha | ha
  · exact absurd hA (hvacant a (by simp [ha]) x hx)
  · rcases List.mem_cons.1 ha with rfl | ha
    · exact ⟨⟨l, r, rfl, hvacant⟩, hfull⟩
    · exact absurd hA (hvacant a (by simp [ha]) x hx)

end Element

theorem Branch.steps_subset_of_mem {b : Branch} {bs : List Branch} (hb : b ∈ bs) {x : NodeId}
    (hx : x ∈ b.steps) {span endSpan : Span} {junction : Junction} :
    x ∈ (Element.divergence junction bs span endSpan).steps := by
  rw [Element.steps_divergence]
  exact List.mem_flatMap.2 ⟨b, hb, hx⟩

theorem Branch.mem_steps_iff {b : Branch} {x : NodeId} :
    x ∈ b.steps ↔ ∃ a ∈ b.slots, x ∈ a.steps :=
  Element.mem_stepsAll_iff

namespace Element

/-- Only the steps within a slot matter to it. -/
theorem IsFull.congr (h : IsFull A a) (hA : ∀ x ∈ a.steps, x ∈ A ↔ x ∈ A') : IsFull A' a := by
  induction h with
  | step hs => exact .step ((hA _ (by simp)).1 hs)
  | @parallel bs span endSpan slot hne honly hfull ih =>
    refine .parallel slot hne (fun b hb => ?_) fun b hb => ih b hb fun x hx => ?_
    · refine (honly b hb).congr fun c hc x hx => (hA x ?_).2
      exact Branch.steps_subset_of_mem hb (Branch.mem_steps_iff.2 ⟨c, hc, hx⟩)
    · exact hA x (Branch.steps_subset_of_mem hb
        (Branch.mem_steps_iff.2 ⟨slot b, (honly b hb).mem, hx⟩))

theorem IsFull.exists_mem (h : IsFull A a) : ∃ x ∈ a.steps, x ∈ A := by
  induction h with
  | @step s hs => exact ⟨_, by simp, hs⟩
  | @parallel bs span endSpan slot hne honly hfull ih =>
    obtain ⟨b, hb⟩ := List.exists_mem_of_ne_nil _ hne
    obtain ⟨x, hx, hA⟩ := ih b hb
    exact ⟨x, Branch.steps_subset_of_mem hb
      (Branch.mem_steps_iff.2 ⟨slot b, (honly b hb).mem, hx⟩), hA⟩

theorem IsFilled.congr (h : IsFilled A S) (hA : ∀ a ∈ S, ∀ x ∈ a.steps, x ∈ A ↔ x ∈ A') :
    IsFilled A' S := by
  obtain ⟨a, honly, hfull⟩ := h
  exact ⟨a, honly.congr fun b hb x hx => (hA b hb x hx).2, hfull.congr (hA a honly.mem)⟩

/-! ### In one slot or in none -/

/-- A region with these slots is in one of them or in none. -/
def IsSound (A : Set NodeId) (S : List Element) : Prop := IsFilled A S ∨ AreVacant A S

@[simp] theorem areVacant_append : AreVacant A (S ++ T) ↔ AreVacant A S ∧ AreVacant A T := by
  simp [AreVacant, or_imp, forall_and]

theorem areVacant_slots_iff : AreVacant A (slots es) ↔ ∀ x ∈ stepsAll es, x ∉ A := by
  simp only [AreVacant, mem_stepsAll_iff]
  grind

theorem IsFilled.not_areVacant (h : IsFilled A S) : ¬ AreVacant A S := by
  obtain ⟨a, honly, hfull⟩ := h
  obtain ⟨x, hx, hA⟩ := hfull.exists_mem
  exact fun hvacant => hvacant a honly.mem x hx hA

theorem not_isFilled_nil : ¬ IsFilled A [] := fun h => h.not_areVacant nofun

theorem isFilled_singleton_iff {a : Element} : IsFilled A [a] ↔ IsFull A a := by
  constructor
  · rintro ⟨b, honly, hfull⟩
    obtain rfl := List.mem_singleton.1 honly.mem
    exact hfull
  · exact fun h => ⟨a, ⟨[], [], rfl, nofun⟩, h⟩

/-- A region in one slot is in one half of its slots only. -/
theorem IsFilled.of_append (h : IsFilled A (S ++ T)) :
    IsFilled A S ∧ AreVacant A T ∨ AreVacant A S ∧ IsFilled A T := by
  obtain ⟨a, ⟨l, r, hlr, hvacant⟩, hfull⟩ := h
  rcases List.append_eq_append_iff.1 hlr with ⟨m, rfl, rfl⟩ | ⟨m, rfl, hm⟩
  · refine .inr ⟨fun b hb => hvacant b (by simp [hb]), a, ⟨m, r, rfl, fun b hb => ?_⟩, hfull⟩
    exact hvacant b (by simpa using .inr (List.mem_append.1 hb))
  · cases m with
    | nil =>
      obtain rfl : T = a :: r := by simpa using hm.symm
      exact .inr ⟨fun b hb => hvacant b (by simp_all), a, ⟨[], r, rfl, fun b hb =>
        hvacant b (by simp_all)⟩, hfull⟩
    | cons a' m =>
      obtain ⟨rfl, rfl⟩ : a = a' ∧ r = m ++ T := by simpa using hm
      exact .inl ⟨⟨a, ⟨l, m, rfl, fun b hb => hvacant b (by
        rcases List.mem_append.1 hb with hb | hb <;> simp [hb])⟩, hfull⟩,
        fun b hb => hvacant b (by simp [hb])⟩

namespace IsSound

theorem of_append (h : IsSound A (S ++ T)) : IsSound A S ∧ IsSound A T := by
  rcases h with h | h
  · rcases h.of_append with ⟨hS, hT⟩ | ⟨hS, hT⟩
    · exact ⟨.inl hS, .inr hT⟩
    · exact ⟨.inr hS, .inl hT⟩
  · rw [areVacant_append] at h
    exact ⟨.inr h.1, .inr h.2⟩

theorem of_mem_flatMap {α : Type} {f : α → List Element} {l : List α} {a : α}
    (h : IsSound A (l.flatMap f)) (ha : a ∈ l) : IsSound A (f a) := by
  obtain ⟨l, r, rfl⟩ := List.append_of_mem ha
  rw [List.flatMap_append, List.flatMap_cons] at h
  exact h.of_append.2.of_append.1

theorem of_mem (h : IsSound A S) (ha : a ∈ S) : IsSound A [a] := by
  obtain ⟨l, r, rfl⟩ := List.append_of_mem ha
  have hrest : IsSound A ([a] ++ r) := h.of_append.2
  exact hrest.of_append.1

/-- So is each branch of an AND divergence. -/
theorem branch {bs : List Branch} {span endSpan : Span}
    (h : IsSound A [.divergence .and bs span endSpan]) {b : Branch} (hb : b ∈ bs) :
    IsSound A b.slots := by
  rcases h with h | h
  · exact .inl ((isFull_and_iff.1 (isFilled_singleton_iff.1 h)).2 b hb)
  · refine .inr (areVacant_slots_iff.2 fun x hx => ?_)
    exact h _ (List.mem_singleton_self _) x (Branch.steps_subset_of_mem hb hx)

end IsSound

end Element

end SequentialChart
