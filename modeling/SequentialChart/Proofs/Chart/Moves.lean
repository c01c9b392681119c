import Mathlib
import SequentialChart.Proofs.Chart.Marking

/-!
# Moves

Steps are left and entered together. What is left is the end of a slot, and what is entered the
beginning of a slot of the same region, so the region is in that slot afterwards.

## Main definitions

* `Element.IsRegion` — a region that follows the rules.
* `Element.firsts`, `Element.lasts` — the steps that are entered and left with a slot.
* `move` — the active steps after some were left and others entered.
* `Element.Moves`, `Element.Transfers` — what is left and entered together.

## Main statements

* `Element.Moves.isFilled`, `Element.Transfers.isSound` — a region is in exactly one slot
  afterwards, or in none at the end of the chart.
* `Element.Transfers.mem_left` — what is entered and was active before is left as well.
-/

namespace SequentialChart

variable {A : Set NodeId} {a b : Element} {es : List Element}

namespace Element

/-! ### Regions -/

/-- The list is all that a region consists of at its top: it follows the rules, and no step occurs
twice. -/
structure IsRegion (es : List Element) : Prop where
  placed : ArePlaced true none es
  nodup : (stepsAll es).Nodup

theorem mem_levelAll_of_mem {e : Element} (h : e ∈ es) : e ∈ levelAll es := by
  induction es with
  | nil => cases h
  | cons f es ih =>
    rcases List.mem_cons.1 h with rfl | h
    · refine List.mem_append_left _ ?_
      match e with
      | .step _ | .transition _ | .jump _ | .divergence .and _ _ _ | .divergence .or _ _ _ =>
        simp [level]
    · exact List.mem_append_right _ (ih h)

/-- The branches of AND divergences on the level of a sequence follow the rules. -/
theorem ArePlaced.branch_of_mem_levelAll {strict : Bool} {previous : Option Element}
    (h : ArePlaced strict previous es) {bs : List Branch} {span endSpan : Span}
    (ha : .divergence .and bs span endSpan ∈ levelAll es) :
    2 ≤ bs.length ∧
      ∀ b ∈ bs, Junction.and.Bounds b.elements ∧ ArePlaced strict none b.elements := by
  induction es using sequence_induction generalizing previous with
  | nil => cases ha
  | step s es ih => exact ih h.tail ((List.mem_cons.1 ha).resolve_left nofun)
  | transition t es ih => exact ih h.tail ((List.mem_cons.1 ha).resolve_left nofun)
  | jump j es ih => exact ih h.tail ((List.mem_cons.1 ha).resolve_left nofun)
  | divergence junction bs' span' endSpan' es hbs ih =>
    rcases List.mem_append.1 ha with ha | ha
    · cases junction with
      | and =>
        obtain ⟨rfl, rfl, rfl⟩ : bs = bs' ∧ span = span' ∧ endSpan = endSpan' := by
          simpa [Element.level] using ha
        exact ⟨h.2.1.2.2.2.1, fun b hb => h.branch hb⟩
      | or =>
        rw [Element.level, List.mem_cons, Branch.levelAll_eq, List.mem_flatMap] at ha
        obtain ⟨b, hb, ha⟩ := ha.resolve_left nofun
        exact hbs b hb (h.branch hb).2 ha
    · exact ih h.tail ha

theorem eq_of_mem_flatMap {α β : Type} {f : α → List β} {l : List α} (h : (l.flatMap f).Nodup)
    {a b : α} (ha : a ∈ l) (hb : b ∈ l) {x : β} (hxa : x ∈ f a) (hxb : x ∈ f b) : a = b := by
  by_contra hne
  have : Std.Symm (Function.onFun List.Disjoint f) := ⟨fun _ _ h => List.Disjoint.symm h⟩
  exact (List.nodup_flatMap.1 h).2.forall ha hb hne hxa hxb

namespace IsRegion

theorem nodup_slots (h : IsRegion es) : ((slots es).flatMap steps).Nodup := by
  rw [flatMap_slots]
  exact h.nodup

theorem eq_of_mem_steps (h : IsRegion es) (ha : a ∈ slots es) (hb : b ∈ slots es) {x : NodeId}
    (hxa : x ∈ a.steps) (hxb : x ∈ b.steps) : a = b :=
  eq_of_mem_flatMap h.nodup_slots ha hb hxa hxb

theorem isOnly (h : IsRegion es) (ha : a ∈ slots es)
    (hA : ∀ x ∈ stepsAll es, x ∈ A → x ∈ a.steps) : IsOnly A (slots es) a := by
  have hnodup := h.nodup_slots
  have hmem : ∀ b ∈ slots es, ∀ x ∈ b.steps, x ∈ A → x ∈ a.steps := by
    intro b hb x hx
    exact hA x (mem_stepsAll_iff.2 ⟨b, hb, hx⟩)
  obtain ⟨l, r, hslots⟩ := List.append_of_mem ha
  rw [hslots] at hnodup hmem ⊢
  refine ⟨l, r, rfl, fun b hb x hx hxA => ?_⟩
  have hperm : (l ++ a :: r).Perm (a :: (l ++ r)) := List.perm_middle
  have hdisjoint := (hperm.flatMap_right steps).nodup_iff.1 hnodup
  rw [List.flatMap_cons] at hdisjoint
  exact (List.nodup_append'.1 hdisjoint).2.2
    (hmem b (hperm.mem_iff.2 (List.mem_cons_of_mem a hb)) x hx hxA)
    (List.mem_flatMap.2 ⟨b, hb, hx⟩)

section Branches

variable {bs : List Branch} {span endSpan : Span}

theorem branches_ne_nil (h : IsRegion es)
    (ha : .divergence .and bs span endSpan ∈ slots es) : bs ≠ [] := by
  have htwo := (h.placed.branch_of_mem_levelAll (mem_slots_iff.1 ha).1).1
  exact List.ne_nil_of_length_pos (by omega)

theorem bounds (h : IsRegion es) (ha : .divergence .and bs span endSpan ∈ slots es) {c : Branch}
    (hc : c ∈ bs) : Junction.and.Bounds c.elements :=
  ((h.placed.branch_of_mem_levelAll (mem_slots_iff.1 ha).1).2 c hc).1

theorem nodup_branches (h : IsRegion es) (ha : .divergence .and bs span endSpan ∈ slots es) :
    (bs.flatMap Branch.steps).Nodup := by
  rw [← steps_divergence .and bs span endSpan]
  exact (List.nodup_flatMap.1 h.nodup_slots).1 _ ha

/-- Each branch of an AND divergence is a region. -/
theorem branch (h : IsRegion es) (ha : .divergence .and bs span endSpan ∈ slots es) {c : Branch}
    (hc : c ∈ bs) : IsRegion c.elements where
  placed := ((h.placed.branch_of_mem_levelAll (mem_slots_iff.1 ha).1).2 c hc).2
  nodup := (List.nodup_flatMap.1 (h.nodup_branches ha)).1 c hc

end Branches

end IsRegion

/-! ### The ends of slots -/

/-- The steps that are entered with a slot. -/
def firsts : Element → List NodeId
  | step s => [.step s.number]
  | divergence .and branches _ _ => Branch.firstSteps branches
  | _ => []

/-- The steps that are left with a slot. -/
def lasts : Element → List NodeId
  | step s => [.step s.number]
  | divergence .and branches _ _ => Branch.lastSteps branches
  | _ => []

end Element

namespace Branch

theorem mem_firstSteps_iff {bs : List Branch} {x : NodeId} : x ∈ firstSteps bs ↔
    ∃ b ∈ bs, ∃ s, b.elements.head? = some (.step s) ∧ x = .step s.number := by
  simp only [firstSteps, heads, List.mem_map, Element.mem_stepNumbers_iff, List.mem_filterMap]
  grind

theorem mem_lastSteps_iff {bs : List Branch} {x : NodeId} : x ∈ lastSteps bs ↔
    ∃ b ∈ bs, ∃ s, b.elements.getLast? = some (.step s) ∧ x = .step s.number := by
  simp only [lastSteps, lasts, List.mem_map, Element.mem_stepNumbers_iff, List.mem_filterMap]
  grind

/-- A step of a branch is one of its slots. -/
theorem step_mem_slots {b : Branch} {s : Step} (h : Element.step s ∈ b.elements) :
    Element.step s ∈ b.slots :=
  Element.mem_slots_iff.2 ⟨Element.mem_levelAll_of_mem h, rfl⟩

theorem mem_steps_of_mem {b : Branch} {s : Step} (h : Element.step s ∈ b.elements) :
    .step s.number ∈ b.steps :=
  mem_steps_iff.2 ⟨.step s, step_mem_slots h, by simp⟩

end Branch

theorem Element.exists_step_of_any_isStep {e : Option Element} (h : e.any isStep) :
    ∃ s, e = some (step s) := by
  cases e with
  | none => cases h
  | some e => cases e <;> simp [isStep] at h ⊢

namespace Junction.Bounds

theorem exists_first (h : Junction.and.Bounds es) : ∃ s, es.head? = some (.step s) :=
  Element.exists_step_of_any_isStep h.1

theorem exists_last (h : Junction.and.Bounds es) : ∃ s, es.getLast? = some (.step s) :=
  Element.exists_step_of_any_isStep h.2

end Junction.Bounds

namespace Element

theorem firsts_subset (a : Element) : a.firsts ⊆ a.steps := by
  intro x hx
  match a with
  | .step s => exact hx
  | .divergence .and bs _ _ =>
    obtain ⟨b, hb, s, hs, rfl⟩ := Branch.mem_firstSteps_iff.1 hx
    exact Branch.steps_subset_of_mem hb (Branch.mem_steps_of_mem (List.mem_of_head? hs))
  | .transition _ | .jump _ | .divergence .or _ _ _ => cases hx

theorem lasts_subset (a : Element) : a.lasts ⊆ a.steps := by
  intro x hx
  match a with
  | .step s => exact hx
  | .divergence .and bs _ _ =>
    obtain ⟨b, hb, s, hs, rfl⟩ := Branch.mem_lastSteps_iff.1 hx
    exact Branch.steps_subset_of_mem hb (Branch.mem_steps_of_mem (List.mem_of_getLast? hs))
  | .transition _ | .jump _ | .divergence .or _ _ _ => cases hx

namespace IsRegion

theorem lasts_ne_nil (h : IsRegion es) (ha : a ∈ slots es) : a.lasts ≠ [] := by
  have hslot := (mem_slots_iff.1 ha).2
  match a with
  | .step s => exact List.cons_ne_nil _ _
  | .divergence .and bs _ _ =>
    obtain ⟨b, hb⟩ := List.exists_mem_of_ne_nil _ (h.branches_ne_nil ha)
    obtain ⟨s, hs⟩ := (h.bounds ha hb).exists_last
    exact List.ne_nil_of_mem (Branch.mem_lastSteps_iff.2 ⟨b, hb, s, hs, rfl⟩)
  | .transition _ | .jump _ | .divergence .or _ _ _ => cases hslot

/-- A slot whose first steps alone are active is full. -/
theorem isFull (h : IsRegion es) (ha : a ∈ slots es)
    (hA : ∀ x ∈ a.steps, x ∈ A ↔ x ∈ a.firsts) : IsFull A a := by
  have hslot := (mem_slots_iff.1 ha).2
  match a with
  | .step s => exact .step ((hA _ (by simp)).2 (by simp [firsts]))
  | .divergence .and bs _ _ =>
    refine isFull_and_iff.2 ⟨h.branches_ne_nil ha, fun b hb => ?_⟩
    obtain ⟨s, hs⟩ := (h.bounds ha hb).exists_first
    have hmem : Element.step s ∈ b.elements := List.mem_of_head? hs
    have hbranch : ∀ x ∈ b.steps, x ∈ A ↔ x = .step s.number := by
      intro x hx
      rw [hA x (Branch.steps_subset_of_mem hb hx), firsts, Branch.mem_firstSteps_iff]
      constructor
      · rintro ⟨b', hb', s', hs', rfl⟩
        have hx' := Branch.mem_steps_of_mem (List.mem_of_head? hs')
        obtain rfl := eq_of_mem_flatMap (h.nodup_branches ha) hb hb' hx hx'
        obtain rfl : s = s' := by simpa [hs] using hs'
        rfl
      · rintro rfl
        exact ⟨b, hb, s, hs, rfl⟩
    refine ⟨.step s, (h.branch ha hb).isOnly (Branch.step_mem_slots hmem) fun x hx hxA => ?_,
      .step ((hbranch _ (Branch.mem_steps_of_mem hmem)).2 rfl)⟩
    simpa using (hbranch x hx).1 hxA
  | .transition _ | .jump _ | .divergence .or _ _ _ => cases hslot

/-- If the last steps of a full slot are active, nothing else in it is. -/
theorem mem_lasts (h : IsRegion es) (ha : a ∈ slots es) (hfull : IsFull A a)
    (hlasts : ∀ x ∈ a.lasts, x ∈ A) {x : NodeId} (hx : x ∈ a.steps) (hA : x ∈ A) :
    x ∈ a.lasts := by
  have hslot := (mem_slots_iff.1 ha).2
  match a with
  | .step s => exact hx
  | .divergence .and bs _ _ =>
    rw [steps_divergence] at hx
    obtain ⟨b, hb, hx⟩ := List.mem_flatMap.1 hx
    obtain ⟨s, hs⟩ := (h.bounds ha hb).exists_last
    have hlast : .step s.number ∈ Branch.lastSteps bs :=
      Branch.mem_lastSteps_iff.2 ⟨b, hb, s, hs, rfl⟩
    have honly := (((isFull_and_iff.1 hfull).2 b hb).of_mem
      (Branch.step_mem_slots (List.mem_of_getLast? hs)) (by simp) (hlasts _ hlast)).1
    obtain ⟨c, hc, hx⟩ := Branch.mem_steps_iff.1 hx
    obtain rfl : x = .step s.number := by simpa using honly.mem_steps hc hx hA
    exact hlast
  | .transition _ | .jump _ | .divergence .or _ _ _ => cases hslot

/-- If the last steps of a slot are active, nothing else in the region is. -/
theorem mem_lasts_of_isFilled (h : IsRegion es) (ha : a ∈ slots es) (hA : IsFilled A (slots es))
    (hlasts : ∀ x ∈ a.lasts, x ∈ A) {x : NodeId} (hx : x ∈ stepsAll es) (hxA : x ∈ A) :
    x ∈ a.lasts := by
  obtain ⟨y, hy⟩ := List.exists_mem_of_ne_nil _ (h.lasts_ne_nil ha)
  obtain ⟨honly, hfull⟩ := hA.of_mem ha (a.lasts_subset hy) (hlasts y hy)
  obtain ⟨b, hb, hx⟩ := mem_stepsAll_iff.1 hx
  exact h.mem_lasts ha hfull hlasts (honly.mem_steps hb hx hxA) hxA

end IsRegion

end Element

/-! ### Moves -/

/-- The active steps after the steps `left` were left and then the steps `entered` were entered. -/
def move (A : Set NodeId) (left entered : List NodeId) : Set NodeId :=
  {x | x ∈ A ∧ x ∉ left ∨ x ∈ entered}

theorem mem_move_of_not_mem {left entered : List NodeId} {x : NodeId} (hleft : x ∉ left)
    (hentered : x ∉ entered) : x ∈ move A left entered ↔ x ∈ A := by
  constructor
  · rintro (⟨hA, -⟩ | hmem)
    · exact hA
    · exact absurd hmem hentered
  · exact fun hA => .inl ⟨hA, hleft⟩

namespace Element

/-- Steps that are left and entered together in a region or in one of those in it. -/
inductive Moves : List Element → List NodeId → List NodeId → Prop
  | along {es : List Element} {a b : Element} :
    a ∈ slots es → b ∈ slots es → Moves es a.lasts b.firsts
  | within {es : List Element} {bs : List Branch} {span endSpan : Span} {b : Branch}
    {left entered : List NodeId} : .divergence .and bs span endSpan ∈ slots es → b ∈ bs →
      Moves b.elements left entered → Moves es left entered

/-- Steps that are left together so that a region ends. -/
def Leaves (es : List Element) (left : List NodeId) : Prop := ∃ a ∈ slots es, left = a.lasts

theorem Leaves.areVacant {left : List NodeId} (h : Leaves es left) (hes : IsRegion es)
    (hA : IsFilled A (slots es)) (hleft : ∀ x ∈ left, x ∈ A) :
    AreVacant (move A left []) (slots es) := by
  obtain ⟨a, ha, rfl⟩ := h
  rintro b hb x hx (⟨hxA, hnot⟩ | hentered)
  · exact hnot (hes.mem_lasts_of_isFilled ha hA hleft (mem_stepsAll_iff.2 ⟨b, hb, hx⟩) hxA)
  · cases hentered

namespace Moves

variable {left entered : List NodeId}

theorem left_subset (h : Moves es left entered) : left ⊆ stepsAll es := by
  intro x hx
  induction h with
  | @along es a b ha hb => exact mem_stepsAll_iff.2 ⟨a, ha, a.lasts_subset hx⟩
  | within ha hb hmoves ih =>
    exact mem_stepsAll_iff.2 ⟨_, ha, Branch.steps_subset_of_mem hb (ih hx)⟩

theorem entered_subset (h : Moves es left entered) : entered ⊆ stepsAll es := by
  intro x hx
  induction h with
  | @along es a b ha hb => exact mem_stepsAll_iff.2 ⟨b, hb, b.firsts_subset hx⟩
  | within ha hb hmoves ih =>
    exact mem_stepsAll_iff.2 ⟨_, ha, Branch.steps_subset_of_mem hb (ih hx)⟩

theorem left_ne_nil (h : Moves es left entered) (hes : IsRegion es) : left ≠ [] := by
  induction h with
  | along ha hb => exact hes.lasts_ne_nil ha
  | within ha hb hmoves ih => exact ih (hes.branch ha hb)

/-- If the steps that are left in a branch of an AND divergence are active, the region is in the
divergence. -/
theorem isFull_of_within (hes : IsRegion es) {bs : List Branch} {span endSpan : Span} {b : Branch}
    (ha : .divergence .and bs span endSpan ∈ slots es) (hb : b ∈ bs)
    (h : Moves b.elements left entered) (hA : IsFilled A (slots es)) (hleft : ∀ x ∈ left, x ∈ A) :
    IsOnly A (slots es) (.divergence .and bs span endSpan) ∧
      ∀ c ∈ bs, IsFilled A c.slots := by
  obtain ⟨y, hy⟩ := List.exists_mem_of_ne_nil _ (h.left_ne_nil (hes.branch ha hb))
  obtain ⟨honly, hfull⟩ :=
    hA.of_mem ha (Branch.steps_subset_of_mem hb (h.left_subset hy)) (hleft y hy)
  exact ⟨honly, (isFull_and_iff.1 hfull).2⟩

/-- After a move along a region, only the steps that were entered are active in it. -/
theorem mem_move_along (hes : IsRegion es) (ha : a ∈ slots es) (hA : IsFilled A (slots es))
    (hleft : ∀ x ∈ a.lasts, x ∈ A) {x : NodeId} (hx : x ∈ stepsAll es) :
    x ∈ move A a.lasts entered ↔ x ∈ entered := by
  constructor
  · rintro (⟨hxA, hnot⟩ | hentered)
    · exact absurd (hes.mem_lasts_of_isFilled ha hA hleft hx hxA) hnot
    · exact hentered
  · exact .inr

/-- A move within a branch of an AND divergence does not change the other branches. -/
theorem isFilled_of_ne (hes : IsRegion es) {bs : List Branch} {span endSpan : Span} {b c : Branch}
    (ha : .divergence .and bs span endSpan ∈ slots es) (hb : b ∈ bs) (hc : c ∈ bs) (hcb : c ≠ b)
    (h : Moves b.elements left entered) (hfilled : IsFilled A c.slots) :
    IsFilled (move A left entered) c.slots := by
  refine hfilled.congr fun d hd x hx => ?_
  have hout : x ∉ b.steps := by
    intro hxb
    have hxc : x ∈ c.steps := Branch.mem_steps_iff.2 ⟨d, hd, hx⟩
    exact hcb (eq_of_mem_flatMap (hes.nodup_branches ha) hc hb hxc hxb)
  exact (mem_move_of_not_mem (fun hl => hout (h.left_subset hl))
    fun he => hout (h.entered_subset he)).symm

/-- A region that is in exactly one slot is in exactly one slot afterwards. -/
theorem isFilled (h : Moves es left entered) (hes : IsRegion es) (hA : IsFilled A (slots es))
    (hleft : ∀ x ∈ left, x ∈ A) : IsFilled (move A left entered) (slots es) := by
  induction h generalizing A with
  | @along es a b ha hb =>
    refine ⟨b, hes.isOnly hb ?_, hes.isFull hb ?_⟩
    · intro x hx hm
      exact b.firsts_subset ((mem_move_along hes ha hA hleft hx).1 hm)
    · intro x hx
      exact mem_move_along hes ha hA hleft (mem_stepsAll_iff.2 ⟨b, hb, hx⟩)
  | @within es bs span endSpan b left entered ha hb hmoves ih =>
    obtain ⟨honly, hfilled⟩ := isFull_of_within hes ha hb hmoves hA hleft
    refine ⟨_, hes.isOnly ha ?_, isFull_and_iff.2 ⟨hes.branches_ne_nil ha, ?_⟩⟩
    · rintro x hx (⟨hxA, -⟩ | hentered)
      · obtain ⟨c, hc, hx⟩ := mem_stepsAll_iff.1 hx
        exact honly.mem_steps hc hx hxA
      · exact Branch.steps_subset_of_mem hb (hmoves.entered_subset hentered)
    · -- only the branch that is moved in changes
      intro c hc
      by_cases hcb : c = b
      · subst hcb
        exact ih (hes.branch ha hc) (hfilled c hc) hleft
      · exact isFilled_of_ne hes ha hb hc hcb hmoves (hfilled c hc)

theorem mem_left (h : Moves es left entered) (hes : IsRegion es) (hA : IsFilled A (slots es))
    (hleft : ∀ x ∈ left, x ∈ A) {x : NodeId} (hx : x ∈ entered) (hxA : x ∈ A) : x ∈ left := by
  induction h generalizing A with
  | @along es a b ha hb =>
    exact hes.mem_lasts_of_isFilled ha hA hleft (mem_stepsAll_iff.2 ⟨b, hb, b.firsts_subset hx⟩) hxA
  | @within es bs span endSpan b left entered ha hb hmoves ih =>
    obtain ⟨-, hfilled⟩ := isFull_of_within hes ha hb hmoves hA hleft
    exact ih (hes.branch ha hb) (hfilled b hb) hleft hx hxA

end Moves

/-- What a transition leaves and enters: it may end the region. -/
def Transfers (es : List Element) (left entered : List NodeId) : Prop :=
  Moves es left entered ∨ entered = [] ∧ Leaves es left

namespace Transfers

variable {left entered : List NodeId}

theorem isFilled (h : Transfers es left entered) (hes : IsRegion es) (hA : IsSound A (slots es))
    (hleft : ∀ x ∈ left, x ∈ A) : IsFilled A (slots es) := by
  refine hA.resolve_right ?_
  intro hvacant
  have hnot : ∀ x ∈ left, x ∉ stepsAll es := by
    intro x hx hmem
    exact areVacant_slots_iff.1 hvacant x hmem (hleft x hx)
  rcases h with h | ⟨-, a, ha, rfl⟩
  · obtain ⟨x, hx⟩ := List.exists_mem_of_ne_nil _ (h.left_ne_nil hes)
    exact hnot x hx (h.left_subset hx)
  · obtain ⟨x, hx⟩ := List.exists_mem_of_ne_nil _ (hes.lasts_ne_nil ha)
    exact hnot x hx (mem_stepsAll_iff.2 ⟨a, ha, a.lasts_subset hx⟩)

/-- A region in one of its slots is in one of them or in none afterwards. -/
theorem isSound (h : Transfers es left entered) (hes : IsRegion es) (hA : IsSound A (slots es))
    (hleft : ∀ x ∈ left, x ∈ A) : IsSound (move A left entered) (slots es) := by
  have hfilled := h.isFilled hes hA hleft
  rcases h with h | ⟨rfl, h⟩
  · exact .inl (h.isFilled hes hfilled hleft)
  · exact .inr (h.areVacant hes hfilled hleft)

/-- What is entered and was active before is left as well. -/
theorem mem_left (h : Transfers es left entered) (hes : IsRegion es) (hA : IsSound A (slots es))
    (hleft : ∀ x ∈ left, x ∈ A) {x : NodeId} (hx : x ∈ entered) (hxA : x ∈ A) : x ∈ left := by
  have hfilled := h.isFilled hes hA hleft
  rcases h with h | ⟨rfl, -⟩
  · exact h.mem_left hes hfilled hleft hx hxA
  · cases hx

end Transfers

end Element

end SequentialChart
