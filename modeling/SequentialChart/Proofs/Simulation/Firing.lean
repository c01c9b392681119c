import Mathlib
import SequentialChart.Proofs.Chart.Moves
import SequentialChart.Simulation.Tick

/-!
# Transitions that fire together

All transitions that fire in a tick are decided on the steps active before it. As long as no two of
them leave the same step, they might as well fire one after the other, in any order.

## Main definitions

* `moveAll` — the active steps after rules have fired together.
* `Machine.FiresApart` — no two transitions that fire in a tick leave the same step.
* `Machine.Reaches` — the states that runs lead to.

## Main statements

* `Machine.mem_active_tick` — what a tick does to the active steps.
* `moveAll_append` — firing together is firing one after the other.
-/

namespace SequentialChart

namespace State

variable {s : State} {time : Float} {x : NodeId}

theorem mem_active_foldl_deactivate {l : List NodeId} :
    x ∈ (l.foldl deactivate s).active ↔ x ∈ s.active ∧ x ∉ l := by
  induction l generalizing s with
  | nil => simp
  | cons y l ih =>
    rw [List.foldl_cons, ih, mem_active_deactivate, List.mem_cons, not_or, and_assoc]

theorem mem_active_foldl_activate {l : List NodeId} :
    x ∈ (l.foldl (activate · time) s).active ↔ x ∈ s.active ∨ x ∈ l := by
  induction l generalizing s with
  | nil => simp
  | cons y l ih => rw [List.foldl_cons, ih, mem_active_activate, List.mem_cons, or_assoc]

end State

/-- The active steps after the rules have fired together. -/
def moveAll (A : Set NodeId) (rules : List Rule) : Set NodeId :=
  move A (rules.flatMap (·.sources)) (rules.flatMap (·.targets))

section MoveAll

variable {A : Set NodeId} {rules rules' : List Rule}

@[simp] theorem moveAll_nil : moveAll A [] = A := by
  ext x
  simp [moveAll, move]

@[simp] theorem moveAll_singleton (r : Rule) : moveAll A [r] = move A r.sources r.targets := by
  simp [moveAll]

theorem moveAll_perm (h : rules.Perm rules') : moveAll A rules = moveAll A rules' := by
  ext x
  simp only [moveAll, move, (h.flatMap_right _).mem_iff]

/-- Rules that fire together might as well fire one after the other, unless what is entered first is
left later. -/
theorem moveAll_append
    (h : ∀ r ∈ rules, ∀ r' ∈ rules', ∀ x ∈ r.targets, x ∉ r'.sources) :
    moveAll A (rules ++ rules') = moveAll (moveAll A rules) rules' := by
  ext x
  have hnot : x ∈ rules.flatMap (·.targets) → x ∉ rules'.flatMap (·.sources) := by
    intro hx hx'
    obtain ⟨r, hr, hx⟩ := List.mem_flatMap.1 hx
    obtain ⟨r', hr', hx'⟩ := List.mem_flatMap.1 hx'
    exact h r hr r' hr' x hx hx'
  simp only [moveAll, move, Set.mem_ofPred_eq, List.flatMap_append, List.mem_append]
  tauto

end MoveAll

/-- The condition of a rule holds if the text that it was read from does. -/
theorem Expression.any_holds_parse {text : String} {now : Moment} :
    (parse text).toOption.any (·.holds now) = textHolds text now := by
  unfold textHolds
  cases parse text <;> rfl

namespace Machine

variable {m : Machine} {s : State} {x : NodeId}

theorem mem_active_start {time : Float} :
    x ∈ (m.start time).active ↔ x ∈ (m.steps.filter (·.isInitial)).map (·.id) := by
  have hfold : m.start time =
      ((m.steps.filter (·.isInitial)).map (·.id)).foldl (State.activate · time) {} := by
    rw [List.foldl_map]
    rfl
  rw [hfold, State.mem_active_foldl_activate]
  exact or_iff_right (List.not_mem_nil)

theorem mem_active_fire {rules : List Rule} {time : Float} :
    x ∈ (fire s rules time).active ↔ x ∈ moveAll {y | y ∈ s.active} rules := by
  simp only [fire, State.mem_active_foldl_activate, State.mem_active_foldl_deactivate]
  rfl

theorem mem_active_tick {i : Inputs} {globals : List Action} :
    x ∈ (m.tick s i globals).state.active ↔
      x ∈ moveAll {y | y ∈ s.active} (m.firing s i) :=
  mem_active_fire

theorem mem_of_mem_firing {i : Inputs} {r : Rule} (h : r ∈ m.firing s i) : r ∈ m.rules :=
  (List.mem_filter.1 h).1

theorem mem_active_of_mem_firing {i : Inputs} {r : Rule} (h : r ∈ m.firing s i)
    (hx : x ∈ r.sources) : x ∈ s.active := by
  have hfires := (List.mem_filter.1 h).2
  simp only [fires, Rule.isEnabled, Bool.and_eq_true, List.all_eq_true, decide_eq_true_eq] at hfires
  exact hfires.1.2 x hx

/-- A transition that is triggered fires if all the steps that it leaves are active. -/
theorem mem_firing_of_trigger {i : Inputs} {r : Rule} (hr : r ∈ m.rules) (hne : r.sources ≠ [])
    (hsources : ∀ x ∈ r.sources, x ∈ s.active) (htrigger : r.id ∈ i.triggers) :
    r ∈ m.firing s i := by
  refine List.mem_filter.2 ⟨hr, ?_⟩
  have henabled : r.isEnabled s := by simpa [Rule.isEnabled, hne] using hsources
  simp [fires, henabled, htrigger]

theorem mem_active_tick_of_mem_targets {i : Inputs} {globals : List Action} {r : Rule}
    (hr : r ∈ m.firing s i) (hx : x ∈ r.targets) : x ∈ (m.tick s i globals).state.active :=
  mem_active_tick.2 (.inr (List.mem_flatMap.2 ⟨r, hr, hx⟩))

/-- No two transitions that fire with the inputs leave the same step. -/
def FiresApart (m : Machine) (s : State) (i : Inputs) : Prop :=
  (m.firing s i).Pairwise fun r r' => r.sources.Disjoint r'.sources

/-- The states that runs lead to in which no two transitions that fire together leave the same
step. -/
inductive Reaches (m : Machine) : State → Prop
  | start (time : Float) : Reaches m (m.start time)
  | tick {s : State} (i : Inputs) (globals : List Action) : Reaches m s → m.FiresApart s i →
    Reaches m (m.tick s i globals).state

end Machine

/-! ### Rules that transfer -/

/-- The rules can fire together in a region: each leaves steps that are active, and no two leave the
same one. -/
structure FireTogether (es : List Element) (A : Set NodeId) (rules : List Rule) : Prop where
  transfers : ∀ r ∈ rules, Element.Transfers es r.sources r.targets
  enabled : ∀ r ∈ rules, ∀ x ∈ r.sources, x ∈ A
  apart : rules.Pairwise fun r r' => r.sources.Disjoint r'.sources

namespace FireTogether

open Element

variable {es : List Element} {A : Set NodeId} {r : Rule} {rules rules' : List Rule}

theorem sublist (h : FireTogether es A rules) (hsub : rules'.Sublist rules) :
    FireTogether es A rules' where
  transfers r hr := h.transfers r (hsub.subset hr)
  enabled r hr := h.enabled r (hsub.subset hr)
  apart := h.apart.sublist hsub

theorem perm (h : FireTogether es A rules) (hperm : rules.Perm rules') :
    FireTogether es A rules' where
  transfers r hr := h.transfers r (hperm.mem_iff.2 hr)
  enabled r hr := h.enabled r (hperm.mem_iff.2 hr)
  apart := hperm.pairwise h.apart fun h => h.symm

/-- What one rule enters is not left by another one. -/
theorem not_mem_sources (h : FireTogether es A (rules ++ rules')) (hes : IsRegion es)
    (hA : IsSound A (slots es)) :
    ∀ r ∈ rules, ∀ r' ∈ rules', ∀ x ∈ r.targets, x ∉ r'.sources := by
  intro r hr r' hr' x hx hx'
  have hr₁ : r ∈ rules ++ rules' := List.mem_append_left _ hr
  have hr₂ : r' ∈ rules ++ rules' := List.mem_append_right _ hr'
  have hleft := (h.transfers r hr₁).mem_left hes hA (h.enabled r hr₁) hx (h.enabled r' hr₂ x hx')
  exact (List.pairwise_append.1 h.apart).2.2 r hr r' hr' hleft hx'

theorem moveAll_append (h : FireTogether es A (rules ++ rules')) (hes : IsRegion es)
    (hA : IsSound A (slots es)) :
    moveAll A (rules ++ rules') = moveAll (moveAll A rules) rules' :=
  SequentialChart.moveAll_append (h.not_mem_sources hes hA)

/-- After some rules have fired, the others still can. -/
theorem after (h : FireTogether es A (rules ++ rules')) :
    FireTogether es (moveAll A rules) rules' where
  transfers r hr := h.transfers r (List.mem_append_right _ hr)
  enabled r hr x hx := by
    refine .inl ⟨h.enabled r (List.mem_append_right _ hr) x hx, fun hmem => ?_⟩
    obtain ⟨r', hr', hx'⟩ := List.mem_flatMap.1 hmem
    exact (List.pairwise_append.1 h.apart).2.2 r' hr' r hr hx' hx
  apart := (List.pairwise_append.1 h.apart).2.1

/-- A region in one of its slots or in none is so after rules have fired together. -/
theorem isSound (h : FireTogether es A rules) (hes : IsRegion es) (hA : IsSound A (slots es)) :
    IsSound (moveAll A rules) (slots es) := by
  induction rules generalizing A with
  | nil => rwa [moveAll_nil]
  | cons r rules ih =>
    have hsplit : FireTogether es A ([r] ++ rules) := h
    have hr : r ∈ r :: rules := List.mem_cons_self
    have hfirst : IsSound (moveAll A [r]) (slots es) := by
      rw [moveAll_singleton]
      exact (h.transfers r hr).isSound hes hA (h.enabled r hr)
    have hall : moveAll A (r :: rules) = moveAll (moveAll A [r]) rules :=
      hsplit.moveAll_append hes hA
    -- the others fire in what the first one has left behind
    rw [hall]
    exact ih hsplit.after hfirst

/-- Any of the rules can be the last one to fire. -/
theorem exists_last (h : FireTogether es A rules) (hes : IsRegion es) (hA : IsSound A (slots es))
    (hr : r ∈ rules) : ∃ B, IsSound B (slots es) ∧ (∀ x ∈ r.sources, x ∈ B) ∧
      moveAll A rules = move B r.sources r.targets := by
  obtain ⟨l, rest, rfl⟩ := List.append_of_mem hr
  have hperm : (l ++ r :: rest).Perm ((l ++ rest) ++ [r]) :=
    List.perm_middle.trans (List.perm_append_singleton r (l ++ rest)).symm
  have hlast := h.perm hperm
  refine ⟨moveAll A (l ++ rest), ?_, hlast.after.enabled r (List.mem_singleton_self r), ?_⟩
  · exact (hlast.sublist (List.sublist_append_left _ _)).isSound hes hA
  · rw [moveAll_perm hperm, hlast.moveAll_append hes hA, moveAll_singleton]

end FireTogether

end SequentialChart
