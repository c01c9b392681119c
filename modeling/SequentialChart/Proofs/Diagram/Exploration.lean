import Mathlib
import SequentialChart.Diagram.Neighbours

/-!
# The nodes met by an exploration

An exploration does not enter a node twice, so it may overlook what lies beyond a node that it met
behind a gate and without one. Where all connections into a transition come from one node, that
cannot happen, and an exploration meets exactly the nodes that a way through gates leads to.

## Main definitions

* `Diagram.Meets` — a way leads from a visit to a node.
* `Diagram.Unambiguous` — all connections into a transition come from one node.

## Main statements

* `Diagram.mem_reach_iff` — the nodes met from a transition on.
-/

namespace SequentialChart

variable {α : Type}

namespace Direction

/-- The end of a connection that is met first. -/
def near (c : Connection α) : Direction → NodeId
  | backward => c.target
  | forward => c.source

/-- The end of a connection that is met last. -/
def far (c : Connection α) : Direction → NodeId
  | backward => c.source
  | forward => c.target

end Direction

namespace Diagram

variable {d : Diagram α} {direction : Direction}

theorem neighbours_eq (d : Diagram α) (direction : Direction) (id : NodeId) :
    d.neighbours direction id =
      (d.connections.filter (direction.near · = id)).map (direction.far ·) := by
  cases direction <;> rfl

theorem mem_neighbours_iff {id n : NodeId} :
    n ∈ d.neighbours direction id ↔
      ∃ c ∈ d.connections, direction.near c = id ∧ direction.far c = n := by
  simp [neighbours_eq, and_assoc]

theorem beyond_gate {id : NodeId} {g : GateNode α} (h : d.node? id = some (.gate g))
    (behind : Bool) :
    d.beyond direction (id, behind) = (d.neighbours direction id).map (·, true) := by
  simp [beyond, h]

theorem beyond_transition {id : NodeId} {t : TransitionNode α}
    (h : d.node? id = some (.transition t)) (behind : Bool) :
    d.beyond direction (id, behind) =
      if behind && direction = .forward then (d.neighbours direction id).map (·, false)
      else [] := by
  simp [beyond, h]

theorem beyond_step {id : NodeId} {s : StepNode α} (h : d.node? id = some (.step s))
    (behind : Bool) : d.beyond direction (id, behind) = [] := by
  simp [beyond, h]

/-- A way that an exploration may take leads from a visit to a node. -/
inductive Meets (d : Diagram α) (direction : Direction) : Visit → NodeId → Prop
  | here (v : Visit) : Meets d direction v v.1
  | beyond {v w : Visit} {x : NodeId} :
    w ∈ d.beyond direction v → Meets d direction w x → Meets d direction v x

/-- An exploration meets nothing but what a way leads to. -/
theorem meets_of_mem_explore {fuel : Nat} {seen : List NodeId} {pending : List Visit} {x : NodeId}
    (h : x ∈ d.explore direction fuel seen pending) : ∃ v ∈ pending, d.Meets direction v x := by
  fun_induction explore d direction fuel seen pending with
  | case1 => cases h
  | case2 => cases h
  | case3 fuel seen v pending hv ih =>
    obtain ⟨w, hw, hm⟩ := ih h
    exact ⟨w, List.mem_cons_of_mem v hw, hm⟩
  | case4 fuel seen v pending hv ih =>
    rcases List.mem_cons.1 h with rfl | h
    · exact ⟨v, by simp, .here v⟩
    · obtain ⟨w, hw, hm⟩ := ih h
      rcases List.mem_append.1 hw with hw | hw
      · exact ⟨v, by simp, .beyond hw hm⟩
      · exact ⟨w, List.mem_cons_of_mem v hw, hm⟩

/-! ### Enough fuel -/

/-- The number of connections that begin at nodes not seen yet. -/
def unseen (d : Diagram α) (direction : Direction) (seen : List NodeId) : Nat :=
  d.connections.countP (direction.near · ∉ seen)

theorem length_beyond_le (d : Diagram α) (direction : Direction) (v : Visit) :
    (d.beyond direction v).length ≤ (d.neighbours direction v.1).length := by
  unfold beyond
  split
  · simp
  · split <;> simp
  · simp

/-- A node that is entered uses up its connections. -/
theorem unseen_cons {id : NodeId} {seen : List NodeId} (h : id ∉ seen) :
    (d.neighbours direction id).length + d.unseen direction (id :: seen) =
      d.unseen direction seen := by
  simp only [neighbours_eq, unseen, List.length_map, ← List.countP_eq_length_filter]
  induction d.connections with
  | nil => rfl
  | cons c cs ih =>
    simp only [List.countP_cons]
    by_cases hc : direction.near c = id
    · have : direction.near c ∉ seen := hc ▸ h
      simp [hc, h] at ih ⊢
      omega
    · by_cases hs : direction.near c ∈ seen
      · simp [hc, hs] at ih ⊢
        omega
      · simp [hc, hs] at ih ⊢
        omega

/-! ### Nothing is overlooked -/

/-- All connections into a transition come from one node. -/
def Unambiguous (d : Diagram α) : Prop :=
  ∀ c ∈ d.connections, ∀ c' ∈ d.connections, c.target = c'.target →
    (∃ t, d.node? c.target = some (.transition t)) → c.source = c'.source

/-- Whether a connection leads from a gate to the node. -/
def isBehindGate (d : Diagram α) (id : NodeId) : Bool :=
  d.connections.any fun c => c.target = id &&
    match d.node? c.source with
    | some (.gate _) => true
    | _ => false

/-- What is to be visited beyond a node does not depend on how the node was met. -/
def Honest (d : Diagram α) (direction : Direction) (v : Visit) : Prop :=
  d.beyond direction v = d.beyond direction (v.1, d.isBehindGate v.1)

theorem honest_backward (d : Diagram α) (v : Visit) : d.Honest .backward v := by
  simp [Honest, beyond]

theorem honest_of_eq {id : NodeId} {behind : Bool} (h : d.isBehindGate id = behind) :
    d.Honest direction (id, behind) := by
  simp [Honest, h]

/-- Only at a transition it matters how a node was met. -/
theorem honest_of_not_transition {v : Visit} (h : ∀ t, d.node? v.1 ≠ some (.transition t)) :
    d.Honest direction v := by
  unfold Honest
  match hn : d.node? v.1 with
  | some (.gate g) => exact (beyond_gate hn _).trans (beyond_gate hn _).symm
  | some (.transition t) => exact absurd hn (h t)
  | some (.step s) => exact (beyond_step hn _).trans (beyond_step hn _).symm
  | none => simp [beyond, hn]

theorem isBehindGate_of_gate {c : Connection α} (hc : c ∈ d.connections) {g : GateNode α}
    (hg : d.node? c.source = some (.gate g)) : d.isBehindGate c.target = true :=
  List.any_eq_true.2 ⟨c, hc, by simp [hg]⟩

theorem isBehindGate_of_transition (h : d.Unambiguous) {c : Connection α} (hc : c ∈ d.connections)
    {t u : TransitionNode α} (ht : d.node? c.source = some (.transition t))
    (hu : d.node? c.target = some (.transition u)) : d.isBehindGate c.target = false := by
  refine List.any_eq_false.2 fun c' hc' => ?_
  by_cases htarget : c'.target = c.target
  · have hsource := h c hc c' hc' htarget.symm ⟨u, hu⟩
    simp [← hsource, ht]
  · simp [htarget]

/-- The nodes next to a transition are met without a gate. -/
theorem honest_of_mem_neighbours (h : d.Unambiguous) {id n : NodeId} {t : TransitionNode α}
    (ht : d.node? id = some (.transition t)) (hn : n ∈ d.neighbours direction id) :
    d.Honest direction (n, false) := by
  cases direction with
  | backward => exact honest_backward d _
  | forward =>
    obtain ⟨c, hc, rfl, rfl⟩ := mem_neighbours_iff.1 hn
    by_cases hu : ∃ u, d.node? c.target = some (.transition u)
    · obtain ⟨u, hu⟩ := hu
      exact honest_of_eq (isBehindGate_of_transition h hc ht hu)
    · exact honest_of_not_transition fun u hu' => hu ⟨u, hu'⟩

theorem honest_of_mem_beyond (h : d.Unambiguous) {v w : Visit} (hw : w ∈ d.beyond direction v) :
    d.Honest direction w := by
  obtain ⟨id, behind⟩ := v
  match hv : d.node? id with
  | some (.gate g) =>
    rw [beyond_gate hv] at hw
    obtain ⟨n, hn, rfl⟩ := List.mem_map.1 hw
    cases direction with
    | backward => exact honest_backward d _
    | forward =>
      obtain ⟨c, hc, hsource, rfl⟩ := mem_neighbours_iff.1 hn
      exact honest_of_eq (isBehindGate_of_gate hc (hsource ▸ hv))
  | some (.transition t) =>
    rw [beyond_transition hv] at hw
    split at hw
    · obtain ⟨n, hn, rfl⟩ := List.mem_map.1 hw
      exact honest_of_mem_neighbours h hv hn
    · cases hw
  | some (.step s) =>
    rw [beyond_step hv] at hw
    cases hw
  | none => simp [beyond, hv] at hw

/-- With enough fuel, an exploration meets what is pending and, with a node, what lies beyond it. -/
theorem explore_closed (h : d.Unambiguous) {fuel : Nat} {seen : List NodeId} {pending : List Visit}
    (hfuel : pending.length + d.unseen direction seen ≤ fuel)
    (hpending : ∀ v ∈ pending, d.Honest direction v) :
    (∀ v ∈ pending, v.1 ∈ seen ∨ v.1 ∈ d.explore direction fuel seen pending) ∧
      ∀ id ∈ d.explore direction fuel seen pending,
        ∀ w ∈ d.beyond direction (id, d.isBehindGate id),
          w.1 ∈ seen ∨ w.1 ∈ d.explore direction fuel seen pending := by
  fun_induction explore d direction fuel seen pending with
  | case1 seen pending =>
    obtain rfl : pending = [] := List.eq_nil_of_length_eq_zero (by omega)
    simp
  | case2 fuel seen => simp
  | case3 fuel seen v pending hv ih =>
    have hlength : pending.length + d.unseen direction seen ≤ fuel := by
      simp only [List.length_cons] at hfuel
      omega
    obtain ⟨h1, h2⟩ := ih hlength fun w hw => hpending w (by simp [hw])
    refine ⟨fun w hw => ?_, h2⟩
    rcases List.mem_cons.1 hw with rfl | hw
    · exact .inl hv
    · exact h1 w hw
  | case4 fuel seen v pending hv ih =>
    have hlength : (d.beyond direction v ++ pending).length +
        d.unseen direction (v.1 :: seen) ≤ fuel := by
      have h1 := length_beyond_le d direction v
      have h2 : (d.neighbours direction v.1).length + d.unseen direction (v.1 :: seen) =
          d.unseen direction seen := unseen_cons hv
      simp only [List.length_append, List.length_cons] at hfuel ⊢
      omega
    have hhonest : ∀ w ∈ d.beyond direction v ++ pending, d.Honest direction w := by
      intro w hw
      exact (List.mem_append.1 hw).elim (honest_of_mem_beyond h) fun hw => hpending w (by simp [hw])
    obtain ⟨h1, h2⟩ := ih hlength hhonest
    have hshift : ∀ x : NodeId,
        x ∈ v.1 :: seen ∨ x ∈ d.explore direction fuel (v.1 :: seen)
          (d.beyond direction v ++ pending) →
        x ∈ seen ∨ x ∈ v.1 :: d.explore direction fuel (v.1 :: seen)
          (d.beyond direction v ++ pending) := by
      grind
    constructor
    · intro w hw
      rcases List.mem_cons.1 hw with rfl | hw
      · exact .inr (by simp)
      · exact hshift _ (h1 w (by simp [hw]))
    · intro id hid w hw
      rcases List.mem_cons.1 hid with rfl | hid
      · rw [← show d.Honest direction v from hpending v (by simp)] at hw
        exact hshift _ (h1 w (by simp [hw]))
      · exact hshift _ (h2 id hid w hw)

theorem unseen_le (d : Diagram α) (direction : Direction) (seen : List NodeId) :
    d.unseen direction seen ≤ d.connections.length := List.countP_le_length

theorem length_neighbours_le (d : Diagram α) (direction : Direction) (id : NodeId) :
    (d.neighbours direction id).length ≤ d.connections.length := by
  rw [neighbours_eq, List.length_map]
  exact List.length_filter_le _ _

/-- The nodes met from a transition on are those that a way leads to from a node next to it. -/
theorem mem_reach_iff (h : d.Unambiguous) {id x : NodeId} {t : TransitionNode α}
    (ht : d.node? id = some (.transition t)) (hx : x ≠ id) :
    x ∈ d.reach direction id ↔ ∃ n ∈ d.neighbours direction id, d.Meets direction (n, false) x := by
  constructor
  · intro hmem
    obtain ⟨v, hv, hm⟩ := meets_of_mem_explore hmem
    obtain ⟨n, hn, rfl⟩ := List.mem_map.1 hv
    exact ⟨n, hn, hm⟩
  · rintro ⟨n, hn, hm⟩
    have hfuel : ((d.neighbours direction id).map ((·, false) : NodeId → Visit)).length +
        d.unseen direction [id] ≤ 2 * d.connections.length := by
      have h1 := d.length_neighbours_le direction id
      have h2 := d.unseen_le direction [id]
      rw [List.length_map]
      omega
    have hhonest : ∀ v ∈ (d.neighbours direction id).map ((·, false) : NodeId → Visit),
        d.Honest direction v := by
      intro v hv
      obtain ⟨n, hn, rfl⟩ := List.mem_map.1 hv
      exact honest_of_mem_neighbours h ht hn
    obtain ⟨hnext, hclosed⟩ := explore_closed h hfuel hhonest
    -- the transition itself is not entered again, but what lies beyond it is next to it
    have hstep : ∀ v w : Visit, d.Honest direction v → v.1 ∈ [id] ∨ v.1 ∈ d.reach direction id →
        w ∈ d.beyond direction v → w.1 ∈ [id] ∨ w.1 ∈ d.reach direction id := by
      intro v w hv hmem hw
      rcases hmem with hid | hmem
      · obtain ⟨id', behind⟩ := v
        obtain rfl : id' = id := by simpa using hid
        rw [beyond_transition ht] at hw
        split at hw
        · exact hnext w hw
        · cases hw
      · exact hclosed v.1 hmem w (hv ▸ hw)
    have hmeets : ∀ (v : Visit) (y : NodeId), d.Meets direction v y → d.Honest direction v →
        v.1 ∈ [id] ∨ v.1 ∈ d.reach direction id → y ∈ [id] ∨ y ∈ d.reach direction id := by
      intro v y hm
      induction hm with
      | here v => exact fun _ hv => hv
      | beyond hw _ ih => exact fun hv hmem => ih (honest_of_mem_beyond h hw) (hstep _ _ hv hmem hw)
    have hfirst := hnext (n, false) (List.mem_map_of_mem hn)
    rcases hmeets _ x hm (honest_of_mem_neighbours h ht hn) hfirst with hid | hmem
    · exact absurd (by simpa using hid) hx
    · exact hmem

end Diagram

end SequentialChart
