import Mathlib
import SequentialChart.Proofs.Simulation.Runs

/-!
# How long steps have been active

A state stores the active steps and, apart from them, since when each has been active. Along every
run both go together, and the time of a step is the one of the latest tick that entered it.

## Main definitions

* `State.IsClocked` — the times are those of the active steps.
* `Diagram.EntersAt` — a tick of a run enters a step.
* `Diagram.IsActiveSince` — since when a step has been active after a run.

## Main statements

* `State.IsClocked.tick`, `Machine.isClocked_stateAfter` — what a tick and what a run preserves.
* `Diagram.isActiveSince_of_get?` — a stored time is the one of the latest entry.
* `Diagram.clocks_stateAfter` — the flags and clocks of steps after a run.
-/

namespace SequentialChart

/-! ### Times go with active steps -/

/-- The steps with a time are the active ones, in the same order. -/
def State.IsClocked (s : State) : Prop := s.since.keys = s.active.toList

namespace State.IsClocked

variable {s : State}

theorem activate (h : s.IsClocked) (time : Float) (x : NodeId) : (s.activate time x).IsClocked := by
  unfold IsClocked at *
  simp only [State.activate, OrderedMap.keys_insert, OrderedSet.toList_insert, h]
  rfl

theorem deactivate (h : s.IsClocked) (x : NodeId) : (s.deactivate x).IsClocked := by
  unfold IsClocked at *
  simp only [State.deactivate, OrderedMap.keys_erase, OrderedSet.toList_erase, h]

theorem foldl_activate (h : s.IsClocked) (time : Float) (l : List NodeId) :
    (l.foldl (State.activate · time) s).IsClocked := by
  induction l generalizing s with
  | nil => exact h
  | cons x l ih => exact ih (h.activate time x)

theorem foldl_deactivate (h : s.IsClocked) (l : List NodeId) :
    (l.foldl State.deactivate s).IsClocked := by
  induction l generalizing s with
  | nil => exact h
  | cons x l ih => exact ih (h.deactivate x)

theorem tick (h : s.IsClocked) (m : Machine) (i : Inputs) (globals : List Action) :
    (m.tick s i globals).state.IsClocked := by
  have hbefore : State.IsClocked { s with previous := s.active, values := Machine.merged s i } := h
  exact (hbefore.foldl_deactivate _).foldl_activate _ _

theorem mem_active_iff (h : s.IsClocked) {x : NodeId} :
    x ∈ s.active ↔ ∃ t, s.since.get? x = some t := by
  rw [← OrderedSet.mem_toList, ← h, OrderedMap.mem_keys_iff]

end State.IsClocked

theorem Machine.isClocked_stateAfter (m : Machine) (time : Float) (run : List Stimulus) :
    (m.stateAfter time run).IsClocked := by
  induction run using List.reverseRecOn with
  | nil =>
    have hempty : State.IsClocked {} := rfl
    rw [stateAfter_nil, start_eq]
    exact hempty.foldl_activate _ _
  | append_singleton run k ih =>
    rw [stateAfter_concat]
    exact ih.tick m k.inputs k.globals

/-! ### Entries -/

namespace Diagram

variable {α : Type} {d : Diagram α} {pulse time : Float} {run : List Stimulus} {x : NodeId}

/-- The tick in place `i` of a run enters the step: a transition fires that leads to it. -/
def EntersAt (d : Diagram α) (pulse time : Float) (run : List Stimulus) (i : Nat) (x : NodeId) :
    Prop :=
  let m := Machine.ofDiagram d pulse
  ∃ k ∈ run[i]?, ∃ t ∈ (m.tick (m.stateAfter time (run.take i)) k.inputs k.globals).fired,
    x ∈ d.successors t

/-- Since the time `t`, a step has been active after a run: either the latest tick that entered it
was at that time, or none has entered it, and it has been active since the run began. -/
def IsActiveSince (d : Diagram α) (pulse time : Float) (run : List Stimulus) (x : NodeId)
    (t : Float) : Prop :=
  (∃ i, d.EntersAt pulse time run i x ∧ (∀ j, i < j → ¬ d.EntersAt pulse time run j x) ∧
    run[i]?.map (·.inputs.time) = some t) ∨
  (t = time ∧ (∀ j, ¬ d.EntersAt pulse time run j x) ∧
    ∀ j ≤ run.length, x ∈ ((Machine.ofDiagram d pulse).stateAfter time (run.take j)).active)

/-- The transitions that fire lead to the steps behind them in the diagram. -/
theorem mem_targets_firing_iff {s : State} {k : Stimulus} :
    x ∈ ((Machine.ofDiagram d pulse).firing s k.inputs).flatMap (·.targets) ↔
      ∃ t ∈ ((Machine.ofDiagram d pulse).tick s k.inputs k.globals).fired, x ∈ d.successors t := by
  have htargets : ∀ r ∈ (Machine.ofDiagram d pulse).firing s k.inputs,
      r.targets = d.successors r.id := by
    intro r hr
    obtain ⟨t, -, rfl⟩ := List.mem_map.1 (List.mem_filter.1 hr).1
    rfl
  constructor
  · intro hx
    obtain ⟨r, hr, hx⟩ := List.mem_flatMap.1 hx
    exact ⟨r.id, List.mem_map_of_mem hr, htargets r hr ▸ hx⟩
  · rintro ⟨t, ht, hx⟩
    obtain ⟨r, hr, rfl⟩ := List.mem_map.1 ht
    exact List.mem_flatMap.2 ⟨r, hr, (htargets r hr).symm ▸ hx⟩

theorem lt_length_of_entersAt {i : Nat} (h : d.EntersAt pulse time run i x) : i < run.length := by
  obtain ⟨k, hk, -⟩ := h
  exact (List.getElem?_eq_some_iff.1 hk).1

theorem entersAt_concat_of_lt {i : Nat} (k : Stimulus) (hi : i < run.length) :
    d.EntersAt pulse time (run ++ [k]) i x ↔ d.EntersAt pulse time run i x := by
  rw [EntersAt, EntersAt, List.getElem?_append_left hi, List.take_append_of_le_length hi.le]

theorem entersAt_concat_length {k : Stimulus} : d.EntersAt pulse time (run ++ [k]) run.length x ↔
    x ∈ ((Machine.ofDiagram d pulse).firing ((Machine.ofDiagram d pulse).stateAfter time run)
      k.inputs).flatMap (·.targets) := by
  rw [EntersAt, List.getElem?_concat_length, List.take_left, mem_targets_firing_iff]
  simp

/-- A tick that does not enter a step leaves it active since when it was. -/
theorem IsActiveSince.concat {t : Float} (h : d.IsActiveSince pulse time run x t) {k : Stimulus}
    (hnot : ¬ d.EntersAt pulse time (run ++ [k]) run.length x)
    (hactive : x ∈ ((Machine.ofDiagram d pulse).stateAfter time (run ++ [k])).active) :
    d.IsActiveSince pulse time (run ++ [k]) x t := by
  -- no entry of the longer run is one that the shorter run does not have
  have hentry : ∀ j, d.EntersAt pulse time (run ++ [k]) j x → d.EntersAt pulse time run j x := by
    intro j hj
    have hlt : j < run.length := by
      have := lt_length_of_entersAt hj
      have hne : j ≠ run.length := by
        rintro rfl
        exact hnot hj
      simp only [List.length_append, List.length_singleton] at this
      omega
    exact (entersAt_concat_of_lt k hlt).1 hj
  rcases h with ⟨i, hi, hlast, htime⟩ | ⟨rfl, hnone, hall⟩
  · have hlt := lt_length_of_entersAt hi
    refine .inl ⟨i, (entersAt_concat_of_lt k hlt).2 hi, fun j hj h => hlast j hj (hentry j h), ?_⟩
    rwa [List.getElem?_append_left hlt]
  · refine .inr ⟨rfl, fun j h => hnone j (hentry j h), fun j hj => ?_⟩
    rcases Nat.lt_or_ge run.length j with hlt | hle
    · rwa [List.take_of_length_le (by simpa using hlt)]
    · rw [List.take_append_of_le_length hle]
      exact hall j hle

/-- The time that is stored for a step is the one since when it has been active. -/
theorem isActiveSince_of_get? {t : Float}
    (h : ((Machine.ofDiagram d pulse).stateAfter time run).since.get? x = some t) :
    d.IsActiveSince pulse time run x t := by
  induction run using List.reverseRecOn generalizing t with
  | nil =>
    have hactive := (Machine.isClocked_stateAfter _ _ _).mem_active_iff.2 ⟨t, h⟩
    rw [Machine.stateAfter_nil, Machine.start_eq, State.get?_since_foldl_activate] at h
    split at h
    · refine .inr ⟨(Option.some.inj h).symm, fun j hj => ?_, fun j _ => ?_⟩
      · exact absurd (lt_length_of_entersAt hj) (Nat.not_lt_zero j)
      · rwa [List.take_nil]
    · cases h
  | append_singleton run k ih =>
    have hactive := (Machine.isClocked_stateAfter _ _ _).mem_active_iff.2 ⟨t, h⟩
    rw [Machine.stateAfter_concat, Machine.get?_since_tick] at h
    split at h
    · next hentered =>
      refine .inl ⟨run.length, entersAt_concat_length.2 hentered, fun j hj hj' => ?_, ?_⟩
      · have := lt_length_of_entersAt hj'
        simp only [List.length_append, List.length_singleton] at this
        omega
      · rw [List.getElem?_concat_length]
        exact h
    · next hentered =>
      split at h
      · cases h
      · exact (ih h).concat (fun hmem => hentered (entersAt_concat_length.1 hmem)) hactive

/-- Only steps of the diagram are ever active. -/
theorem exists_step_of_active
    (h : x ∈ ((Machine.ofDiagram d pulse).stateAfter time run).active) :
    ∃ step ∈ d.steps, step.id = x := by
  obtain ⟨t, ht⟩ := (Machine.isClocked_stateAfter _ _ _).mem_active_iff.1 h
  rcases isActiveSince_of_get? ht with ⟨i, ⟨k, -, r, -, hx⟩, -⟩ | ⟨-, -, hall⟩
  · exact (mem_stepsBeyond.1 hx).1
  · -- it was active at the start, so it is an initial step
    have hstart := hall 0 (Nat.zero_le _)
    rw [List.take_zero] at hstart
    obtain ⟨t', ht'⟩ := (Machine.isClocked_stateAfter _ _ _).mem_active_iff.1 hstart
    rw [Machine.stateAfter_nil, Machine.start_eq, State.get?_since_foldl_activate] at ht'
    split at ht'
    · next hinitial =>
      obtain ⟨s, hs, rfl⟩ := List.mem_map.1 hinitial
      obtain ⟨step, hstep, rfl⟩ := List.mem_map.1 (List.mem_filter.1 hs).1
      exact ⟨step, hstep, rfl⟩
    · cases ht'

end Diagram

/-! ### Flags and clocks -/

theorem flagName_injective {n n' : Nat} (h : flagName n = flagName n') : n = n' := by
  have hlist := congrArg String.toList h
  simp only [flagName, String.toList_append, List.append_cancel_left_eq] at hlist
  exact Nat.repr_injective (String.toList_inj.1 hlist)

theorem clockName_injective {n n' : Nat} (h : clockName n = clockName n') : n = n' := by
  have hlist := congrArg String.toList h
  simp only [clockName, String.toList_append, List.append_cancel_right_eq] at hlist
  exact flagName_injective (String.toList_inj.1 hlist)

/-- There is no point in a number. -/
theorem flagName_ne_clockName (n n' : Nat) : flagName n ≠ clockName n' := by
  intro h
  have hmem : '.' ∈ (flagName n).toList := by
    rw [h, clockName, String.toList_append]
    exact List.mem_append_right _ (by decide)
  rw [flagName, String.toList_append, Nat.toList_repr] at hmem
  rcases List.mem_append.1 hmem with hmem | hmem
  · exact absurd hmem (by decide)
  · exact absurd (Nat.isDigit_of_mem_toDigits (by decide) (by decide) hmem) (by decide)

namespace Machine

variable {m : Machine} {values : Variables} {since : OrderedMap NodeId Float} {now t : Float}
  {n : Nat}

theorem eq_step_of_number? {id : NodeId} (h : m.number? id = some n) : id = .step n := by
  obtain ⟨s, hs, rfl⟩ := Option.map_eq_some_iff.1 h
  have hid : s.id = id := by simpa using List.find?_some hs
  exact hid.symm

/-- The flags and clocks of the steps that have a time, and nothing else, are laid over the
variables. -/
theorem mem_clocks_iff {name : String} {v : Value} :
    (name, v) ∈ since.entries.flatMap (fun (id, since) => m.clockEntries now id since) ↔
      ∃ n t, m.number? (.step n) = some n ∧ since.get? (.step n) = some t ∧
        (name = flagName n ∧ v = .bool true ∨
          name = clockName n ∧ v = .number (elapsed now t)) := by
  simp only [List.mem_flatMap, Prod.exists, OrderedMap.mem_entries_iff]
  constructor
  · rintro ⟨id, t, hget, hmem⟩
    cases hn : m.number? id with
    | none => simp [clockEntries, hn] at hmem
    | some n =>
      obtain rfl := eq_step_of_number? hn
      exact ⟨n, t, hn, hget, by simpa [clockEntries, hn] using hmem⟩
  · rintro ⟨n, t, hn, hget, hmem⟩
    exact ⟨.step n, t, hget, by simpa [clockEntries, hn] using hmem⟩

theorem get?_withClocks_flagName (hn : m.number? (.step n) = some n)
    (ht : since.get? (.step n) = some t) :
    (m.withClocks values since now).get? (flagName n) = some (.bool true) := by
  refine OrderedMap.get?_overlay_of_mem _ (mem_clocks_iff.2 ⟨n, t, hn, ht, .inl ⟨rfl, rfl⟩⟩) ?_
  intro w hw
  obtain ⟨n', t', -, -, ⟨-, rfl⟩ | ⟨hname, -⟩⟩ := mem_clocks_iff.1 hw
  · rfl
  · exact absurd hname (flagName_ne_clockName n n')

theorem get?_withClocks_clockName (hn : m.number? (.step n) = some n)
    (ht : since.get? (.step n) = some t) :
    (m.withClocks values since now).get? (clockName n) = some (.number (elapsed now t)) := by
  refine OrderedMap.get?_overlay_of_mem _ (mem_clocks_iff.2 ⟨n, t, hn, ht, .inr ⟨rfl, rfl⟩⟩) ?_
  intro w hw
  obtain ⟨n', t', -, ht', ⟨hname, -⟩ | ⟨hname, rfl⟩⟩ := mem_clocks_iff.1 hw
  · exact absurd hname.symm (flagName_ne_clockName n' n)
  · obtain rfl := clockName_injective hname
    rw [ht] at ht'
    rw [Option.some.inj ht']

theorem get?_withClocks_of_ne {name : String}
    (h : ∀ n, (since.get? (.step n)).isSome → name ≠ flagName n ∧ name ≠ clockName n) :
    (m.withClocks values since now).get? name = values.get? name := by
  refine OrderedMap.get?_overlay_of_not_mem _ _ fun hmem => ?_
  obtain ⟨⟨_, v⟩, hentry, rfl⟩ := List.mem_map.1 hmem
  obtain ⟨n, t, -, ht, ⟨hname, -⟩ | ⟨hname, -⟩⟩ := mem_clocks_iff.1 hentry
  · exact (h n (ht ▸ rfl)).1 hname
  · exact (h n (ht ▸ rfl)).2 hname

end Machine

namespace Diagram

variable {α : Type}

theorem number?_ofDiagram {d : Diagram α} {pulse : Float} {n : Nat}
    (h : ∃ step ∈ d.steps, step.id = .step n) :
    (Machine.ofDiagram d pulse).number? (.step n) = some n := by
  obtain ⟨step, hstep, hid⟩ := h
  have hsome : ((Machine.ofDiagram d pulse).steps.find? (·.id = .step n)).isSome := by
    rw [List.find?_isSome]
    exact ⟨_, List.mem_map_of_mem hstep, decide_eq_true hid⟩
  obtain ⟨s, hs⟩ := Option.isSome_iff_exists.1 hsome
  have hnumber : s.number = n := by simpa [MachineStep.id] using List.find?_some hs
  rw [Machine.number?, hs, Option.map_some, hnumber]

/-- After every run, the stored times are those of the active steps, which are steps of the diagram;
each is the one since when the step has been active; and the flags and the clocks of the active
steps, no others, are laid over the variables. -/
theorem clocks_stateAfter (d : Diagram α) (pulse time : Float) (run : List Stimulus) :
    let m := Machine.ofDiagram d pulse
    let s := m.stateAfter time run
    s.since.keys = s.active.toList ∧ s.active.toList.Nodup ∧
      (∀ x ∈ s.active, ∃ step ∈ d.steps, step.id = x) ∧
      (∀ x ∈ s.active, ∃ t, s.since.get? x = some t ∧ d.IsActiveSince pulse time run x t) ∧
      ∀ values now,
        (∀ n t, s.since.get? (.step n) = some t →
          (m.withClocks values s.since now).get? (flagName n) = some (.bool true) ∧
          (m.withClocks values s.since now).get? (clockName n) =
            some (.number (elapsed now t))) ∧
        ∀ name, (∀ n, .step n ∈ s.active → name ≠ flagName n ∧ name ≠ clockName n) →
          (m.withClocks values s.since now).get? name = values.get? name := by
  intro m s
  have hclocked : s.IsClocked := m.isClocked_stateAfter time run
  refine ⟨hclocked, s.active.nodup, fun x hx => exists_step_of_active hx, fun x hx => ?_,
    fun values now => ⟨fun n t ht => ?_, fun name hname => ?_⟩⟩
  · obtain ⟨t, ht⟩ := hclocked.mem_active_iff.1 hx
    exact ⟨t, ht, isActiveSince_of_get? ht⟩
  · have hn : m.number? (.step n) = some n :=
      number?_ofDiagram (exists_step_of_active (hclocked.mem_active_iff.2 ⟨t, ht⟩))
    exact ⟨Machine.get?_withClocks_flagName hn ht, Machine.get?_withClocks_clockName hn ht⟩
  · refine Machine.get?_withClocks_of_ne fun n hn => hname n ?_
    exact hclocked.mem_active_iff.2 (Option.isSome_iff_exists.1 hn)

end Diagram

end SequentialChart
