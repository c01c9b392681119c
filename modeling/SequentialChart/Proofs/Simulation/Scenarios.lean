import Mathlib
import SequentialChart.Proofs.Failure
import SequentialChart.Proofs.Simulation.Runs
import SequentialChart.Simulation.Scenario

/-!
# Running scenarios

A tick that is repeated is a shorthand for single ticks. A run of a scenario that does not fail is
the run of these ticks one by one, each on the state after the one before.

## Main definitions

* `ScenarioTick.repetitions`, `Scenario.expanded` — the single ticks of a scenario.
* `Scenario.plan` — the single ticks with their times.

## Main statements

* `Scenario.runTicks_append` — ticks are run one after the other.
* `Scenario.runTicks_repetitions` — repetitions run as single ticks do.
* `Scenario.played_of_runTicks` — what single ticks do.
* `Scenario.run_eq_of_ofData` — what the run of a scenario is.
-/

namespace SequentialChart

/-! ### Single ticks -/

namespace ScenarioTick

/-- The single ticks that a tick stands for: the first has its time and its triggers. -/
def repetitions (tick : ScenarioTick) : List ScenarioTick :=
  match tick.count with
  | 0 => []
  | count + 1 =>
    { tick with count := 1 } :: List.replicate count { name := tick.name, values := tick.values }

/-- What a tick gives to the chart at its time. -/
def inputs (tick : ScenarioTick) (time : Float) : Inputs where
  time
  values := tick.values
  triggers := tick.triggers.map NodeId.ofText

theorem length_repetitions (tick : ScenarioTick) : tick.repetitions.length = tick.count := by
  unfold repetitions
  split <;> simp_all

theorem count_of_mem_repetitions {tick t : ScenarioTick} (h : t ∈ tick.repetitions) :
    t.count = 1 := by
  unfold repetitions at h
  grind

end ScenarioTick

namespace Scenario

/-- The scenario with single ticks in place of repeated ones. -/
def expanded (s : Scenario) : Scenario :=
  { s with ticks := s.ticks.flatMap (·.repetitions) }

/-- Single ticks with their times, the first after `before`. -/
def timed (s : Scenario) : Float → List ScenarioTick → List (ScenarioTick × Float)
  | _, [] => []
  | before, tick :: ticks =>
    let time := tick.time.getD (before + s.interval)
    (tick, time) :: s.timed time ticks

/-- The single ticks of a scenario with their times. -/
def plan (s : Scenario) : List (ScenarioTick × Float) := s.timed s.startTime s.expanded.ticks

/-- What a run of the scenario is given, tick by tick. -/
def stimuli (s : Scenario) : List Stimulus :=
  s.plan.map fun (tick, time) => ⟨tick.inputs time, s.globals⟩

/-- The report of a single tick on the state before it. -/
def report (s : Scenario) (m : Machine) (before : State) (index : Nat) (tick : ScenarioTick)
    (time : Float) : TickReport :=
  let result := m.tick before (tick.inputs time) s.globals
  { index, name := tick.name, time, fired := result.fired
    active := result.state.active.toList, outputs := result.outputs }

variable {s : Scenario} {m : Machine} {tick : ScenarioTick} {ticks : List ScenarioTick}
  {index : Nat} {p : Progress}

theorem count_of_mem_expanded (h : tick ∈ s.expanded.ticks) : tick.count = 1 := by
  obtain ⟨_, -, htick⟩ := List.mem_flatMap.1 h
  exact ScenarioTick.count_of_mem_repetitions htick

theorem length_expanded (s : Scenario) : s.expanded.ticks.length = (s.ticks.map (·.count)).sum := by
  simp [expanded, List.length_flatMap, ScenarioTick.length_repetitions]

theorem map_fst_timed (before : Float) (ticks : List ScenarioTick) :
    (s.timed before ticks).map Prod.fst = ticks := by
  fun_induction s.timed before ticks <;> grind

/-! ### Runs that differ only in errors -/

theorem toOption_triggers (i j : Nat) :
    (triggers m i tick).toOption = (triggers m j tick).toOption := by
  refine toOption_mapM_congr (fun name => ?_) _
  dsimp only
  split <;> rfl

theorem toOption_firstTime (i j : Nat) (before : Float) :
    (s.firstTime i tick before).toOption = (s.firstTime j tick before).toOption := by
  unfold firstTime
  grind [Except.toOption]

/-- The number of a tick matters only for the messages of errors. -/
theorem toOption_runTick (i j : Nat) :
    (s.runTick m i tick p).toOption = (s.runTick m j tick p).toOption := by
  unfold runTick
  rw [toOption_bind, toOption_bind, toOption_triggers i j]
  refine congrArg _ (funext fun triggers => ?_)
  cases tick.count with
  | zero => rfl
  | succ count => simp only [toOption_bind, toOption_firstTime i j]

/-- The repetitions after the first need no triggers and set no time. -/
theorem runTicks_replicate (count : Nat) :
    s.runTicks m index (List.replicate count { name := tick.name, values := tick.values }) p =
      .ok (s.stepRepeatedly m tick count p) := by
  induction count generalizing index p with
  | zero => rfl
  | succ count ih =>
    rw [List.replicate_succ, runTicks]
    simp only [ih]
    rfl

/-- Repetitions run as single ticks do. -/
theorem runTicks_repetitions (h : tick.count ≠ 0) :
    s.runTicks m index tick.repetitions p = s.runTick m index tick p := by
  obtain ⟨count, hcount⟩ := Nat.exists_eq_succ_of_ne_zero h
  have hrepetitions : tick.repetitions = { tick with count := 1 } ::
      List.replicate count { name := tick.name, values := tick.values } := by
    rw [ScenarioTick.repetitions, hcount]
  have htriggers : triggers m index { tick with count := 1 } = triggers m index tick := rfl
  have htime : s.firstTime index { tick with count := 1 } p.time = s.firstTime index tick p.time :=
    rfl
  rw [hrepetitions, runTicks]
  simp only [runTicks_replicate, runTick, hcount, htriggers, htime]
  cases triggers m index tick with
  | error => rfl
  | ok triggers =>
    cases s.firstTime index tick p.time with
    | error => rfl
    | ok time => rfl

/-- Ticks are run one after the other. -/
theorem runTicks_append (ticks' : List ScenarioTick) :
    s.runTicks m index (ticks ++ ticks') p = do
      let (reports, p) ← s.runTicks m index ticks p
      let (rest, p) ← s.runTicks m (index + ticks.length) ticks' p
      return (reports ++ rest, p) := by
  induction ticks generalizing index p with
  | nil =>
    cases h : s.runTicks m index ticks' p <;>
      simp [runTicks, h, bind, Except.bind, pure, Except.pure]
  | cons tick ticks ih =>
    have hindex : index + (tick :: ticks).length = index + 1 + ticks.length := by
      rw [List.length_cons]
      omega
    simp only [List.cons_append, runTicks, ih, bind_assoc, pure_bind, List.append_assoc, hindex]

/-- A scenario whose ticks all happen runs as its single ticks do. -/
theorem toOption_runTicks_expanded (h : ∀ tick ∈ ticks, tick.count ≠ 0) (i j : Nat) :
    (s.runTicks m i (ticks.flatMap (·.repetitions)) p).toOption =
      (s.runTicks m j ticks p).toOption := by
  induction ticks generalizing i j p with
  | nil => rfl
  | cons tick ticks ih =>
    obtain ⟨htick, hticks⟩ := List.forall_mem_cons.1 h
    simp only [List.flatMap_cons, runTicks_append, runTicks, toOption_bind,
      runTicks_repetitions htick, toOption_runTick i j, ih hticks _ (j + 1)]

/-! ### A scenario beside its ticks -/

theorem stepRepeatedly_with_ticks (count : Nat) :
    ({ s with ticks } : Scenario).stepRepeatedly m tick count p =
      s.stepRepeatedly m tick count p := by
  induction count generalizing p with
  | zero => rfl
  | succ count ih => simp only [stepRepeatedly, ih, step]

theorem runTick_with_ticks :
    ({ s with ticks } : Scenario).runTick m index tick p = s.runTick m index tick p := by
  simp only [runTick, stepRepeatedly_with_ticks, firstTime, step]

theorem runTicks_with_ticks (ticks' : List ScenarioTick) :
    ({ s with ticks } : Scenario).runTicks m index ticks' p = s.runTicks m index ticks' p := by
  induction ticks' generalizing index p with
  | nil => rfl
  | cons tick ticks' ih => simp only [runTicks, runTick_with_ticks, ih]

/-- Where a run begins. -/
def atStart (s : Scenario) (m : Machine) : Progress where
  time := s.startTime
  state := m.start s.startTime
  index := 0

theorem run_eq_ok_iff {r : ScenarioRun} : s.run m = .ok r ↔
    ∃ q, s.runTicks m 0 s.ticks (s.atStart m) = .ok (r.reports, q) ∧ q.state = r.state := by
  have hrun : s.run m =
    (s.runTicks m 0 s.ticks (s.atStart m)).bind fun (reports, q) => .ok ⟨reports, q.state⟩ := rfl
  rw [hrun]
  obtain ⟨reports, state⟩ := r
  rcases s.runTicks m 0 s.ticks (s.atStart m) with e | ⟨reports', q⟩ <;> simp [Except.bind]

/-- A scenario whose ticks all happen yields what its single ticks yield. -/
theorem run_expanded_eq_ok_iff (h : ∀ tick ∈ s.ticks, tick.count ≠ 0) {r : ScenarioRun} :
    s.expanded.run m = .ok r ↔ s.run m = .ok r := by
  rw [run_eq_ok_iff, run_eq_ok_iff]
  refine exists_congr fun q => and_congr_left fun _ => ?_
  have hexpanded : s.expanded.runTicks m 0 s.expanded.ticks (s.atStart m) =
    s.runTicks m 0 (s.ticks.flatMap (·.repetitions)) (s.atStart m) := runTicks_with_ticks _
  refine eq_ok_iff_of_toOption_eq ?_ _
  exact (congrArg _ hexpanded).trans (toOption_runTicks_expanded h 0 0)

/-- The first ticks of a run are the run of the first ticks. -/
theorem exists_run_take {r : ScenarioRun} (h : s.run m = .ok r) (n : Nat) :
    ∃ r', ({ s with ticks := s.ticks.take n } : Scenario).run m = .ok r' ∧
      r'.reports <+: r.reports := by
  obtain ⟨q, hticks, -⟩ := run_eq_ok_iff.1 h
  rw [← List.take_append_drop n s.ticks, runTicks_append, bind_eq_ok_iff] at hticks
  obtain ⟨⟨front, p⟩, hfront, hticks⟩ := hticks
  obtain ⟨⟨rest, q'⟩, -, hrest⟩ := bind_eq_ok_iff.1 hticks
  refine ⟨⟨front, p.state⟩, run_eq_ok_iff.2 ⟨p, ?_, rfl⟩, rest, ?_⟩
  · rw [runTicks_with_ticks]
    exact hfront
  · exact congrArg Prod.fst (Except.ok.inj hrest)

/-! ### What single ticks do -/

theorem eq_map_of_mapM_eq_ok {ε α β : Type} {f : α → Except ε β} {g : α → β}
    (hf : ∀ x y, f x = .ok y → y = g x) {l : List α} {ys : List β} (h : l.mapM f = .ok ys) :
    ys = l.map g := by
  induction l generalizing ys with
  | nil =>
    cases h
    rfl
  | cons x l ih =>
    rw [List.mapM_cons, bind_eq_ok_iff] at h
    obtain ⟨y, hy, h⟩ := h
    obtain ⟨ys', hys, h⟩ := bind_eq_ok_iff.1 h
    cases h
    rw [List.map_cons, hf x y hy, ih hys]

theorem eq_of_triggers_eq_ok {triggered : List NodeId} (h : triggers m index tick = .ok triggered) :
    triggered = tick.triggers.map NodeId.ofText := by
  refine eq_map_of_mapM_eq_ok (fun name id hid => ?_) h
  dsimp only at hid
  split at hid <;> grind

theorem eq_of_firstTime_eq_ok {before time : Float} (h : s.firstTime index tick before = .ok time) :
    time = tick.time.getD (before + s.interval) := by
  unfold firstTime at h
  grind

theorem runTick_of_count_eq_one {reports : List TickReport} {q : Progress} (hone : tick.count = 1)
    (h : s.runTick m index tick p = .ok (reports, q)) :
    let time := tick.time.getD (p.time + s.interval)
    reports = [s.report m p.state p.index tick time] ∧
      q = { time, state := (m.tick p.state (tick.inputs time) s.globals).state
            index := p.index + 1 } := by
  rw [runTick, bind_eq_ok_iff] at h
  obtain ⟨triggered, htriggers, h⟩ := h
  obtain rfl := eq_of_triggers_eq_ok htriggers
  simp only [hone] at h
  obtain ⟨time, htime, h⟩ := bind_eq_ok_iff.1 h
  obtain rfl := eq_of_firstTime_eq_ok htime
  cases h
  exact ⟨rfl, rfl⟩

/-- Single ticks are run one by one, each on the state after the one before. -/
theorem played_of_runTicks {reports : List TickReport} {q : Progress}
    (hone : ∀ tick ∈ ticks, tick.count = 1) (h : s.runTicks m index ticks p = .ok (reports, q)) :
    let plan := s.timed p.time ticks
    let stateAfter (n : Nat) := (plan.take n).foldl
      (fun before (tick, time) => (m.tick before (tick.inputs time) s.globals).state) p.state
    reports.length = ticks.length ∧ q.state = stateAfter ticks.length ∧
      ∀ i tick time, plan[i]? = some (tick, time) →
        reports[i]? = some (s.report m (stateAfter i) (p.index + i) tick time) := by
  induction ticks generalizing index p reports with
  | nil =>
    cases h
    simp [timed]
  | cons tick ticks ih =>
    obtain ⟨htick, hticks⟩ := List.forall_mem_cons.1 hone
    rw [runTicks, bind_eq_ok_iff] at h
    obtain ⟨⟨first, p'⟩, hfirst, h⟩ := h
    obtain ⟨⟨rest, q'⟩, hrest, h⟩ := bind_eq_ok_iff.1 h
    cases h
    obtain ⟨rfl, rfl⟩ := runTick_of_count_eq_one htick hfirst
    obtain ⟨hlength, hstate, hreports⟩ := ih hticks hrest
    refine ⟨by simp [hlength], ?_, fun i tick' time' hi => ?_⟩
    · rw [hstate]
      simp [timed]
    · cases i with
      | zero =>
        cases hi
        rfl
      | succ i =>
        rw [List.singleton_append, List.getElem?_cons_succ, hreports i tick' time' hi,
          Nat.add_right_comm]
        rfl

theorem stateAfter_take_stimuli (n : Nat) : m.stateAfter s.startTime (s.stimuli.take n) =
    (s.plan.take n).foldl
      (fun before (tick, time) => (m.tick before (tick.inputs time) s.globals).state)
      (m.start s.startTime) := by
  rw [stimuli, ← List.map_take, Machine.stateAfter, List.foldl_map]

/-- What is demanded of a scenario when it is read. -/
theorem valid_of_ofData {format : DataFormat} {data : Option Data}
    (h : ofData format data = .ok s) :
    s.hasInterval = true ∧ ∀ tick ∈ s.ticks, tick.count ≠ 0 := by
  unfold ofData at h
  split at h
  · cases h
  · obtain ⟨hinterval, hcount, rfl⟩ := validated_eq_ok_iff.1 h
    exact ⟨hinterval, hcount⟩

theorem count_ne_zero_of_ofData {format : DataFormat} {data : Option Data}
    (h : ofData format data = .ok s) : ∀ tick ∈ s.ticks, tick.count ≠ 0 := (valid_of_ofData h).2

/-- A scenario that was read runs exactly if its single ticks do, with the same outcome. Each of
these makes one report, in their order, and does what a tick does on the state after the ticks
before it. What the first ticks of the scenario report comes first in the run of all. -/
theorem run_eq_of_ofData {format : DataFormat} {data : Option Data} {s : Scenario}
    (h : ofData format data = .ok s) (m : Machine) :
    (∀ r, s.run m = .ok r ↔ s.expanded.run m = .ok r) ∧
      ∀ r, s.run m = .ok r →
        r.reports.length = (s.ticks.map (·.count)).sum ∧
          s.plan.map Prod.fst = s.expanded.ticks ∧
          (∀ i tick time, s.plan[i]? = some (tick, time) →
            let before := m.stateAfter s.startTime (s.stimuli.take i)
            r.reports[i]? = some (s.report m before i tick time) ∧
              m.stateAfter s.startTime (s.stimuli.take (i + 1)) =
                (m.tick before (tick.inputs time) s.globals).state) ∧
          r.state = m.stateAfter s.startTime s.stimuli ∧
          ∀ n, ∃ r', ({ s with ticks := s.ticks.take n } : Scenario).run m = .ok r' ∧
            r'.reports <+: r.reports := by
  have hcount := count_ne_zero_of_ofData h
  refine ⟨fun r => (run_expanded_eq_ok_iff hcount).symm, fun r hr => ?_⟩
  obtain ⟨q, hticks, hstate⟩ := run_eq_ok_iff.1 ((run_expanded_eq_ok_iff hcount).2 hr)
  have hsingle : s.runTicks m 0 s.expanded.ticks (s.atStart m) = .ok (r.reports, q) :=
    (runTicks_with_ticks _).symm.trans hticks
  obtain ⟨hlength, hlast, hreports⟩ := played_of_runTicks (fun _ => count_of_mem_expanded) hsingle
  have hplan : s.plan.map Prod.fst = s.expanded.ticks := map_fst_timed _ _
  refine ⟨hlength.trans s.length_expanded, hplan, fun i tick time hi => ⟨?_, ?_⟩, ?_,
    exists_run_take hr⟩
  · rw [hreports i tick time hi, stateAfter_take_stimuli]
    simp only [atStart, Nat.zero_add]
    rfl
  · have hstimulus : s.stimuli[i]? = some ⟨tick.inputs time, s.globals⟩ := by
      rw [stimuli, List.getElem?_map, hi]
      rfl
    rw [List.take_add_one, hstimulus]
    exact Machine.stateAfter_concat ..
  · have hall : s.stimuli = s.stimuli.take s.expanded.ticks.length := by
      rw [List.take_of_length_le]
      rw [← hplan, stimuli, List.length_map, List.length_map]
    rw [hall, stateAfter_take_stimuli, ← hstate, hlast]
    rfl

/-- A lamp that is lit after the first transition. -/
def lampMachine : Machine where
  steps := [⟨0, true, []⟩, ⟨1, false, [{ name := "LAMP" }]⟩]
  rules := [⟨.transition 0, none, [.step 0], [.step 1]⟩,
    ⟨.transition 1, none, [.step 1], [.step 0]⟩]
  pulse := 0.1

/-- A tick with a trigger that is repeated, and a tick with an input. -/
def triggerAndWait : Scenario where
  interval := 0.5
  ticks := [{ time := some 2.5, triggers := ["T0"], count := 2 },
    { values := OrderedMap.ofList [("GO", .bool true)] }]

/-- The trigger counts once: the repetition and the tick after it fire nothing. -/
theorem run_eq_of_ofData_triggerAndWait :
    ofData .toml (some (.record [("interval", .double 0.5), ("tick", .list [
        .record [("time", .double 2.5), ("triggers", .list [.text "T0"]), ("repeat", .integer 2)],
        .record [("variables", .record [("GO", .bool true)])]])])) = .ok triggerAndWait ∧
      ∃ r, triggerAndWait.run lampMachine = .ok r ∧
        r.reports.map (·.fired) = [[.transition 0], [], []] ∧
        triggerAndWait.expanded.run lampMachine = .ok r ∧ r.reports.length = 3 ∧
        r.state = lampMachine.stateAfter 0 triggerAndWait.stimuli := by
  have hread : ofData .toml (some (.record [("interval", .double 0.5), ("tick", .list [
      .record [("time", .double 2.5), ("triggers", .list [.text "T0"]), ("repeat", .integer 2)],
      .record [("variables", .record [("GO", .bool true)])]])])) = .ok triggerAndWait := rfl
  -- numbers in identifiers are not read by the kernel
  have hid : NodeId.ofText "T0" = .transition 0 := by cbv
  have hfired : (triggerAndWait.run lampMachine).toOption.any fun r =>
      r.reports.map (·.fired) = [[.transition 0], [], []] := by
    simp only [run, runTicks, runTick, triggers, triggerAndWait, List.mapM_cons, hid]
    decide +kernel
  obtain ⟨hexpanded, hruns⟩ := run_eq_of_ofData hread lampMachine
  cases hr : triggerAndWait.run lampMachine with
  | error e => simp [hr, Except.toOption] at hfired
  | ok r =>
    obtain ⟨hlength, -, -, hstate, -⟩ := hruns r hr
    refine ⟨hread, r, rfl, ?_, (hexpanded r).1 hr, hlength, hstate⟩
    simpa [hr, Except.toOption] using hfired

end Scenario

end SequentialChart
