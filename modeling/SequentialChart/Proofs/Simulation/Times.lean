import Mathlib
import SequentialChart.Proofs.Decimal.Sums
import SequentialChart.Proofs.Simulation.Scenarios
import SequentialChart.Toml.Document

/-!
# The times of a run

A tick that sets its time is refused if that time lies before the tick before, and the interval
moves nothing back. So the times of a run are in order, except around a time that is set to `NaN`:
nothing lies before it and it lies before nothing.

## Main definitions

* `Scenario.upTo` — the scenario without its later ticks.
* `Scenario.SetsNaN` — the single ticks that set their time to `NaN`.

## Main statements

* `Scenario.le_firstTime` — a tick does not come before the tick before.
* `Scenario.exists_setsNaN_of_lt`, `Scenario.le_of_runTicks` — what comes after a time.
* `Scenario.run_times_of_ofData` — where the times of a run are in order, and which ticks are
  refused.
-/

namespace SequentialChart.Scenario

/-- The scenario without the ticks from the one with the number `n` on. -/
def upTo (s : Scenario) (n : Nat) : Scenario := { s with ticks := s.ticks.take n }

/-- The single tick with the number `k` sets its time to `NaN`. -/
def SetsNaN (s : Scenario) (k : Nat) : Prop :=
  (s.expanded.ticks[k]?).bind (·.time) = some .nan

variable {s : Scenario} {m : Machine} {tick : ScenarioTick} {ticks : List ScenarioTick}
  {index : Nat} {p q : Progress} {reports : List TickReport}

/-! ### One tick -/

/-- A tick that does not set its time to `NaN` does not come before the tick before. -/
theorem le_firstTime {before time : Float} (hinterval : s.hasInterval = true)
    (hbefore : before ≠ .nan) (hnan : tick.time ≠ some .nan)
    (h : s.firstTime index tick before = .ok time) : before ≤ time := by
  unfold firstTime at h
  split at h
  · next t ht =>
    split at h
    · cases h
    · next hlt =>
      cases h
      rw [ht, ne_eq, Option.some_inj] at hnan
      exact (Double.not_lt hbefore hnan).1 hlt
  · cases h
    rw [hasInterval, Bool.and_eq_true] at hinterval
    exact Double.le_add hbefore hinterval.1 (of_decide_eq_true hinterval.2)

theorem exists_firstTime_of_runTick (hone : tick.count = 1)
    (h : s.runTick m index tick p = .ok (reports, q)) :
    ∃ report, reports = [report] ∧ report.time = q.time ∧
      s.firstTime index tick p.time = .ok q.time := by
  rw [runTick, bind_eq_ok_iff] at h
  obtain ⟨triggered, -, h⟩ := h
  simp only [hone] at h
  obtain ⟨time, htime, h⟩ := bind_eq_ok_iff.1 h
  cases h
  exact ⟨_, rfl, rfl, htime⟩

/-- A tick whose time lies before the tick before is refused. -/
theorem runTick_eq_error (m : Machine) (index : Nat) {t : Float} (hcount : tick.count ≠ 0)
    (ht : tick.time = some t) (hlt : t < p.time) :
    s.runTick m index tick p = .error (.goesBack index t p.time) ∨
      ∃ e, triggers m index tick = .error e ∧ s.runTick m index tick p = .error e := by
  obtain ⟨count, hcount⟩ := Nat.exists_eq_succ_of_ne_zero hcount
  have htime : s.firstTime index tick p.time = .error (.goesBack index t p.time) := by
    rw [firstTime, ht]
    exact if_pos hlt
  cases htriggers : triggers m index tick with
  | error e => exact .inr ⟨e, rfl, by rw [runTick, htriggers]; rfl⟩
  | ok triggered =>
    left
    rw [runTick, htriggers]
    simp only [hcount, htime]
    rfl

/-! ### All ticks -/

/-- The first report of a run of single ticks, and the run of the others. -/
theorem runTicks_cons_eq_ok (hone : tick.count = 1)
    (h : s.runTicks m index (tick :: ticks) p = .ok (reports, q)) :
    ∃ report rest p', reports = report :: rest ∧ report.time = p'.time ∧
      s.firstTime index tick p.time = .ok p'.time ∧
      s.runTicks m (index + 1) ticks p' = .ok (rest, q) := by
  rw [runTicks, bind_eq_ok_iff] at h
  obtain ⟨⟨first, p'⟩, hfirst, h⟩ := h
  obtain ⟨⟨rest, q'⟩, hrest, h⟩ := bind_eq_ok_iff.1 h
  cases h
  obtain ⟨report, rfl, hreport, htime⟩ := exists_firstTime_of_runTick hone hfirst
  exact ⟨report, rest, p', rfl, hreport, htime, hrest⟩

/-- A run ends at the time of its last report. -/
theorem time_of_runTicks (hone : ∀ tick ∈ ticks, tick.count = 1)
    (h : s.runTicks m index ticks p = .ok (reports, q)) :
    q.time = (reports.getLast?.map (·.time)).getD p.time := by
  induction ticks generalizing index p reports with
  | nil =>
    cases h
    rfl
  | cons tick ticks ih =>
    obtain ⟨htick, hticks⟩ := List.forall_mem_cons.1 hone
    obtain ⟨report, rest, p', rfl, hreport, -, hrest⟩ := runTicks_cons_eq_ok htick h
    rw [ih hticks hrest, List.getLast?_cons, ← hreport]
    cases rest.getLast? <;> rfl

/-- After each of its reports a run is the run of the ticks that are left. -/
theorem exists_runTicks_drop (hone : ∀ tick ∈ ticks, tick.count = 1)
    (h : s.runTicks m index ticks p = .ok (reports, q)) {i : Nat} {a : TickReport}
    (ha : reports[i]? = some a) :
    ∃ p' index', p'.time = a.time ∧
      s.runTicks m index' (ticks.drop (i + 1)) p' = .ok (reports.drop (i + 1), q) := by
  induction ticks generalizing index p reports i with
  | nil =>
    cases h
    cases ha
  | cons tick ticks ih =>
    obtain ⟨htick, hticks⟩ := List.forall_mem_cons.1 hone
    obtain ⟨report, rest, p', rfl, hreport, -, hrest⟩ := runTicks_cons_eq_ok htick h
    cases i with
    | zero =>
      cases ha
      exact ⟨p', index + 1, hreport.symm, hrest⟩
    | succ i => exact ih hticks hrest ha

/-- A report that lies before the start of its run comes after a time that is set to `NaN`. -/
theorem exists_setsNaN_of_lt (hinterval : s.hasInterval = true)
    (hone : ∀ tick ∈ ticks, tick.count = 1)
    (h : s.runTicks m index ticks p = .ok (reports, q)) {j : Nat} {b : TickReport}
    (hb : reports[j]? = some b) (hlt : b.time < p.time) :
    ∃ k, k < j ∧ (ticks[k]?).bind (·.time) = some .nan := by
  induction ticks generalizing index p reports j with
  | nil =>
    cases h
    cases hb
  | cons tick ticks ih =>
    obtain ⟨htick, hticks⟩ := List.forall_mem_cons.1 hone
    obtain ⟨report, rest, p', rfl, hreport, htime, hrest⟩ := runTicks_cons_eq_ok htick h
    obtain ⟨hnumber, hbefore⟩ := Double.ne_nan_of_lt hlt
    by_cases hnan : tick.time = some .nan
    · cases j with
      | zero =>
        -- the report itself would be `NaN`, which lies before nothing
        cases hb
        have := eq_of_firstTime_eq_ok htime
        simp [hnan, ← hreport, hnumber] at this
      | succ j => exact ⟨0, j.succ_pos, hnan⟩
    · have hle := le_firstTime hinterval hbefore hnan htime
      cases j with
      | zero =>
        cases hb
        rw [← hreport] at hle
        exact absurd hlt (Double.not_lt_of_le hle)
      | succ j =>
        obtain ⟨k, hk, hset⟩ := ih hticks hrest hb (Double.lt_of_lt_of_le hlt hle)
        exact ⟨k + 1, Nat.succ_lt_succ hk, hset⟩

/-- A run that sets no time to `NaN` does not end before its start. -/
theorem le_of_runTicks (hinterval : s.hasInterval = true)
    (hone : ∀ tick ∈ ticks, tick.count = 1) (hnan : ∀ tick ∈ ticks, tick.time ≠ some .nan)
    (hp : p.time ≠ .nan) (h : s.runTicks m index ticks p = .ok (reports, q)) :
    p.time ≤ q.time := by
  induction ticks generalizing index p reports with
  | nil =>
    cases h
    exact Double.le_refl hp
  | cons tick ticks ih =>
    obtain ⟨htick, hticks⟩ := List.forall_mem_cons.1 hone
    obtain ⟨hset, hsets⟩ := List.forall_mem_cons.1 hnan
    obtain ⟨report, rest, p', -, -, htime, hrest⟩ := runTicks_cons_eq_ok htick h
    have hle := le_firstTime hinterval hp hset htime
    exact Double.le_trans hle (ih hticks hsets (Double.ne_nan_of_le hle).2 hrest)

/-! ### Runs -/

/-- What a run yields, its single ticks yield on the way to the same end. -/
theorem runTicks_expanded_of_run (hcount : ∀ tick ∈ s.ticks, tick.count ≠ 0) {r : ScenarioRun}
    (h : s.run m = .ok r) :
    ∃ q, s.runTicks m 0 s.ticks (s.atStart m) = .ok (r.reports, q) ∧
      s.runTicks m 0 s.expanded.ticks (s.atStart m) = .ok (r.reports, q) := by
  obtain ⟨q, hrun, -⟩ := run_eq_ok_iff.1 h
  exact ⟨q, hrun, (eq_ok_iff_of_toOption_eq (toOption_runTicks_expanded hcount 0 0) _).2 hrun⟩

/-- A scenario whose first ticks run fails if the next tick does. -/
theorem run_eq_error {n : Nat} {e : ScenarioError} (htick : s.ticks[n]? = some tick)
    (hfront : s.runTicks m 0 (s.ticks.take n) (s.atStart m) = .ok (reports, q))
    (h : s.runTick m n tick q = .error e) : s.run m = .error e := by
  obtain ⟨hn, rfl⟩ := List.getElem?_eq_some_iff.1 htick
  have hindex : 0 + (s.ticks.take n).length = n := by
    rw [List.length_take]
    omega
  have hticks : s.runTicks m 0 s.ticks (s.atStart m) = .error e := by
    conv_lhs => rw [← List.take_append_drop n s.ticks, List.drop_eq_getElem_cons hn]
    rw [runTicks_append]
    refine bind_eq_error_iff.2 (.inr ⟨_, hfront, bind_eq_error_iff.2 (.inl ?_)⟩)
    rw [hindex]
    exact bind_eq_error_iff.2 (.inl h)
  exact bind_eq_error_iff.2 (.inl hticks)

/-- A report that lies before an earlier one comes after a tick between them that sets its time to
`NaN`. -/
theorem exists_setsNaN_between (hinterval : s.hasInterval = true)
    (h : s.runTicks m 0 s.expanded.ticks (s.atStart m) = .ok (reports, q)) {i j : Nat}
    {a b : TickReport} (hij : i < j) (ha : reports[i]? = some a) (hb : reports[j]? = some b)
    (hlt : b.time < a.time) : ∃ k, i < k ∧ k < j ∧ s.SetsNaN k := by
  obtain ⟨p, index, hp, hrest⟩ := exists_runTicks_drop (fun _ => count_of_mem_expanded) h ha
  have hb' : (reports.drop (i + 1))[j - (i + 1)]? = some b := by
    rwa [List.getElem?_drop, Nat.add_sub_cancel' hij]
  rw [← hp] at hlt
  obtain ⟨k, hk, hset⟩ := exists_setsNaN_of_lt hinterval
    (fun _ ht => count_of_mem_expanded (List.mem_of_mem_drop ht)) hrest hb' hlt
  rw [List.getElem?_drop] at hset
  exact ⟨i + 1 + k, by omega, by omega, hset⟩

/-- A run does not end before a report after which no tick sets its time to `NaN`. -/
theorem le_time_of_report (hinterval : s.hasInterval = true)
    (h : s.runTicks m 0 s.expanded.ticks (s.atStart m) = .ok (reports, q)) {i : Nat}
    {a : TickReport} (ha : reports[i]? = some a) (hnumber : a.time ≠ .nan)
    (hnan : ∀ k, i < k → ¬ s.SetsNaN k) : a.time ≤ q.time := by
  obtain ⟨p, index, hp, hrest⟩ := exists_runTicks_drop (fun _ => count_of_mem_expanded) h ha
  rw [← hp] at hnumber ⊢
  refine le_of_runTicks hinterval (fun _ ht => count_of_mem_expanded (List.mem_of_mem_drop ht))
    (fun t ht hset => ?_) hnumber hrest
  obtain ⟨k, hk⟩ := List.getElem?_of_mem ht
  rw [List.getElem?_drop] at hk
  refine hnan (i + 1 + k) (by omega) ?_
  rw [SetsNaN, hk]
  exact hset

/-- In a run of a scenario that was read, a report lies before an earlier one only if a tick
between them sets its time to `NaN`. A tick that sets a time before an earlier report is refused
unless a tick after that report does. -/
theorem run_times_of_ofData {format : DataFormat} {data : Option Data} {s : Scenario}
    (h : ofData format data = .ok s) (m : Machine) :
    (∀ r, s.run m = .ok r → ∀ i j a b, i < j → r.reports[i]? = some a →
        r.reports[j]? = some b → b.time < a.time → ∃ k, i < k ∧ k < j ∧ s.SetsNaN k) ∧
      ∀ n tick t r i a, s.ticks[n]? = some tick → tick.time = some t →
        (s.upTo n).run m = .ok r → r.reports[i]? = some a → t < a.time →
        (∀ k, i < k → ¬ (s.upTo n).SetsNaN k) →
        ∃ last, r.reports.getLast? = some last ∧
          (s.run m = .error (.goesBack n t last.time) ∨
            ∃ e, triggers m n tick = .error e ∧ s.run m = .error e) := by
  obtain ⟨hinterval, hcount⟩ := valid_of_ofData h
  refine ⟨fun r hr i j a b hij ha hb hlt => ?_, fun n tick t r i a htick ht hr ha hlt hnan => ?_⟩
  · obtain ⟨q, -, hsingle⟩ := runTicks_expanded_of_run hcount hr
    exact exists_setsNaN_between hinterval hsingle hij ha hb hlt
  · have hcount' : ∀ tick ∈ (s.upTo n).ticks, tick.count ≠ 0 :=
      fun tick htick => hcount tick (List.mem_of_mem_take htick)
    obtain ⟨q, hfront, hsingle⟩ := runTicks_expanded_of_run hcount' hr
    have hle : a.time ≤ q.time :=
      le_time_of_report (s := s.upTo n) hinterval hsingle ha (Double.ne_nan_of_lt hlt).2 hnan
    obtain ⟨last, hlast⟩ : ∃ last, r.reports.getLast? = some last :=
      Option.isSome_iff_exists.1 (by
        rw [List.getLast?_isSome]
        exact List.ne_nil_of_mem (List.mem_of_getElem? ha))
    have hq : q.time = last.time := by
      rw [time_of_runTicks (fun _ => count_of_mem_expanded) hsingle, hlast]
      rfl
    have hfront' : s.runTicks m 0 (s.ticks.take n) (s.atStart m) = .ok (r.reports, q) :=
      (runTicks_with_ticks _).symm.trans hfront
    refine ⟨last, hlast, ?_⟩
    rcases runTick_eq_error m n (hcount tick (List.mem_of_getElem? htick)) ht
      (Double.lt_of_lt_of_le hlt hle) with herror | ⟨e, he, herror⟩
    · exact .inl (hq ▸ run_eq_error htick hfront' herror)
    · exact .inr ⟨e, he, run_eq_error htick hfront' herror⟩

/-! ### A scenario that goes back and one that may not -/

theorem exists_report {r : ScenarioRun} {times : List Float} {i : Nat} {t : Float}
    (h : r.reports.map (·.time) = times) (ht : times[i]? = some t) :
    ∃ a, r.reports[i]? = some a ∧ a.time = t := by
  rw [← h, List.getElem?_map] at ht
  exact Option.map_eq_some_iff.1 ht

/-- The time between `5` and `1` is not a number. -/
def strayed : Scenario where
  ticks := [{ time := some 5 }, { time := some .nan }, { time := some 1 }]

/-- A tick with a repetition half a second later, and a tick that would come before both. -/
def hurried : Scenario where
  interval := 0.5
  ticks := [{ time := some 2.5, count := 2 }, { time := some 1 }]

/-- The first scenario goes back over a `NaN`, and the second one is refused. -/
theorem run_times_of_strayed_hurried :
    (ofData .toml (some (.record [("tick", .list [.record [("time", .double 5)],
        .record [("time", .double .nan)], .record [("time", .double 1)]])])) = .ok strayed ∧
      ∃ r, strayed.run lampMachine = .ok r ∧ r.reports.map (·.time) = [5, .nan, 1] ∧
        ∃ k, 0 < k ∧ k < 2 ∧ strayed.SetsNaN k) ∧
      ofData .toml (some (.record [("interval", .double 0.5), ("tick", .list [
          .record [("time", .double 2.5), ("repeat", .integer 2)],
          .record [("time", .double 1)]])])) = .ok hurried ∧
        hurried.run lampMachine = .error (.goesBack 1 1 3) := by
  have hstrayed : ofData .toml (some (.record [("tick", .list [.record [("time", .double 5)],
      .record [("time", .double .nan)], .record [("time", .double 1)]])])) = .ok strayed := rfl
  have hhurried : ofData .toml (some (.record [("interval", .double 0.5), ("tick", .list [
      .record [("time", .double 2.5), ("repeat", .integer 2)],
      .record [("time", .double 1)]])])) = .ok hurried := rfl
  refine ⟨⟨hstrayed, ?_⟩, hhurried, ?_⟩
  · obtain ⟨r, hr, htimes⟩ := exists_of_toOption_any (x := strayed.run lampMachine)
      (p := fun r => r.reports.map (·.time) = [5, .nan, 1]) (by decide +kernel)
    have htimes := of_decide_eq_true htimes
    obtain ⟨a, ha, hfive⟩ := exists_report htimes (i := 0) rfl
    obtain ⟨b, hb, hone⟩ := exists_report htimes (i := 2) rfl
    have hlt : b.time < a.time := by
      rw [hfive, hone]
      decide +kernel
    exact ⟨r, hr, htimes, (run_times_of_ofData hstrayed lampMachine).1 r hr 0 2 a b (by decide)
      ha hb hlt⟩
  · obtain ⟨r, hr, htimes⟩ := exists_of_toOption_any (x := (hurried.upTo 1).run lampMachine)
      (p := fun r => r.reports.map (·.time) = [2.5, 3]) (by decide +kernel)
    have htimes := of_decide_eq_true htimes
    obtain ⟨a, ha, hthree⟩ := exists_report htimes (i := 1) rfl
    have hlt : (1 : Float) < a.time := by
      rw [hthree]
      decide +kernel
    have hnone : ∀ k, 1 < k → ¬ (hurried.upTo 1).SetsNaN k := fun k hk hset => by
      have hlength : (hurried.upTo 1).expanded.ticks.length ≤ k := hk
      rw [SetsNaN, List.getElem?_eq_none hlength] at hset
      cases hset
    obtain ⟨last, hlast, h | ⟨e, he, -⟩⟩ := (run_times_of_ofData hhurried lampMachine).2 1 _ 1 r 1 a
      rfl rfl hr ha hlt hnone
    · have htime : some last.time = some 3 := by
        rw [← Option.map_some, ← hlast, ← List.getLast?_map, htimes]
        rfl
      rw [h, Option.some.inj htime]
    · cases he

/-- The third tick of a file lies before the first and is not refused. -/
theorem exists_run_goes_back : ∃ s r,
    ofData .toml (Data.ofToml?
        "[[tick]]\ntime = 5.0\n[[tick]]\ntime = nan\n[[tick]]\ntime = 1.0\n".toList) = .ok s ∧
      s.run lampMachine = .ok r ∧ r.reports.map (·.time) = [5, .nan, 1] ∧ (1 : Float) < 5 := by
  obtain ⟨s, hs, hrun⟩ := exists_of_toOption_any (x := ofData .toml (Data.ofToml?
      "[[tick]]\ntime = 5.0\n[[tick]]\ntime = nan\n[[tick]]\ntime = 1.0\n".toList))
    (p := fun s => (s.run lampMachine).toOption.any fun r =>
      r.reports.map (·.time) = [5, .nan, 1]) (by decide +kernel)
  obtain ⟨r, hr, htimes⟩ := exists_of_toOption_any hrun
  exact ⟨s, r, hs, hr, of_decide_eq_true htimes, by decide +kernel⟩

end SequentialChart.Scenario
