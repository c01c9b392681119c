import Mathlib
import SequentialChart.Proofs.Chart.Labels
import SequentialChart.Proofs.Chart.Nesting
import SequentialChart.Proofs.Chart.Unplaced
import SequentialChart.Proofs.Source.Edits

/-!
# Edits that a chart does not notice

Two sources that differ only in their layout denote the same chart, but for the places where it is
written, and the same is found wrong with them. A line without a keyword adds a warning and nothing
else: it leaves the open branch, the step that actions belong to and the numbers of transitions as
they are.

## Main definitions

* `ParseFinding.AreAdded` — what is found with a number of lines without a keyword in addition.
* `Build.Matches` — two builds that are equal but for places and for such findings.
* `Diagnostic.AreAdded` — the same for diagnostics.

## Main statements

* `Build.Matches.readLine` — lines with the same text keep builds equal.
* `Build.Matches.foldl_readLine` — so do lines with others without a directive among them.
* `Chart.parse_of_edit` — what an edit of a source does to its chart and to its diagnostics.
-/

namespace SequentialChart

/-! ### Findings -/

namespace ParseFinding

/-- The second findings are the first ones, in the same order, with `n` more among them, about lines
without a keyword; places do not count. -/
structure AreAdded (n : Nat) (fs fs' : List ParseFinding) : Prop where
  sublist : (fs.map unplaced).Sublist (fs'.map unplaced)
  perm : (fs'.map unplaced).Perm (List.replicate n (unrecognized default) ++ fs.map unplaced)

namespace AreAdded

variable {m n : Nat} {fs fs' gs gs' : List ParseFinding}

theorem of_map_eq (h : fs'.map unplaced = fs.map unplaced) : AreAdded 0 fs fs' :=
  ⟨h ▸ List.Sublist.refl _, h ▸ List.Perm.refl _⟩

theorem unrecognized (place : Span) : AreAdded 1 [] [.unrecognized place] :=
  ⟨List.nil_sublist _, List.Perm.refl _⟩

theorem append (h : AreAdded n fs fs') (h' : AreAdded m gs gs') :
    AreAdded (m + n) (fs ++ gs) (fs' ++ gs') := by
  constructor
  · rw [List.map_append, List.map_append]
    exact h.sublist.append h'.sublist
  · refine List.perm_iff_count.2 fun f => ?_
    have hcount := h.perm.count_eq f
    have hcount' := h'.perm.count_eq f
    simp only [List.map_append, List.count_append, List.replicate_add] at hcount hcount' ⊢
    omega

theorem reverse (h : AreAdded n fs fs') : AreAdded n fs.reverse fs'.reverse := by
  constructor
  · rw [List.map_reverse, List.map_reverse]
    exact h.sublist.reverse
  · rw [List.map_reverse, List.map_reverse]
    exact (List.reverse_perm _).trans (h.perm.trans ((List.reverse_perm _).symm.append_left _))

end AreAdded

end ParseFinding

/-! ### Builds -/

namespace Build

/-- The builds are equal but for places and for `n` more findings about lines without a keyword. -/
structure Matches (n : Nat) (b b' : Build) : Prop where
  unplaced_eq : ({ b' with findings := [] } : Build).unplaced =
    ({ b with findings := [] } : Build).unplaced
  findings : ParseFinding.AreAdded n b.findings b'.findings

namespace Matches

variable {n : Nat} {b b' : Build} {l l' : Line}

theorem refl (b : Build) : Matches 0 b b := ⟨rfl, .of_map_eq rfl⟩

theorem report (h : Matches n b b') {f f' : ParseFinding} (hf : f'.unplaced = f.unplaced) :
    Matches n (b.report f) (b'.report f') where
  unplaced_eq := h.unplaced_eq
  findings := by
    have hnew : ParseFinding.AreAdded 0 [f] [f'] := .of_map_eq (by simp [hf])
    exact hnew.append h.findings

theorem report_unrecognized (h : Matches n b b') (place : Span) :
    Matches (n + 1) b (b'.report (.unrecognized place)) where
  unplaced_eq := h.unplaced_eq
  findings := (ParseFinding.AreAdded.unrecognized place).append h.findings

/-- What a directive reports depends on places only as far as it names them. -/
theorem apply (h : Matches n b b') (span span' : Span) (d : Directive) :
    Matches n (b.apply span d) (b'.apply span' d) := by
  obtain ⟨new, -, hnew⟩ := b.exists_reports_apply span d
  obtain ⟨new', -, hnew'⟩ := b'.exists_reports_apply span' d
  -- both builds without the findings that are there have the same effect
  have hunplaced : ({ b'.apply span' d with findings := new' ++ [] } : Build).unplaced =
      ({ b.apply span d with findings := new ++ [] } : Build).unplaced := by
    rw [← hnew, ← hnew', unplaced_apply, unplaced_apply, h.unplaced_eq]
  have hfindings : b.apply span d = { b.apply span d with findings := new ++ b.findings } :=
    hnew b.findings
  have hfindings' : b'.apply span' d =
      { b'.apply span' d with findings := new' ++ b'.findings } := hnew' b'.findings
  constructor
  · exact congrArg (fun b : Build => { b with findings := [] }) hunplaced
  · have hadded : ParseFinding.AreAdded 0 new new' := by
      rw [List.append_nil, List.append_nil] at hunplaced
      exact .of_map_eq (congrArg Build.findings hunplaced)
    rw [hfindings, hfindings']
    exact hadded.append h.findings

/-- Lines with the same text have the same effect, wherever they stand. -/
theorem readLine (h : Matches n b b') (hl : l'.text = l.text) :
    Matches n (b.readLine l) (b'.readLine l') := by
  have hagree := Directive.agree_ofLine hl
  unfold Build.readLine
  generalize Directive.ofLine l = r at hagree
  generalize Directive.ofLine l' = r' at hagree
  cases hagree with
  | ok d =>
    cases d with
    | some d => exact h.apply l.span l'.span d
    | none => exact h.report rfl
  | error hfault => exact h.report (congrArg ParseFinding.directive hfault.symm)

/-- Lines that say the same have the same effect, but for the findings about the lines without a
keyword that are added to them. -/
theorem foldl_readLine {k : Nat} {ls ls' : List Line} (h : Matches n b b')
    (hls : Line.Extends k ls ls') :
    Matches (n + k) (ls.foldl Build.readLine b) (ls'.foldl Build.readLine b') := by
  induction hls generalizing n b b' with
  | nil => exact h
  | keep hl _ ih => exact ih (h.readLine hl)
  | @add k l ls ls' hl _ ih =>
    have hadd : b'.readLine l = b'.report (.unrecognized l.span) := by
      rw [Build.readLine, hl]
    have hcount : n + (k + 1) = n + 1 + k := by omega
    rw [List.foldl_cons, hadd, hcount]
    exact ih (h.report_unrecognized l.span)

theorem allFindings (h : Matches n b b') :
    ParseFinding.AreAdded n b.allFindings b'.allFindings := by
  have hopen : ParseFinding.AreAdded 0
      (b.pending.map fun d => ParseFinding.nesting (.unclosed d.junction d.span))
      (b'.pending.map fun d => ParseFinding.nesting (.unclosed d.junction d.span)) := by
    refine .of_map_eq ?_
    have := congrArg Build.allFindings h.unplaced_eq
    rw [← map_unplaced_allFindings, ← map_unplaced_allFindings] at this
    exact this
  have hadded := h.findings.reverse.append hopen
  rwa [Nat.zero_add] at hadded

theorem chart (h : Matches n b b') : b'.chart.unplaced = b.chart.unplaced := by
  have hchart := congrArg Build.chart h.unplaced_eq
  rw [← unplaced_chart, ← unplaced_chart] at hchart
  exact hchart

end Matches

end Build

/-! ### Diagnostics -/

namespace Diagnostic

/-- The second diagnostics are the first ones, in the same order, with `n` more among them: the
warnings about `n` lines without a keyword. The errors are the same. Places do not count. -/
structure AreAdded (n : Nat) (ds ds' : List Diagnostic) : Prop where
  errors : (ds'.filter isError).map unplaced = (ds.filter isError).map unplaced
  sublist : (ds.map unplaced).Sublist (ds'.map unplaced)
  perm : (ds'.map unplaced).Perm
    (List.replicate n (ParseFinding.unrecognized default).diagnostic ++ ds.map unplaced)

theorem areAdded_of_findings {n : Nat} {fs fs' : List ParseFinding}
    (h : ParseFinding.AreAdded n fs fs') :
    AreAdded n (fs.map (·.diagnostic)) (fs'.map (·.diagnostic)) := by
  have hunplaced (fs : List ParseFinding) : (fs.map (·.diagnostic)).map unplaced =
      (fs.map ParseFinding.unplaced).map (·.diagnostic) := by
    simp [ParseFinding.unplaced_diagnostic]
  have hsublist : ((fs.map (·.diagnostic)).map unplaced).Sublist
      ((fs'.map (·.diagnostic)).map unplaced) := by
    rw [hunplaced, hunplaced]
    exact h.sublist.map _
  have hperm : ((fs'.map (·.diagnostic)).map unplaced).Perm
      (List.replicate n (ParseFinding.unrecognized default).diagnostic ++
        (fs.map (·.diagnostic)).map unplaced) := by
    rw [hunplaced, hunplaced]
    simpa using h.perm.map (·.diagnostic)
  refine ⟨?_, hsublist, hperm⟩
  -- none of the diagnostics that are added is an error
  have herrors (ds : List Diagnostic) :
      (ds.filter isError).map unplaced = (ds.map unplaced).filter isError := by
    rw [List.filter_map]
    rfl
  have hlength := (hperm.filter isError).length_eq
  rw [herrors, herrors]
  refine ((hsublist.filter isError).eq_of_length ?_).symm
  rw [hlength, List.filter_append]
  simp [ParseFinding.isFault]

theorem exists_unlessErrors_iff {α : Type} {ds : List Diagnostic} {a : α} :
    (∃ r, unlessErrors ds a = .ok r) ↔ ds.filter isError = [] := by
  simp [unlessErrors_eq_ok_iff]

end Diagnostic

namespace Chart

theorem matches_build {n : Nat} {source source' : String}
    (h : Line.Edit n (source.toList.splitOn '\n') (source'.toList.splitOn '\n')) :
    Build.Matches n (build source) (build source') := by
  have hlines := (Build.Matches.refl {}).foldl_readLine h.extends_ofSource
  rwa [Nat.zero_add] at hlines

/-- An edit of the layout of a source, and of lines without a keyword, changes neither whether it
denotes a chart nor which chart that is, but for places. What is reported stays the same as well,
errors and warnings in the same order, with one more warning for each line without a keyword that is
added. -/
theorem parse_of_edit {n : Nat} {source source' : String}
    (h : Line.Edit n (source.toList.splitOn '\n') (source'.toList.splitOn '\n')) :
    ((∃ r, parse source' = .ok r) ↔ ∃ r, parse source = .ok r) ∧
      (∀ c ds c' ds', parse source = .ok (c, ds) → parse source' = .ok (c', ds') →
        c'.unplaced = c.unplaced) ∧
      Diagnostic.AreAdded n (Diagnostic.reported (parse source))
        (Diagnostic.reported (parse source')) := by
  have hbuild := matches_build h
  have hadded := Diagnostic.areAdded_of_findings hbuild.allFindings
  refine ⟨?_, fun c ds c' ds' hparse hparse' => ?_, ?_⟩
  · have herrors := congrArg List.length hadded.errors
    rw [List.length_map, List.length_map] at herrors
    rw [parse, parse, Diagnostic.exists_unlessErrors_iff, Diagnostic.exists_unlessErrors_iff,
      ← List.length_eq_zero_iff, ← List.length_eq_zero_iff, herrors]
  · obtain ⟨-, hc⟩ := parse_eq_ok_iff.1 hparse
    obtain ⟨-, hc'⟩ := parse_eq_ok_iff.1 hparse'
    cases hc
    cases hc'
    exact hbuild.chart
  · rw [parse, parse, Diagnostic.reported_unlessErrors, Diagnostic.reported_unlessErrors]
    exact hadded

/-- A chart in four lines. -/
def pump : String := "SFC Pump\nStep 1 (Initial)\r\nTransition Start\nJump 1"

/-- The same chart with comments, with other blanks, and with a line that is no directive. -/
def annotatedPump : String :=
  "// the pump\r\n  SFC Pump\n\t\nStep 1 (Initial) // idle\nas long as nobody comes\n" ++
    "Transition Start \t\nJump 1\n"

/-- The chart of `pump` is not changed by what has been added to it. -/
theorem parse_of_edit_pump :
    Line.Edit 1 (pump.toList.splitOn '\n') (annotatedPump.toList.splitOn '\n') ∧
      ((∃ r, parse annotatedPump = .ok r) ↔ ∃ r, parse pump = .ok r) ∧
      (∀ c ds c' ds', parse pump = .ok (c, ds) → parse annotatedPump = .ok (c', ds') →
        c'.unplaced = c.unplaced) ∧
      Diagnostic.AreAdded 1 (Diagnostic.reported (parse pump))
        (Diagnostic.reported (parse annotatedPump)) ∧
      (Diagnostic.reported (parse annotatedPump)).map (·.code) = [some .e106] := by
  have hlines : pump.toList.splitOn '\n' = ["SFC Pump".toList, "Step 1 (Initial)\r".toList,
      "Transition Start".toList, "Jump 1".toList] := by decide +kernel
  have hlines' : annotatedPump.toList.splitOn '\n' = ["// the pump\r".toList,
      "  SFC Pump".toList, "\t".toList, "Step 1 (Initial) // idle".toList,
      "as long as nobody comes".toList, "Transition Start \t".toList, "Jump 1".toList, []] := by
    decide +kernel
  have hedit : Line.Edit 1 (pump.toList.splitOn '\n') (annotatedPump.toList.splitOn '\n') := by
    rw [hlines, hlines']
    refine .addEmpty (.inr (by decide)) ?_
    refine .keep (.single (.indent [' ', ' '] _ (by simp))) ?_
    refine .addEmpty (.inl (by decide)) ?_
    refine .keep (.tail (.single (.dropReturn "Step 1 (Initial)".toList))
      (.comment " idle".toList (by decide))) ?_
    refine .addUnrecognized (by decide) (by decide) ?_
    refine .keep (.single (.pad [' ', '\t'] _ (by simp))) ?_
    refine .keep .refl ?_
    exact .addEmpty (.inl rfl) .nil
  obtain ⟨hok, hchart, hadded⟩ := parse_of_edit hedit
  exact ⟨hedit, hok, hchart, hadded, by decide +kernel⟩

end Chart

end SequentialChart
