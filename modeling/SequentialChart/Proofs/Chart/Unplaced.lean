import Mathlib
import SequentialChart.Chart.Build
import SequentialChart.Proofs.Chart.Sequences
import SequentialChart.Proofs.Directive.Agreement

/-!
# Charts without places

A chart and what is found about it remember where everything is written. When all places are
forgotten, what remains depends on what the lines of the source say and in which order they say it,
not on where they stand: forgetting the places and building a chart can be done in either order.

## Main definitions

* `Chart.unplaced`, `Element.unplaced`, `Build.unplaced` — charts and builds without their places.
* `Diagnostic.unplaced`, `ParseFinding.unplaced` — findings without their places.

## Main statements

* `Chart.unplaced_numbered` — transitions are numbered without regard to places.
* `Build.unplaced_apply` — a directive has its effect without regard to places.
* `Build.unplaced_chart` — the chart that has been built does not depend on places either.
-/

namespace SequentialChart

/-! ### Charts -/

def Located.unplaced {α : Type} (x : Located α) : Located α := { x with span := default }

def Step.unplaced (s : Step) : Step :=
  { s with actions := s.actions.map Located.unplaced, span := default }

def Transition.unplaced (t : Transition) : Transition := { t with span := default }

def Jump.unplaced (j : Jump) : Jump := { j with span := default }

mutual

/-- The element without its places and those within it. -/
def Element.unplaced : Element → Element
  | .step s => .step s.unplaced
  | .transition t => .transition t.unplaced
  | .jump j => .jump j.unplaced
  | .divergence junction branches _ _ =>
    .divergence junction (Branch.unplacedAll branches) default default

/-- The elements without their places. -/
def Element.unplacedAll : List Element → List Element
  | [] => []
  | e :: es => e.unplaced :: Element.unplacedAll es

/-- The branch without its places. -/
def Branch.unplaced : Branch → Branch
  | .mk elements _ => .mk (Element.unplacedAll elements) default

/-- The branches without their places. -/
def Branch.unplacedAll : List Branch → List Branch
  | [] => []
  | b :: bs => b.unplaced :: Branch.unplacedAll bs

end

/-- The chart without its places. -/
def Chart.unplaced (c : Chart) : Chart where
  title := c.title.map Located.unplaced
  elements := Element.unplacedAll c.elements

theorem Element.unplacedAll_eq_map (es : List Element) : unplacedAll es = es.map unplaced := by
  induction es with
  | nil => rfl
  | cons e es ih => rw [unplacedAll, ih, List.map_cons]

theorem Branch.unplacedAll_eq_map (bs : List Branch) : unplacedAll bs = bs.map unplaced := by
  induction bs with
  | nil => rfl
  | cons b bs ih => rw [unplacedAll, ih, List.map_cons]

@[simp] theorem Element.span_unplaced (e : Element) : e.unplaced.span = default := by
  cases e <;> rfl

theorem Element.transition?_unplaced (e : Element) :
    e.unplaced.transition? = e.transition?.map Transition.unplaced := by
  cases e <;> rfl

/-! ### Document order and numbers -/

theorem Branch.walkBranches_unplacedAll {bs : List Branch}
    (h : ∀ b ∈ bs, Element.walkAll (Element.unplacedAll b.elements) =
      (Element.walkAll b.elements).map Element.unplaced) :
    walkBranches (unplacedAll bs) = (walkBranches bs).map Element.unplaced := by
  induction bs with
  | nil => rfl
  | cons b bs ih =>
    obtain ⟨hb, hbs⟩ := List.forall_mem_cons.1 h
    obtain ⟨elements, span⟩ := b
    rw [elements_mk] at hb
    simp only [unplacedAll, unplaced, walkBranches, walk, List.map_append, hb, ih hbs]

theorem Element.walkAll_unplacedAll (es : List Element) :
    walkAll (unplacedAll es) = (walkAll es).map unplaced := by
  induction es using sequence_induction with
  | nil => rfl
  | step s es ih | transition t es ih | jump j es ih =>
    simp only [unplacedAll, unplaced, walkAll, walk, List.map_append, ih, List.map_cons,
      List.map_nil]
  | divergence junction bs span endSpan es hbs ih =>
    simp only [unplacedAll, unplaced, walkAll, walk, List.map_append, ih, List.map_cons,
      Branch.walkBranches_unplacedAll hbs]

theorem Branch.numberedAll_unplacedAll {taken : List Nat} {bs : List Branch}
    (h : ∀ b ∈ bs, ∀ n, Element.numberedAll taken n (Element.unplacedAll b.elements) =
      (Element.unplacedAll (Element.numberedAll taken n b.elements).1,
        (Element.numberedAll taken n b.elements).2)) (n : Nat) :
    numberedAll taken n (unplacedAll bs) =
      (unplacedAll (numberedAll taken n bs).1, (numberedAll taken n bs).2) := by
  induction bs generalizing n with
  | nil => rfl
  | cons b bs ih =>
    obtain ⟨hb, hbs⟩ := List.forall_mem_cons.1 h
    obtain ⟨elements, span⟩ := b
    rw [elements_mk] at hb
    simp only [unplacedAll, unplaced, numberedAll, numbered, hb, ih hbs]

/-- The numbers of transitions do not depend on places. -/
theorem Element.numberedAll_unplacedAll (taken : List Nat) (es : List Element) (n : Nat) :
    numberedAll taken n (unplacedAll es) =
      (unplacedAll (numberedAll taken n es).1, (numberedAll taken n es).2) := by
  induction es using sequence_induction generalizing n with
  | nil => rfl
  | step s es ih | jump j es ih => simp only [unplacedAll, unplaced, numberedAll, numbered, ih]
  | transition t es ih =>
    by_cases ht : t.explicit
    · have ht' : t.unplaced.explicit := ht
      simp only [unplacedAll, unplaced, numberedAll, numbered, ht, ht', if_true, ih]
    · have ht' : ¬ t.unplaced.explicit := ht
      simp only [unplacedAll, unplaced, numberedAll, numbered, ht, ht', ih]
      rfl
  | divergence junction bs span endSpan es hbs ih =>
    simp only [unplacedAll, unplaced, numberedAll, numbered, ih,
      Branch.numberedAll_unplacedAll hbs]

namespace Chart

theorem transitions_unplaced (c : Chart) :
    c.unplaced.transitions = c.transitions.map Transition.unplaced := by
  rw [transitions, walk, unplaced, Element.walkAll_unplacedAll, List.filterMap_map, transitions,
    walk, List.map_filterMap]
  exact congrArg (List.filterMap · _) (funext Element.transition?_unplaced)

theorem writtenNumbers_unplaced (c : Chart) : c.unplaced.writtenNumbers = c.writtenNumbers := by
  rw [writtenNumbers, transitions_unplaced, List.filter_map, List.map_map]
  rfl

/-- Transitions are numbered without regard to places. -/
theorem unplaced_numbered (c : Chart) : c.numbered.unplaced = c.unplaced.numbered := by
  simp only [numbered, writtenNumbers_unplaced]
  simp only [unplaced, Element.numberedAll_unplacedAll]

end Chart

/-! ### Findings -/

/-- The diagnostic without the places of its labels. -/
def Diagnostic.unplaced (d : Diagnostic) : Diagnostic :=
  { d with labels := d.labels.map fun l => { l with span := default } }

def NestingFault.unplaced : NestingFault → NestingFault
  | unclosed junction _ => unclosed junction default
  | misplaced what _ => misplaced what default
  | detached keyword _ => detached keyword default

def ParseFinding.unplaced : ParseFinding → ParseFinding
  | directive fault => directive fault.unplaced
  | nesting fault => nesting fault.unplaced
  | unrecognized _ => unrecognized default

/-- A finding is put into words without regard to its place. -/
theorem ParseFinding.unplaced_diagnostic (f : ParseFinding) :
    f.diagnostic.unplaced = f.unplaced.diagnostic := by
  cases f with
  | directive fault => cases fault <;> rfl
  | nesting fault => cases fault <;> rfl
  | unrecognized place => rfl

/-! ### Building -/

def OpenBranch.unplaced (b : OpenBranch) : OpenBranch where
  span := default
  elements := Element.unplacedAll b.elements

def OpenDivergence.unplaced (d : OpenDivergence) : OpenDivergence where
  junction := d.junction
  span := default
  branches := Branch.unplacedAll d.branches
  current := d.current.map OpenBranch.unplaced

/-- The build without its places. -/
def Build.unplaced (b : Build) : Build where
  title := b.title.map Located.unplaced
  root := Element.unplacedAll b.root
  pending := b.pending.map OpenDivergence.unplaced
  findings := b.findings.map ParseFinding.unplaced

namespace OpenDivergence

theorem unplaced_closeBranch (d : OpenDivergence) :
    d.closeBranch.unplaced = d.unplaced.closeBranch := by
  obtain ⟨junction, span, branches, _ | current⟩ := d
  · rfl
  · simp [closeBranch, unplaced, OpenBranch.unplaced, Branch.unplacedAll, Branch.unplaced,
      Element.unplacedAll_eq_map]

theorem unplaced_close (d : OpenDivergence) (endSpan : Span) :
    (d.close endSpan).unplaced = d.unplaced.close default := by
  have hbranches : d.unplaced.closeBranch.branches = Branch.unplacedAll d.closeBranch.branches := by
    rw [← unplaced_closeBranch, unplaced]
  rw [close, close, hbranches, Element.unplaced, Branch.unplacedAll_eq_map,
    Branch.unplacedAll_eq_map, List.map_reverse]
  rfl

end OpenDivergence

namespace Build

theorem unplaced_setSequence (b : Build) (es : List Element) :
    (b.setSequence es).unplaced = b.unplaced.setSequence (Element.unplacedAll es) := by
  obtain ⟨title, root, _ | ⟨⟨junction, opening, branches, _ | current⟩, outer⟩, found⟩ := b <;> rfl

theorem sequence?_unplaced (b : Build) :
    b.unplaced.sequence? = b.sequence?.map Element.unplacedAll := by
  obtain ⟨title, root, _ | ⟨⟨junction, opening, branches, _ | current⟩, outer⟩, found⟩ := b <;> rfl

theorem unplaced_push (b : Build) (e : Element) (keyword : String) :
    (b.push e keyword).unplaced = b.unplaced.push e.unplaced keyword := by
  rw [push, push, sequence?_unplaced]
  cases b.sequence? with
  | some es => exact unplaced_setSequence b (e :: es)
  | none =>
    rw [Element.span_unplaced]
    rfl

theorem updateStep_unplacedAll {f g : Step → Step} (h : ∀ s, (f s).unplaced = g s.unplaced)
    (es : List Element) : updateStep g (Element.unplacedAll es) =
      (updateStep f es).map Element.unplacedAll := by
  induction es with
  | nil => rfl
  | cons e es ih =>
    cases e with
    | step s => simp [updateStep, Element.unplacedAll, Element.unplaced, h]
    | transition | jump | divergence =>
      simp only [updateStep, Element.unplacedAll, Element.unplaced, ih, Option.map_map]
      rfl

theorem unplaced_attach {f g : Step → Step} (h : ∀ s, (f s).unplaced = g s.unplaced) (b : Build)
    (keyword : String) (place : Span) :
    (b.attach keyword place f).unplaced = b.unplaced.attach keyword default g := by
  have hupdate : (b.unplaced.sequence?.bind (updateStep g)) =
      (b.sequence?.bind (updateStep f)).map Element.unplacedAll := by
    rw [sequence?_unplaced]
    cases b.sequence? with
    | none => rfl
    | some es => exact updateStep_unplacedAll h es
  rw [attach, attach, hupdate]
  cases b.sequence?.bind (updateStep f) with
  | some es => exact unplaced_setSequence b es
  | none => rfl

theorem unplaced_openDivergence (b : Build) (junction : Junction) (span : Span) :
    (b.openDivergence junction span).unplaced = b.unplaced.openDivergence junction default := by
  rw [openDivergence, openDivergence, sequence?_unplaced]
  cases b.sequence? <;> rfl

theorem unplaced_openBranch (b : Build) (span : Span) :
    (b.openBranch span).unplaced = b.unplaced.openBranch default := by
  obtain ⟨title, root, _ | ⟨d, outer⟩, found⟩ := b
  · rfl
  · simp only [openBranch, unplaced, List.map_cons, ← OpenDivergence.unplaced_closeBranch]
    rfl

theorem unplaced_endBranch (b : Build) (span : Span) :
    (b.endBranch span).unplaced = b.unplaced.endBranch default := by
  obtain ⟨title, root, _ | ⟨d, outer⟩, found⟩ := b
  · rfl
  · cases hcurrent : d.current with
    | none => simp [endBranch, unplaced, OpenDivergence.unplaced, hcurrent, misplaced, report,
        ParseFinding.unplaced, NestingFault.unplaced]
    | some current =>
      have hcurrent' : d.unplaced.current = some current.unplaced := by
        rw [OpenDivergence.unplaced, hcurrent]
        rfl
      simp only [endBranch, unplaced, List.map_cons, hcurrent, hcurrent',
        OpenDivergence.unplaced_closeBranch]

/-- What the end of the innermost divergence does to the build around it. -/
theorem endDivergence_eq_elim {b : Build} {d : OpenDivergence} {outer : List OpenDivergence}
    (h : b.pending = d :: outer) (span : Span) :
    b.endDivergence span = ({ b with pending := outer } : Build).sequence?.elim
      { b with pending := outer }
      fun es => ({ b with pending := outer } : Build).setSequence (d.close span :: es) := by
  simp only [endDivergence, h]
  cases ({ b with pending := outer } : Build).sequence? <;> rfl

theorem unplaced_endDivergence (b : Build) (span : Span) :
    (b.endDivergence span).unplaced = b.unplaced.endDivergence default := by
  cases hpending : b.pending with
  | nil =>
    obtain ⟨title, root, pending, found⟩ := b
    cases hpending
    rfl
  | cons d outer =>
    have hpending' : b.unplaced.pending = d.unplaced :: outer.map OpenDivergence.unplaced := by
      rw [unplaced, hpending, List.map_cons]
    have houtside := sequence?_unplaced { b with pending := outer }
    rw [endDivergence_eq_elim hpending, endDivergence_eq_elim hpending']
    change _ = (({ b with pending := outer } : Build).unplaced.sequence?).elim _ _
    rw [houtside]
    cases ({ b with pending := outer } : Build).sequence? with
    | none => rfl
    | some es =>
      refine (unplaced_setSequence { b with pending := outer } _).trans ?_
      rw [Element.unplacedAll, OpenDivergence.unplaced_close]
      rfl

/-- A directive has its effect without regard to places. -/
theorem unplaced_apply (b : Build) (span : Span) (d : Directive) :
    (b.apply span d).unplaced = b.unplaced.apply default d := by
  cases d with
  | title text => cases text <;> rfl
  | step | transition | jump => exact unplaced_push b _ _
  | action a =>
    refine unplaced_attach (fun s => ?_) b "Action" span
    simp [Step.unplaced, Located.unplaced]
  | linkedFile file =>
    refine unplaced_attach (fun s => ?_) b "LinkedFile" span
    rfl
  | divergence junction => exact unplaced_openDivergence b junction span
  | branch => exact unplaced_openBranch b span
  | endBranch => exact unplaced_endBranch b span
  | endDivergence => exact unplaced_endDivergence b span

/-- The chart that has been built does not depend on places either. -/
theorem unplaced_chart (b : Build) : b.chart.unplaced = b.unplaced.chart := by
  rw [chart, Chart.unplaced_numbered, chart]
  simp only [Chart.unplaced, Element.unplacedAll_eq_map, List.map_reverse, unplaced]

theorem map_unplaced_allFindings (b : Build) :
    b.allFindings.map ParseFinding.unplaced = b.unplaced.allFindings := by
  simp only [allFindings, unplaced, List.map_append, List.map_reverse, List.map_map]
  rfl

end Build

end SequentialChart
