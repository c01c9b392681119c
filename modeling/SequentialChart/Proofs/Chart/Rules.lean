import Mathlib
import SequentialChart.Chart.Structure
import SequentialChart.Proofs.Chart.Sequences

/-!
# The rules of charts

What it means for the structure of a chart to follow the rules, apart from how that is checked: what
may stand next to what, how branches begin and end, and which numbers are free.

## Main definitions

* `Element.IsPlaced` — an element and all that is in it may stand between two others. A `strict`
  chart does not even give rise to a warning.
* `Ledger.Admits` — a number is free, or the target of a jump is known.

## Main statements

* `Element.checkAll_passes_iff` — checking finds nothing exactly if the rules are followed.
* `Chart.structureFindings_pass_iff` — the same for a chart.
-/

namespace SequentialChart

/-- Whether a chart may go on in spite of a finding: a strict chart in spite of none, another one in
spite of warnings. -/
def StructureFinding.passes (strict : Bool) (f : StructureFinding) : Bool :=
  !strict && f.severity != .error

/-- Whether a chart may go on in spite of all findings. -/
def PlacedFinding.Pass (strict : Bool) (fs : List PlacedFinding) : Prop :=
  ∀ f ∈ fs, f.finding.passes strict

namespace PlacedFinding

@[simp] theorem pass_nil (strict : Bool) : Pass strict [] := nofun

@[simp] theorem pass_append {strict : Bool} {fs gs : List PlacedFinding} :
    Pass strict (fs ++ gs) ↔ Pass strict fs ∧ Pass strict gs := by
  simp [Pass, or_imp, forall_and]

@[simp] theorem pass_map {strict : Bool} {path : Option SequencePath} {fs : List StructureFinding} :
    Pass strict (fs.map (⟨·, path⟩)) ↔ ∀ f ∈ fs, f.passes strict := by
  simp [Pass]

end PlacedFinding

/-! ### What may stand next to what -/

/-- How the branches of a divergence begin and end. -/
def Junction.Bounds : Junction → List Element → Prop
  | .and, es => es.head?.any Element.isStep ∧ es.getLast?.any Element.isStep
  | .or, es => es.head?.any Element.isTransition ∧
    (es.getLast?.any Element.isTransition ∨
      es.getLast?.any Element.isJump ∧ es.dropLast.getLast?.any Element.isTransition)

mutual

/-- The element may stand between the elements `previous` and `next`, and what is in it follows the
rules as well. -/
def Element.IsPlaced (strict : Bool) (previous next : Option Element) : Element → Prop
  | .step _ => strict → ¬ previous.any Element.isStep
  | .transition _ => strict → ¬ previous.any Element.isTransition
  | .jump _ => True
  | .divergence .and branches _ _ =>
    previous.any Element.isTransition ∧
      ¬ next.any Element.isStep ∧ ¬ next.any Element.isJump ∧
      2 ≤ branches.length ∧ Branch.ArePlaced strict .and branches
  | .divergence .or branches _ _ =>
    previous.any Element.isStep ∧ (strict → ¬ next.any Element.isTransition) ∧
      2 ≤ branches.length ∧ Branch.ArePlaced strict .or branches

/-- The elements of a sequence may follow one another and the element `previous`. -/
def Element.ArePlaced (strict : Bool) (previous : Option Element) : List Element → Prop
  | [] => True
  | e :: es => ¬ previous.any Element.isJump ∧ e.IsPlaced strict previous es.head? ∧
    Element.ArePlaced strict (some e) es

/-- The branch begins and ends as it has to, and its elements may follow one another. -/
def Branch.IsPlaced (strict : Bool) (junction : Junction) : Branch → Prop
  | .mk elements _ => junction.Bounds elements ∧ Element.ArePlaced strict none elements

def Branch.ArePlaced (strict : Bool) (junction : Junction) : List Branch → Prop
  | [] => True
  | b :: bs => b.IsPlaced strict junction ∧ Branch.ArePlaced strict junction bs

end

theorem Branch.arePlaced_iff {strict : Bool} {junction : Junction} {bs : List Branch} :
    Branch.ArePlaced strict junction bs ↔ ∀ b ∈ bs, b.IsPlaced strict junction := by
  induction bs with
  | nil => simp [Branch.ArePlaced]
  | cons b bs ih => simp [Branch.ArePlaced, ih]

theorem Junction.Bounds.ne_nil {junction : Junction} {es : List Element} (h : junction.Bounds es) :
    es ≠ [] := by
  rintro rfl
  cases junction <;> simp [Junction.Bounds] at h

theorem Element.ArePlaced.branch {strict : Bool} {previous : Option Element} {junction : Junction}
    {bs : List Branch} {span endSpan : Span} {es : List Element}
    (h : Element.ArePlaced strict previous (.divergence junction bs span endSpan :: es))
    {b : Branch} (hb : b ∈ bs) :
    junction.Bounds b.elements ∧ Element.ArePlaced strict none b.elements := by
  have hbs : Branch.ArePlaced strict junction bs := by
    cases junction <;> simp only [Element.ArePlaced, Element.IsPlaced] at h
    · exact h.2.1.2.2.2.2
    · exact h.2.1.2.2.2
  have := Branch.arePlaced_iff.1 hbs b hb
  cases b
  exact this

theorem Element.ArePlaced.tail {strict : Bool} {previous : Option Element} {e : Element}
    {es : List Element} (h : Element.ArePlaced strict previous (e :: es)) :
    Element.ArePlaced strict (some e) es := h.2.2

/-! ### Numbers -/

namespace Ledger

/-- The ledger after an element, what is in it apart. -/
def record (l : Ledger) : Element → Ledger
  | .step s => (l.declare s).2
  | .transition t => (l.enter t).2
  | .jump _ => l
  | .divergence .. => l

/-- The number of a step or the written number of a transition is free; the target of a jump is
known. -/
def Admits (l : Ledger) : Element → Prop
  | .step s => s.number ∉ l.steps.map Prod.fst
  | .transition t => t.explicit → t.number ∉ l.transitions.map Prod.fst
  | .jump j => j.target ∈ l.steps.map Prod.fst
  | .divergence .. => True

/-- The ledger admits the elements one after the other. -/
def AdmitsAll (l : Ledger) : List Element → Prop
  | [] => True
  | e :: es => l.Admits e ∧ (l.record e).AdmitsAll es

theorem admitsAll_append {l : Ledger} {es fs : List Element} :
    l.AdmitsAll (es ++ fs) ↔ l.AdmitsAll es ∧ (es.foldl record l).AdmitsAll fs := by
  induction es generalizing l with
  | nil => simp [AdmitsAll]
  | cons e es ih => simp [AdmitsAll, ih, and_assoc]

theorem lookup_eq_none_iff {n : Nat} {l : List (Nat × Span)} :
    l.lookup n = none ↔ n ∉ l.map Prod.fst := by
  rw [List.lookup_eq_none_iff, List.mem_map]
  grind

theorem lookup_eq_some_iff_mem {n : Nat} {l : List (Nat × Span)} :
    (∃ span, l.lookup n = some span) ↔ n ∈ l.map Prod.fst := by
  rw [← not_iff_not, ← lookup_eq_none_iff]
  cases l.lookup n <;> simp

theorem declare_passes_iff {strict : Bool} {l : Ledger} {s : Step} :
    (∀ f ∈ (l.declare s).1, f.passes strict) ↔ l.Admits (.step s) := by
  rw [Admits, ← lookup_eq_none_iff, declare]
  cases l.steps.lookup s.number <;>
    simp [StructureFinding.passes, StructureFinding.severity]

theorem enter_passes_iff {strict : Bool} {l : Ledger} {t : Transition} :
    (∀ f ∈ (l.enter t).1, f.passes strict) ↔ l.Admits (.transition t) := by
  rw [Admits, ← lookup_eq_none_iff, enter]
  by_cases h : t.explicit = true
  · cases l.transitions.lookup t.number <;>
      simp [h, StructureFinding.passes, StructureFinding.severity]
  · simp [h]

theorem follow_passes_iff {strict : Bool} {l : Ledger} {allSteps : List Nat} {j : Jump} :
    (∀ f ∈ l.follow allSteps j, f.passes strict) ↔ l.Admits (.jump j) := by
  rw [Admits, ← lookup_eq_some_iff_mem, follow]
  cases l.steps.lookup j.target <;>
    simp [StructureFinding.passes, StructureFinding.severity]

end Ledger

/-! ### Checking finds what breaks the rules -/

theorem reachFindings_pass_iff {strict : Bool} {previous : Option Element} {e : Element} :
    (∀ f ∈ reachFindings previous e, f.passes strict) ↔ ¬ previous.any Element.isJump := by
  match previous with
  | none => simp [reachFindings]
  | some (.jump j) =>
    simp [reachFindings, Element.isJump, StructureFinding.passes, StructureFinding.severity]
  | some (.step _) | some (.transition _) | some (.divergence ..) =>
    simp [reachFindings, Element.isJump]

theorem consecutiveFindings_pass_iff {strict : Bool} {previous : Option Element} {e : Element} :
    (∀ f ∈ consecutiveFindings previous e, f.passes strict) ↔
      (strict → ¬ previous.any (·.kind = e.kind)) := by
  cases previous with
  | none => simp [consecutiveFindings]
  | some p =>
    by_cases h : p.kind = e.kind <;>
      simp [consecutiveFindings, h, StructureFinding.passes, StructureFinding.severity]

theorem kind_eq_step_iff {e : Element} : e.kind = .step ↔ e.isStep := by
  cases e <;> simp [Element.kind, Element.isStep]

theorem kind_eq_transition_iff {e : Element} : e.kind = .transition ↔ e.isTransition := by
  cases e <;> simp [Element.kind, Element.isTransition]

theorem consecutiveFindings_step_pass_iff {strict : Bool} {previous : Option Element} {s : Step} :
    (∀ f ∈ consecutiveFindings previous (.step s), f.passes strict) ↔
      (strict → ¬ previous.any Element.isStep) := by
  rw [consecutiveFindings_pass_iff]
  cases previous <;> simp [Element.kind.eq_1, kind_eq_step_iff]

theorem consecutiveFindings_transition_pass_iff {strict : Bool} {previous : Option Element}
    {t : Transition} :
    (∀ f ∈ consecutiveFindings previous (.transition t), f.passes strict) ↔
      (strict → ¬ previous.any Element.isTransition) := by
  rw [consecutiveFindings_pass_iff]
  cases previous <;> simp [Element.kind.eq_2, kind_eq_transition_iff]

theorem placementFindings_and_pass_iff {strict : Bool} {span endSpan : Span}
    {previous next : Option Element} :
    (∀ f ∈ placementFindings .and span endSpan previous next, f.passes strict) ↔
      previous.any Element.isTransition ∧ ¬ next.any Element.isStep ∧
        ¬ next.any Element.isJump := by
  unfold placementFindings
  by_cases hp : previous.any Element.isTransition = true
  · cases next with
    | none => simp [hp]
    | some e =>
      by_cases hs : e.isStep <;> by_cases hj : e.isJump <;>
        simp [hp, hs, hj, StructureFinding.passes, StructureFinding.severity]
  · simp [hp, StructureFinding.passes, StructureFinding.severity]

theorem placementFindings_or_pass_iff {strict : Bool} {span endSpan : Span}
    {previous next : Option Element} :
    (∀ f ∈ placementFindings .or span endSpan previous next, f.passes strict) ↔
      previous.any Element.isStep ∧ (strict → ¬ next.any Element.isTransition) := by
  unfold placementFindings
  by_cases hp : previous.any Element.isStep = true
  · cases next with
    | none => simp [hp]
    | some e =>
      by_cases ht : e.isTransition <;>
        simp [hp, ht, StructureFinding.passes, StructureFinding.severity]
  · simp [hp, StructureFinding.passes, StructureFinding.severity]

theorem countFindings_pass_iff {strict : Bool} {junction : Junction} {count : Nat} {span : Span} :
    (∀ f ∈ countFindings junction count span, f.passes strict) ↔ 2 ≤ count := by
  by_cases h : count < 2
  · simp [countFindings, h, StructureFinding.passes, StructureFinding.severity]
  · simp [countFindings, h]
    omega

theorem boundFindings_pass_iff {strict : Bool} {junction : Junction} {index : Nat} {b : Branch} :
    (∀ f ∈ boundFindings junction index b, f.passes strict) ↔ junction.Bounds b.elements := by
  unfold boundFindings
  split
  · next first last hfirst hlast =>
    have hpass : (∀ f ∈ (if first.kind = StructureFinding.branchBound junction then []
        else [StructureFinding.branchStart junction index first.mention]) ++
          if last.kind = StructureFinding.branchBound junction ||
            (junction = .or && closesWithJump b.elements) then []
          else [StructureFinding.branchEnd junction index last.mention], f.passes strict) ↔
        first.kind = StructureFinding.branchBound junction ∧
          (last.kind = StructureFinding.branchBound junction ∨
            junction = .or ∧ closesWithJump b.elements) := by
      by_cases h1 : first.kind = StructureFinding.branchBound junction <;>
        by_cases h2 : (last.kind = StructureFinding.branchBound junction ∨
            junction = .or ∧ closesWithJump b.elements) <;>
        simp [h1, h2, StructureFinding.passes, StructureFinding.severity]
    rw [hpass]
    cases junction with
    | and =>
      simp [StructureFinding.branchBound, Junction.Bounds, hfirst, hlast, kind_eq_step_iff]
    | or =>
      simp [StructureFinding.branchBound, Junction.Bounds, hfirst, hlast, kind_eq_transition_iff,
        closesWithJump]
  · next h =>
    have hnil : b.elements = [] := by
      cases hes : b.elements with
      | nil => rfl
      | cons e es =>
        have := h e ((e :: es).getLast (by simp)) (by simp [hes])
        simp [hes, List.getLast?_eq_some_getLast] at this
    cases junction <;>
      simp [hnil, Junction.Bounds, StructureFinding.passes, StructureFinding.severity]

section Checked

variable {strict : Bool} {allSteps : List Nat} {path : SequencePath}

/-- What checking an element has to come to. -/
def Element.IsCheckedBy (strict : Bool) (previous next : Option Element) (l : Ledger) (e : Element)
    (r : List PlacedFinding × Ledger) : Prop :=
  (PlacedFinding.Pass strict r.1 ↔ e.IsPlaced strict previous next ∧ l.AdmitsAll e.walk) ∧
    r.2 = e.walk.foldl Ledger.record l

/-- What checking a sequence has to come to. -/
def Element.AreCheckedBy (strict : Bool) (previous : Option Element) (l : Ledger)
    (es : List Element) (r : List PlacedFinding × Ledger) : Prop :=
  (PlacedFinding.Pass strict r.1 ↔
      Element.ArePlaced strict previous es ∧ l.AdmitsAll (Element.walkAll es)) ∧
    r.2 = (Element.walkAll es).foldl Ledger.record l

/-- What checking branches has to come to. -/
def Branch.AreCheckedBy (strict : Bool) (junction : Junction) (l : Ledger) (bs : List Branch)
    (r : List PlacedFinding × Ledger) : Prop :=
  (PlacedFinding.Pass strict r.1 ↔
      Branch.ArePlaced strict junction bs ∧ l.AdmitsAll (Branch.walkBranches bs)) ∧
    r.2 = (Branch.walkBranches bs).foldl Ledger.record l

theorem Element.check_step {previous next : Option Element} {l : Ledger} {s : Step} :
    (Element.step s).IsCheckedBy strict previous next l
      ((Element.step s).check allSteps path previous next l) := by
  refine ⟨?_, rfl⟩
  simp only [Element.check, PlacedFinding.pass_map, List.forall_mem_append, Element.IsPlaced,
    consecutiveFindings_step_pass_iff, Ledger.declare_passes_iff, Element.walk, Ledger.AdmitsAll,
    and_true]

theorem Element.check_transition {previous next : Option Element} {l : Ledger} {t : Transition} :
    (Element.transition t).IsCheckedBy strict previous next l
      ((Element.transition t).check allSteps path previous next l) := by
  refine ⟨?_, rfl⟩
  simp only [Element.check, PlacedFinding.pass_map, List.forall_mem_append, Element.IsPlaced,
    consecutiveFindings_transition_pass_iff, Ledger.enter_passes_iff, Element.walk,
    Ledger.AdmitsAll, and_true]

theorem Element.check_jump {previous next : Option Element} {l : Ledger} {j : Jump} :
    (Element.jump j).IsCheckedBy strict previous next l
      ((Element.jump j).check allSteps path previous next l) := by
  refine ⟨?_, rfl⟩
  simp only [Element.check, PlacedFinding.pass_map, Ledger.follow_passes_iff, Element.IsPlaced,
    Element.walk, Ledger.AdmitsAll, and_true, true_and]

theorem Element.check_divergence {previous next : Option Element} {l : Ledger}
    {junction : Junction} {bs : List Branch} {span endSpan : Span}
    (h : Branch.AreCheckedBy strict junction l bs
      (Branch.checkAll allSteps path junction 0 l bs)) :
    (Element.divergence junction bs span endSpan).IsCheckedBy strict previous next l
      ((Element.divergence junction bs span endSpan).check allSteps path previous next l) := by
  obtain ⟨hpass, hledger⟩ := h
  refine ⟨?_, hledger⟩
  simp only [Element.check, PlacedFinding.pass_append, PlacedFinding.pass_map,
    List.forall_mem_append, countFindings_pass_iff, hpass, Element.walk, Ledger.AdmitsAll,
    Ledger.Admits, Ledger.record, true_and]
  cases junction with
  | and => simp only [placementFindings_and_pass_iff, Element.IsPlaced, and_assoc]
  | or => simp only [placementFindings_or_pass_iff, Element.IsPlaced, and_assoc]

theorem Element.checkAll_cons {previous : Option Element} {l : Ledger} {e : Element}
    {es : List Element}
    (he : e.IsCheckedBy strict previous es.head? l (e.check allSteps path previous es.head? l))
    (hes : ∀ l, Element.AreCheckedBy strict (some e) l es
      (Element.checkAll allSteps path (some e) l es)) :
    Element.AreCheckedBy strict previous l (e :: es)
      (Element.checkAll allSteps path previous l (e :: es)) := by
  obtain ⟨hpass, hledger⟩ := he
  obtain ⟨hrest, hlast⟩ := hes (e.check allSteps path previous es.head? l).2
  rw [hledger] at hrest hlast
  constructor
  · simp only [Element.checkAll, PlacedFinding.pass_append, PlacedFinding.pass_map,
      reachFindings_pass_iff, hpass, hledger, hrest, Element.ArePlaced, Element.walkAll,
      Ledger.admitsAll_append]
    tauto
  · simp only [Element.checkAll, Element.walkAll, List.foldl_append, hledger, hlast]

theorem Branch.checkAll_of {junction : Junction} {bs : List Branch}
    (h : ∀ b ∈ bs, ∀ path l, Element.AreCheckedBy strict none l b.elements
      (Element.checkAll allSteps path none l b.elements)) (index : Nat) (l : Ledger) :
    Branch.AreCheckedBy strict junction l bs
      (Branch.checkAll allSteps path junction index l bs) := by
  induction bs generalizing index l with
  | nil => exact ⟨by simp [Branch.checkAll, Branch.ArePlaced, Branch.walkBranches,
      Ledger.AdmitsAll], rfl⟩
  | cons b bs ih =>
    obtain ⟨elements, span⟩ := b
    obtain ⟨hpass, hledger⟩ := h (.mk elements span) (by simp) (path ++ [index]) l
    simp only [Branch.elements_mk] at hpass hledger
    obtain ⟨hrest, hlast⟩ := ih (fun b hb => h b (by simp [hb])) (index + 1)
      ((Element.walkAll elements).foldl Ledger.record l)
    have hbound : (∀ f ∈ boundFindings junction index (.mk elements span), f.passes strict) ↔
        junction.Bounds elements := boundFindings_pass_iff
    constructor
    · simp only [Branch.checkAll, Branch.check, PlacedFinding.pass_append, PlacedFinding.pass_map,
        hbound, hpass, hledger, hrest, Branch.ArePlaced, Branch.IsPlaced,
        Branch.walkBranches, Branch.walk, Ledger.admitsAll_append]
      tauto
    · simp only [Branch.checkAll, Branch.check, Branch.walkBranches, Branch.walk,
        List.foldl_append, hledger, hlast]

/-- Checking a sequence finds nothing exactly if the rules are followed. -/
theorem Element.checkAll_passes_iff (path : SequencePath) (previous : Option Element) (l : Ledger)
    (es : List Element) :
    Element.AreCheckedBy strict previous l es
      (Element.checkAll allSteps path previous l es) := by
  induction es using Element.sequence_induction generalizing path previous l with
  | nil => exact ⟨by simp [Element.checkAll, Element.ArePlaced, Element.walkAll,
      Ledger.AdmitsAll], rfl⟩
  | step s es ih => exact Element.checkAll_cons Element.check_step fun l => ih path _ l
  | transition t es ih => exact Element.checkAll_cons Element.check_transition fun l => ih path _ l
  | jump j es ih => exact Element.checkAll_cons Element.check_jump fun l => ih path _ l
  | divergence junction bs span endSpan es hbs ih =>
    have hinner : Branch.AreCheckedBy strict junction l bs
        (Branch.checkAll allSteps path junction 0 l bs) :=
      Branch.checkAll_of (fun b hb path l => hbs b hb path none l) 0 l
    exact Element.checkAll_cons (Element.check_divergence hinner) fun l => ih path _ l

end Checked

/-! ### Numbers of elements -/

namespace Element

/-- The numbers of the steps among elements. -/
def stepNumbers (es : List Element) : List Nat := (es.filterMap step?).map (·.number)

/-- The numbers that are written in the source, of the transitions among elements. -/
def writtenNumbers (es : List Element) : List Nat :=
  ((es.filterMap transition?).filter (·.explicit)).map (·.number)

/-- The numbers of the transitions among elements. -/
def transitionNumbers (es : List Element) : List Nat := (es.filterMap transition?).map (·.number)

/-- The targets of the jumps among elements. -/
def jumpTargets (es : List Element) : List Nat := (es.filterMap jump?).map (·.target)

@[simp] theorem transitionNumbers_append (es fs : List Element) :
    transitionNumbers (es ++ fs) = transitionNumbers es ++ transitionNumbers fs := by
  simp [transitionNumbers]

@[simp] theorem jumpTargets_append (es fs : List Element) :
    jumpTargets (es ++ fs) = jumpTargets es ++ jumpTargets fs := by
  simp [jumpTargets]

/-- Every jump leads to a known step or to one before it. -/
def JumpsLeadBack (known : List Nat) (es : List Element) : Prop :=
  ∀ before j after, es = before ++ jump j :: after → j.target ∈ known ++ stepNumbers before

@[simp] theorem stepNumbers_nil : stepNumbers [] = [] := rfl

@[simp] theorem stepNumbers_append (es fs : List Element) :
    stepNumbers (es ++ fs) = stepNumbers es ++ stepNumbers fs := by
  simp [stepNumbers]

theorem stepNumbers_sublist {es fs : List Element} (h : es.Sublist fs) :
    (stepNumbers es).Sublist (stepNumbers fs) :=
  (h.filterMap _).map _

theorem jumpTargets_sublist {es fs : List Element} (h : es.Sublist fs) :
    (jumpTargets es).Sublist (jumpTargets fs) :=
  (h.filterMap _).map _

theorem stepNumbers_cons (e : Element) (es : List Element) :
    stepNumbers (e :: es) = stepNumbers [e] ++ stepNumbers es :=
  stepNumbers_append [e] es

@[simp] theorem writtenNumbers_nil : writtenNumbers [] = [] := rfl

@[simp] theorem writtenNumbers_append (es fs : List Element) :
    writtenNumbers (es ++ fs) = writtenNumbers es ++ writtenNumbers fs := by
  simp [writtenNumbers]

theorem writtenNumbers_cons (e : Element) (es : List Element) :
    writtenNumbers (e :: es) = writtenNumbers [e] ++ writtenNumbers es :=
  writtenNumbers_append [e] es

theorem mem_stepNumbers_iff {n : Nat} {es : List Element} :
    n ∈ stepNumbers es ↔ ∃ s, step s ∈ es ∧ s.number = n := by
  constructor
  · intro h
    obtain ⟨s, hs, rfl⟩ := List.mem_map.1 h
    obtain ⟨e, he, hes⟩ := List.mem_filterMap.1 hs
    cases e <;> simp only [step?, Option.some.injEq, reduceCtorEq] at hes
    exact ⟨s, hes ▸ he, rfl⟩
  · rintro ⟨s, hs, rfl⟩
    exact List.mem_map_of_mem (List.mem_filterMap.2 ⟨_, hs, rfl⟩)

theorem nodup_stepNumbers_singleton (e : Element) : (stepNumbers [e]).Nodup := by
  cases e <;> simp [stepNumbers, step?, List.filterMap_cons]

theorem nodup_writtenNumbers_singleton (e : Element) : (writtenNumbers [e]).Nodup := by
  cases e with
  | transition t =>
    by_cases ht : t.explicit = true <;> simp [writtenNumbers, transition?, ht]
  | step | jump | divergence => simp [writtenNumbers, transition?, List.filterMap_cons]

theorem jumpsLeadBack_perm {known known' : List Nat} {es : List Element}
    (h : known.Perm known') : JumpsLeadBack known es ↔ JumpsLeadBack known' es := by
  simp only [JumpsLeadBack, List.mem_append, h.mem_iff]

theorem jumpsLeadBack_cons {known : List Nat} {e : Element} {es : List Element} :
    JumpsLeadBack known (e :: es) ↔
      (∀ j, e = jump j → j.target ∈ known) ∧ JumpsLeadBack (known ++ stepNumbers [e]) es := by
  constructor
  · intro h
    refine ⟨fun j hj => by simpa using h [] j es (by simp [hj]), fun before j after hes => ?_⟩
    have := h (e :: before) j after (by simp [hes])
    rwa [stepNumbers_cons, ← List.append_assoc] at this
  · rintro ⟨h1, h2⟩ before j after hes
    cases before with
    | nil =>
      obtain ⟨rfl, -⟩ := List.cons.inj hes
      simpa using h1 j rfl
    | cons e' before =>
      obtain ⟨rfl, hrest⟩ := List.cons.inj hes
      rw [stepNumbers_cons, ← List.append_assoc]
      exact h2 before j after hrest

/-- Every jump that leads back leads to a known step or to one of the steps among the elements. -/
theorem JumpsLeadBack.mem {known : List Nat} {es : List Element} (h : JumpsLeadBack known es)
    {n : Nat} (hn : n ∈ jumpTargets es) : n ∈ known ++ stepNumbers es := by
  obtain ⟨j, hj, rfl⟩ := List.mem_map.1 hn
  obtain ⟨e, he, hej⟩ := List.mem_filterMap.1 hj
  obtain ⟨before, after, rfl⟩ := List.append_of_mem he
  have hjump : e = jump j := by
    cases e <;> simp_all [jump?]
  have := h before j after (by rw [hjump])
  simp only [List.mem_append, stepNumbers_append] at this ⊢
  exact this.imp_right .inl

end Element

namespace Ledger

def stepNumbers (l : Ledger) : List Nat := l.steps.map Prod.fst

def writtenNumbers (l : Ledger) : List Nat := l.transitions.map Prod.fst

theorem stepNumbers_record {l : Ledger} {e : Element} (h : l.Admits e) :
    (l.record e).stepNumbers = Element.stepNumbers [e] ++ l.stepNumbers := by
  match e with
  | .step s =>
    have hfree : l.steps.lookup s.number = none := lookup_eq_none_iff.2 h
    simp [record, declare, hfree, stepNumbers, Element.stepNumbers, Element.step?]
  | .transition t =>
    have henter : (l.enter t).2.steps = l.steps := by
      unfold enter
      split
      · split <;> rfl
      · rfl
    simp [record, henter, stepNumbers, Element.stepNumbers, Element.step?]
  | .jump j => simp [record, Element.stepNumbers, Element.step?]
  | .divergence .. => simp [record, Element.stepNumbers, Element.step?]

theorem writtenNumbers_record {l : Ledger} {e : Element} (h : l.Admits e) :
    (l.record e).writtenNumbers = Element.writtenNumbers [e] ++ l.writtenNumbers := by
  match e with
  | .step s =>
    have hdeclare : (l.declare s).2.transitions = l.transitions := by
      unfold declare
      split <;> rfl
    simp [record, hdeclare, writtenNumbers, Element.writtenNumbers, Element.transition?]
  | .transition t =>
    by_cases ht : t.explicit = true
    · have hfree : l.transitions.lookup t.number = none := lookup_eq_none_iff.2 (h ht)
      simp [record, enter, ht, hfree, writtenNumbers, Element.writtenNumbers, Element.transition?]
    · simp [record, enter, ht, writtenNumbers, Element.writtenNumbers, Element.transition?]
  | .jump j => simp [record, Element.writtenNumbers, Element.transition?]
  | .divergence .. => simp [record, Element.writtenNumbers, Element.transition?]

/-- The number of an element is free, or the target known, in terms of numbers alone. -/
theorem admits_iff {l : Ledger} {e : Element} :
    l.Admits e ↔ (∀ n ∈ Element.stepNumbers [e], n ∉ l.stepNumbers) ∧
      (∀ n ∈ Element.writtenNumbers [e], n ∉ l.writtenNumbers) ∧
      ∀ j, e = .jump j → j.target ∈ l.stepNumbers := by
  match e with
  | .step s =>
    simp [Admits, stepNumbers, Element.stepNumbers, Element.writtenNumbers, Element.step?,
      Element.transition?]
  | .transition t =>
    by_cases ht : t.explicit = true <;>
      simp [ht, Admits, writtenNumbers, Element.stepNumbers, Element.writtenNumbers, Element.step?,
        Element.transition?]
  | .jump j =>
    simp [Admits, stepNumbers, Element.stepNumbers, Element.writtenNumbers, Element.step?,
      Element.transition?]
  | .divergence .. =>
    simp [Admits, Element.stepNumbers, Element.writtenNumbers, Element.step?, Element.transition?]

/-- A ledger in which no number occurs twice admits elements if no number occurs twice with them
either and all jumps lead back. -/
theorem admitsAll_iff {l : Ledger} {es : List Element} (hs : l.stepNumbers.Nodup)
    (ht : l.writtenNumbers.Nodup) :
    l.AdmitsAll es ↔ (l.stepNumbers ++ Element.stepNumbers es).Nodup ∧
      (l.writtenNumbers ++ Element.writtenNumbers es).Nodup ∧
      Element.JumpsLeadBack l.stepNumbers es := by
  induction es generalizing l with
  | nil => simp [AdmitsAll, Element.JumpsLeadBack, hs, ht]
  | cons e es ih =>
    rw [AdmitsAll, Element.stepNumbers_cons, Element.writtenNumbers_cons,
      Element.jumpsLeadBack_cons]
    have hswap : ∀ l₁ l₂ l₃ : List Nat, (l₁ ++ (l₂ ++ l₃)).Nodup ↔ ((l₂ ++ l₁) ++ l₃).Nodup :=
      fun l₁ l₂ l₃ => by
        rw [← List.append_assoc]
        exact (List.perm_append_comm.append_right l₃).nodup_iff
    rw [hswap, hswap]
    have hnext : l.Admits e → ((l.record e).AdmitsAll es ↔
        ((Element.stepNumbers [e] ++ l.stepNumbers) ++ Element.stepNumbers es).Nodup ∧
        ((Element.writtenNumbers [e] ++ l.writtenNumbers) ++ Element.writtenNumbers es).Nodup ∧
        Element.JumpsLeadBack (l.stepNumbers ++ Element.stepNumbers [e]) es) := by
      intro h
      have hfree := admits_iff.1 h
      have hs' : (Element.stepNumbers [e] ++ l.stepNumbers).Nodup :=
        List.nodup_append'.2 ⟨Element.nodup_stepNumbers_singleton e, hs, hfree.1⟩
      have ht' : (Element.writtenNumbers [e] ++ l.writtenNumbers).Nodup :=
        List.nodup_append'.2 ⟨Element.nodup_writtenNumbers_singleton e, ht, hfree.2.1⟩
      rw [ih (by rwa [stepNumbers_record h]) (by rwa [writtenNumbers_record h]),
        stepNumbers_record h, writtenNumbers_record h,
        Element.jumpsLeadBack_perm List.perm_append_comm]
    constructor
    · rintro ⟨h, hall⟩
      obtain ⟨h1, h2, h3⟩ := (hnext h).1 hall
      exact ⟨h1, h2, (admits_iff.1 h).2.2, h3⟩
    · rintro ⟨h1, h2, hjump, h3⟩
      have h : l.Admits e := admits_iff.2
        ⟨(List.nodup_append'.1 h1.of_append_left).2.2,
          (List.nodup_append'.1 h2.of_append_left).2.2, hjump⟩
      exact ⟨h, (hnext h).2 ⟨h1, h2, h3⟩⟩

end Ledger

/-! ### The rules of a whole chart -/

namespace Chart

/-- A chart follows the rules. -/
structure FollowsRules (strict : Bool) (c : Chart) : Prop where
  starts : ∀ e ∈ c.elements.head?, e.isStep
  placed : Element.ArePlaced strict none c.elements
  nodup_steps : (c.steps.map (·.number)).Nodup
  nodup_written : c.writtenNumbers.Nodup
  jumps : Element.JumpsLeadBack [] c.walk
  initial : strict → c.hasInitial

theorem startFindings_pass_iff {strict : Bool} {c : Chart} :
    (∀ f ∈ c.startFindings, f.passes strict) ↔ ∀ e ∈ c.elements.head?, e.isStep := by
  unfold startFindings
  cases c.elements.head? with
  | none => simp
  | some e =>
    by_cases h : e.isStep <;> simp [h, StructureFinding.passes, StructureFinding.severity]

/-- Nothing is found in a chart exactly if it follows the rules. -/
theorem structureFindings_pass_iff {strict : Bool} {c : Chart} :
    PlacedFinding.Pass strict c.structureFindings ↔ c.FollowsRules strict := by
  have hinitial : PlacedFinding.Pass strict
      (if c.hasInitial then [] else [⟨.noInitialStep, none⟩]) ↔ (strict → c.hasInitial) := by
    by_cases h : c.hasInitial <;>
      simp [h, PlacedFinding.Pass, StructureFinding.passes, StructureFinding.severity]
  have hall : PlacedFinding.Pass strict
      (Element.checkAll (c.steps.map (·.number)) [] none {} c.elements).1 ↔
        Element.ArePlaced strict none c.elements ∧ ({} : Ledger).AdmitsAll c.walk :=
    (Element.checkAll_passes_iff [] none {} c.elements).1
  have hnumbers : ({} : Ledger).AdmitsAll c.walk ↔ ([] ++ Element.stepNumbers c.walk).Nodup ∧
      ([] ++ Element.writtenNumbers c.walk).Nodup ∧ Element.JumpsLeadBack [] c.walk :=
    Ledger.admitsAll_iff List.nodup_nil List.nodup_nil
  rw [structureFindings, PlacedFinding.pass_append, PlacedFinding.pass_append,
    PlacedFinding.pass_map, startFindings_pass_iff, hall, hnumbers, hinitial]
  constructor
  · rintro ⟨⟨h1, h2, h3, h4, h5⟩, h6⟩
    exact ⟨h1, h2, h3, h4, h5, h6⟩
  · rintro ⟨h1, h2, h3, h4, h5, h6⟩
    exact ⟨⟨h1, h2, h3, h4, h5⟩, h6⟩

theorem followsRules_of_check {source : String} {c : Chart} {warnings : List Diagnostic}
    (h : Chart.check source = .ok (c, warnings)) : c.FollowsRules false := by
  obtain ⟨c', ws, -, herrors, heq⟩ := Chart.check_eq_ok_iff.1 h
  obtain ⟨rfl, rfl⟩ := Prod.mk.inj heq
  refine structureFindings_pass_iff.1 fun f hf => ?_
  have := herrors f.diagnostic (by simp only [List.mem_append, validate]; grind)
  simpa [StructureFinding.passes] using this

/-- A chart without warnings follows even the strict rules. -/
theorem followsRules_of_check_nil {source : String} {c : Chart}
    (h : Chart.check source = .ok (c, [])) : c.FollowsRules true := by
  obtain ⟨c', ws, -, -, heq⟩ := Chart.check_eq_ok_iff.1 h
  obtain ⟨rfl, hnil⟩ := Prod.mk.inj heq
  have hnone : c.structureFindings = [] := by
    simpa [validate] using (List.append_eq_nil_iff.1 hnil.symm).2
  exact structureFindings_pass_iff.1 (by simp [hnone])

end Chart

end SequentialChart
