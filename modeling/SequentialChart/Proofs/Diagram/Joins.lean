import Mathlib
import SequentialChart.Proofs.Chart.Places
import SequentialChart.Proofs.Diagram.Neighbourhoods

/-!
# Branches that join

The branches of an AND divergence run side by side and are left together, by a transition that
stands behind the divergence and that the last steps of all branches lead to. In a source that is
accepted this transition can be missing in one place only: what may follow is checked, but not that
something follows, and only the root can end with a divergence.

## Main definitions

* `Diagram.IsJoined` — a transition leads out of all branches.

## Main statements

* `Chart.isJoined_of_check` — the AND divergences of an accepted source that are joined.
-/

namespace SequentialChart

namespace Diagram

variable {α : Type}

/-- The branches of an AND divergence are joined by what stands behind it: the elements `rest` begin
with a transition, and what leads to that are the last steps of the branches. -/
def IsJoined (d : Diagram α) (bs : List Branch) (rest : List Element) : Prop :=
  ∃ t rest', rest = .transition t :: rest' ∧
    List.Forall₂ (fun b x => ∃ init s, b.elements = init ++ [.step s] ∧ x = .step s.number) bs
      (d.predecessors (.transition t.number))

end Diagram

/-- Branches that each end with a step have these as their last steps, one each. -/
theorem Branch.forall₂_lastSteps {bs : List Branch}
    (h : ∀ b ∈ bs, ∃ init s, b.elements = init ++ [.step s]) :
    List.Forall₂ (fun b x => ∃ init s, b.elements = init ++ [.step s] ∧ x = .step s.number) bs
      (Branch.lastSteps bs) := by
  induction bs with
  | nil => exact .nil
  | cons b bs ih =>
    obtain ⟨⟨init, s, hb⟩, hbs⟩ := List.forall_mem_cons.1 h
    have hlasts : lastSteps (b :: bs) = .step s.number :: lastSteps bs := by
      simp [lastSteps, lasts, hb, Element.stepNumbers, Element.step?]
    rw [hlasts]
    exact .cons ⟨init, s, hb, rfl⟩ (ih hbs)

namespace Element

variable {es front rest : List Element} {bs : List Branch} {span endSpan : Span}

/-- What follows an AND divergence begins with a transition. -/
theorem IsOrderly.exists_transition (h : IsOrderly es)
    (hes : es = front ++ .divergence .and bs span endSpan :: rest) (hrest : rest ≠ []) :
    ∃ t rest', rest = .transition t :: rest' := by
  obtain ⟨hstep, hjump⟩ := h.and_precedes _ _ _ _ _ hes
  match rest with
  | [] => exact absurd rfl hrest
  | .step s :: _ => exact absurd rfl (hstep s)
  | .transition t :: rest' => exact ⟨t, rest', rfl⟩
  | .jump j :: _ => exact absurd rfl (hjump j)
  | .divergence junction bs' span' endSpan' :: rest' =>
    -- a further divergence would have to stand behind a transition or a step
    have hes' : es = (front ++ [.divergence .and bs span endSpan]) ++
        .divergence junction bs' span' endSpan' :: rest' := by
      simpa using hes
    cases junction with
    | and =>
      obtain ⟨t, ht⟩ := h.and_follows _ _ _ _ _ hes'
      simp at ht
    | or =>
      obtain ⟨s, hs⟩ := h.or_follows _ _ _ _ _ hes'
      simp at hs

/-- A branch does not end with a divergence. -/
theorem not_bounds_concat_divergence {junction junction' : Junction} :
    ¬ junction.Bounds (front ++ [.divergence junction' bs span endSpan]) := by
  cases junction <;> simp [Junction.Bounds, isStep, isTransition, isJump]

end Element

namespace Chart

variable {c : Chart} {es front rest : List Element} {bs : List Branch} {span endSpan : Span}

/-- A transition behind an AND divergence joins the branches. -/
theorem isJoined_of_ne_nil {α : Type} {d : Diagram α} (hshows : d.Shows c)
    (hrules : c.FollowsRules false) (htransitions : (Element.transitionNumbers c.walk).Nodup)
    (hes : es ∈ c.sequences) (heq : es = front ++ .divergence .and bs span endSpan :: rest)
    (hrest : rest ≠ []) : d.IsJoined bs rest := by
  have horderly := (followsRules_iff_isValid.1 hrules).orderly es hes
  obtain ⟨t, rest', rfl⟩ := horderly.exists_transition heq hrest
  obtain ⟨n, hn, htransition, hpredecessors⟩ := exists_neighbourhood_behind (heq ▸ hes)
  have hdiagram : d.predecessors (.transition t.number) = Branch.lastSteps bs := by
    rw [← hpredecessors, ← htransition]
    exact congrArg (·.predecessors) (hshows.neighbourhood_eq hrules htransitions hn)
  refine ⟨t, rest', rfl, hdiagram ▸ Branch.forall₂_lastSteps fun b hb => ?_⟩
  exact (horderly.and_branch bs span endSpan (by simp [heq]) b hb).2

/-- In a source that is accepted, every AND divergence within another divergence is joined, and in
the root every one that something follows. -/
theorem isJoined_of_check {source : String} {ws : List Diagnostic}
    (hcheck : check source = .ok (c, ws)) (config : Config) :
    ∃ d warnings, compile config source = .ok ⟨d, warnings⟩ ∧
      (∀ es ∈ Element.nested c.elements, ∀ front bs span endSpan rest,
        es = front ++ .divergence .and bs span endSpan :: rest → d.IsJoined bs rest) ∧
      ∀ front bs span endSpan rest, c.elements = front ++ .divergence .and bs span endSpan :: rest →
        (d.IsJoined bs rest ↔ rest ≠ []) := by
  have hrules := followsRules_of_check hcheck
  have htransitions := nodup_transitions_of_check hcheck
  obtain ⟨d, hdraw, hshows⟩ := exists_draw_of_check hcheck config.spacing
  have hall := checkAll_eq_ok_iff.2 ⟨ws, hcheck, rfl⟩
  refine ⟨d, _, compile_eq_ok_iff.2 ⟨c, hall, hdraw⟩, ?_, ?_⟩
  · intro es hes front bs span endSpan rest heq
    refine isJoined_of_ne_nil hshows hrules htransitions (List.mem_cons_of_mem _ hes) heq ?_
    rintro rfl
    obtain ⟨junction, hbounds⟩ :=
      (Element.isWithin_of_mem_nested hes).exists_bounds hrules.placed
    exact Element.not_bounds_concat_divergence (heq ▸ hbounds)
  · intro front bs span endSpan rest heq
    refine ⟨?_, isJoined_of_ne_nil hshows hrules htransitions List.mem_cons_self heq⟩
    rintro ⟨t, rest', rfl, -⟩
    exact List.cons_ne_nil _ _

end Chart

/-- A chart with an AND divergence in a branch of another one. -/
def forkInFork : String :=
  "Step 0 (Initial)\nTransition a\nDivergence AND\nBranch\nStep 1\nTransition b\n" ++
    "Divergence AND\nBranch\nStep 2\nBranch\nStep 3\nEndDivergence\nTransition c\nStep 4\n" ++
    "Branch\nStep 5\nEndDivergence\nTransition d\nStep 6"

/-- Both divergences are joined. -/
theorem Chart.isJoined_forkInFork :
    ∃ c d, check forkInFork = .ok (c, []) ∧ compile {} forkInFork = .ok ⟨d, []⟩ ∧
      (c.sequences.map fun es => es.map (·.kind)) =
        [[.step, .transition, .divergence .and, .transition, .step],
          [.step, .transition, .divergence .and, .transition, .step], [.step], [.step], [.step]] ∧
      ∀ es ∈ c.sequences, ∀ front bs span endSpan rest,
        es = front ++ .divergence .and bs span endSpan :: rest → d.IsJoined bs rest := by
  obtain ⟨c, d, hcheck, hcompile, hkinds⟩ := exists_drawn_of_any forkInFork (fun c _ =>
      (c.sequences.map fun es => es.map (·.kind)) =
        [[.step, .transition, .divergence .and, .transition, .step],
          [.step, .transition, .divergence .and, .transition, .step],
          [.step], [.step], [.step]])
    (by decide +kernel)
  have hkinds := of_decide_eq_true hkinds
  obtain ⟨d', warnings, hcompile', hnested, hroot⟩ := isJoined_of_check hcheck {}
  obtain ⟨rfl, -⟩ : d = d' ∧ [] = warnings := by simpa [hcompile] using hcompile'
  refine ⟨c, d, hcheck, hcompile, hkinds, List.forall_mem_cons.2 ⟨?_, hnested⟩⟩
  intro front bs span endSpan rest heq
  refine (hroot front bs span endSpan rest heq).2 ?_
  -- the root ends with a step
  rintro rfl
  have hlast : (c.elements.map (·.kind)).getLast? = some .step :=
    congrArg List.getLast? (List.cons.inj hkinds).1
  simp [heq, Element.kind] at hlast

/-- A chart that ends with an AND divergence. -/
def openFork : String :=
  "Step 0 (Initial)\nTransition a\nDivergence AND\nBranch\nStep 1\nBranch\nStep 2\nEndDivergence"

/-- The chart is accepted without a warning, but nothing leads out of its branches. -/
theorem Chart.exists_not_isJoined :
    ∃ c d, check openFork = .ok (c, []) ∧ compile {} openFork = .ok ⟨d, []⟩ ∧
      ∃ front bs span endSpan rest, c.elements = front ++ .divergence .and bs span endSpan :: rest ∧
        ¬ d.IsJoined bs rest := by
  obtain ⟨c, d, hcheck, hcompile, hlast⟩ := exists_drawn_of_any openFork (fun c _ =>
      c.elements.getLast?.any (·.kind = .divergence .and))
    (by decide +kernel)
  obtain ⟨e, he, hkind⟩ := Option.any_eq_true _ _ |>.1 hlast
  obtain ⟨front, heq⟩ := List.getLast?_eq_some_iff.1 he
  have hand : e.kind = .divergence .and := of_decide_eq_true hkind
  refine ⟨c, d, hcheck, hcompile, ?_⟩
  cases e with
  | step s | transition t | jump j => cases hand
  | divergence junction bs span endSpan =>
    obtain rfl : junction = .and := by simpa [Element.kind] using hand
    refine ⟨front, bs, span, endSpan, [], heq, ?_⟩
    rintro ⟨t, rest', hrest, -⟩
    cases hrest

end SequentialChart
