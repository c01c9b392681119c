import Mathlib
import SequentialChart.Proofs.Chart.Rules

/-!
# Valid charts

The rules of charts are checked in one pass, which looks at an element and its two neighbours and
goes down into branches. Here they are said apart from any pass: for every sequence of the chart, be
it the root or a branch, and for every place in it.

## Main definitions

* `Chart.sequences` — the root and all branches.
* `Element.Obeys` — what is demanded of the places of one sequence.
* `Chart.IsValid` — the rules, one field each.

## Main statements

* `Element.arePlaced_iff` — the rules hold on the way down exactly if they hold in every sequence.
* `Chart.forall_not_isError_validate_iff` — no error is found exactly if the chart is valid.
-/

namespace SequentialChart

namespace Element

/-- The branches that begin with the element. -/
def branches : Element → List Branch
  | divergence _ branches _ _ => branches
  | _ => []

/-- The sequences within the elements, at every depth. -/
def nested (es : List Element) : List (List Element) :=
  ((walkAll es).flatMap branches).map Branch.elements

/-- What is demanded of an element between two others, apart from what is in its branches. -/
def IsInPlace (previous next : Option Element) (e : Element) : Prop :=
  ¬ previous.any isJump ∧
    match e with
    | .divergence .and bs _ _ => previous.any isTransition ∧ ¬ next.any isStep ∧ ¬ next.any isJump ∧
        2 ≤ bs.length ∧ ∀ b ∈ bs, Junction.and.Bounds b.elements
    | .divergence .or bs _ _ =>
      previous.any isStep ∧ 2 ≤ bs.length ∧ ∀ b ∈ bs, Junction.or.Bounds b.elements
    | _ => True

/-- What is demanded of the places of a sequence behind the element `previous`. -/
def Obeys (previous : Option Element) (es : List Element) : Prop :=
  ∀ before e after, es = before ++ e :: after →
    e.IsInPlace (before.getLast?.or previous) after.head?

/-! ### One sequence -/

theorem obeys_nil (previous : Option Element) : Obeys previous [] := by
  intro before e after h
  simp at h

theorem obeys_cons {previous : Option Element} {e : Element} {es : List Element} :
    Obeys previous (e :: es) ↔ e.IsInPlace previous es.head? ∧ Obeys (some e) es := by
  constructor
  · intro h
    refine ⟨h [] e es rfl, fun before e' after hes => ?_⟩
    have := h (e :: before) e' after (by rw [hes, List.cons_append])
    rwa [List.getLast?_cons, Option.some_or, ← Option.or_some] at this
  · rintro ⟨hfirst, hrest⟩ before e' after hes
    cases before with
    | nil =>
      obtain ⟨rfl, rfl⟩ := List.cons.inj hes
      exact hfirst
    | cons e'' before =>
      obtain ⟨rfl, hsplit⟩ := List.cons.inj hes
      rw [List.getLast?_cons, Option.some_or, ← Option.or_some]
      exact hrest before e' after hsplit

/-- An element is placed if it is so among its neighbours, and what is in it is placed. -/
theorem isPlaced_iff {previous next : Option Element} {e : Element} :
    ¬ previous.any isJump ∧ e.IsPlaced false previous next ↔
      e.IsInPlace previous next ∧ ∀ b ∈ e.branches, ArePlaced false none b.elements := by
  have hbranches : ∀ {junction : Junction} {bs : List Branch},
      Branch.ArePlaced false junction bs ↔
        (∀ b ∈ bs, junction.Bounds b.elements) ∧ ∀ b ∈ bs, ArePlaced false none b.elements := by
    intro junction bs
    rw [Branch.arePlaced_iff, ← forall₂_and]
    refine forall₂_congr fun b _ => ?_
    cases b
    rfl
  match e with
  | .step s | .transition t | .jump j => simp [IsPlaced, IsInPlace, branches]
  | .divergence .and bs span endSpan =>
    simp only [IsPlaced, IsInPlace, branches, hbranches]
    tauto
  | .divergence .or bs span endSpan =>
    simp only [IsPlaced, IsInPlace, branches, hbranches, Bool.false_eq_true, false_imp_iff,
      true_and]
    tauto

theorem arePlaced_iff_obeys {previous : Option Element} {es : List Element} :
    ArePlaced false previous es ↔
      Obeys previous es ∧ ∀ e ∈ es, ∀ b ∈ e.branches, ArePlaced false none b.elements := by
  induction es generalizing previous with
  | nil => simp [ArePlaced, obeys_nil]
  | cons e es ih =>
    rw [ArePlaced, ih, obeys_cons, List.forall_mem_cons, ← and_assoc, isPlaced_iff]
    tauto

/-! ### All sequences -/

theorem nested_cons (e : Element) (es : List Element) :
    nested (e :: es) = (e.walk.flatMap branches).map Branch.elements ++ nested es := by
  simp [nested, walkAll]

theorem mem_walkBranches_nested {bs : List Branch} {es : List Element} :
    es ∈ ((Branch.walkBranches bs).flatMap branches).map Branch.elements ↔
      ∃ b ∈ bs, es ∈ nested b.elements := by
  induction bs with
  | nil => simp [Branch.walkBranches]
  | cons b bs ih =>
    have hb : b.walk = walkAll b.elements := by cases b; rfl
    rw [Branch.walkBranches, List.flatMap_append, List.map_append, List.mem_append, ih, hb,
      List.exists_mem_cons_iff]
    rfl

theorem forall_mem_nested_divergence {P : List Element → Prop} {junction : Junction}
    {bs : List Branch} {span endSpan : Span} {es : List Element} :
    (∀ es' ∈ nested (.divergence junction bs span endSpan :: es), P es') ↔
      (∀ b ∈ bs, P b.elements ∧ ∀ es' ∈ nested b.elements, P es') ∧ ∀ es' ∈ nested es, P es' := by
  rw [nested_cons, walk, List.flatMap_cons, List.map_append, List.forall_mem_append,
    List.forall_mem_append, forall₂_and]
  refine and_congr_left fun _ => and_congr (by simp [branches]) ?_
  simp only [mem_walkBranches_nested]
  exact ⟨fun h b hb es' hes => h es' ⟨b, hb, hes⟩, fun h es' ⟨b, hb, hes⟩ => h b hb es' hes⟩

theorem forall_branches_iff (es : List Element) :
    (∀ e ∈ es, ∀ b ∈ e.branches, ArePlaced false none b.elements) ↔
      ∀ es' ∈ nested es, Obeys none es' := by
  induction es using sequence_induction with
  | nil => simp [nested, walkAll]
  | step s es ih | transition s es ih | jump s es ih =>
    rw [List.forall_mem_cons, nested_cons, ih]
    simp [branches, walk]
  | divergence junction bs span endSpan es hbs ih =>
    rw [List.forall_mem_cons, ih, forall_mem_nested_divergence]
    refine and_congr_left fun _ => forall₂_congr fun b hb => ?_
    rw [arePlaced_iff_obeys, hbs b hb]

/-- The elements of a sequence and all that is in them are placed exactly if this is so in every
sequence by itself. -/
theorem arePlaced_iff {es : List Element} :
    ArePlaced false none es ↔ ∀ es' ∈ es :: nested es, Obeys none es' := by
  rw [arePlaced_iff_obeys, forall_branches_iff, List.forall_mem_cons]

/-! ### The places of a sequence -/

theorem any_isStep_iff {e : Option Element} : e.any isStep ↔ ∃ s, e = some (.step s) := by
  match e with
  | none | some (.step s) | some (.transition _) | some (.jump _) | some (.divergence ..) =>
    simp [isStep]

theorem any_isTransition_iff {e : Option Element} :
    e.any isTransition ↔ ∃ t, e = some (.transition t) := by
  match e with
  | none | some (.step s) | some (.transition _) | some (.jump _) | some (.divergence ..) =>
    simp [isTransition]

theorem any_isJump_iff {e : Option Element} : e.any isJump ↔ ∃ j, e = some (.jump j) := by
  match e with
  | none | some (.step s) | some (.transition _) | some (.jump _) | some (.divergence ..) =>
    simp [isJump]

/-- Nothing follows a jump exactly if every jump comes last. -/
theorem not_isJump_before_iff {es : List Element} :
    (∀ before e after, es = before ++ e :: after → ¬ before.getLast?.any isJump) ↔
      ∀ before j after, es = before ++ .jump j :: after → after = [] := by
  constructor
  · intro h before j after hes
    cases after with
    | nil => rfl
    | cons e after =>
      have := h (before ++ [.jump j]) e after (by simpa using hes)
      simp [isJump] at this
  · intro h before e after hes hjump
    obtain ⟨j, hj⟩ := any_isJump_iff.1 hjump
    obtain ⟨before, rfl⟩ := List.getLast?_eq_some_iff.1 hj
    simpa using h before j (e :: after) (by simpa using hes)

theorem bounds_and_iff {es : List Element} :
    Junction.and.Bounds es ↔
      (∃ s rest, es = .step s :: rest) ∧ ∃ init s, es = init ++ [.step s] := by
  simp only [Junction.Bounds, any_isStep_iff, List.head?_eq_some_iff, List.getLast?_eq_some_iff]
  exact and_congr_right fun _ => exists_comm

/-- A jump comes last and a transition before it. -/
theorem closes_with_jump_iff {es : List Element} :
    es.getLast?.any isJump ∧ es.dropLast.getLast?.any isTransition ↔
      ∃ init t j, es = init ++ [.transition t, .jump j] := by
  simp only [any_isJump_iff, any_isTransition_iff, List.getLast?_eq_some_iff]
  constructor
  · rintro ⟨⟨j, init, rfl⟩, t, init', hinit⟩
    rw [List.dropLast_concat] at hinit
    exact ⟨init', t, j, by simp [hinit]⟩
  · rintro ⟨init, t, j, rfl⟩
    exact ⟨⟨j, init ++ [.transition t], by simp⟩, t, init, by simp⟩

theorem bounds_or_iff {es : List Element} :
    Junction.or.Bounds es ↔ (∃ t rest, es = .transition t :: rest) ∧
      ((∃ init t, es = init ++ [.transition t]) ∨
        ∃ init t j, es = init ++ [.transition t, .jump j]) := by
  rw [Junction.Bounds, closes_with_jump_iff]
  simp only [any_isTransition_iff, List.head?_eq_some_iff, List.getLast?_eq_some_iff]
  exact and_congr_right fun _ => or_congr_left exists_comm

/-- The rules for the places of one sequence. -/
structure IsOrderly (es : List Element) : Prop where
  jump_last : ∀ before j after, es = before ++ .jump j :: after → after = []
  and_follows : ∀ before bs span endSpan after,
    es = before ++ .divergence .and bs span endSpan :: after →
      ∃ t, before.getLast? = some (.transition t)
  and_precedes : ∀ before bs span endSpan after,
    es = before ++ .divergence .and bs span endSpan :: after →
      (∀ s, after.head? ≠ some (.step s)) ∧ ∀ j, after.head? ≠ some (.jump j)
  or_follows : ∀ before bs span endSpan after,
    es = before ++ .divergence .or bs span endSpan :: after →
      ∃ s, before.getLast? = some (.step s)
  branch_count : ∀ junction bs span endSpan, .divergence junction bs span endSpan ∈ es →
    2 ≤ bs.length
  and_branch : ∀ bs span endSpan, .divergence .and bs span endSpan ∈ es → ∀ b ∈ bs,
    (∃ s rest, b.elements = .step s :: rest) ∧ ∃ init s, b.elements = init ++ [.step s]
  or_branch : ∀ bs span endSpan, .divergence .or bs span endSpan ∈ es → ∀ b ∈ bs,
    (∃ t rest, b.elements = .transition t :: rest) ∧
      ((∃ init t, b.elements = init ++ [.transition t]) ∨
        ∃ init t j, b.elements = init ++ [.transition t, .jump j])

theorem Obeys.isOrderly {es : List Element} (h : Obeys none es) : IsOrderly es := by
  have hplace : ∀ before e after, es = before ++ e :: after →
      e.IsInPlace before.getLast? after.head? := by
    intro before e after hes
    rw [← Option.or_none (o := before.getLast?)]
    exact h before e after hes
  have hmem : ∀ e ∈ es, ∃ previous next, e.IsInPlace previous next := by
    intro e he
    obtain ⟨before, after, hes⟩ := List.append_of_mem he
    exact ⟨_, _, hplace before e after hes⟩
  constructor
  case jump_last =>
    refine not_isJump_before_iff.1 fun before e after hes => ?_
    exact (hplace before e after hes).1
  case and_follows =>
    intro before bs span endSpan after hes
    exact any_isTransition_iff.1 (hplace _ _ _ hes).2.1
  case and_precedes =>
    intro before bs span endSpan after hes
    obtain ⟨-, -, hstep, hjump, -⟩ := hplace _ _ _ hes
    rw [any_isStep_iff, not_exists] at hstep
    rw [any_isJump_iff, not_exists] at hjump
    exact ⟨hstep, hjump⟩
  case or_follows =>
    intro before bs span endSpan after hes
    exact any_isStep_iff.1 (hplace _ _ _ hes).2.1
  case branch_count =>
    intro junction bs span endSpan he
    obtain ⟨previous, next, -, hin⟩ := hmem _ he
    cases junction with
    | and => exact hin.2.2.2.1
    | or => exact hin.2.1
  case and_branch =>
    intro bs span endSpan he b hb
    obtain ⟨previous, next, -, hin⟩ := hmem _ he
    exact bounds_and_iff.1 (hin.2.2.2.2 b hb)
  case or_branch =>
    intro bs span endSpan he b hb
    obtain ⟨previous, next, -, hin⟩ := hmem _ he
    exact bounds_or_iff.1 (hin.2.2 b hb)

theorem IsOrderly.obeys {es : List Element} (h : IsOrderly es) : Obeys none es := by
  intro before e after hes
  rw [Option.or_none]
  have hmem : e ∈ es := by simp [hes]
  refine ⟨not_isJump_before_iff.2 h.jump_last before e after hes, ?_⟩
  match e with
  | .step _ | .transition _ | .jump _ => trivial
  | .divergence .and bs span endSpan =>
    obtain ⟨hstep, hjump⟩ := h.and_precedes _ _ _ _ _ hes
    refine ⟨any_isTransition_iff.2 (h.and_follows _ _ _ _ _ hes), ?_, ?_,
      h.branch_count _ _ _ _ hmem, fun b hb => bounds_and_iff.2 (h.and_branch _ _ _ hmem b hb)⟩
    · rw [any_isStep_iff, not_exists]
      exact hstep
    · rw [any_isJump_iff, not_exists]
      exact hjump
  | .divergence .or bs span endSpan =>
    exact ⟨any_isStep_iff.2 (h.or_follows _ _ _ _ _ hes), h.branch_count _ _ _ _ hmem,
      fun b hb => bounds_or_iff.2 (h.or_branch _ _ _ hmem b hb)⟩

theorem obeys_iff_isOrderly {es : List Element} : Obeys none es ↔ IsOrderly es :=
  ⟨Obeys.isOrderly, IsOrderly.obeys⟩

end Element

/-! ### The whole chart -/

namespace Chart

/-- The sequences of a chart: the root and all branches. -/
def sequences (c : Chart) : List (List Element) := c.elements :: Element.nested c.elements

/-- The rules of charts. -/
structure IsValid (c : Chart) : Prop where
  starts : c.elements = [] ∨ ∃ s rest, c.elements = .step s :: rest
  distinct_steps : (c.steps.map (·.number)).Nodup
  distinct_written : c.writtenNumbers.Nodup
  jump_back : ∀ before j after, c.walk = before ++ .jump j :: after →
    ∃ s, .step s ∈ before ∧ s.number = j.target
  orderly : ∀ es ∈ c.sequences, Element.IsOrderly es

theorem starts_iff {c : Chart} : (∀ e ∈ c.elements.head?, e.isStep) ↔
    (c.elements = [] ∨ ∃ s rest, c.elements = .step s :: rest) := by
  match c.elements with
  | [] | .step s :: _ | .transition _ :: _ | .jump _ :: _ | .divergence .. :: _ =>
    simp [Element.isStep]

theorem jumpsLeadBack_iff {es : List Element} : Element.JumpsLeadBack [] es ↔
    ∀ before j after, es = before ++ .jump j :: after →
      ∃ s, .step s ∈ before ∧ s.number = j.target := by
  simp only [Element.JumpsLeadBack, List.nil_append, Element.mem_stepNumbers_iff]

theorem followsRules_iff_isValid {c : Chart} : c.FollowsRules false ↔ c.IsValid := by
  have hplaced : Element.ArePlaced false none c.elements ↔
      ∀ es ∈ c.sequences, Element.IsOrderly es := by
    rw [Element.arePlaced_iff]
    exact forall₂_congr fun es _ => Element.obeys_iff_isOrderly
  constructor
  · intro h
    exact ⟨starts_iff.1 h.starts, h.nodup_steps, h.nodup_written, jumpsLeadBack_iff.1 h.jumps,
      hplaced.1 h.placed⟩
  · intro h
    exact ⟨starts_iff.2 h.starts, hplaced.2 h.orderly, h.distinct_steps, h.distinct_written,
      jumpsLeadBack_iff.2 h.jump_back, nofun⟩

/-- Validation finds no error in a chart exactly if the chart is valid. -/
theorem forall_not_isError_validate_iff (c : Chart) :
    (∀ d ∈ c.validate, d.isError = false) ↔ c.IsValid := by
  rw [← followsRules_iff_isValid, ← structureFindings_pass_iff, validate, List.forall_mem_map]
  refine forall₂_congr fun f _ => ?_
  simp [StructureFinding.passes]

end Chart

end SequentialChart
