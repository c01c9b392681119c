import Mathlib
import SequentialChart.Chart.Build

/-!
# Directives that nest

The lines of a source say a sequence of elements: steps, transitions and jumps stand for themselves,
an action belongs to the step before it, and a divergence reaches from its first line to its last
one, with branches between. A chart is built from directives exactly if they nest like this, and
then it is the sequence that they say.

## Main definitions

* `Nesting.Sequence`, `Nesting.Branches` — the directives of a sequence, and those within a
  divergence.
* `Build.run` — the effect of directives.
* `Nesting.Stands` — what the directives read so far say, while divergences are open.

## Main statements

* `Nesting.Sequence.run_eq` — directives that nest are built without a fault.
* `Nesting.Stands.apply`, `Nesting.stands_run` — what is built without a fault says what has been
  built.
* `Nesting.exists_sequence_iff_run` — both together.
-/

namespace SequentialChart

/-- The element that a line stands for; a divergence takes more than one. -/
def Directive.element? (span : Span) : Directive → Option Element
  | .step number kind label =>
    some (.step { number, kind, label, actions := [], linkedFile := none, span })
  | .transition number condition =>
    some (.transition { number := number.getD 0, explicit := number.isSome, condition, span })
  | .jump target => some (.jump { target, span })
  | _ => none

namespace Nesting

mutual

/-- The directives are those of a sequence with the elements. -/
inductive Sequence : List (Located Directive) → List Element → Prop
  | empty : Sequence [] []
  | title {ds es} (text span) : Sequence ds es → Sequence (ds ++ [⟨.title text, span⟩]) es
  | element {ds es} {d : Directive} {span e} : d.element? span = some e → Sequence ds es →
    Sequence (ds ++ [⟨d, span⟩]) (es ++ [e])
  /-- An action belongs to the step before it, whatever else stands between. -/
  | action {ds before s after} (a span) : (∀ e ∈ after, ¬ e.isStep) →
    Sequence ds (before ++ .step s :: after) →
    Sequence (ds ++ [⟨.action a, span⟩])
      (before ++ .step { s with actions := s.actions ++ [⟨a, span⟩] } :: after)
  | linkedFile {ds before s after} (file span) : (∀ e ∈ after, ¬ e.isStep) →
    Sequence ds (before ++ .step s :: after) →
    Sequence (ds ++ [⟨.linkedFile file, span⟩])
      (before ++ .step { s with linkedFile := some file } :: after)
  | divergence {ds es body bs} (junction span endSpan) : Sequence ds es → Branches body bs →
    Sequence (ds ++ ⟨.divergence junction, span⟩ :: body ++ [⟨.endDivergence, endSpan⟩])
      (es ++ [.divergence junction bs span endSpan])

/-- The directives are those between the first and the last line of a divergence with the
branches. -/
inductive Branches : List (Located Directive) → List Branch → Prop
  | empty : Branches [] []
  | title {ds bs} (text span) : Branches ds bs → Branches (ds ++ [⟨.title text, span⟩]) bs
  | branch {ds bs body es} (span) : Branches ds bs → Sequence body es →
    Branches (ds ++ ⟨.branch, span⟩ :: body) (bs ++ [.mk es span])
  | endedBranch {ds bs body es} (span endSpan) : Branches ds bs → Sequence body es →
    Branches (ds ++ ⟨.branch, span⟩ :: body ++ [⟨.endBranch, endSpan⟩]) (bs ++ [.mk es span])

end

/-- The title after a directive. -/
def retitle (title : Option (Located String)) (d : Located Directive) : Option (Located String) :=
  match d.value with
  | .title text => text.map fun t => ⟨t, d.span⟩
  | _ => title

/-- The title that directives give; the last one counts. -/
def title (ds : List (Located Directive)) : Option (Located String) := ds.foldl retitle none

end Nesting

/-! ### Operations without a fault -/

namespace Build

variable {b : Build}

/-- The effect of directives. -/
def run (b : Build) (ds : List (Located Directive)) : Build :=
  ds.foldl (fun b d => b.apply d.span d.value) b

@[simp] theorem run_nil (b : Build) : b.run [] = b := rfl

@[simp] theorem run_cons (b : Build) (d : Located Directive) (ds : List (Located Directive)) :
    b.run (d :: ds) = (b.apply d.span d.value).run ds := rfl

@[simp] theorem run_append (b : Build) (ds es : List (Located Directive)) :
    b.run (ds ++ es) = (b.run ds).run es := List.foldl_append ..

/-- An operation adds faults to the findings and does not look at those that are there. -/
def Reports (op : Build → Build) (b : Build) (new : List ParseFinding) : Prop :=
  (∀ f ∈ new, f.isFault) ∧
    ∀ found, op { b with findings := found } = { op b with findings := new ++ found }

theorem sequence?_withFindings (b : Build) (found : List ParseFinding) :
    ({ b with findings := found } : Build).sequence? = b.sequence? := rfl

theorem setSequence_withFindings (b : Build) (es : List Element) (found : List ParseFinding) :
    ({ b with findings := found }).setSequence es =
      { b.setSequence es with findings := found } := by
  obtain ⟨_, _, _ | _, _⟩ := b <;> rfl

theorem exists_reports_push (b : Build) (e : Element) (keyword : String) :
    ∃ new, Reports (·.push e keyword) b new := by
  simp only [Reports, push, sequence?_withFindings]
  cases b.sequence? with
  | some es => exact ⟨[], nofun, setSequence_withFindings b _⟩
  | none =>
    exact ⟨[.nesting (.misplaced (.outsideBranch keyword) e.span)],
      by simp [ParseFinding.isFault], fun _ => rfl⟩

theorem exists_reports_attach (b : Build) (keyword : String) (place : Span) (f : Step → Step) :
    ∃ new, Reports (·.attach keyword place f) b new := by
  simp only [Reports, attach, sequence?_withFindings]
  cases b.sequence?.bind (updateStep f) with
  | some es => exact ⟨[], nofun, setSequence_withFindings b _⟩
  | none =>
    exact ⟨[.nesting (.detached keyword place)], by simp [ParseFinding.isFault], fun _ => rfl⟩

theorem exists_reports_openDivergence (b : Build) (junction : Junction) (span : Span) :
    ∃ new, Reports (·.openDivergence junction span) b new := by
  cases hs : b.sequence? with
  | some es =>
    refine ⟨[], nofun, fun found => ?_⟩
    simp only [openDivergence, sequence?_withFindings, hs]
    rfl
  | none =>
    refine ⟨[.nesting (.misplaced (.outsideBranch "Divergence") span)],
      by simp [ParseFinding.isFault], fun found => ?_⟩
    simp only [openDivergence, sequence?_withFindings, hs]
    rfl

theorem exists_reports_openBranch (b : Build) (span : Span) :
    ∃ new, Reports (·.openBranch span) b new := by
  obtain ⟨t, root, _ | ⟨d, outer⟩, found⟩ := b
  · exact ⟨[.nesting (.misplaced .branchOutsideDivergence span)], by simp [ParseFinding.isFault],
      fun _ => rfl⟩
  · exact ⟨[], nofun, fun _ => rfl⟩

theorem exists_reports_endBranch (b : Build) (span : Span) :
    ∃ new, Reports (·.endBranch span) b new := by
  obtain ⟨t, root, _ | ⟨⟨junction, opening, branches, _ | current⟩, outer⟩, found⟩ := b
  · exact ⟨[.nesting (.misplaced .endBranchOutsideDivergence span)],
      by simp [ParseFinding.isFault], fun _ => rfl⟩
  · exact ⟨[.nesting (.misplaced .endBranchWithoutBranch span)], by simp [ParseFinding.isFault],
      fun _ => rfl⟩
  · exact ⟨[], nofun, fun _ => rfl⟩

theorem exists_reports_endDivergence (b : Build) (span : Span) :
    ∃ new, Reports (·.endDivergence span) b new := by
  obtain ⟨t, root, _ | ⟨d, outer⟩, found⟩ := b
  · exact ⟨[.nesting (.misplaced .endDivergenceOutsideDivergence span)],
      by simp [ParseFinding.isFault], fun _ => rfl⟩
  · let outside : Build := { title := t, root, pending := outer, findings := found }
    refine ⟨[], nofun, fun found' => ?_⟩
    have hs : ({ outside with findings := found' } : Build).sequence? = outside.sequence? := rfl
    simp only [endDivergence, hs, outside]
    cases outside.sequence? with
    | some es => exact setSequence_withFindings outside _ found'
    | none => rfl

/-- A directive adds faults to the findings and has the same effect whatever these are. -/
theorem exists_reports_apply (b : Build) (span : Span) (d : Directive) :
    ∃ new, Reports (·.apply span d) b new := by
  cases d with
  | title text => exact ⟨[], nofun, fun _ => rfl⟩
  | step | transition | jump => exact exists_reports_push b _ _
  | action | linkedFile => exact exists_reports_attach b _ _ _
  | divergence junction => exact exists_reports_openDivergence b junction span
  | branch => exact exists_reports_openBranch b span
  | endBranch => exact exists_reports_endBranch b span
  | endDivergence => exact exists_reports_endDivergence b span

/-! ### The current sequence -/

/-- The build with other elements in the current sequence and with another title. -/
def fill (b : Build) (es : List Element) (title : Option (Located String)) : Build :=
  { b.setSequence es with title }

theorem setSequence_self {es : List Element} (h : b.sequence? = some es) :
    b.setSequence es = b := by
  obtain ⟨t, root, _ | ⟨⟨junction, opening, branches, _ | current⟩, outer⟩, found⟩ := b
  · cases h
    rfl
  · cases h
  · cases h
    rfl

theorem fill_self {es : List Element} (h : b.sequence? = some es) : b.fill es b.title = b := by
  rw [fill, setSequence_self h]

theorem sequence?_fill {es : List Element} (h : b.sequence? = some es) (fs : List Element)
    (title : Option (Located String)) : (b.fill fs title).sequence? = some fs := by
  obtain ⟨t, root, _ | ⟨⟨junction, opening, branches, _ | current⟩, outer⟩, found⟩ := b
  · rfl
  · cases h
  · rfl

theorem setSequence_fill (es fs : List Element) (title : Option (Located String)) :
    (b.fill es title).setSequence fs = b.fill fs title := by
  obtain ⟨t, root, _ | ⟨⟨junction, opening, branches, _ | current⟩, outer⟩, found⟩ := b <;> rfl

theorem push_fill {es : List Element} (h : b.sequence? = some es) (fs : List Element)
    (title : Option (Located String)) (e : Element) (keyword : String) :
    (b.fill fs title).push e keyword = b.fill (e :: fs) title := by
  rw [push, sequence?_fill h]
  exact setSequence_fill fs (e :: fs) title

/-- The latest step is changed, whatever stands behind it. -/
theorem updateStep_eq_some_iff {f : Step → Step} {es fs : List Element} :
    updateStep f es = some fs ↔ ∃ after s before, es = after ++ .step s :: before ∧
      (∀ e ∈ after, ¬ e.isStep) ∧ fs = after ++ .step (f s) :: before := by
  induction es generalizing fs with
  | nil => simp [updateStep]
  | cons e es ih =>
    by_cases he : e.isStep
    · obtain ⟨s, rfl⟩ : ∃ s, e = .step s := by cases e <;> simp_all [Element.isStep]
      constructor
      · intro h
        exact ⟨[], s, es, rfl, nofun, (Option.some.inj h).symm⟩
      · rintro ⟨after, s', before, hes, hafter, rfl⟩
        cases after with
        | nil =>
          obtain ⟨hs, rfl⟩ := List.cons.inj hes
          rw [← Element.step.inj hs]
          rfl
        | cons e after =>
          obtain ⟨rfl, -⟩ := List.cons.inj hes
          exact absurd rfl (hafter _ List.mem_cons_self)
    · have hrest : updateStep f (e :: es) = (updateStep f es).map (e :: ·) := by
        cases e with
        | step => exact absurd rfl he
        | transition | jump | divergence => rfl
      rw [hrest]
      simp only [Option.map_eq_some_iff, ih]
      constructor
      · rintro ⟨_, ⟨after, s, before, rfl, hafter, rfl⟩, rfl⟩
        exact ⟨e :: after, s, before, rfl, List.forall_mem_cons.2 ⟨he, hafter⟩, rfl⟩
      · rintro ⟨after, s, before, hes, hafter, rfl⟩
        cases after with
        | nil =>
          obtain ⟨rfl, -⟩ := List.cons.inj hes
          exact absurd rfl he
        | cons e' after =>
          obtain ⟨rfl, rfl⟩ := List.cons.inj hes
          exact ⟨_, ⟨after, s, before, rfl, (List.forall_mem_cons.1 hafter).2, rfl⟩, rfl⟩

theorem attach_fill {es : List Element} (h : b.sequence? = some es)
    (title : Option (Located String)) {before after : List Element} {s : Step}
    (hafter : ∀ e ∈ after, ¬ e.isStep) (keyword : String) (place : Span) (f : Step → Step) :
    (b.fill (before ++ .step s :: after).reverse title).attach keyword place f =
      b.fill (before ++ .step (f s) :: after).reverse title := by
  have hupdate : updateStep f (before ++ .step s :: after).reverse =
      some (before ++ .step (f s) :: after).reverse := by
    refine updateStep_eq_some_iff.2 ⟨after.reverse, s, before.reverse, by simp, ?_, by simp⟩
    simpa using hafter
  rw [attach, sequence?_fill h, Option.bind_some, hupdate]
  exact setSequence_fill _ _ title

/-- A divergence that ends is added to the sequence around it. -/
theorem endDivergence_of_pending {d : OpenDivergence} {outer : List OpenDivergence}
    {es : List Element} (hb : b.pending = d :: outer)
    (hs : ({ b with pending := outer } : Build).sequence? = some es) (endSpan : Span) :
    b.endDivergence endSpan =
      ({ b with pending := outer } : Build).setSequence (d.close endSpan :: es) := by
  simp only [endDivergence, hb, hs]

/-- A directive that stands for an element adds it. -/
theorem exists_apply_eq_push {d : Directive} {span : Span} {e : Element}
    (h : d.element? span = some e) :
    ∃ keyword, ∀ b : Build, b.apply span d = b.push e keyword := by
  cases d <;> simp only [Directive.element?, Option.some.injEq, reduceCtorEq] at h
  all_goals
    subst h
    exact ⟨_, fun _ => rfl⟩

end Build

/-! ### Directives that nest are built -/

@[simp] theorem OpenDivergence.junction_closeBranch (d : OpenDivergence) :
    d.closeBranch.junction = d.junction := by
  obtain ⟨_, _, _, _ | _⟩ := d <;> rfl

@[simp] theorem OpenDivergence.span_closeBranch (d : OpenDivergence) :
    d.closeBranch.span = d.span := by
  obtain ⟨_, _, _, _ | _⟩ := d <;> rfl

theorem OpenDivergence.close_of_closeBranch {d : OpenDivergence} {junction : Junction} {span : Span}
    {bs : List Branch}
    (h : d.closeBranch = { junction, span, branches := bs.reverse, current := none })
    (endSpan : Span) : d.close endSpan = .divergence junction bs span endSpan := by
  have hjunction : d.junction = junction := by rw [← d.junction_closeBranch, h]
  have hspan : d.span = span := by rw [← d.span_closeBranch, h]
  rw [close, hjunction, hspan, h, List.reverse_reverse]

namespace Nesting

/-- A branch is built behind the branches that stand before it. -/
theorem run_branch {b : Build} {d d' : OpenDivergence} {outer : List OpenDivergence}
    {ds body : List (Located Directive)} {bs : List Branch} {es : List Element}
    (hds : b.run ds = { b with pending := d' :: outer, title := ds.foldl retitle b.title })
    (hclose : d'.closeBranch = { d with branches := bs.reverse })
    (hbody : ∀ b : Build, b.sequence? = some [] →
      b.run body = b.fill es.reverse (body.foldl retitle b.title)) (span : Span) :
    b.run (ds ++ ⟨.branch, span⟩ :: body) = { b with
      pending := { d with
        branches := bs.reverse, current := some { span, elements := es.reverse } } :: outer
      title := (ds ++ ⟨.branch, span⟩ :: body).foldl retitle b.title } := by
  rw [Build.run_append, hds, Build.run_cons, List.foldl_append]
  simp only [Build.apply, Build.openBranch, hclose]
  rw [hbody _ rfl]
  rfl

theorem retitle_of_element? {d : Directive} {span : Span} {e : Element}
    (h : d.element? span = some e) (title : Option (Located String)) :
    retitle title ⟨d, span⟩ = title := by
  cases d with
  | title => cases h
  | _ => rfl

mutual

/-- The directives of a sequence add its elements to an empty one. -/
theorem Sequence.run_eq {ds : List (Located Directive)} {es : List Element} (h : Sequence ds es)
    {b : Build} (hb : b.sequence? = some []) :
    b.run ds = b.fill es.reverse (ds.foldl retitle b.title) := by
  match h with
  | .empty => exact (Build.fill_self hb).symm
  | .title text span h =>
    rw [Build.run_append, h.run_eq hb, List.foldl_append]
    rfl
  | @Sequence.element _ _ d _ _ hd h =>
    obtain ⟨keyword, happly⟩ := Build.exists_apply_eq_push hd
    rw [Build.run_append, h.run_eq hb, List.foldl_append, Build.run_cons, happly,
      Build.push_fill hb, List.reverse_concat]
    simp only [Build.run_nil, List.foldl_cons, List.foldl_nil, retitle_of_element? hd]
  | .action a span hafter h =>
    rw [Build.run_append, h.run_eq hb, List.foldl_append]
    exact Build.attach_fill hb _ hafter _ _ _
  | .linkedFile file span hafter h =>
    rw [Build.run_append, h.run_eq hb, List.foldl_append]
    exact Build.attach_fill hb _ hafter _ _ _
  | @Sequence.divergence ds es body bs junction span endSpan h hbody =>
    -- the sequence up to the divergence, the open divergence, and the sequence with it
    let before := b.fill es.reverse (ds.foldl retitle b.title)
    let opened : Build := { before with
      pending := { junction, span, branches := [], current := none } :: before.pending }
    have hbefore : before.sequence? = some es.reverse := Build.sequence?_fill hb _ _
    have hopen : before.apply span (.divergence junction) = opened := by
      simp only [Build.apply, Build.openDivergence, hbefore]
      rfl
    obtain ⟨d, hrun, hclose⟩ := hbody.run_eq (b := opened) rfl rfl rfl
    let title := body.foldl retitle opened.title
    have hafter : ({ opened with pending := before.pending, title } : Build) =
        b.fill es.reverse title := rfl
    calc b.run (ds ++ ⟨.divergence junction, span⟩ :: body ++ [⟨.endDivergence, endSpan⟩])
        = (before.run (⟨.divergence junction, span⟩ :: body)).endDivergence endSpan := by
          rw [Build.run_append, Build.run_append, h.run_eq hb]
          rfl
      _ = ({ opened with pending := d :: before.pending, title } : Build).endDivergence endSpan := by
          rw [Build.run_cons, hopen, hrun]
      _ = b.fill (d.close endSpan :: es.reverse) title := by
          rw [Build.endDivergence_of_pending rfl (hafter ▸ Build.sequence?_fill hb _ _), hafter,
            Build.setSequence_fill]
      _ = _ := by
          rw [OpenDivergence.close_of_closeBranch hclose, List.reverse_concat, List.foldl_append,
            List.foldl_append]
          rfl

/-- The directives within a divergence add its branches to one without any. -/
theorem Branches.run_eq {ds : List (Located Directive)} {bs : List Branch} (h : Branches ds bs)
    {b : Build} {d : OpenDivergence} {outer : List OpenDivergence} (hb : b.pending = d :: outer)
    (hbranches : d.branches = []) (hcurrent : d.current = none) :
    ∃ d' : OpenDivergence,
      b.run ds = { b with pending := d' :: outer, title := ds.foldl retitle b.title } ∧
        d'.closeBranch = { d with branches := bs.reverse } := by
  match h with
  | .empty =>
    obtain ⟨t, root, pending, found⟩ := b
    obtain ⟨junction, opening, branches, current⟩ := d
    cases hb
    cases hbranches
    cases hcurrent
    exact ⟨_, rfl, rfl⟩
  | .title text span h =>
    obtain ⟨d', hrun, hclose⟩ := h.run_eq hb hbranches hcurrent
    refine ⟨d', ?_, hclose⟩
    rw [Build.run_append, hrun, List.foldl_append]
    rfl
  | @Branches.branch ds bs body es span h hbody =>
    obtain ⟨d', hrun, hclose⟩ := h.run_eq hb hbranches hcurrent
    refine ⟨_, run_branch hrun hclose (fun _ hb => hbody.run_eq hb) span, ?_⟩
    simp only [OpenDivergence.closeBranch, List.reverse_reverse, List.reverse_concat, hcurrent]
  | @Branches.endedBranch ds bs body es span endSpan h hbody =>
    obtain ⟨d', hrun, hclose⟩ := h.run_eq hb hbranches hcurrent
    refine ⟨{ d with branches := .mk es span :: bs.reverse }, ?_, ?_⟩
    · rw [Build.run_append, run_branch hrun hclose (fun _ hb => hbody.run_eq hb) span]
      simp only [Build.run_cons, Build.run_nil, Build.apply, Build.endBranch,
        OpenDivergence.closeBranch, List.reverse_reverse, hcurrent, List.foldl_append]
      rfl
    · rw [List.reverse_concat, OpenDivergence.closeBranch, hcurrent]

end

/-! ### What is built nests -/

/-- The directives read so far say the elements `root` outside all divergences and, latest first,
the divergences `pending` that are open. -/
inductive Stands : List (Located Directive) → List Element → List OpenDivergence → Prop
  | root {ds root} : Sequence ds root.reverse → Stands ds root []
  /-- The open divergence has no open branch. -/
  | between {before body root} {d : OpenDivergence} {outer} : Stands before root outer →
    ({ root, pending := outer } : Build).sequence?.isSome → d.current = none →
    Branches body d.branches.reverse →
    Stands (before ++ ⟨.divergence d.junction, d.span⟩ :: body) root (d :: outer)
  /-- The open divergence has an open branch. -/
  | within {before body inner root} {d : OpenDivergence} {outer} {b : OpenBranch} :
    Stands before root outer → ({ root, pending := outer } : Build).sequence?.isSome →
    d.current = some b → Branches body d.branches.reverse → Sequence inner b.elements.reverse →
    Stands (before ++ ⟨.divergence d.junction, d.span⟩ :: (body ++ ⟨.branch, b.span⟩ :: inner)) root
      (d :: outer)

namespace Stands

variable {ds : List (Located Directive)} {root : List Element} {outer : List OpenDivergence}
  {d : OpenDivergence} {b : Build}

/-- The directives of the current sequence come last, and others that form a sequence may stand in
their place. -/
theorem exists_sequence (h : Stands ds b.root b.pending) {es : List Element}
    (hes : b.sequence? = some es) :
    ∃ before inner, ds = before ++ inner ∧ Sequence inner es.reverse ∧
      ∀ inner' fs, Sequence inner' fs.reverse →
        Stands (before ++ inner') (b.setSequence fs).root (b.setSequence fs).pending := by
  obtain ⟨t, root, pending, found⟩ := b
  cases h with
  | root h =>
    cases hes
    exact ⟨[], _, rfl, h, fun _ _ => .root⟩
  | between h hopen hcurrent hbody => simp [Build.sequence?, hcurrent] at hes
  | @within before body inner _ d outer current h hopen hcurrent hbody hinner =>
    obtain rfl : current.elements = es := by simpa [Build.sequence?, hcurrent] using hes
    refine ⟨before ++ ⟨.divergence d.junction, d.span⟩ :: (body ++ [⟨.branch, current.span⟩]),
      inner, by simp, hinner, fun inner' fs hfs => ?_⟩
    have := within (d := { d with current := some { current with elements := fs } }) h hopen rfl
      hbody hfs
    simpa [Build.setSequence, hcurrent] using this

/-- The directives since the first line of the innermost divergence form its branches. -/
theorem exists_branches (h : Stands ds root (d :: outer)) :
    ∃ before body, ds = before ++ ⟨.divergence d.junction, d.span⟩ :: body ∧
      Stands before root outer ∧ ({ root, pending := outer } : Build).sequence?.isSome ∧
      Branches body d.closeBranch.branches.reverse := by
  cases h with
  | @between before body _ _ _ h hopen hcurrent hbody =>
    refine ⟨before, body, rfl, h, hopen, ?_⟩
    simpa [OpenDivergence.closeBranch, hcurrent] using hbody
  | @within before body inner _ _ _ current h hopen hcurrent hbody hinner =>
    refine ⟨before, body ++ ⟨.branch, current.span⟩ :: inner, rfl, h, hopen, ?_⟩
    simpa [OpenDivergence.closeBranch, hcurrent] using hbody.branch current.span hinner

/-- A title changes nothing. -/
theorem title (h : Stands ds b.root b.pending) (text : Option String) (span : Span) :
    Stands (ds ++ [⟨.title text, span⟩]) b.root b.pending := by
  cases hes : b.sequence? with
  | some es =>
    obtain ⟨before, inner, rfl, hinner, hrest⟩ := h.exists_sequence hes
    have := hrest _ es (hinner.title text span)
    rwa [Build.setSequence_self hes, ← List.append_assoc] at this
  | none =>
    -- there is no current sequence, so the title stands between branches
    obtain ⟨t, root, pending, found⟩ := b
    cases h with
    | root => cases hes
    | between h hopen hcurrent hbody =>
      simpa using between h hopen hcurrent (hbody.title text span)
    | within h hopen hcurrent => simp [Build.sequence?, hcurrent] at hes

theorem push (h : Stands ds b.root b.pending) {span : Span} {d : Directive} {e : Element}
    (hd : d.element? span = some e) {keyword : String}
    (hclean : (b.push e keyword).findings = b.findings) :
    Stands (ds ++ [⟨d, span⟩]) (b.push e keyword).root (b.push e keyword).pending := by
  cases hes : b.sequence? with
  | none =>
    simp only [Build.push, hes] at hclean
    exact absurd hclean (List.cons_ne_self _ _)
  | some es =>
    obtain ⟨before, inner, rfl, hinner, hrest⟩ := h.exists_sequence hes
    have := hrest _ (e :: es) (by simpa using hinner.element hd)
    rw [← List.append_assoc] at this
    simpa only [Build.push, hes] using this

/-- A directive about the step before it. -/
theorem attach (h : Stands ds b.root b.pending) {d : Located Directive} {f : Step → Step}
    (hd : ∀ {inner before s after}, (∀ e ∈ after, ¬ e.isStep) →
      Sequence inner (before ++ .step s :: after) →
      Sequence (inner ++ [d]) (before ++ .step (f s) :: after))
    {keyword : String} {place : Span}
    (hclean : (b.attach keyword place f).findings = b.findings) :
    Stands (ds ++ [d]) (b.attach keyword place f).root (b.attach keyword place f).pending := by
  cases hfs : b.sequence?.bind (Build.updateStep f) with
  | none =>
    simp only [Build.attach, hfs] at hclean
    exact absurd hclean (List.cons_ne_self _ _)
  | some fs =>
    obtain ⟨es, hes, hupdate⟩ := Option.bind_eq_some_iff.1 hfs
    obtain ⟨after, s, before', rfl, hafter, rfl⟩ := Build.updateStep_eq_some_iff.1 hupdate
    obtain ⟨before, inner, rfl, hinner, hrest⟩ := h.exists_sequence hes
    have hinner' : Sequence inner (before'.reverse ++ .step s :: after.reverse) := by
      simpa using hinner
    have := hrest (inner ++ [d]) (after ++ .step (f s) :: before') (by
      simpa using hd (by simpa using hafter) hinner')
    rw [← List.append_assoc] at this
    simpa only [Build.attach, hfs] using this

theorem openDivergence (h : Stands ds b.root b.pending) {junction : Junction} {span : Span}
    (hclean : (b.openDivergence junction span).findings = b.findings) :
    Stands (ds ++ [⟨.divergence junction, span⟩]) (b.openDivergence junction span).root
      (b.openDivergence junction span).pending := by
  cases hes : b.sequence? with
  | none =>
    simp only [Build.openDivergence, hes, Option.isNone_none, if_true] at hclean
    exact absurd hclean (List.cons_ne_self _ _)
  | some es =>
    simp only [Build.openDivergence, hes, Option.isNone_some, Bool.false_eq_true, if_false]
    have hopen : ({ root := b.root, pending := b.pending } : Build).sequence?.isSome :=
      Option.isSome_iff_exists.2 ⟨es, hes⟩
    exact between (d := { junction, span, branches := [], current := none }) h hopen rfl .empty

theorem openBranch (h : Stands ds b.root b.pending) {span : Span}
    (hclean : (b.openBranch span).findings = b.findings) :
    Stands (ds ++ [⟨.branch, span⟩]) (b.openBranch span).root (b.openBranch span).pending := by
  obtain ⟨t, root, _ | ⟨d, outer⟩, found⟩ := b
  · exact absurd hclean (List.cons_ne_self _ _)
  · obtain ⟨before, body, rfl, hbefore, hopen, hbody⟩ := h.exists_branches
    have := within (d := { d.closeBranch with current := some { span, elements := [] } })
      hbefore hopen rfl hbody .empty
    simpa [Build.openBranch] using this

theorem endBranch (h : Stands ds b.root b.pending) {span : Span}
    (hclean : (b.endBranch span).findings = b.findings) :
    Stands (ds ++ [⟨.endBranch, span⟩]) (b.endBranch span).root (b.endBranch span).pending := by
  obtain ⟨t, root, _ | ⟨⟨junction, opening, branches, _ | current⟩, outer⟩, found⟩ := b
  · exact absurd hclean (List.cons_ne_self _ _)
  · exact absurd hclean (List.cons_ne_self _ _)
  · cases h with
    | between _ _ hcurrent => cases hcurrent
    | within h hopen hcurrent hbody hinner =>
      cases hcurrent
      have hended := hbody.endedBranch current.span span hinner
      have := between
        (d := ⟨junction, opening, .mk current.elements.reverse current.span :: branches, none⟩)
        h hopen rfl (by simpa using hended)
      simpa [Build.endBranch, OpenDivergence.closeBranch] using this

theorem endDivergence (h : Stands ds b.root b.pending) {span : Span}
    (hclean : (b.endDivergence span).findings = b.findings) :
    Stands (ds ++ [⟨.endDivergence, span⟩]) (b.endDivergence span).root
      (b.endDivergence span).pending := by
  obtain ⟨t, root, _ | ⟨d, outer⟩, found⟩ := b
  · exact absurd hclean (List.cons_ne_self _ _)
  · obtain ⟨before, body, rfl, hbefore, hopen, hbody⟩ := h.exists_branches
    obtain ⟨es, hes⟩ := Option.isSome_iff_exists.1 hopen
    obtain ⟨before', inner, rfl, hinner, hrest⟩ := exists_sequence
      (b := { title := t, root, pending := outer, findings := found }) hbefore hes
    have := hrest _ (d.close span :: es) (by
      simpa [OpenDivergence.close] using hinner.divergence d.junction d.span span hbody)
    rw [Build.endDivergence_of_pending rfl hes]
    simpa using this

/-- A directive that is built without a fault goes on with what has been said. -/
theorem apply (h : Stands ds b.root b.pending) {span : Span} {d : Directive}
    (hclean : (b.apply span d).findings = b.findings) :
    Stands (ds ++ [⟨d, span⟩]) (b.apply span d).root (b.apply span d).pending := by
  cases d with
  | title text => exact h.title text span
  | step number kind label => exact h.push rfl hclean
  | transition number condition => exact h.push rfl hclean
  | jump target => exact h.push rfl hclean
  | action a =>
    exact h.attach (fun hafter hs => .action a span hafter hs) hclean
  | linkedFile file =>
    exact h.attach (fun hafter hs => .linkedFile file span hafter hs) hclean
  | divergence junction => exact h.openDivergence hclean
  | branch => exact h.openBranch hclean
  | endBranch => exact h.endBranch hclean
  | endDivergence => exact h.endDivergence hclean

end Stands

/-- Whatever is built without a fault says what has been built. -/
theorem stands_run {ds : List (Located Directive)} (h : (({} : Build).run ds).findings = []) :
    Stands ds (({} : Build).run ds).root (({} : Build).run ds).pending := by
  induction ds using List.reverseRecOn with
  | nil => exact .root .empty
  | append_singleton ds d ih =>
    rw [Build.run_append, Build.run_cons, Build.run_nil] at h ⊢
    obtain ⟨new, -, hnew⟩ := Build.exists_reports_apply (({} : Build).run ds) d.span d.value
    have hfindings : ((({} : Build).run ds).apply d.span d.value).findings =
        new ++ (({} : Build).run ds).findings := congrArg Build.findings (hnew _)
    -- findings are only added, so none has come up before the last line either
    have hbefore : (({} : Build).run ds).findings = [] :=
      (List.append_eq_nil_iff.1 (hfindings ▸ h)).2
    exact (ih hbefore).apply (h.trans hbefore.symm)

/-- Directives nest exactly if they are built without a fault and no divergence stays open. -/
theorem exists_sequence_iff_run {ds : List (Located Directive)} :
    (∃ es, Sequence ds es) ↔
      (({} : Build).run ds).findings = [] ∧ (({} : Build).run ds).pending = [] := by
  constructor
  · rintro ⟨es, h⟩
    rw [h.run_eq rfl]
    exact ⟨rfl, rfl⟩
  · rintro ⟨hfindings, hpending⟩
    have hstands := stands_run hfindings
    rw [hpending] at hstands
    cases hstands with
    | root h => exact ⟨_, h⟩

end Nesting

end SequentialChart
