import Mathlib
import SequentialChart.Compile
import SequentialChart.Proofs.Chart.Spans

/-!
# What diagnostics point at

Every label of a diagnostic marks a piece of one line of the source, and every diagnostic marks what
is wrong, except that a chart as a whole has no initial step.

## Main definitions

* `StructureFinding.places`, `ConditionFinding.place` — the places that findings are about.
* `Diagnostic.reported` — what is reported of a source.
* `Diagnostic.IsGrounded` — what is reported points at lines of the source.

## Main statements

* `Element.areWithin_checkAll` — the rules are checked without making up a place.
* `Chart.isGrounded_of_mem_parse`, `Chart.isGrounded_of_mem_check`,
  `Chart.isGrounded_of_mem_checkAll` — what each way of reading a source reports.
* `Chart.labels_within_lines` — the same in terms of byte offsets.
-/

namespace SequentialChart

/-! ### Findings about the structure -/

namespace StructureFinding

/-- The places that a finding is about. -/
def places (f : StructureFinding) : List Span := f.labels.map (·.span)

/-- Only that there is no initial step has no place. -/
theorem exists_isPrimary {f : StructureFinding} (h : f.code ≠ .e211) :
    ∃ l ∈ f.labels, l.isPrimary := by
  cases f <;> first | exact ⟨_, List.mem_cons_self .., rfl⟩ | exact absurd rfl h

end StructureFinding

/-- The places of the numbers above a place in the chart. -/
def Ledger.places (l : Ledger) : List Span := l.steps.map Prod.snd ++ l.transitions.map Prod.snd

section Within

variable {known : List Span} {previous next : Option Element} {e : Element} {junction : Junction}
  {span endSpan : Span} {allSteps : List Nat} {path : SequencePath} {l : Ledger}

theorem within_consecutiveFindings (hprevious : ∀ p ∈ previous, p.span ∈ known)
    (he : e.span ∈ known) : ∀ f ∈ consecutiveFindings previous e, f.places ⊆ known := by
  unfold consecutiveFindings
  grind [StructureFinding.places, StructureFinding.labels, Element.mention]

theorem within_reachFindings (hprevious : ∀ p ∈ previous, p.span ∈ known)
    (he : e.span ∈ known) : ∀ f ∈ reachFindings previous e, f.places ⊆ known := by
  unfold reachFindings
  split
  · next j =>
    have hj : j.span ∈ known := hprevious (.jump j) rfl
    grind [StructureFinding.places, StructureFinding.labels, Element.mention]
  · simp

theorem within_placementFindings (hspan : span ∈ known) (hend : endSpan ∈ known)
    (hnext : ∀ e ∈ next, e.span ∈ known) :
    ∀ f ∈ placementFindings junction span endSpan previous next, f.places ⊆ known := by
  unfold placementFindings
  grind [StructureFinding.places, StructureFinding.labels, Element.mention]

theorem within_countFindings {count : Nat} (hspan : span ∈ known) :
    ∀ f ∈ countFindings junction count span, f.places ⊆ known := by
  unfold countFindings
  grind [StructureFinding.places, StructureFinding.labels]

theorem within_boundFindings {index : Nat} {b : Branch} (hb : b.places ⊆ known) :
    ∀ f ∈ boundFindings junction index b, f.places ⊆ known := by
  have hspan (e : Element) (he : e ∈ b.elements) : e.span ∈ known := by
    refine hb ?_
    rw [b.places_eq]
    exact List.mem_cons_of_mem _ (Element.mem_placesAll_iff.2 ⟨e, he, e.span_mem_places⟩)
  have hstart : b.span ∈ known := hb (by rw [b.places_eq]; exact List.mem_cons_self ..)
  unfold boundFindings
  dsimp only
  split
  · next first last hfirst hlast =>
    have := hspan first (List.mem_of_mem_head? hfirst)
    have := hspan last (List.mem_of_getLast? hlast)
    grind [StructureFinding.places, StructureFinding.labels, Element.mention]
  · grind [StructureFinding.places, StructureFinding.labels]

theorem mem_of_lookup {n : Nat} {entries : List (Nat × Span)} (h : entries.lookup n = some span) :
    span ∈ entries.map Prod.snd := by
  obtain ⟨front, back, rfl, -⟩ := List.lookup_eq_some_iff.1 h
  simp

theorem within_declare {s : Step} (hs : s.span ∈ known) (hl : l.places ⊆ known) :
    (∀ f ∈ (l.declare s).1, f.places ⊆ known) ∧ (l.declare s).2.places ⊆ known := by
  unfold Ledger.declare
  cases hfirst : l.steps.lookup s.number with
  | none => grind [Ledger.places]
  | some first =>
    have := mem_of_lookup hfirst
    grind [Ledger.places, StructureFinding.places, StructureFinding.labels]

theorem within_enter {t : Transition} (ht : t.span ∈ known) (hl : l.places ⊆ known) :
    (∀ f ∈ (l.enter t).1, f.places ⊆ known) ∧ (l.enter t).2.places ⊆ known := by
  unfold Ledger.enter
  split
  · cases hfirst : l.transitions.lookup t.number with
    | none => grind [Ledger.places]
    | some first =>
      have := mem_of_lookup hfirst
      grind [Ledger.places, StructureFinding.places, StructureFinding.labels]
  · grind

theorem within_follow {allSteps : List Nat} {j : Jump} (hj : j.span ∈ known) :
    ∀ f ∈ l.follow allSteps j, f.places ⊆ known := by
  unfold Ledger.follow
  grind [StructureFinding.places, StructureFinding.labels]

/-- Findings with the ledger behind them are about known places. -/
def PlacedFinding.AreWithin (known : List Span) (r : List PlacedFinding × Ledger) : Prop :=
  (∀ f ∈ r.1, f.finding.places ⊆ known) ∧ r.2.places ⊆ known

theorem areWithin_checkAll_cons {es : List Element} (hprevious : ∀ p ∈ previous, p.span ∈ known)
    (he : e.span ∈ known)
    (hcheck : PlacedFinding.AreWithin known (e.check allSteps path previous es.head? l))
    (hrest : ∀ l : Ledger, l.places ⊆ known →
      PlacedFinding.AreWithin known (Element.checkAll allSteps path (some e) l es)) :
    PlacedFinding.AreWithin known (Element.checkAll allSteps path previous l (e :: es)) := by
  obtain ⟨hown, hledger⟩ := hcheck
  obtain ⟨hfound, hlast⟩ := hrest _ hledger
  have hreach := within_reachFindings hprevious he
  refine ⟨?_, hlast⟩
  simp only [Element.checkAll, List.forall_mem_append, List.forall_mem_map]
  exact ⟨⟨hreach, hown⟩, hfound⟩

theorem areWithin_checkAll_branches {bs : List Branch} (hbs : Branch.placesAll bs ⊆ known)
    (h : ∀ b ∈ bs, Element.placesAll b.elements ⊆ known → ∀ path (l : Ledger), l.places ⊆ known →
      PlacedFinding.AreWithin known (Element.checkAll allSteps path none l b.elements))
    (index : Nat) (hl : l.places ⊆ known) :
    PlacedFinding.AreWithin known (Branch.checkAll allSteps path junction index l bs) := by
  induction bs generalizing index l with
  | nil => exact ⟨by simp [Branch.checkAll], hl⟩
  | cons b bs ih =>
    obtain ⟨elements, span⟩ := b
    rw [Branch.placesAll, List.append_subset] at hbs
    have hbound : ∀ f ∈ boundFindings junction index (.mk elements span), f.places ⊆ known :=
      within_boundFindings hbs.1
    have helements : Element.placesAll elements ⊆ known := (List.cons_subset.1 hbs.1).2
    obtain ⟨hown, hledger⟩ := h _ List.mem_cons_self helements (path ++ [index]) l hl
    obtain ⟨hfound, hlast⟩ :=
      ih hbs.2 (fun b hb => h b (List.mem_cons_of_mem _ hb)) (index + 1) hledger
    refine ⟨?_, hlast⟩
    simp only [Branch.checkAll, Branch.check, List.forall_mem_append, List.forall_mem_map]
    exact ⟨⟨hbound, hown⟩, hfound⟩

theorem areWithin_check_step {s : Step} (hprevious : ∀ p ∈ previous, p.span ∈ known)
    (hs : s.span ∈ known) (hl : l.places ⊆ known) :
    PlacedFinding.AreWithin known ((Element.step s).check allSteps path previous next l) := by
  obtain ⟨hfound, hledger⟩ := within_declare hs hl
  refine ⟨?_, hledger⟩
  simp only [Element.check, List.forall_mem_map, List.forall_mem_append]
  exact ⟨within_consecutiveFindings hprevious hs, hfound⟩

theorem areWithin_check_transition {t : Transition} (hprevious : ∀ p ∈ previous, p.span ∈ known)
    (ht : t.span ∈ known) (hl : l.places ⊆ known) :
    PlacedFinding.AreWithin known ((Element.transition t).check allSteps path previous next l) := by
  obtain ⟨hfound, hledger⟩ := within_enter ht hl
  refine ⟨?_, hledger⟩
  simp only [Element.check, List.forall_mem_map, List.forall_mem_append]
  exact ⟨within_consecutiveFindings hprevious ht, hfound⟩

theorem areWithin_check_jump {j : Jump} (hj : j.span ∈ known) (hl : l.places ⊆ known) :
    PlacedFinding.AreWithin known ((Element.jump j).check allSteps path previous next l) := by
  refine ⟨?_, hl⟩
  simp only [Element.check, List.forall_mem_map]
  exact within_follow hj

theorem areWithin_check_divergence {bs : List Branch} (hspan : span ∈ known)
    (hend : endSpan ∈ known) (hnext : ∀ e ∈ next, e.span ∈ known)
    (hbs : PlacedFinding.AreWithin known (Branch.checkAll allSteps path junction 0 l bs)) :
    PlacedFinding.AreWithin known
      ((Element.divergence junction bs span endSpan).check allSteps path previous next l) := by
  obtain ⟨hfound, hledger⟩ := hbs
  refine ⟨?_, hledger⟩
  simp only [Element.check, List.forall_mem_map, List.forall_mem_append]
  exact ⟨⟨within_placementFindings hspan hend hnext, within_countFindings hspan⟩, hfound⟩

/-- The rules are checked without making up a place. -/
theorem Element.areWithin_checkAll {es : List Element} (hes : placesAll es ⊆ known)
    (hprevious : ∀ p ∈ previous, p.span ∈ known) (hl : l.places ⊆ known) :
    PlacedFinding.AreWithin known (checkAll allSteps path previous l es) := by
  induction es using sequence_induction generalizing path previous l with
  | nil => exact ⟨by simp [checkAll], hl⟩
  | step s es ih =>
    obtain ⟨hs, hrest⟩ := List.append_subset.1 hes
    have hspan := hs (span_mem_places (.step s))
    exact areWithin_checkAll_cons hprevious hspan (areWithin_check_step hprevious hspan hl)
      fun l hl => ih hrest (by simpa using hspan) hl
  | transition t es ih =>
    obtain ⟨ht, hrest⟩ := List.append_subset.1 hes
    have hspan := ht (span_mem_places (.transition t))
    exact areWithin_checkAll_cons hprevious hspan (areWithin_check_transition hprevious hspan hl)
      fun l hl => ih hrest (by simpa using hspan) hl
  | jump j es ih =>
    obtain ⟨hj, hrest⟩ := List.append_subset.1 hes
    have hspan := hj (span_mem_places (.jump j))
    exact areWithin_checkAll_cons hprevious hspan (areWithin_check_jump hspan hl)
      fun l hl => ih hrest (by simpa using hspan) hl
  | divergence junction bs span endSpan es hbs ih =>
    obtain ⟨hd, hrest⟩ := List.append_subset.1 hes
    obtain ⟨hspan, hinner⟩ := List.cons_subset.1 hd
    obtain ⟨hend, hbranches⟩ := List.cons_subset.1 hinner
    have hnext : ∀ e ∈ es.head?, e.span ∈ known := fun e he =>
      hrest (mem_placesAll_iff.2 ⟨e, List.mem_of_mem_head? he, e.span_mem_places⟩)
    have hchecked : PlacedFinding.AreWithin known
        (Branch.checkAll allSteps path junction 0 l bs) :=
      areWithin_checkAll_branches hbranches
        (fun b hb hplaces _ _ hl => hbs b hb hplaces (by simp) hl) 0 hl
    refine areWithin_checkAll_cons hprevious hspan
      (areWithin_check_divergence hspan hend hnext hchecked) fun l hl => ih hrest ?_ hl
    rintro _ ⟨⟩
    exact hspan

end Within

namespace Chart

theorem within_startFindings {c : Chart} :
    ∀ f ∈ c.startFindings, f.places ⊆ Element.placesAll c.elements := by
  unfold startFindings
  cases hfirst : c.elements.head? with
  | none => simp
  | some e =>
    have : e.span ∈ Element.placesAll c.elements :=
      Element.mem_placesAll_iff.2 ⟨e, List.mem_of_mem_head? hfirst, e.span_mem_places⟩
    grind [StructureFinding.places, StructureFinding.labels, Element.mention]

/-- What is found of the structure of a chart is about places of its elements. -/
theorem places_subset_of_mem_structureFindings {c : Chart} {f : PlacedFinding}
    (h : f ∈ c.structureFindings) : f.finding.places ⊆ Element.placesAll c.elements := by
  have hchecked : PlacedFinding.AreWithin (Element.placesAll c.elements)
      (Element.checkAll (c.steps.map (·.number)) [] none {} c.elements) :=
    Element.areWithin_checkAll (List.Subset.refl _) (by simp) (by simp [Ledger.places])
  rcases List.mem_append.1 h with h | h
  · rcases List.mem_append.1 h with h | h
    · obtain ⟨f, hf, rfl⟩ := List.mem_map.1 h
      exact within_startFindings f hf
    · exact hchecked.1 f h
  · split at h
    · cases h
    · obtain rfl := List.mem_singleton.1 h
      exact List.nil_subset _

end Chart

/-! ### Findings about conditions -/

def ConditionFinding.place : ConditionFinding → Span
  | ofTransition _ place _ | ofAction _ place _ => place

theorem ConditionFinding.labels_diagnostic (f : ConditionFinding) :
    ∃ message, f.diagnostic.labels = [{ span := f.place, message }] := by
  cases f <;> exact ⟨_, rfl⟩

theorem Element.place_mem_places_of_mem_conditionFindings {e : Element} {f : ConditionFinding}
    (h : f ∈ e.conditionFindings) : f.place ∈ e.places := by
  cases e with
  | transition t =>
    obtain ⟨reason, -, rfl⟩ := Option.map_eq_some_iff.1 (Option.mem_toList.1 h)
    exact List.mem_cons_self ..
  | step s =>
    obtain ⟨a, ha, hf⟩ := List.mem_filterMap.1 h
    obtain ⟨reason, -, rfl⟩ := Option.map_eq_some_iff.1 hf
    exact List.mem_cons_of_mem _ (List.mem_map_of_mem ha)
  | jump | divergence => cases h

theorem Chart.place_mem_of_mem_conditionFindings {c : Chart} {f : ConditionFinding}
    (h : f ∈ c.conditionFindings) : f.place ∈ Element.placesAll c.elements := by
  obtain ⟨e, he, hf⟩ := List.mem_flatMap.1 h
  exact Element.places_subset_of_mem_walkAll he
    (Element.place_mem_places_of_mem_conditionFindings hf)

/-! ### What is reported -/

namespace Diagnostic

/-- What is reported: the warnings of what succeeds, and everything that was found of what fails. -/
def reported {α : Type} : Except (List Diagnostic) (α × List Diagnostic) → List Diagnostic
  | .ok (_, warnings) => warnings
  | .error diagnostics => diagnostics

theorem reported_unlessErrors {α : Type} (ds : List Diagnostic) (a : α) :
    reported (unlessErrors ds a) = ds := by
  unfold unlessErrors
  split <;> rfl

/-- Every label is at a piece of a line. There is a primary label, unless what is missing is an
initial step. -/
structure IsGrounded (source : String) (d : Diagnostic) : Prop where
  exists_isPrimary : d.code ≠ some .e211 → ∃ l ∈ d.labels, l.isPrimary
  exists_covers : ∀ l ∈ d.labels, ∃ line ∈ Line.ofSource source.toList, line.Covers l.span

theorem isGrounded_of_labels_eq {source message : String} {d : Diagnostic} {place : Span}
    (hlabels : d.labels = [{ span := place, message }])
    (h : ∃ line ∈ Line.ofSource source.toList, line.Covers place) : d.IsGrounded source where
  exists_isPrimary _ := by simp [hlabels]
  exists_covers := by simpa [hlabels] using h

end Diagnostic

namespace Chart

variable {source : String} {d : Diagnostic}

open Diagnostic

theorem isGrounded_of_mem_allFindings {f : ParseFinding} (h : f ∈ (build source).allFindings) :
    f.diagnostic.IsGrounded source := by
  obtain ⟨message, hlabels⟩ := f.labels_diagnostic
  exact isGrounded_of_labels_eq hlabels
    (exists_covers_of_mem_places_build (Build.place_mem_places_of_mem_allFindings h))

theorem exists_covers_of_mem_placesAll_chart {s : Span}
    (hs : s ∈ Element.placesAll (build source).chart.elements) :
    ∃ line ∈ Line.ofSource source.toList, line.Covers s :=
  exists_covers_of_mem_places_build (Build.placesAll_chart _ hs)

theorem isGrounded_of_mem_validate (h : d ∈ (build source).chart.validate) :
    d.IsGrounded source := by
  obtain ⟨f, hf, rfl⟩ := List.mem_map.1 h
  refine ⟨fun hcode => StructureFinding.exists_isPrimary fun h => hcode (congrArg some h),
    fun l hl => exists_covers_of_mem_placesAll_chart ?_⟩
  exact places_subset_of_mem_structureFindings hf (List.mem_map_of_mem hl)

theorem isGrounded_of_mem_conditionFindings {f : ConditionFinding}
    (h : f ∈ (build source).chart.conditionFindings) : f.diagnostic.IsGrounded source := by
  obtain ⟨message, hlabels⟩ := f.labels_diagnostic
  exact isGrounded_of_labels_eq hlabels
    (exists_covers_of_mem_placesAll_chart (place_mem_of_mem_conditionFindings h))

theorem isGrounded_of_mem_parse (h : d ∈ reported (parse source)) : d.IsGrounded source := by
  rw [parse, reported_unlessErrors] at h
  obtain ⟨f, hf, rfl⟩ := List.mem_map.1 h
  exact isGrounded_of_mem_allFindings hf

theorem isGrounded_of_mem_check (h : d ∈ reported (check source)) : d.IsGrounded source := by
  cases hparse : parse source with
  | error ds =>
    have hcheck : check source = .error ds := by simp [check, hparse, bind, Except.bind]
    rw [hcheck] at h
    exact isGrounded_of_mem_parse (by rwa [hparse])
  | ok r =>
    have hcheck : check source = unlessErrors (r.2 ++ r.1.validate) r.1 := by
      simp [check, hparse, bind, Except.bind]
    obtain ⟨-, hr⟩ := parse_eq_ok_iff.1 hparse
    rw [hcheck, reported_unlessErrors] at h
    rcases List.mem_append.1 h with h | h
    · exact isGrounded_of_mem_parse (by rwa [hparse])
    · rw [hr] at h
      exact isGrounded_of_mem_validate h

theorem isGrounded_of_mem_checkAll (h : d ∈ reported (checkAll source)) :
    d.IsGrounded source := by
  cases hcheckAll : checkAll source with
  | error ds =>
    rw [hcheckAll] at h
    refine isGrounded_of_mem_check ?_
    rwa [checkAll_eq_error_iff.1 hcheckAll]
  | ok r =>
    obtain ⟨c, ds⟩ := r
    rw [hcheckAll] at h
    obtain ⟨warnings, hcheck, rfl⟩ := checkAll_eq_ok_iff.1 hcheckAll
    rcases List.mem_append.1 h with h | h
    · refine isGrounded_of_mem_check ?_
      rwa [hcheck]
    · obtain ⟨f, hf, rfl⟩ := List.mem_map.1 h
      obtain ⟨c', _, hparse, -, hc⟩ := check_eq_ok_iff.1 hcheck
      obtain ⟨-, hr⟩ := parse_eq_ok_iff.1 hparse
      obtain rfl : c = (build source).chart := (Prod.mk.inj hc).1.trans (Prod.mk.inj hr).1
      exact isGrounded_of_mem_conditionFindings hf

/-- Whatever is reported of a source points at lines of it. Every label begins and ends between
characters of the source and lies within the text of one line, and there is a primary label, unless
what is missing is an initial step. -/
theorem labels_within_lines (source : String) :
    ∀ read ∈ [parse, check, checkAll], ∀ d ∈ reported (read source),
      (d.code ≠ some .e211 → ∃ l ∈ d.labels, l.isPrimary) ∧
        ∀ l ∈ d.labels, l.span.start ≤ l.span.stop ∧ l.span.stop ≤ source.utf8ByteSize ∧
          String.Pos.Raw.IsValid source ⟨l.span.start⟩ ∧
          String.Pos.Raw.IsValid source ⟨l.span.stop⟩ ∧
          ∃ line ∈ Line.ofSource source.toList, line.StandsIn source.toList ∧
            line.span.start ≤ l.span.start ∧ l.span.stop ≤ line.span.stop := by
  intro read hread d hd
  have hgrounded : d.IsGrounded source := by
    simp only [List.mem_cons, List.not_mem_nil, or_false] at hread
    rcases hread with rfl | rfl | rfl
    · exact isGrounded_of_mem_parse hd
    · exact isGrounded_of_mem_check hd
    · exact isGrounded_of_mem_checkAll hd
  refine ⟨hgrounded.exists_isPrimary, fun l hl => ?_⟩
  obtain ⟨line, hline, hcovers⟩ := hgrounded.exists_covers l hl
  have hstands := Line.standsIn_of_mem_ofSource hline
  obtain ⟨hstart, hstop⟩ := hstands.isValid hcovers
  exact ⟨l.span.start_le_stop, hstop.le_rawEndPos, hstart, hstop, line, hline, hstands,
    hcovers.within⟩

/-- A chart with a step whose number is a word, behind a wide blank and in front of a comment. -/
def numberInWords : String := "SFC Étage\n\u2003Step deux // deuxième"

/-- The word is marked, though the blank before it takes three bytes. -/
theorem labels_within_lines_numberInWords :
    ∃ d ∈ reported (parse numberInWords), ∃ l ∈ d.labels, l.isPrimary ∧ l.span = .ofLength 19 4 ∧
      String.Pos.Raw.IsValid numberInWords ⟨19⟩ ∧ String.Pos.Raw.IsValid numberInWords ⟨23⟩ ∧
        ∃ line ∈ Line.ofSource numberInWords.toList, line.StandsIn numberInWords.toList ∧
          line.span.start ≤ 19 ∧ 23 ≤ line.span.stop := by
  have hany : (reported (parse numberInWords)).any fun d =>
      d.labels.any fun l => l.isPrimary && decide (l.span = .ofLength 19 4) := by decide +kernel
  obtain ⟨d, hd, hlabels⟩ := List.any_eq_true.1 hany
  obtain ⟨l, hl, hmarks⟩ := List.any_eq_true.1 hlabels
  rw [Bool.and_eq_true, decide_eq_true_iff] at hmarks
  obtain ⟨hprimary, hspan⟩ := hmarks
  obtain ⟨-, hwithin⟩ := labels_within_lines numberInWords parse (by simp) d hd
  obtain ⟨-, -, hstart, hstop, hline⟩ := hwithin l hl
  rw [hspan] at hstart hstop hline
  exact ⟨d, hd, l, hl, hprimary, hspan, hstart, hstop, hline⟩

end Chart

end SequentialChart
