import Mathlib
import SequentialChart.Proofs.Chart.Nesting
import SequentialChart.Proofs.Chart.Sequences
import SequentialChart.Proofs.Directive.Faults

/-!
# Where a chart is written

Every element of a chart is written somewhere in its source, and so is everything that is found
while the source is read. None of these places is made up: each is that of a line, or of a piece of
one.

## Main definitions

* `Element.placesAll` — where the elements of a sequence are written.
* `Build.places` — all that is known of places while a source is read.

## Main statements

* `Element.placesAll_numbered` — numbering moves nothing.
* `Build.places_apply_subset` — a directive adds no place but its own.
* `Chart.exists_covers_of_mem_places_build` — all places are pieces of lines.
-/

namespace SequentialChart

/-! ### Elements -/

mutual

/-- Where an element and all elements within it are written. -/
def Element.places : Element → List Span
  | .step s => s.span :: s.actions.map (·.span)
  | .transition t => [t.span]
  | .jump j => [j.span]
  | .divergence _ branches span endSpan => span :: endSpan :: Branch.placesAll branches

/-- Where the elements of a sequence are written. -/
def Element.placesAll : List Element → List Span
  | [] => []
  | e :: es => e.places ++ Element.placesAll es

/-- Where a branch and the elements within it are written. -/
def Branch.places : Branch → List Span
  | .mk elements span => span :: Element.placesAll elements

/-- Where branches are written. -/
def Branch.placesAll : List Branch → List Span
  | [] => []
  | b :: bs => b.places ++ Branch.placesAll bs

end

theorem Element.placesAll_eq_flatMap (es : List Element) : placesAll es = es.flatMap places := by
  induction es with
  | nil => rfl
  | cons e es ih => rw [placesAll, ih, List.flatMap_cons]

theorem Branch.placesAll_eq_flatMap (bs : List Branch) : placesAll bs = bs.flatMap places := by
  induction bs with
  | nil => rfl
  | cons b bs ih => rw [placesAll, ih, List.flatMap_cons]

theorem Element.mem_placesAll_iff {es : List Element} {s : Span} :
    s ∈ placesAll es ↔ ∃ e ∈ es, s ∈ e.places := by
  rw [placesAll_eq_flatMap, List.mem_flatMap]

theorem Branch.mem_placesAll_iff {bs : List Branch} {s : Span} :
    s ∈ placesAll bs ↔ ∃ b ∈ bs, s ∈ b.places := by
  rw [placesAll_eq_flatMap, List.mem_flatMap]

theorem Element.span_mem_places (e : Element) : e.span ∈ e.places := by
  cases e <;> simp [places, span]

theorem Branch.places_eq (b : Branch) : b.places = b.span :: Element.placesAll b.elements := by
  cases b
  rw [places, span_mk, elements_mk]

/-- The places of an element anywhere within a sequence. -/
theorem Element.places_subset_of_mem_walkAll {e : Element} {es : List Element}
    (h : e ∈ walkAll es) : e.places ⊆ placesAll es := by
  induction es using sequence_induction with
  | nil => cases h
  | step s es ih | transition s es ih | jump s es ih =>
    obtain rfl | h := List.mem_cons.1 h
    · exact List.subset_append_left ..
    · exact List.Subset.trans (ih h) (List.subset_append_right ..)
  | divergence junction bs span endSpan es hbs ih =>
    rw [walkAll, walk, List.mem_append, List.mem_cons] at h
    obtain (rfl | h) | h := h
    · exact List.subset_append_left ..
    · obtain ⟨b, hb, h⟩ := Branch.mem_walkBranches_iff.1 h
      intro s hs
      have : s ∈ Branch.placesAll bs :=
        Branch.mem_placesAll_iff.2 ⟨b, hb, by simp [b.places_eq, hbs b hb h hs]⟩
      simp [placesAll, places, this]
    · exact List.Subset.trans (ih h) (List.subset_append_right ..)

/-! ### Numbering -/

theorem Branch.placesAll_numbered {taken : List Nat} {bs : List Branch}
    (h : ∀ b ∈ bs, ∀ n, Element.placesAll (Element.numberedAll taken n b.elements).1 =
      Element.placesAll b.elements) (n : Nat) :
    placesAll (numberedAll taken n bs).1 = placesAll bs := by
  induction bs generalizing n with
  | nil => rfl
  | cons b bs ih =>
    obtain ⟨elements, span⟩ := b
    obtain ⟨hb, hbs⟩ := List.forall_mem_cons.1 h
    rw [elements_mk] at hb
    simp only [numberedAll, numbered, placesAll, places, hb, ih hbs]

/-- Numbering moves nothing. -/
theorem Element.placesAll_numbered (taken : List Nat) (es : List Element) (n : Nat) :
    placesAll (numberedAll taken n es).1 = placesAll es := by
  induction es using sequence_induction generalizing n with
  | nil => rfl
  | step s es ih => simp only [numberedAll, numbered, placesAll, ih]
  | transition t es ih =>
    have ht : ((transition t).numbered taken n).1.places = (transition t).places := by
      unfold numbered
      split <;> rfl
    simp only [numberedAll, placesAll, ih, ht]
  | jump j es ih => simp only [numberedAll, numbered, placesAll, ih]
  | divergence junction bs span endSpan es hbs ih =>
    simp only [numberedAll, numbered, placesAll, places, Branch.placesAll_numbered hbs, ih]

/-! ### What is found while a source is read -/

def NestingFault.place : NestingFault → Span
  | unclosed _ place | misplaced _ place | detached _ place => place

namespace ParseFinding

/-- Where something is found. -/
def place : ParseFinding → Span
  | directive fault => fault.place
  | nesting fault => fault.place
  | unrecognized place => place

theorem labels_diagnostic (f : ParseFinding) :
    ∃ message, f.diagnostic.labels = [{ span := f.place, message }] := by
  cases f with
  | directive fault => exact fault.labels_diagnostic
  | nesting fault => cases fault <;> exact ⟨_, rfl⟩
  | unrecognized => exact ⟨_, rfl⟩

end ParseFinding

def OpenBranch.places (b : OpenBranch) : List Span := b.span :: Element.placesAll b.elements

def OpenDivergence.places (d : OpenDivergence) : List Span :=
  d.span :: (Branch.placesAll d.branches ++ d.current.toList.flatMap (·.places))

namespace Build

/-- All places that are known while a source is read. -/
def places (b : Build) : List Span :=
  Element.placesAll b.root ++ b.pending.flatMap (·.places) ++ b.findings.map (·.place)

variable {b : Build} {es : List Element} {span : Span}

theorem places_report (b : Build) (f : ParseFinding) :
    (b.report f).places ⊆ f.place :: b.places := by
  intro s hs
  simp only [places, report, List.map_cons, List.mem_append, List.mem_cons] at hs ⊢
  tauto

theorem placesAll_subset_of_sequence? (h : b.sequence? = some es) :
    Element.placesAll es ⊆ b.places := by
  unfold sequence? at h
  intro s hs
  split at h
  · cases h
    simp [places, hs]
  · next d outer hpending =>
    obtain ⟨open_, hcurrent, rfl⟩ := Option.map_eq_some_iff.1 h
    simp [places, hpending, OpenDivergence.places, hcurrent, OpenBranch.places, hs]

theorem places_setSequence (b : Build) (es : List Element) :
    (b.setSequence es).places ⊆ Element.placesAll es ++ b.places := by
  intro s hs
  unfold setSequence at hs
  split at hs
  · simp only [places, List.mem_append] at hs ⊢
    tauto
  · next d outer hpending =>
    cases hcurrent : d.current <;>
      simp only [places, hpending, OpenDivergence.places, OpenBranch.places, hcurrent,
        List.flatMap_cons, List.mem_append, List.mem_cons, Option.map_none, Option.map_some,
        Option.toList_none, Option.toList_some, List.flatMap_nil] at hs ⊢ <;>
      tauto

theorem places_push (b : Build) (e : Element) (keyword : String) :
    (b.push e keyword).places ⊆ e.places ++ b.places := by
  unfold push
  split
  · next es hes =>
    refine List.Subset.trans (b.places_setSequence _) ?_
    have := placesAll_subset_of_sequence? hes
    rw [Element.placesAll]
    grind
  · refine List.Subset.trans (b.places_report _) ?_
    have := e.span_mem_places
    grind [ParseFinding.place, NestingFault.place]

/-- A step may get a place for an action, but keeps all others. -/
theorem placesAll_updateStep {f : Step → Step} {es' : List Element}
    (hf : ∀ s, (Element.step (f s)).places ⊆ span :: (Element.step s).places)
    (h : updateStep f es = some es') : Element.placesAll es' ⊆ span :: Element.placesAll es := by
  fun_induction updateStep f es generalizing es' with
  | case1 => cases h
  | case2 s rest =>
    cases h
    have := hf s
    simp only [Element.placesAll]
    grind
  | case3 e rest hne ih =>
    obtain ⟨rest', hrest, rfl⟩ := Option.map_eq_some_iff.1 h
    have := ih hrest
    simp only [Element.placesAll]
    grind

theorem places_attach (b : Build) (keyword : String) {f : Step → Step}
    (hf : ∀ s, (Element.step (f s)).places ⊆ span :: (Element.step s).places) :
    (b.attach keyword span f).places ⊆ span :: b.places := by
  unfold attach
  split
  · next es hes =>
    obtain ⟨old, hold, hes⟩ := Option.bind_eq_some_iff.1 hes
    have := placesAll_updateStep hf hes
    have := placesAll_subset_of_sequence? hold
    refine List.Subset.trans (b.places_setSequence _) ?_
    grind
  · exact b.places_report _

theorem places_openDivergence (b : Build) (junction : Junction) (span : Span) :
    (b.openDivergence junction span).places ⊆ span :: b.places := by
  have hreported : (if b.sequence?.isNone then b.misplaced (.outsideBranch "Divergence") span
      else b).places ⊆ span :: b.places := by
    split
    · exact b.places_report _
    · exact List.subset_cons_self ..
  unfold openDivergence
  generalize (if b.sequence?.isNone then b.misplaced (.outsideBranch "Divergence") span
    else b) = reported at hreported ⊢
  simp only [places, List.flatMap_cons, OpenDivergence.places, Branch.placesAll,
    Option.toList_none, List.flatMap_nil] at hreported ⊢
  grind

theorem places_closeBranch (d : OpenDivergence) : d.closeBranch.places ⊆ d.places := by
  unfold OpenDivergence.closeBranch
  split
  · next b hcurrent =>
    have hbranch (s : Span) : s ∈ Element.placesAll b.elements.reverse →
        s ∈ Element.placesAll b.elements := by
      simp [Element.mem_placesAll_iff]
    simp only [OpenDivergence.places, hcurrent, Branch.placesAll, Branch.places,
      Option.toList_some, Option.toList_none, List.flatMap_cons, List.flatMap_nil,
      OpenBranch.places]
    grind
  · exact List.Subset.refl _

theorem places_close (d : OpenDivergence) (endSpan : Span) :
    (d.close endSpan).places ⊆ endSpan :: d.places := by
  have hclosed := places_closeBranch d
  have hspan : d.closeBranch.span = d.span := d.span_closeBranch
  have hreverse (s : Span) : s ∈ Branch.placesAll d.closeBranch.branches.reverse →
      s ∈ Branch.placesAll d.closeBranch.branches := by
    simp [Branch.mem_placesAll_iff]
  rw [OpenDivergence.close, Element.places]
  rw [OpenDivergence.places, hspan] at hclosed
  grind

theorem places_openBranch (b : Build) (span : Span) :
    (b.openBranch span).places ⊆ span :: b.places := by
  unfold openBranch
  split
  · next d outer hpending =>
    have := places_closeBranch d
    simp only [places, hpending, List.flatMap_cons, OpenDivergence.places, OpenBranch.places,
      Element.placesAll, Option.toList_some, List.flatMap_nil] at this ⊢
    grind
  · exact b.places_report _

theorem places_endBranch (b : Build) (span : Span) :
    (b.endBranch span).places ⊆ span :: b.places := by
  unfold endBranch
  split
  · next d outer hpending =>
    split
    · have := places_closeBranch d
      simp only [places, hpending, List.flatMap_cons] at this ⊢
      grind
    · exact b.places_report _
  · exact b.places_report _

theorem places_endDivergence (b : Build) (span : Span) :
    (b.endDivergence span).places ⊆ span :: b.places := by
  unfold endDivergence
  split
  · next d outer hpending =>
    -- the places of the divergence move from the pending ones to those of the sequence around it
    have houter : ({ b with pending := outer } : Build).places ++ d.places ⊆ b.places := by
      simp only [places, hpending, List.flatMap_cons]
      grind
    have hclose := places_close d span
    dsimp only
    split
    · next es hes =>
      have hold := placesAll_subset_of_sequence? hes
      refine List.Subset.trans (places_setSequence _ _) ?_
      rw [Element.placesAll]
      grind
    · grind
  · exact b.places_report _

/-- A directive adds no place but its own. -/
theorem places_apply_subset (b : Build) (span : Span) (d : Directive) :
    (b.apply span d).places ⊆ span :: b.places := by
  cases d with
  | title text => exact List.subset_cons_of_subset _ (List.Subset.refl _)
  | step number kind label => exact b.places_push _ _
  | transition number condition => exact b.places_push _ _
  | jump target => exact b.places_push _ _
  | action a =>
    refine b.places_attach "Action" fun s => ?_
    simp only [Element.places, List.map_append, List.map_cons, List.map_nil]
    grind
  | linkedFile file => exact b.places_attach "LinkedFile" fun s => List.subset_cons_self ..
  | divergence junction => exact b.places_openDivergence junction span
  | branch => exact b.places_openBranch span
  | endBranch => exact b.places_endBranch span
  | endDivergence => exact b.places_endDivergence span

/-- What a line adds is a piece of it. -/
theorem covers_of_mem_places_readLine {line : Line} {s : Span}
    (hline : Text.trim line.text = line.text) (hs : s ∈ (b.readLine line).places) :
    s ∈ b.places ∨ line.Covers s := by
  unfold readLine at hs
  split at hs
  · next d hd =>
    obtain rfl | hs := List.mem_cons.1 (b.places_apply_subset _ _ hs)
    · exact .inr line.covers_span
    · exact .inl hs
  · obtain rfl | hs := List.mem_cons.1 (b.places_report _ hs)
    · exact .inr line.covers_span
    · exact .inl hs
  · next fault hfault =>
    obtain rfl | hs := List.mem_cons.1 (b.places_report _ hs)
    · exact .inr (Directive.covers_place_of_ofLine hline hfault)
    · exact .inl hs

theorem covers_of_mem_places_foldl {lines : List Line} {s : Span}
    (hlines : ∀ l ∈ lines, Text.trim l.text = l.text)
    (hs : s ∈ (lines.foldl readLine b).places) : s ∈ b.places ∨ ∃ l ∈ lines, l.Covers s := by
  induction lines generalizing b with
  | nil => exact .inl hs
  | cons l lines ih =>
    obtain ⟨hl, hlines⟩ := List.forall_mem_cons.1 hlines
    obtain hs | ⟨l', hl', hs⟩ := ih hlines hs
    · exact (covers_of_mem_places_readLine hl hs).imp_right fun h => ⟨l, by simp, h⟩
    · exact .inr ⟨l', by simp [hl'], hs⟩

/-- The places of the chart that has been built were known before. -/
theorem placesAll_chart (b : Build) : Element.placesAll b.chart.elements ⊆ b.places := by
  intro s hs
  simp only [chart, Chart.numbered, Element.placesAll_numbered] at hs
  have : s ∈ Element.placesAll b.root := by simpa [Element.mem_placesAll_iff] using hs
  simp [places, this]

theorem place_mem_places_of_mem_allFindings {f : ParseFinding} (h : f ∈ b.allFindings) :
    f.place ∈ b.places := by
  rcases List.mem_append.1 h with h | h
  · have := List.mem_map_of_mem (f := ParseFinding.place) (List.mem_reverse.1 h)
    simp [places, this]
  · obtain ⟨d, hd, rfl⟩ := List.mem_map.1 h
    have : d.span ∈ b.pending.flatMap (·.places) :=
      List.mem_flatMap.2 ⟨d, hd, List.mem_cons_self ..⟩
    simp [places, ParseFinding.place, NestingFault.place, this]

end Build

/-- Everything that is known of places in a source is a piece of one of its lines. -/
theorem Chart.exists_covers_of_mem_places_build {source : String} {s : Span}
    (hs : s ∈ (build source).places) : ∃ l ∈ Line.ofSource source.toList, l.Covers s := by
  refine (Build.covers_of_mem_places_foldl (fun l hl => ?_) hs).resolve_left (nomatch ·)
  exact (Line.standsIn_of_mem_ofSource hl).trim_eq

end SequentialChart
