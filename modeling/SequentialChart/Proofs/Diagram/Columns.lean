import Mathlib
import SequentialChart.Proofs.Diagram.Degrees
import SequentialChart.Proofs.Diagram.Exact
import SequentialChart.Proofs.Diagram.Sections

/-!
# Columns side by side

The branches of a divergence are drawn in columns, each as wide as what stands in it, with a fixed
distance between neighbours. The columns are placed so that the outermost middles lie at equal
distances from the middle of the divergence. Where the outermost columns are not equally wide, the
divergence as a whole then leans to the side of the wider one, by a quarter of the difference, and
out of the column that is reserved for it. Branches overlap as soon as what hangs over between two
neighbours does not fit into the distance between their columns.

## Main definitions

* `Element.reach` — how far an element is drawn to a side of the middle of its column.
* `Branch.overhang` — how far a branch is drawn beyond its column.
* `Branch.FitSideBySide` — what hangs over between neighbours fits between their columns.
* `Diagram.SeparatesColumns` — of two branches of a divergence, all that is drawn of the first one
  stands to the left of all that is drawn of the second one.

## Main statements

* `Element.reaches_placeAll` — the reach of a branch is exact.
* `Chart.separatesColumns_iff_of_check` — when the branches of an accepted chart do not overlap.
* `Chart.not_separatesColumns_leaning` — an accepted chart whose branches do.
* `Spacing.middle_eq` — by how much a divergence leans to a side.
* `Chart.exists_separatesColumns_of_balanced` — nothing overlaps if no divergence within a branch
  leans.
-/

namespace SequentialChart

/-! ### Sides -/

/-- The two sides to which columns have neighbours. -/
inductive Side where
  | left
  | right
  deriving DecidableEq, Repr

namespace Side

/-- How far a coordinate lies to the side. -/
def toward : Side → ℚ → ℚ
  | left, x => -x
  | right, x => x

/-- How far a rectangle reaches to the side. -/
def outer : Side → Bounds ℚ → ℚ
  | left, b => -b.left
  | right, b => b.right

theorem toward_add (side : Side) (x y : ℚ) :
    side.toward (x + y) = side.toward x + side.toward y := by
  cases side with
  | left => exact neg_add x y
  | right => rfl

/-- A rectangle reaches to both sides of its middle by half of its width. -/
theorem outer_ofPosition (side : Side) (x y : ℚ) (size : Size ℚ) :
    side.outer (.ofPosition ⟨x - Length.half size.width, y⟩ size) =
      side.toward x + size.width / 2 := by
  cases side <;>
    simp only [outer, toward, Bounds.ofPosition, Bounds.left, Bounds.right, Length.half_rat] <;>
    ring

theorem outer_step (side : Side) (s : Spacing ℚ) (x top : ℚ) (step : Step) :
    side.outer (Node.step (step.node s x top)).bounds = side.toward x + s.stepWidth / 2 :=
  side.outer_ofPosition x top ⟨s.stepWidth, s.stepHeight⟩

theorem outer_transition (side : Side) (s : Spacing ℚ) (x top : ℚ) (t : Transition) :
    side.outer (Node.transition (t.node s x top)).bounds =
      side.toward x + s.transitionWidth / 2 :=
  side.outer_ofPosition x top ⟨s.transitionWidth, s.transitionHeight⟩

end Side

/-! ### Reach -/

mutual

/-- How far an element is drawn to a side of the middle of its column. -/
def Element.reach (s : Spacing ℚ) (side : Side) : Element → ℚ
  | .step _ => s.stepWidth / 2
  | .transition _ => s.transitionWidth / 2
  | .jump _ => 0
  | .divergence _ branches _ _ =>
    Branch.reachAll s side branches (s.branchCenters 0 (Branch.widths s branches))

/-- How far a sequence is drawn to a side of the middle of its column. -/
def Element.reachAll (s : Spacing ℚ) (side : Side) : List Element → ℚ
  | [] => 0
  | e :: es => max (e.reach s side) (Element.reachAll s side es)

/-- How far a branch is drawn to a side of the middle of its column. -/
def Branch.reach (s : Spacing ℚ) (side : Side) : Branch → ℚ
  | .mk elements _ => Element.reachAll s side elements

/-- How far branches are drawn to a side, in columns with the given middles. -/
def Branch.reachAll (s : Spacing ℚ) (side : Side) : List Branch → List ℚ → ℚ
  | b :: bs, x :: centers =>
    max (side.toward x + b.reach s side) (Branch.reachAll s side bs centers)
  | _, _ => 0

end

/-- How far a branch is drawn beyond the column that is reserved for it. -/
def Branch.overhang (s : Spacing ℚ) (side : Side) (b : Branch) : ℚ :=
  b.reach s side - b.width s / 2

/-- The branches fit side by side: what hangs over on facing sides of neighbours fits between their
columns. -/
def Branch.FitSideBySide (s : Spacing ℚ) (bs : List Branch) : Prop :=
  bs.IsChain fun b b' => b.overhang s .right + b'.overhang s .left < s.branchSpacing

instance (s : Spacing ℚ) (bs : List Branch) : Decidable (Branch.FitSideBySide s bs) := by
  unfold Branch.FitSideBySide
  infer_instance

section Reach

variable {s : Spacing ℚ} {side : Side}

theorem Element.reachAll_nonneg (es : List Element) : 0 ≤ reachAll s side es := by
  induction es with
  | nil => rw [reachAll]
  | cons e es ih =>
    rw [reachAll]
    exact ih.trans (le_max_right _ _)

theorem Branch.reach_eq (b : Branch) : b.reach s side = Element.reachAll s side b.elements := by
  cases b
  rw [reach, elements_mk]

theorem Branch.reach_nonneg (s : Spacing ℚ) (side : Side) (b : Branch) : 0 ≤ b.reach s side :=
  b.reach_eq ▸ Element.reachAll_nonneg _

end Reach

/-! ### The middles of columns -/

namespace Spacing

variable (s : Spacing ℚ)

/-- The middle between the outermost middles of columns of which the first one begins at 0. -/
def middle (ws : List ℚ) : ℚ :=
  ((s.centersFrom 0 ws).headD 0 + (s.centersFrom 0 ws).getLastD 0) / 2

theorem branchCenters_eq (centerX : ℚ) (ws : List ℚ) : s.branchCenters centerX ws =
    (s.centersFrom 0 ws).map (· + (centerX - s.middle ws)) := by
  have hzero : (Length.ofNat 0 : ℚ) = 0 := Nat.cast_zero
  unfold branchCenters middle
  rw [hzero]
  cases s.centersFrom 0 ws with
  | nil => rfl
  | cons x xs => simp [List.getLast?_cons]

/-- The columns of branches move along with the column that they stand in. -/
theorem branchCenters_eq_map (centerX : ℚ) (ws : List ℚ) :
    s.branchCenters centerX ws = (s.branchCenters 0 ws).map (· + centerX) := by
  rw [branchCenters_eq, branchCenters_eq, List.map_map]
  refine List.map_congr_left fun x _ => ?_
  rw [Function.comp_apply]
  ring

/-- The columns of neighbours have the distance that is reserved between them. -/
theorem isChain_centersFrom (left : ℚ) (bs : List Branch) :
    (bs.zip (s.centersFrom left (Branch.widths s bs))).IsChain fun z z' =>
      z'.2 - z.2 = z.1.width s / 2 + s.branchSpacing + z'.1.width s / 2 := by
  induction bs generalizing left with
  | nil => exact .nil
  | cons b bs ih =>
    cases bs with
    | nil => exact .singleton _
    | cons b' bs =>
      refine .cons_cons ?_ (ih _)
      simp only [Length.half_rat]
      ring

theorem isChain_branchCenters (centerX : ℚ) (bs : List Branch) :
    (bs.zip (s.branchCenters centerX (Branch.widths s bs))).IsChain fun z z' =>
      z'.2 - z.2 = z.1.width s / 2 + s.branchSpacing + z'.1.width s / 2 := by
  rw [branchCenters_eq, List.zip_map_right, List.isChain_map]
  exact (s.isChain_centersFrom 0 bs).imp fun z z' hz => (add_sub_add_right_eq_sub _ _ _).trans hz

end Spacing

/-! ### What is drawn of a sequence -/

/-- From `x`, the steps and transitions of a part reach to the side by `r`, and no further. -/
structure Part.Reaches (p : Part ℚ) (side : Side) (x r : ℚ) : Prop where
  le : ∀ n ∈ p.leaves, side.outer n.bounds ≤ side.toward x + r
  attained : ∃ n ∈ p.leaves, side.toward x + r ≤ side.outer n.bounds

theorem Part.mem_leaves_join {α : Type} {ps : List (Part α)} {n : Node α} :
    n ∈ (join ps).leaves ↔ ∃ p ∈ ps, n ∈ p.leaves := by
  induction ps with
  | nil => simp [leaves]
  | cons p ps ih => simp [mem_leaves_append, ih]

theorem Section.leaves_whole {α : Type} (sec : Section α) :
    sec.whole.leaves = (Part.join sec.parts).leaves := by
  rw [Part.leaves, steps_whole, transitions_whole, Part.leaves]

section Place

variable {s : Spacing ℚ} {side : Side} {column : ℚ → Column ℚ}

theorem Branch.outer_le_reachAll (hcolumn : ∀ x, (column x).centerX = x) {bs : List Branch}
    (h : ∀ b ∈ bs, ∀ (c : Column ℚ) (gate : Nat),
      ∀ n ∈ (Element.placeAll s c gate b.elements).1.part.leaves,
        side.outer n.bounds ≤ side.toward c.centerX + Element.reachAll s side b.elements)
    (x : ℚ) (gate : Nat) (centers : List ℚ) :
    ∀ p ∈ partsAll s column gate bs (centers.map (· + x)), ∀ n ∈ p.leaves,
      side.outer n.bounds ≤ side.toward x + reachAll s side bs centers := by
  induction bs generalizing gate centers with
  | nil => exact List.forall_mem_nil _
  | cons b bs ih =>
    cases centers with
    | nil => exact List.forall_mem_nil _
    | cons center centers =>
      obtain ⟨elements, span⟩ := b
      rw [List.map_cons, partsAll, List.forall_mem_cons, reachAll]
      constructor
      · intro n hn
        have hfirst := h _ List.mem_cons_self _ _ n hn
        rw [hcolumn, side.toward_add, elements_mk] at hfirst
        have hmax := le_max_left (side.toward center + reach s side (.mk elements span))
          (reachAll s side bs centers)
        rw [reach] at hmax ⊢
        linarith
      · intro p hp n hn
        have hrest := ih (fun b hb => h b (List.mem_cons_of_mem _ hb)) _ _ p hp n hn
        exact hrest.trans (add_le_add_right (le_max_right _ _) _)

theorem Branch.exists_le_outer (hcolumn : ∀ x, (column x).centerX = x) {bs : List Branch}
    (h : ∀ b ∈ bs, ∀ (c : Column ℚ) (gate : Nat),
      ∃ n ∈ (Element.placeAll s c gate b.elements).1.part.leaves,
        side.toward c.centerX + Element.reachAll s side b.elements ≤ side.outer n.bounds)
    (x : ℚ) (gate : Nat) (centers : List ℚ) :
    reachAll s side bs centers ≤ 0 ∨
      ∃ p ∈ partsAll s column gate bs (centers.map (· + x)), ∃ n ∈ p.leaves,
        side.toward x + reachAll s side bs centers ≤ side.outer n.bounds := by
  induction bs generalizing gate centers with
  | nil => exact .inl (by simp [reachAll])
  | cons b bs ih =>
    cases centers with
    | nil => exact .inl (by simp [reachAll])
    | cons center centers =>
      obtain ⟨elements, span⟩ := b
      rw [List.map_cons, partsAll, List.exists_mem_cons_iff, reachAll]
      rcases max_choice (side.toward center + reach s side (.mk elements span))
        (reachAll s side bs centers) with hmax | hmax
      · obtain ⟨n, hn, hfirst⟩ := h _ List.mem_cons_self (column (center + x)) gate
        rw [hcolumn, side.toward_add, elements_mk] at hfirst
        refine .inr (.inl ⟨n, hn, ?_⟩)
        rw [hmax, reach]
        linarith
      · rw [hmax]
        exact (ih (fun b hb => h b (List.mem_cons_of_mem _ hb)) _ _).imp_right .inr

namespace Element

variable {c : Column ℚ} {gate : Nat} {next : Option Element}

theorem centerX_place {α : Type} [Length α] {s : Spacing α} (e : Element) (c : Column α)
    (gate : Nat) (next : Option Element) : (e.place s c gate next).2.centerX = c.centerX := by
  cases e <;> rfl

theorem leaves_place_step (step : Step) (c : Column ℚ) (gate : Nat) (next : Option Element) :
    ((Element.step step).place s c gate next).1.part.leaves =
      [.step (step.node s c.centerX (c.enter s (.step step) next).2)] := rfl

theorem leaves_place_transition (t : Transition) (c : Column ℚ) (gate : Nat)
    (next : Option Element) : ((Element.transition t).place s c gate next).1.part.leaves =
      [.transition (t.node s c.centerX (c.enter s (.transition t) next).2)] := rfl

theorem leaves_place_divergence (junction : Junction) (bs : List Branch) (span endSpan : Span)
    (c : Column ℚ) (gate : Nat) (next : Option Element) :
    ∃ column : ℚ → Column ℚ, (∀ x, (column x).centerX = x) ∧ ∀ n,
      n ∈ ((divergence junction bs span endSpan).place s c gate next).1.part.leaves ↔
        ∃ p ∈ Branch.partsAll s column (gate + 1) bs
          ((s.branchCenters 0 (Branch.widths s bs)).map (· + c.centerX)), n ∈ p.leaves := by
  let sec := Section.place s { c with entryGap := none }
    (c.enter s (.divergence junction bs span endSpan) next).2 gate junction bs
  refine ⟨({ c with entryGap := none } : Column ℚ).branch s junction sec.opening.anchor,
    fun x => ?_, fun n => ?_⟩
  · cases junction <;> rfl
  · rw [part_place_divergence, Section.leaves_whole, Part.mem_leaves_join,
      ← s.branchCenters_eq_map]
    rfl

theorem leaves_placeAll_cons (e : Element) (es : List Element) (c : Column ℚ) (gate : Nat)
    {n : Node ℚ} : n ∈ (placeAll s c gate (e :: es)).1.part.leaves ↔
      n ∈ (e.place s c gate es.head?).1.part.leaves ∨
      n ∈ (placeAll s (e.place s c gate es.head?).2
        (gate + (e.place s c gate es.head?).1.gates.length) es).1.part.leaves := by
  simp only [placeAll, Drawing.part_append, Part.mem_leaves_append]

/-- Nothing is drawn beyond the reach of a sequence. -/
theorem outer_le_reachAll (es : List Element) (c : Column ℚ) (gate : Nat) :
    ∀ n ∈ (placeAll s c gate es).1.part.leaves,
      side.outer n.bounds ≤ side.toward c.centerX + reachAll s side es := by
  have hcons : ∀ {e : Element} {es : List Element} {c : Column ℚ} {gate : Nat},
      (∀ n ∈ (e.place s c gate es.head?).1.part.leaves,
        side.outer n.bounds ≤ side.toward c.centerX + e.reach s side) →
      (∀ c gate, ∀ n ∈ (placeAll s c gate es).1.part.leaves,
        side.outer n.bounds ≤ side.toward c.centerX + reachAll s side es) →
      ∀ n ∈ (placeAll s c gate (e :: es)).1.part.leaves,
        side.outer n.bounds ≤ side.toward c.centerX + reachAll s side (e :: es) := by
    intro e es c gate he hes n hn
    rw [reachAll]
    rcases (leaves_placeAll_cons e es c gate).1 hn with hn | hn
    · exact (he n hn).trans (add_le_add_right (le_max_left _ _) _)
    · have hrest := hes _ _ n hn
      rw [centerX_place] at hrest
      exact hrest.trans (add_le_add_right (le_max_right _ _) _)
  induction es using sequence_induction generalizing c gate with
  | nil => exact List.forall_mem_nil _
  | step step es ih =>
    refine hcons (fun n hn => ?_) ih
    rw [leaves_place_step, List.mem_singleton] at hn
    rw [hn, side.outer_step, reach]
  | transition t es ih =>
    refine hcons (fun n hn => ?_) ih
    rw [leaves_place_transition, List.mem_singleton] at hn
    rw [hn, side.outer_transition, reach]
  | jump j es ih => exact hcons (List.forall_mem_nil _) ih
  | divergence junction bs span endSpan es hbs ih =>
    refine hcons (fun n hn => ?_) ih
    obtain ⟨column, hcolumn, hleaves⟩ :=
      leaves_place_divergence junction bs span endSpan c gate es.head?
    obtain ⟨p, hp, hn⟩ := (hleaves n).1 hn
    rw [reach]
    exact Branch.outer_le_reachAll hcolumn hbs _ _ _ p hp n hn

/-- A branch begins with a step or a transition, so that something is drawn on both sides of the
middle of its column. -/
theorem exists_le_outer_of_bounds (hs : s.IsNonneg) {es : List Element} {junction : Junction}
    (hbounds : junction.Bounds es)
    (h : reachAll s side es ≤ 0 ∨ ∃ n ∈ (placeAll s c gate es).1.part.leaves,
      side.toward c.centerX + reachAll s side es ≤ side.outer n.bounds) :
    ∃ n ∈ (placeAll s c gate es).1.part.leaves,
      side.toward c.centerX + reachAll s side es ≤ side.outer n.bounds := by
  refine h.elim (fun hreach => ?_) id
  obtain ⟨e, es, rfl⟩ := List.exists_cons_of_ne_nil hbounds.ne_nil
  suffices ∃ n ∈ (e.place s c gate es.head?).1.part.leaves,
      side.toward c.centerX ≤ side.outer n.bounds by
    obtain ⟨n, hn, houter⟩ := this
    exact ⟨n, (leaves_placeAll_cons e es c gate).2 (.inl hn), by linarith⟩
  cases e with
  | step step =>
    refine ⟨_, (leaves_place_step step c gate _).symm ▸ List.mem_singleton_self _, ?_⟩
    rw [side.outer_step]
    exact le_add_of_nonneg_right (div_nonneg hs.stepWidth zero_le_two)
  | transition t =>
    refine ⟨_, (leaves_place_transition t c gate _).symm ▸ List.mem_singleton_self _, ?_⟩
    rw [side.outer_transition]
    exact le_add_of_nonneg_right (div_nonneg hs.transitionWidth zero_le_two)
  | jump | divergence =>
    cases junction <;> simp [Junction.Bounds, isStep, isTransition] at hbounds

/-- A sequence is drawn as far as its reach, unless that is nothing. -/
theorem exists_le_outer (hs : s.IsNonneg) {es : List Element} {strict : Bool}
    {previous : Option Element} (h : ArePlaced strict previous es) (c : Column ℚ) (gate : Nat) :
    reachAll s side es ≤ 0 ∨ ∃ n ∈ (placeAll s c gate es).1.part.leaves,
      side.toward c.centerX + reachAll s side es ≤ side.outer n.bounds := by
  have hcons : ∀ {e : Element} {es : List Element} {c : Column ℚ} {gate : Nat},
      (e.reach s side ≤ 0 ∨ ∃ n ∈ (e.place s c gate es.head?).1.part.leaves,
        side.toward c.centerX + e.reach s side ≤ side.outer n.bounds) →
      (∀ c gate, reachAll s side es ≤ 0 ∨ ∃ n ∈ (placeAll s c gate es).1.part.leaves,
        side.toward c.centerX + reachAll s side es ≤ side.outer n.bounds) →
      reachAll s side (e :: es) ≤ 0 ∨ ∃ n ∈ (placeAll s c gate (e :: es)).1.part.leaves,
        side.toward c.centerX + reachAll s side (e :: es) ≤ side.outer n.bounds := by
    intro e es c gate he hes
    simp only [leaves_placeAll_cons]
    rw [reachAll]
    rcases max_choice (e.reach s side) (reachAll s side es) with hmax | hmax <;> rw [hmax]
    · exact he.imp_right fun ⟨n, hn, hle⟩ => ⟨n, .inl hn, hle⟩
    · have hrest := hes (e.place s c gate es.head?).2 (gate + (e.place s c gate es.head?).1.gates.length)
      rw [centerX_place] at hrest
      exact hrest.imp_right fun ⟨n, hn, hle⟩ => ⟨n, .inr hn, hle⟩
  induction es using sequence_induction generalizing c gate previous with
  | nil => exact .inl (by rw [reachAll])
  | step step es ih =>
    refine hcons (.inr ⟨_, (leaves_place_step step c gate _).symm ▸ List.mem_singleton_self _, ?_⟩)
      (ih h.tail)
    rw [side.outer_step, reach]
  | transition t es ih =>
    refine hcons (.inr ⟨_, (leaves_place_transition t c gate _).symm ▸ List.mem_singleton_self _,
      ?_⟩) (ih h.tail)
    rw [side.outer_transition, reach]
  | jump j es ih => exact hcons (.inl (by rw [reach])) (ih h.tail)
  | divergence junction bs span endSpan es hbs ih =>
    refine hcons ?_ (ih h.tail)
    obtain ⟨column, hcolumn, hleaves⟩ :=
      leaves_place_divergence junction bs span endSpan c gate es.head?
    rw [reach]
    refine (Branch.exists_le_outer hcolumn (fun b hb c gate => ?_) c.centerX (gate + 1) _).imp_right
      fun ⟨p, hp, n, hn, hle⟩ => ⟨n, (hleaves n).2 ⟨p, hp, hn⟩, hle⟩
    exact exists_le_outer_of_bounds hs (h.branch hb).1 (hbs b hb (h.branch hb).2 c gate)

/-- A branch is drawn exactly as far as its reach to both sides. -/
theorem reaches_placeAll (hs : s.IsNonneg) {es : List Element} {strict : Bool} {junction : Junction}
    (hbounds : junction.Bounds es) (h : ArePlaced strict none es) (c : Column ℚ) (gate : Nat) :
    (placeAll s c gate es).1.part.Reaches side c.centerX (reachAll s side es) where
  le := outer_le_reachAll es c gate
  attained := exists_le_outer_of_bounds hs hbounds (exists_le_outer hs h c gate)

end Element

end Place

/-! ### Neighbours -/

/-- What is drawn of the first branch ends before what is drawn of the second one begins, if each of
the branches stands in a column with the given middle. -/
def Branch.AreApart (s : Spacing ℚ) (z z' : Branch × ℚ) : Prop :=
  z.2 + z.1.reach s .right < z'.2 - z'.1.reach s .left

instance (s : Spacing ℚ) : Trans (Branch.AreApart s) (Branch.AreApart s) (Branch.AreApart s) where
  trans := by
    intro z z' z'' h h'
    have hleft := z'.1.reach_nonneg s .left
    have hright := z'.1.reach_nonneg s .right
    unfold Branch.AreApart at *
    linarith

namespace Branch

variable {s : Spacing ℚ}

theorem map_fst_zip_branchCenters (centerX : ℚ) (bs : List Branch) :
    (bs.zip (s.branchCenters centerX (widths s bs))).map Prod.fst = bs :=
  List.map_fst_zip (by rw [length_branchCenters, length_widths])

/-- Wherever branches are placed, they are apart if and only if they fit side by side. -/
theorem fitSideBySide_iff (centerX : ℚ) (bs : List Branch) : FitSideBySide s bs ↔
    (bs.zip (s.branchCenters centerX (widths s bs))).Pairwise (AreApart s) := by
  have hdistance := s.isChain_branchCenters centerX bs
  rw [FitSideBySide, ← List.isChain_iff_pairwise]
  nth_rewrite 1 [← map_fst_zip_branchCenters centerX bs]
  rw [List.isChain_map, List.isChain_iff_getElem, List.isChain_iff_getElem]
  refine forall₂_congr fun i hi => ?_
  have := hdistance.getElem i hi
  unfold AreApart overhang
  constructor <;> intro <;> linarith

theorem part_mem_partsAll {α : Type} [Length α] {s : Spacing α} {column : α → Column α}
    {bs : List Branch} {centers : List α} {z : Branch × α} (hz : z ∈ bs.zip centers) (gate : Nat) :
    ∃ gate', (Element.placeAll s (column z.2) gate' z.1.elements).1.part ∈
      partsAll s column gate bs centers := by
  induction bs generalizing gate centers with
  | nil => cases hz
  | cons b bs ih =>
    cases centers with
    | nil => cases hz
    | cons x centers =>
      obtain ⟨elements, span⟩ := b
      rcases List.mem_cons.1 hz with rfl | hz
      · exact ⟨gate, List.mem_cons_self⟩
      · obtain ⟨gate', hpart⟩ := ih hz _
        exact ⟨gate', List.mem_cons_of_mem _ hpart⟩

end Branch

theorem Column.centerX_branch {α : Type} [Length α] (s : Spacing α) (c : Column α)
    (junction : Junction) (opening : Anchor α) (x : α) :
    (c.branch s junction opening x).centerX = x := by
  cases junction <;> rfl

/-- Each branch of a section is drawn as far as its reach. -/
theorem Section.exists_part_place {s : Spacing ℚ} (hs : s.IsNonneg) {junction : Junction}
    {bs : List Branch}
    (hbs : ∀ b ∈ bs, (∃ junction : Junction, junction.Bounds b.elements) ∧
      Element.ArePlaced false none b.elements) {c : Column ℚ} (top : ℚ) (gate : Nat) {z : Branch × ℚ}
    (hz : z ∈ bs.zip (s.branchCenters c.centerX (Branch.widths s bs))) :
    ∃ p : Part ℚ, p.Lists (Element.walkAll z.1.elements) ∧
      p.leaves ⊆ (place s c top gate junction bs).whole.nodes ∧
      ∀ side, p.Reaches side z.2 (z.1.reach s side) := by
  obtain ⟨⟨_, hbounds⟩, hplaced⟩ := hbs z.1 (List.of_mem_zip hz).1
  let sec := place s c top gate junction bs
  let column := c.branch s junction sec.opening.anchor
  obtain ⟨gate', hpart⟩ : ∃ gate', (Element.placeAll s (column z.2) gate' z.1.elements).1.part ∈
      sec.parts := Branch.part_mem_partsAll hz (gate + 1)
  refine ⟨_, Element.lists_placeAll s _ (column z.2) gate', List.Subset.trans (Part.leaves_subset_nodes _)
    (sec.nodes_subset_whole hpart), fun side => ?_⟩
  rw [z.1.reach_eq, ← c.centerX_branch s junction sec.opening.anchor z.2]
  exact Element.reaches_placeAll hs hbounds hplaced (column z.2) gate'

namespace Diagram

section

variable {α : Type} [Length α] [LT α]

/-- All steps and transitions within the first branch, at any depth, stand to the left of all those
within the second one. -/
def StandsLeft (d : Diagram α) (b b' : Branch) : Prop :=
  ∀ i ∈ Element.leafIds (Element.walkAll b.elements),
    ∀ j ∈ Element.leafIds (Element.walkAll b'.elements),
      ∀ m ∈ d.node? i, ∀ n ∈ d.node? j, m.bounds.right < n.bounds.left

/-- The branches of every divergence stand in columns that do not overlap. -/
def SeparatesColumns (d : Diagram α) (c : Chart) : Prop :=
  ∀ e ∈ c.walk, e.branches.Pairwise d.StandsLeft

instance (d : Diagram α) [DecidableLT α] (b b' : Branch) : Decidable (d.StandsLeft b b') := by
  unfold StandsLeft
  infer_instance

instance (d : Diagram α) [DecidableLT α] (c : Chart) : Decidable (d.SeparatesColumns c) := by
  unfold SeparatesColumns
  infer_instance

variable {d : Diagram α}

/-- Which of two branches stands to the left can be read off the parts that show them. -/
theorem standsLeft_iff (h : (d.nodes.map (·.id)).Nodup) {b b' : Branch} {p p' : Part α}
    (hp : p.Lists (Element.walkAll b.elements)) (hsub : p.leaves ⊆ d.nodes)
    (hp' : p'.Lists (Element.walkAll b'.elements)) (hsub' : p'.leaves ⊆ d.nodes) :
    d.StandsLeft b b' ↔
      ∀ m ∈ p.leaves, ∀ n ∈ p'.leaves, m.bounds.right < n.bounds.left := by
  have hnode : ∀ {p : Part α}, p.leaves ⊆ d.nodes → ∀ {n m : Node α}, n ∈ p.leaves →
      (m ∈ d.node? n.id ↔ m = n) := fun hsub n m hn => by
    rw [Option.mem_def, (node?_eq_some_iff_of_nodup h).2 ⟨hsub hn, rfl⟩, Option.some_inj, eq_comm]
  rw [StandsLeft, ← hp.map_id_leaves, ← hp'.map_id_leaves]
  simp only [List.forall_mem_map]
  refine forall₂_congr fun m hm => forall₂_congr fun n hn => ?_
  simp only [hnode hsub hm, hnode hsub' hn, forall_eq]

end

variable {d : Diagram ℚ} {s : Spacing ℚ}

theorem forall_right_lt_left_iff {p p' : Part ℚ} {x x' r r' : ℚ} (h : p.Reaches .right x r)
    (h' : p'.Reaches .left x' r') :
    (∀ m ∈ p.leaves, ∀ n ∈ p'.leaves, m.bounds.right < n.bounds.left) ↔ x + r < x' - r' := by
  constructor
  · intro hlt
    obtain ⟨m, hm, hle⟩ := h.attained
    obtain ⟨n, hn, hle'⟩ := h'.attained
    have := hlt m hm n hn
    simp only [Side.toward, Side.outer] at hle hle'
    linarith
  · intro hlt m hm n hn
    have hle := h.le m hm
    have hle' := h'.le n hn
    simp only [Side.toward, Side.outer] at hle hle'
    linarith

/-- The branches of a section stand apart in a diagram exactly if they fit side by side. -/
theorem pairwise_standsLeft_iff (hs : s.IsNonneg) (hnodup : (d.nodes.map (·.id)).Nodup)
    {c : Column ℚ} {top : ℚ} {gate : Nat} {junction : Junction} {bs : List Branch}
    (hsub : (Section.place s c top gate junction bs).whole.nodes ⊆ d.nodes)
    (hbs : ∀ b ∈ bs, (∃ junction : Junction, junction.Bounds b.elements) ∧
      Element.ArePlaced false none b.elements) :
    bs.Pairwise d.StandsLeft ↔ Branch.FitSideBySide s bs := by
  rw [Branch.fitSideBySide_iff c.centerX]
  nth_rewrite 1 [← Branch.map_fst_zip_branchCenters (s := s) c.centerX bs]
  rw [List.pairwise_map]
  refine List.Pairwise.iff_of_mem fun {z z'} hz hz' => ?_
  obtain ⟨p, hp, hnodes, hreach⟩ := Section.exists_part_place hs hbs top gate hz
  obtain ⟨p', hp', hnodes', hreach'⟩ := Section.exists_part_place hs hbs top gate hz'
  rw [standsLeft_iff hnodup hp (List.Subset.trans hnodes hsub) hp' (List.Subset.trans hnodes' hsub),
    forall_right_lt_left_iff (hreach .right) (hreach' .left), Branch.AreApart]

end Diagram

/-! ### Balanced sections -/

/-- The outermost branches are equally wide. -/
def Branch.AreBalanced (s : Spacing ℚ) (bs : List Branch) : Prop :=
  (Branch.widths s bs).head? = (Branch.widths s bs).getLast?

namespace Spacing

variable {s : Spacing ℚ}

/-- The width of columns side by side, with the distances between them. -/
def columnsWidth (s : Spacing ℚ) : List ℚ → ℚ
  | [] => 0
  | [w] => w
  | w :: w' :: ws => w + s.branchSpacing + s.columnsWidth (w' :: ws)

theorem columnsWidth_nonneg (hs : 0 ≤ s.branchSpacing) {ws : List ℚ} (h : ∀ w ∈ ws, 0 ≤ w) :
    0 ≤ s.columnsWidth ws := by
  induction ws using columnsWidth.induct with
  | case1 => exact le_rfl
  | case2 w => exact h w List.mem_cons_self
  | case3 w w' ws ih =>
    have hw := h w List.mem_cons_self
    have hws := ih fun w hw => h w (List.mem_cons_of_mem _ hw)
    rw [columnsWidth]
    linarith

theorem columnsWidth_eq (ws : List ℚ) : s.columnsWidth ws =
    ws.foldl (· + ·) (Length.ofNat 0) + Length.scale (ws.length - 1) s.branchSpacing := by
  have hsum : s.columnsWidth ws = ws.sum + ((ws.length - 1 : Nat) : ℚ) * s.branchSpacing := by
    induction ws using columnsWidth.induct with
    | case1 => simp [columnsWidth]
    | case2 w => simp [columnsWidth]
    | case3 w w' ws ih =>
      simp only [columnsWidth, ih, List.sum_cons, List.length_cons, Nat.add_sub_cancel]
      push_cast
      ring
  rw [hsum, List.sum_eq_foldl]
  simp

theorem columnsWidth_le_divergenceWidth (ws : List ℚ) :
    s.columnsWidth ws ≤ s.divergenceWidth ws :=
  columnsWidth_eq (s := s) ws ▸ le_max_left _ _

/-- Columns stand next to each other, from `left` on. -/
theorem forall_mem_zip_centersFrom (hs : 0 ≤ s.branchSpacing) (left : ℚ) {ws : List ℚ}
    (h : ∀ w ∈ ws, 0 ≤ w) : ∀ z ∈ ws.zip (s.centersFrom left ws),
      left ≤ z.2 - z.1 / 2 ∧ z.2 + z.1 / 2 ≤ left + s.columnsWidth ws := by
  induction ws using columnsWidth.induct generalizing left with
  | case1 => exact nofun
  | case2 w => simp [centersFrom, columnsWidth, add_assoc]
  | case3 w w' ws ih =>
    have hw := h w List.mem_cons_self
    have hws := ih (left + (w + s.branchSpacing)) fun w hw => h w (List.mem_cons_of_mem _ hw)
    have hwidth := columnsWidth_nonneg hs fun w hw => h w (List.mem_cons_of_mem _ hw)
    rw [centersFrom, List.zip_cons_cons, List.forall_mem_cons, columnsWidth]
    refine ⟨?_, fun z hz => ?_⟩
    · simp only [Length.half_rat]
      constructor <;> linarith
    · obtain ⟨hleft, hright⟩ := hws z hz
      constructor <;> linarith

theorem getLastD_centersFrom (left : ℚ) {ws : List ℚ} (hne : ws ≠ []) :
    (s.centersFrom left ws).getLastD 0 = left + s.columnsWidth ws - ws.getLastD 0 / 2 := by
  induction ws using columnsWidth.induct generalizing left with
  | case1 => exact absurd rfl hne
  | case2 w =>
    simp only [centersFrom, columnsWidth, Length.half_rat, List.getLastD_cons, List.getLastD_nil]
    ring
  | case3 w w' ws ih =>
    have hrest := ih (left + (w + s.branchSpacing)) (List.cons_ne_nil _ _)
    simp only [centersFrom, columnsWidth, List.getLastD_cons] at hrest ⊢
    rw [hrest]
    ring

/-- The middle between the outermost middles is not the middle of the columns: it lies off by a
quarter of what the first column is wider than the last one. -/
theorem middle_eq {ws : List ℚ} (hne : ws ≠ []) :
    s.middle ws = s.columnsWidth ws / 2 + (ws.headD 0 - ws.getLastD 0) / 4 := by
  have hlast := getLastD_centersFrom (s := s) 0 hne
  obtain ⟨w, ws, rfl⟩ := List.exists_cons_of_ne_nil hne
  rw [middle, hlast, centersFrom, List.headD_cons, List.headD_cons, Length.half_rat]
  ring

end Spacing

section Balanced

variable {s : Spacing ℚ} {side : Side}

theorem Branch.widths_eq_map (s : Spacing ℚ) (bs : List Branch) :
    widths s bs = bs.map (·.width s) := by
  induction bs with
  | nil => rfl
  | cons b bs ih => rw [widths, ih, List.map_cons]

theorem Branch.width_eq (b : Branch) : b.width s = Element.widthAll s 0 b.elements := by
  cases b
  exact congrArg (Element.widthAll s · _) Nat.cast_zero

namespace Element

theorem le_widthAll (least : ℚ) (es : List Element) :
    least ≤ widthAll s least es ∧ ∀ e ∈ es, e.width s ≤ widthAll s least es := by
  induction es generalizing least with
  | nil => exact ⟨le_rfl, nofun⟩
  | cons e es ih =>
    obtain ⟨hleast, hes⟩ := ih (max least (e.width s))
    exact ⟨(le_max_left _ _).trans hleast,
      List.forall_mem_cons.2 ⟨(le_max_right _ _).trans hleast, hes⟩⟩

theorem reachAll_le {r : ℚ} (hr : 0 ≤ r) {es : List Element}
    (h : ∀ e ∈ es, e.reach s side ≤ r) : reachAll s side es ≤ r := by
  induction es with
  | nil => rwa [reachAll]
  | cons e es ih =>
    rw [List.forall_mem_cons] at h
    rw [reachAll]
    exact max_le h.1 (ih h.2)

end Element

theorem Branch.width_nonneg (b : Branch) : 0 ≤ b.width s :=
  b.width_eq ▸ (Element.le_widthAll 0 b.elements).1

/-- A branch stays within its column if all of its elements do. -/
theorem Branch.reach_le_half_width {b : Branch}
    (h : ∀ e ∈ b.elements, e.reach s side ≤ e.width s / 2) : b.reach s side ≤ b.width s / 2 := by
  obtain ⟨hnonneg, hwidth⟩ := Element.le_widthAll (s := s) 0 b.elements
  rw [b.reach_eq, b.width_eq]
  exact Element.reachAll_le (by linarith) fun e he => (h e he).trans (by linarith [hwidth e he])

theorem Branch.reachAll_le {r : ℚ} (hr : 0 ≤ r) {bs : List Branch} {centers : List ℚ}
    (h : ∀ z ∈ bs.zip centers, side.toward z.2 + z.1.reach s side ≤ r) :
    reachAll s side bs centers ≤ r := by
  induction bs generalizing centers with
  | nil => simpa [reachAll]
  | cons b bs ih =>
    cases centers with
    | nil => simpa [reachAll]
    | cons x centers =>
      rw [List.zip_cons_cons, List.forall_mem_cons] at h
      rw [reachAll]
      exact max_le h.1 (ih h.2)

/-- Branches whose outermost ones are equally wide stay within the width of their divergence, if
each of them stays within its column. -/
theorem Branch.reachAll_le_half_divergenceWidth (hs : s.IsNonneg) {bs : List Branch}
    (hbalanced : AreBalanced s bs) (h : ∀ b ∈ bs, b.reach s side ≤ b.width s / 2) :
    reachAll s side bs (s.branchCenters 0 (widths s bs)) ≤ s.divergenceWidth (widths s bs) / 2 := by
  have hnonneg : ∀ w ∈ widths s bs, 0 ≤ w := by
    rw [widths_eq_map, List.forall_mem_map]
    exact fun b _ => b.width_nonneg
  have hwidth := s.columnsWidth_le_divergenceWidth (widths s bs)
  have hcolumns := Spacing.columnsWidth_nonneg hs.branchSpacing hnonneg
  refine reachAll_le (by linarith) fun z hz => ?_
  rw [s.branchCenters_eq, List.zip_map_right, List.mem_map] at hz
  obtain ⟨⟨b, y⟩, hy, rfl⟩ := hz
  have hb := h b (List.of_mem_zip hy).1
  have hne : widths s bs ≠ [] := by
    rw [widths_eq_map]
    exact List.ne_nil_of_mem (List.mem_map_of_mem (List.of_mem_zip hy).1)
  have hmiddle : s.middle (widths s bs) = s.columnsWidth (widths s bs) / 2 := by
    rw [Spacing.middle_eq hne, List.headD_eq_head?_getD, List.getLastD_eq_getLast?, hbalanced]
    ring
  obtain ⟨hleft, hright⟩ := Spacing.forall_mem_zip_centersFrom hs.branchSpacing 0 hnonneg
    (b.width s, y) (by
      nth_rewrite 1 [widths_eq_map]
      rw [List.zip_map_left]
      exact List.mem_map.2 ⟨_, hy, rfl⟩)
  cases side <;> simp only [Side.toward, Prod.map_fst, Prod.map_snd, id, hmiddle] at * <;> linarith

namespace Element

/-- A sequence stays within its column if all divergences in it are balanced. -/
theorem reach_le_half_width (hs : s.IsNonneg) {es : List Element}
    (h : ∀ e ∈ walkAll es, Branch.AreBalanced s e.branches) :
    ∀ e ∈ es, e.reach s side ≤ e.width s / 2 := by
  have htail : ∀ {e : Element} {es : List Element},
      (∀ e' ∈ walkAll (e :: es), Branch.AreBalanced s e'.branches) →
      ∀ e' ∈ walkAll es, Branch.AreBalanced s e'.branches :=
    fun h e' he => h e' (List.mem_append_right _ he)
  induction es using sequence_induction with
  | nil => exact nofun
  | step step es ih => exact List.forall_mem_cons.2 ⟨by rw [reach, width], ih (htail h)⟩
  | transition t es ih => exact List.forall_mem_cons.2 ⟨by rw [reach, width], ih (htail h)⟩
  | jump j es ih => exact List.forall_mem_cons.2 ⟨by simp [reach, width], ih (htail h)⟩
  | divergence junction bs span endSpan es hbs ih =>
    refine List.forall_mem_cons.2 ⟨?_, ih (htail h)⟩
    rw [reach, width]
    refine Branch.reachAll_le_half_divergenceWidth hs (h _ List.mem_cons_self) fun b hb => ?_
    exact Branch.reach_le_half_width
      (hbs b hb fun e he => h e ((walkAll_sublist_branch hb).subset he))

end Element

/-- Nothing hangs over of a branch in which all divergences are balanced. -/
theorem Branch.overhang_nonpos (hs : s.IsNonneg) (side : Side) {b : Branch}
    (h : ∀ e ∈ Element.walkAll b.elements, AreBalanced s e.branches) : b.overhang s side ≤ 0 :=
  sub_nonpos.2 (reach_le_half_width (Element.reach_le_half_width hs h))

end Balanced

/-! ### Sources that are accepted -/

namespace Chart

/-- The columns of a diagram are separated exactly if all branches fit side by side. -/
theorem separatesColumns_iff {c : Chart} {s : Spacing ℚ} (hs : s.IsNonneg)
    (hrules : c.FollowsRules false) (htransitions : (Element.transitionNumbers c.walk).Nodup)
    {d : Diagram ℚ} (hdraw : c.draw s = .ok d) (hshows : d.Shows c) :
    d.SeparatesColumns c ↔ ∀ e ∈ c.walk, Branch.FitSideBySide s e.branches := by
  have hnodup := hshows.nodup hrules.nodup_steps htransitions
  refine forall₂_congr fun e he => ?_
  cases e with
  | step | transition | jump => exact iff_of_true .nil .nil
  | divergence junction bs span endSpan =>
    have hmirrored := areMirroredBy_of_draw hdraw (P := fun sec => ∃ c top gate,
      sec = Section.place s c top gate sec.junction sec.branches) fun _ _ _ _ _ c top gate =>
        ⟨c, top, gate, rfl⟩
    obtain ⟨sec, rfl, ⟨column, top, gate, hsec⟩, hsub⟩ := hmirrored.exists_section he
    refine Diagram.pairwise_standsLeft_iff hs hnodup (hsec ▸ hsub) fun b hb => ?_
    have hwithin := Element.isWithin_of_mem_nested (Element.mem_nested_of_mem_walkAll he hb)
    exact ⟨hwithin.exists_bounds hrules.placed, hwithin.arePlaced hrules.placed⟩

variable {source : String} {c : Chart} {ws : List Diagnostic}

/-- With exact lengths none of which is negative, the branches of the divergences of an accepted
chart stand in columns that do not overlap if and only if the branches of each of them fit side by
side. -/
theorem separatesColumns_iff_of_check (hcheck : check source = .ok (c, ws)) {s : Spacing ℚ}
    (hs : s.IsNonneg) : ∃ d, c.draw s = .ok d ∧
      (d.SeparatesColumns c ↔ ∀ e ∈ c.walk, Branch.FitSideBySide s e.branches) := by
  obtain ⟨d, hdraw, hshows⟩ := exists_draw_of_check hcheck s
  exact ⟨d, hdraw, separatesColumns_iff hs (followsRules_of_check hcheck)
    (nodup_transitions_of_check hcheck) hdraw hshows⟩

end Chart

/-- In the first of two branches, a section ends with a wide branch, which leans out of its column. -/
def leaning : String :=
  "Step 0 (Initial)\nDivergence OR\nBranch\nTransition a\nStep 1\nDivergence OR\nBranch\n" ++
    "Transition b\nBranch\nTransition c\nStep 2\nDivergence OR\nBranch\nTransition d\nBranch\n" ++
    "Transition e\nBranch\nTransition f\nBranch\nTransition g\nEndDivergence\nStep 3\n" ++
    "Transition h\nEndDivergence\nStep 4\nTransition i\nBranch\nTransition j\n" ++
    "EndDivergence\nStep 5"

namespace Chart

/-- Its branches do not fit side by side, and one is drawn over the other. -/
theorem exists_drawn_leaning : ∃ c d, check leaning = .ok (c, []) ∧
    compile {} leaning = .ok ⟨d, []⟩ ∧
    (¬ ∀ e ∈ c.walk, Branch.FitSideBySide .default e.branches) ∧ ¬ d.SeparatesColumns c := by
  obtain ⟨c, d, hcheck, hcompile, hd⟩ := exists_drawn_of_any leaning
    (fun c d => !decide (∀ e ∈ c.walk, Branch.FitSideBySide .default e.branches) &&
      !decide (d.SeparatesColumns c)) (by decide +kernel)
  exact ⟨c, d, hcheck, hcompile, by simpa using hd⟩

/-- With exact lengths they overlap as well. -/
theorem not_fitSideBySide_leaning : ∃ c ws d, check leaning = .ok (c, ws) ∧
    (Spacing.default : Spacing ℚ).IsNonneg ∧ c.draw (.default : Spacing ℚ) = .ok d ∧
    (¬ ∀ e ∈ c.walk, Branch.FitSideBySide .default e.branches) ∧ ¬ d.SeparatesColumns c := by
  obtain ⟨c, -, hcheck, -, hfit, -⟩ := exists_drawn_leaning
  obtain ⟨d, hdraw, hiff⟩ := separatesColumns_iff_of_check hcheck Spacing.isNonneg_default
  exact ⟨c, [], d, hcheck, Spacing.isNonneg_default, hdraw, hfit, hiff.not.2 hfit⟩

/-- The branches of an accepted chart can overlap in its diagram. -/
theorem not_separatesColumns_leaning : ∃ c d, check leaning = .ok (c, []) ∧
    compile {} leaning = .ok ⟨d, []⟩ ∧ ¬ d.SeparatesColumns c := by
  obtain ⟨c, d, hcheck, hcompile, -, hd⟩ := exists_drawn_leaning
  exact ⟨c, d, hcheck, hcompile, hd⟩

/-- The columns of an accepted chart do not overlap if all sections within branches are balanced. -/
theorem exists_separatesColumns_of_balanced (hcheck : check source = .ok (c, ws)) {s : Spacing ℚ}
    (hs : s.IsNonneg) (hspacing : 0 < s.branchSpacing)
    (hbalanced : ∀ e ∈ c.walk, ∀ b ∈ e.branches, ∀ e' ∈ Element.walkAll b.elements,
      Branch.AreBalanced s e'.branches) : ∃ d, c.draw s = .ok d ∧ d.SeparatesColumns c := by
  obtain ⟨d, hdraw, hshows⟩ := exists_draw_of_check hcheck s
  refine ⟨d, hdraw, (separatesColumns_iff hs (followsRules_of_check hcheck)
    (nodup_transitions_of_check hcheck) hdraw hshows).2 fun e he => ?_⟩
  refine List.isChain_iff_getElem.2 fun i hi => ?_
  have hright := Branch.overhang_nonpos hs .right
    (hbalanced e he _ (List.getElem_mem (Nat.lt_of_succ_lt hi)))
  have hleft := Branch.overhang_nonpos hs .left (hbalanced e he _ (List.getElem_mem hi))
  exact (add_nonpos hright hleft).trans_lt hspacing

end Chart

end SequentialChart
