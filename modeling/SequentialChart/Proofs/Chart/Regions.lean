import Mathlib
import SequentialChart.Proofs.Chart.Neighbourhoods

/-!
# What runs on its own

The branches of an AND divergence run side by side, those of an OR divergence instead of one
another. What runs on its own is a region: the root of the chart or a branch of an AND divergence,
together with the branches of the OR divergences in it. At any time a region is in one of its slots,
which are its steps and its AND divergences.

## Main definitions

* `Element.levelAll`, `Element.slots` — the elements of a region, and its slots.
* `Chart.regions`, `Chart.JumpsStay` — all regions; no jump leads out of its region.

## Main statements

* `Element.flatMap_slots` — every step within a sequence belongs to exactly one of its slots.
-/

namespace SequentialChart

mutual

/-- The element with the elements in its branches, if these are alternatives. -/
def Element.level : Element → List Element
  | .step s => [.step s]
  | .transition t => [.transition t]
  | .jump j => [.jump j]
  | .divergence .and branches span endSpan => [.divergence .and branches span endSpan]
  | .divergence .or branches span endSpan =>
    .divergence .or branches span endSpan :: Branch.levelAll branches

/-- The elements of a sequence with those in alternative branches. -/
def Element.levelAll : List Element → List Element
  | [] => []
  | e :: es => e.level ++ Element.levelAll es

/-- The elements of a branch with those in alternative branches. -/
def Branch.level : Branch → List Element
  | .mk elements _ => Element.levelAll elements

/-- The elements of branches with those in alternative branches. -/
def Branch.levelAll : List Branch → List Element
  | [] => []
  | b :: bs => b.level ++ Branch.levelAll bs

end

mutual

/-- The regions that begin within an element. -/
def Element.regions : Element → List (List Element)
  | .step _ => []
  | .transition _ => []
  | .jump _ => []
  | .divergence junction branches _ _ => Branch.regionsAll junction branches

/-- The regions that begin within a sequence. -/
def Element.regionsAll : List Element → List (List Element)
  | [] => []
  | e :: es => e.regions ++ Element.regionsAll es

/-- The region of a branch, if it runs beside others, and the regions that begin within it. -/
def Branch.regions (junction : Junction) : Branch → List (List Element)
  | .mk elements _ => match junction with
    | .and => Element.levelAll elements :: Element.regionsAll elements
    | .or => Element.regionsAll elements

/-- The same for several branches. -/
def Branch.regionsAll (junction : Junction) : List Branch → List (List Element)
  | [] => []
  | b :: bs => b.regions junction ++ Branch.regionsAll junction bs

end

/-- The jumps of a region lead to its own steps. -/
def Element.JumpsStay (region : List Element) : Prop :=
  ∀ n ∈ jumpTargets region, n ∈ stepNumbers region

instance (region : List Element) : Decidable (Element.JumpsStay region) :=
  inferInstanceAs (Decidable (∀ n ∈ Element.jumpTargets region, n ∈ Element.stepNumbers region))

namespace Chart

/-- The regions of the chart, the one around all others first. -/
def regions (c : Chart) : List (List Element) :=
  Element.levelAll c.elements :: Element.regionsAll c.elements

/-- Every jump leads to a step of its own region, that is, to one within the same branches of AND
divergences. -/
def JumpsStay (c : Chart) : Prop := ∀ region ∈ c.regions, Element.JumpsStay region

instance (c : Chart) : Decidable c.JumpsStay :=
  inferInstanceAs (Decidable (∀ region ∈ c.regions, Element.JumpsStay region))

end Chart

/-! ### Slots -/

namespace Element

/-- Whether a region can be in the element. -/
def isSlot : Element → Bool
  | step _ => true
  | divergence .and _ _ _ => true
  | _ => false

/-- What the region of a sequence can be in. -/
def slots (es : List Element) : List Element := (levelAll es).filter isSlot

/-- The steps within an element. -/
def steps (e : Element) : List NodeId := (stepNumbers e.walk).map .step

/-- The steps within a sequence. -/
def stepsAll (es : List Element) : List NodeId := (stepNumbers (walkAll es)).map .step

end Element

namespace Branch

def slots (b : Branch) : List Element := Element.slots b.elements

/-- The steps within a branch. -/
def steps (b : Branch) : List NodeId := Element.stepsAll b.elements

theorem level_eq (b : Branch) : b.level = Element.levelAll b.elements := by
  cases b
  rfl

theorem levelAll_eq (bs : List Branch) :
    levelAll bs = bs.flatMap fun b => Element.levelAll b.elements := by
  induction bs with
  | nil => rfl
  | cons b bs ih => rw [levelAll, level_eq, ih, List.flatMap_cons]

theorem filter_levelAll (bs : List Branch) :
    (levelAll bs).filter Element.isSlot = bs.flatMap slots := by
  rw [levelAll_eq, List.filter_flatMap]
  rfl

theorem walkBranches_eq (bs : List Branch) :
    walkBranches bs = bs.flatMap fun b => Element.walkAll b.elements := by
  induction bs with
  | nil => rfl
  | cons b bs ih =>
    obtain ⟨elements, span⟩ := b
    rw [walkBranches, walk, ih, List.flatMap_cons, elements_mk]

theorem mem_regionsAll {junction : Junction} {bs : List Branch} {region : List Element} :
    region ∈ regionsAll junction bs ↔ ∃ b ∈ bs,
      (junction = .and ∧ region = Element.levelAll b.elements) ∨
        region ∈ Element.regionsAll b.elements := by
  induction bs with
  | nil => simp [regionsAll]
  | cons b bs ih =>
    obtain ⟨elements, span⟩ := b
    cases junction <;> simp [regionsAll, regions, ih, or_assoc]

end Branch

namespace Element

variable {e : Element} {es : List Element}

@[simp] theorem slots_nil : slots [] = [] := rfl

@[simp] theorem slots_step (s : Step) : slots (.step s :: es) = .step s :: slots es := rfl

@[simp] theorem slots_transition (t : Transition) : slots (.transition t :: es) = slots es := rfl

@[simp] theorem slots_jump (j : Jump) : slots (.jump j :: es) = slots es := rfl

@[simp] theorem slots_and (bs : List Branch) (span endSpan : Span) :
    slots (.divergence .and bs span endSpan :: es) =
      .divergence .and bs span endSpan :: slots es := rfl

@[simp] theorem slots_or (bs : List Branch) (span endSpan : Span) :
    slots (.divergence .or bs span endSpan :: es) = bs.flatMap Branch.slots ++ slots es := by
  rw [← Branch.filter_levelAll, slots, levelAll, List.filter_append]
  rfl

theorem slots_cons (e : Element) (es : List Element) : slots (e :: es) = slots [e] ++ slots es := by
  simp [slots, levelAll]

theorem mem_slots_iff {a : Element} : a ∈ slots es ↔ a ∈ levelAll es ∧ a.isSlot :=
  List.mem_filter

@[simp] theorem steps_step (s : Step) : steps (.step s) = [.step s.number] := rfl

@[simp] theorem steps_transition (t : Transition) : steps (.transition t) = [] := rfl

@[simp] theorem steps_jump (j : Jump) : steps (.jump j) = [] := rfl

theorem steps_divergence (junction : Junction) (bs : List Branch) (span endSpan : Span) :
    steps (.divergence junction bs span endSpan) = bs.flatMap Branch.steps := by
  have hwalk : stepNumbers (divergence junction bs span endSpan).walk =
      stepNumbers (Branch.walkBranches bs) := rfl
  rw [steps, hwalk, Branch.walkBranches_eq]
  induction bs with
  | nil => rfl
  | cons b bs ih =>
    rw [List.flatMap_cons, stepNumbers_append, List.map_append, List.flatMap_cons]
    exact congrArg _ (ih rfl)

@[simp] theorem stepsAll_nil : stepsAll [] = [] := rfl

theorem stepsAll_cons (e : Element) (es : List Element) :
    stepsAll (e :: es) = e.steps ++ stepsAll es := by
  rw [stepsAll, walkAll, stepNumbers_append, List.map_append]
  rfl

theorem stepsAll_eq (es : List Element) : stepsAll es = es.flatMap steps := by
  induction es with
  | nil => rfl
  | cons e es ih => rw [stepsAll_cons, ih, List.flatMap_cons]

/-- Every step within a sequence belongs to exactly one of its slots. -/
theorem flatMap_slots (es : List Element) : (slots es).flatMap steps = stepsAll es := by
  induction es using sequence_induction with
  | nil => rfl
  | step s es ih => rw [slots_step, List.flatMap_cons, ih, stepsAll_cons]
  | transition t es ih => rw [slots_transition, ih, stepsAll_cons]; rfl
  | jump j es ih => rw [slots_jump, ih, stepsAll_cons]; rfl
  | divergence junction bs span endSpan es hbs ih =>
    cases junction with
    | and => rw [slots_and, List.flatMap_cons, ih, stepsAll_cons]
    | or =>
      have hbranches : (bs.flatMap Branch.slots).flatMap steps = bs.flatMap Branch.steps := by
        rw [List.flatMap_assoc]
        exact List.flatMap_congr fun b hb => hbs b hb
      rw [slots_or, List.flatMap_append, hbranches, ih, stepsAll_cons, steps_divergence]

theorem mem_stepsAll_iff {x : NodeId} : x ∈ stepsAll es ↔ ∃ a ∈ slots es, x ∈ a.steps := by
  rw [← flatMap_slots, List.mem_flatMap]

end Element

end SequentialChart
