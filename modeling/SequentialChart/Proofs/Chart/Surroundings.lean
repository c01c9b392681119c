import Mathlib
import SequentialChart.Proofs.Chart.Moves

/-!
# What stands around transitions

A transition leaves a slot of its region and enters one, or none at the end of the chart. This
follows from what may stand around it when there are not even warnings: the transitions that begin
the branches of an OR divergence leave the step before the divergence, those that end them enter the
step behind it.

## Main definitions

* `Chart.joins` — the AND divergences with the transitions that follow them.
* `Element.Surrounds` — what stands around a sequence in its region.

## Main statements

* `Chart.transfers` — what a transition leaves and enters.
* `Chart.exists_join` — the transition that follows an AND divergence empties it.
-/

namespace SequentialChart

mutual

/-- The AND divergences within an element that transitions follow; `rest` follow the element. -/
def Element.joins (rest : List Element) : Element → List (List Branch × Transition)
  | .step _ => []
  | .transition _ => []
  | .jump _ => []
  | .divergence .and branches _ _ =>
    (rest.head?.bind Element.transition?).toList.map (branches, ·) ++ Branch.joinsAll branches
  | .divergence .or branches _ _ => Branch.joinsAll branches

/-- The AND divergences within a sequence that transitions follow. -/
def Element.joinsAll : List Element → List (List Branch × Transition)
  | [] => []
  | e :: es => e.joins es ++ Element.joinsAll es

/-- The AND divergences within a branch that transitions follow. -/
def Branch.joins : Branch → List (List Branch × Transition)
  | .mk elements _ => Element.joinsAll elements

/-- The AND divergences within branches that transitions follow. -/
def Branch.joinsAll : List Branch → List (List Branch × Transition)
  | [] => []
  | b :: bs => b.joins ++ Branch.joinsAll bs

end

/-- The branches of the AND divergences of a chart that transitions follow, with the transitions. -/
def Chart.joins (c : Chart) : List (List Branch × Transition) := Element.joinsAll c.elements

theorem Branch.mem_joinsAll {bs : List Branch} {p : List Branch × Transition} :
    p ∈ joinsAll bs ↔ ∃ b ∈ bs, p ∈ Element.joinsAll b.elements := by
  induction bs with
  | nil => simp [joinsAll]
  | cons b bs ih =>
    obtain ⟨elements, span⟩ := b
    simp [joinsAll, joins, ih]

namespace Element

/-- Whether what stands before the element is left through it. -/
def departs : Element → Bool
  | transition _ => true
  | divergence .or _ _ _ => true
  | _ => false

/-- What is known about a sequence behind `previous` on the level of the region `S`, between the
steps `before` and `after`. Only at the end of the chart, that is in the outermost region, can there
be no step after it. -/
structure Surrounds (S : List Element) (outermost : Prop) (before after : List NodeId)
    (previous : Option Element) (es : List Element) : Prop where
  region : IsRegion S
  jumps : JumpsStay (levelAll S)
  placed : ArePlaced true previous es
  nodup : (stepsAll es).Nodup
  level : levelAll es ⊆ levelAll S
  inner : ∀ r ∈ regionsAll es, JumpsStay r
  /-- A slot stands before the sequence, unless the sequence begins with one. -/
  leaves : ∀ e ∈ es.head?, e.departs → Leaves S (stepsBehind before previous)
  /-- A step stands after the sequence, unless the sequence ends with one. -/
  enters : ∀ e ∈ es.getLast?, ¬ e.isStep →
    (∃ s, step s ∈ levelAll S ∧ after = [.step s.number]) ∨ outermost ∧ after = []

theorem stepsBehind_some (before : List NodeId) (e : Element) :
    stepsBehind before (some e) = e.lasts := by
  match e with
  | .step _ | .transition _ | .jump _ | .divergence .and _ _ _ | .divergence .or _ _ _ => rfl

/-- What stands before something that departs is a slot or nothing. -/
theorem ArePlaced.isSlot_of_departs {previous : Option Element} {e f : Element}
    {es : List Element} (h : ArePlaced true previous (e :: f :: es)) (hf : f.departs) :
    e.isSlot := by
  obtain ⟨-, hplaced, hjump, hnext, -⟩ := h
  match e, f with
  | .step _, _ | .divergence .and _ _ _, _ => rfl
  | .jump _, _ => exact absurd rfl hjump
  | .transition _, .transition _ => exact absurd rfl (hnext rfl)
  | .transition _, .divergence .or _ _ _ => cases hnext.1
  | .divergence .or _ _ _, .transition _ => exact absurd rfl (hplaced.2.1 rfl)
  | .divergence .or _ _ _, .divergence .or _ _ _ => cases hnext.1
  | _, .step _ | _, .jump _ | _, .divergence .and _ _ _ => cases hf

/-- Nothing is passed behind an OR divergence. -/
theorem ArePlaced.continuation_eq {previous : Option Element} {bs : List Branch}
    {span endSpan : Span} {es : List Element} {after : List NodeId}
    (h : ArePlaced true previous (.divergence .or bs span endSpan :: es)) :
    continuation after es = stepsAhead after es := by
  unfold continuation
  split
  · exact absurd (h.isSlot_of_departs rfl) nofun
  · rfl

theorem slot_not_departs {e : Element} (h : e.isSlot) : ¬ e.departs := by
  match e with
  | .step _ | .divergence .and _ _ _ => nofun
  | .transition _ | .jump _ | .divergence .or _ _ _ => cases h

namespace Surrounds

variable {S : List Element} {outermost : Prop} {before after : List NodeId}
  {previous : Option Element} {e : Element} {es : List Element}

theorem mem_slots (h : Surrounds S outermost before after previous (e :: es)) (he : e.isSlot) :
    e ∈ slots S :=
  mem_slots_iff.2 ⟨h.level (mem_levelAll_of_mem List.mem_cons_self), he⟩

theorem tail (h : Surrounds S outermost before after previous (e :: es)) :
    Surrounds S outermost before after (some e) es where
  region := h.region
  jumps := h.jumps
  placed := h.placed.tail
  nodup := (List.nodup_append'.1 (stepsAll_cons e es ▸ h.nodup)).2.1
  level := fun a ha => h.level (List.mem_append_right _ ha)
  inner := fun r hr => h.inner r (List.mem_append_right _ hr)
  leaves f hf hdeparts := by
    obtain ⟨rest, rfl⟩ : ∃ rest, es = f :: rest := List.head?_eq_some_iff.1 hf
    exact ⟨e, h.mem_slots (h.placed.isSlot_of_departs hdeparts), stepsBehind_some before e⟩
  enters f hf := h.enters f (by
    cases es with
    | nil => cases hf
    | cons g es => simpa using hf)

/-- Behind something that departs stands a step, or an AND divergence behind a transition, or
nothing at the end of the chart. -/
theorem ahead (h : Surrounds S outermost before after previous (e :: es)) (he : e.departs) :
    (∃ s, step s ∈ levelAll S ∧ stepsAhead after es = [.step s.number]) ∨
      (∃ bs span endSpan rest, e.isTransition ∧ es = .divergence .and bs span endSpan :: rest) ∨
        outermost ∧ stepsAhead after es = [] := by
  match es with
  | [] =>
    have hstep : ¬ e.isStep := by cases e <;> simp_all [departs, isStep]
    exact (h.enters e rfl hstep).imp_right .inr
  | .step s :: es => exact .inl ⟨s, h.tail.level (mem_levelAll_of_mem List.mem_cons_self), rfl⟩
  | .jump j :: es =>
    have hj : jump j ∈ levelAll S := h.tail.level (mem_levelAll_of_mem List.mem_cons_self)
    have htarget : j.target ∈ jumpTargets (levelAll S) :=
      List.mem_map_of_mem (List.mem_filterMap.2 ⟨_, hj, rfl⟩)
    obtain ⟨s, hs, hnumber⟩ := mem_stepNumbers_iff.1 (h.jumps _ htarget)
    exact .inl ⟨s, hs, by rw [hnumber]; rfl⟩
  | .divergence .and bs span endSpan :: es =>
    exact .inr (.inl ⟨bs, span, endSpan, es, h.placed.tail.2.1.1, rfl⟩)
  | .transition t :: es =>
    exact absurd he (slot_not_departs (h.placed.isSlot_of_departs rfl))
  | .divergence .or _ _ _ :: es =>
    exact absurd he (slot_not_departs (h.placed.isSlot_of_departs rfl))

section Branches

variable {bs : List Branch} {span endSpan : Span} {b : Branch}

theorem nodup_branch {junction : Junction}
    (h : Surrounds S outermost before after previous (.divergence junction bs span endSpan :: es))
    (hb : b ∈ bs) : (stepsAll b.elements).Nodup := by
  have hnodup := (List.nodup_append'.1 (stepsAll_cons _ es ▸ h.nodup)).1
  rw [steps_divergence] at hnodup
  exact (List.nodup_flatMap.1 hnodup).1 b hb

theorem inner_branch {junction : Junction}
    (h : Surrounds S outermost before after previous (.divergence junction bs span endSpan :: es))
    (hb : b ∈ bs) : ∀ r ∈ regionsAll b.elements, JumpsStay r := fun r hr =>
  h.inner r (List.mem_append_left _ (Branch.mem_regionsAll.2 ⟨b, hb, .inr hr⟩))

/-- A branch of an AND divergence is a region of its own. -/
theorem and_branch
    (h : Surrounds S outermost before after previous (.divergence .and bs span endSpan :: es))
    (hb : b ∈ bs) : Surrounds b.elements False [] [] none b.elements where
  region := ⟨(h.placed.branch hb).2, h.nodup_branch hb⟩
  jumps := h.inner _ (List.mem_append_left _ (Branch.mem_regionsAll.2 ⟨b, hb, .inl ⟨rfl, rfl⟩⟩))
  placed := (h.placed.branch hb).2
  nodup := h.nodup_branch hb
  level := List.Subset.refl _
  inner := h.inner_branch hb
  leaves e he hdeparts := by
    obtain ⟨s, hs⟩ := (h.placed.branch hb).1.exists_first
    obtain rfl : step s = e := by simpa [hs] using he
    cases hdeparts
  enters e he hstep := by
    obtain ⟨s, hs⟩ := (h.placed.branch hb).1.exists_last
    obtain rfl : step s = e := by simpa [hs] using he
    exact absurd rfl hstep

/-- A branch of an OR divergence stands between the same steps as the divergence. -/
theorem or_branch
    (h : Surrounds S outermost before after previous (.divergence .or bs span endSpan :: es))
    (hb : b ∈ bs) : Surrounds S outermost (stepsBehind before previous) (continuation after es)
      none b.elements where
  region := h.region
  jumps := h.jumps
  placed := (h.placed.branch hb).2
  nodup := h.nodup_branch hb
  level a ha := h.level (List.mem_append_left _ (List.mem_cons_of_mem _ (by
    rw [Branch.levelAll_eq]
    exact List.mem_flatMap.2 ⟨b, hb, ha⟩)))
  inner := h.inner_branch hb
  leaves _ _ _ := h.leaves _ rfl rfl
  enters _ _ _ := by
    rw [h.placed.continuation_eq]
    rcases h.ahead rfl with hstep | ⟨bs, span, endSpan, rest, htransition, -⟩ | hend
    · exact .inl hstep
    · cases htransition
    · exact .inr hend

end Branches

/-- A transition leaves the end of a slot and, except at the end of the chart, enters the beginning
of a slot of the same region. -/
theorem moves (h : Surrounds S outermost before after previous es) {n : Neighbourhood}
    (hn : n ∈ neighbourhoodsAll before after previous es) :
    Moves S n.predecessors n.successors ∨
      outermost ∧ n.successors = [] ∧ Leaves S n.predecessors := by
  induction es using sequence_induction generalizing S outermost before after previous with
  | nil => cases hn
  | step s es ih => exact ih h.tail hn
  | transition t es ih =>
    rcases List.mem_cons.1 hn with rfl | hn
    · obtain ⟨a, ha, hbehind⟩ := h.leaves _ rfl rfl
      dsimp only
      rw [hbehind]
      rcases h.ahead rfl with ⟨s, hs, hahead⟩ | ⟨bs, span, endSpan, rest, -, rfl⟩ |
        ⟨hend, hahead⟩
      · rw [hahead]
        exact .inl (.along ha (mem_slots_iff.2 ⟨hs, rfl⟩))
      · exact .inl (.along ha (h.tail.mem_slots rfl))
      · exact .inr ⟨hend, hahead, a, ha, rfl⟩
    · exact ih h.tail hn
  | jump j es ih => exact ih h.tail hn
  | divergence junction bs span endSpan es hbs ih =>
    rcases List.mem_append.1 hn with hn | hn
    · -- a branch of an AND divergence is a region of its own, one of an OR divergence is not
      cases junction with
      | and =>
        obtain ⟨b, hb, hn⟩ := Branch.mem_neighbourhoodsAll.1 hn
        rcases hbs b hb (h.and_branch hb) hn with hmoves | ⟨hfalse, -⟩
        · exact .inl (.within (h.mem_slots rfl) hb hmoves)
        · cases hfalse
      | or =>
        obtain ⟨b, hb, hn⟩ := Branch.mem_neighbourhoodsAll.1 hn
        exact hbs b hb (h.or_branch hb) hn
    · exact ih h.tail hn

/-- What a transition directly behind an AND divergence enters is not in the divergence. -/
theorem not_mem_of_join {bs : List Branch} {span endSpan : Span} {t : Transition}
    (h : Surrounds S outermost before after previous
      (.divergence .and bs span endSpan :: .transition t :: es))
    {x : NodeId} (hx : x ∈ stepsAhead after es) : x ∉ bs.flatMap Branch.steps := by
  rw [← steps_divergence .and bs span endSpan]
  intro hjoin
  rcases h.tail.ahead rfl with ⟨s, hs, hahead⟩ | ⟨bs', span', endSpan', rest, -, rfl⟩ |
    ⟨-, hahead⟩
  · obtain rfl : x = .step s.number := by simpa [hahead] using hx
    cases h.region.eq_of_mem_steps (h.mem_slots rfl) (mem_slots_iff.2 ⟨hs, rfl⟩) hjoin (by simp)
  · have hdisjoint := (List.nodup_append'.1 (stepsAll_cons _ _ ▸ h.nodup)).2.2
    refine hdisjoint hjoin ?_
    rw [stepsAll_eq]
    exact List.mem_flatMap.2 ⟨_, by simp, firsts_subset (.divergence .and bs' span' endSpan') hx⟩
  · simp [hahead] at hx

/-- After the transition that follows an AND divergence, no step in the divergence is active. -/
theorem exists_join (h : Surrounds S outermost before after previous es) {bs : List Branch}
    {t : Transition} (ht : (bs, t) ∈ joinsAll es) :
    ∃ n ∈ neighbourhoodsAll before after previous es, n.transition = .transition t.number ∧
      ∀ A, IsSound A (slots S) → (∀ x ∈ n.predecessors, x ∈ A) →
        ∀ x ∈ bs.flatMap Branch.steps, x ∉ move A n.predecessors n.successors := by
  induction es using sequence_induction generalizing S outermost before after previous with
  | nil => cases ht
  | step s es ih => exact ih h.tail ht
  | transition t' es ih =>
    obtain ⟨n, hn, hout⟩ := ih h.tail ht
    exact ⟨n, List.mem_cons_of_mem _ hn, hout⟩
  | jump j es ih => exact ih h.tail ht
  | divergence junction bs' span endSpan es hbs ih =>
    rcases List.mem_append.1 ht with ht | ht
    · cases junction with
      | and =>
        have hslot := h.mem_slots rfl
        rcases List.mem_append.1 ht with ht | ht
        · obtain ⟨t', ht', heq⟩ := List.mem_map.1 ht
          obtain ⟨rfl, rfl⟩ := Prod.mk.inj heq
          match es, ht' with
          | .transition t :: es, ht' =>
            obtain rfl : t' = t := by simpa [transition?] using ht'
            refine ⟨⟨_, _, stepsAhead after es⟩, List.mem_append_right _ List.mem_cons_self,
              rfl, ?_⟩
            rintro A hA hlasts x hx (⟨hxA, hnot⟩ | hentered)
            · have hleaves : Transfers S (Branch.lastSteps bs') [] := .inr ⟨rfl, _, hslot, rfl⟩
              have hfilled := hleaves.isFilled h.region hA hlasts
              refine hnot (h.region.mem_lasts_of_isFilled hslot hfilled hlasts ?_ hxA)
              rw [← steps_divergence .and bs' span endSpan] at hx
              exact mem_stepsAll_iff.2 ⟨_, hslot, hx⟩
            · exact h.not_mem_of_join hentered hx
        · obtain ⟨b, hb, ht⟩ := Branch.mem_joinsAll.1 ht
          obtain ⟨n, hn, htransition, hout⟩ := hbs b hb (h.and_branch hb) ht
          exact ⟨n, List.mem_append_left _ (Branch.mem_neighbourhoodsAll.2 ⟨b, hb, hn⟩),
            htransition, fun A hA => hout A ((hA.of_mem hslot).branch hb)⟩
      | or =>
        obtain ⟨b, hb, ht⟩ := Branch.mem_joinsAll.1 ht
        obtain ⟨n, hn, hout⟩ := hbs b hb (h.or_branch hb) ht
        exact ⟨n, List.mem_append_left _ (Branch.mem_neighbourhoodsAll.2 ⟨b, hb, hn⟩), hout⟩
    · obtain ⟨n, hn, hout⟩ := ih h.tail ht
      exact ⟨n, List.mem_append_right _ hn, hout⟩

end Surrounds

end Element

namespace Chart

variable {c : Chart}

theorem isRegion (h : c.FollowsRules true) : Element.IsRegion c.elements where
  placed := h.placed
  nodup := h.nodup_steps.map fun _ _ => NodeId.step.inj

/-- Nothing stands around the root of a chart. -/
theorem surrounds (h : c.FollowsRules true) (hjumps : c.JumpsStay) :
    Element.Surrounds c.elements True [] [] none c.elements where
  region := isRegion h
  jumps := hjumps _ List.mem_cons_self
  placed := h.placed
  nodup := (isRegion h).nodup
  level := List.Subset.refl _
  inner := fun r hr => hjumps r (List.mem_cons_of_mem _ hr)
  leaves e he hdeparts := by
    have hstep := h.starts e he
    cases e <;> simp [Element.isStep, Element.departs] at hstep hdeparts
  enters _ _ _ := .inr ⟨trivial, rfl⟩

/-- A transition leaves the end of a slot and enters the beginning of one of the same region, or
none at the end of the chart. -/
theorem transfers (h : c.FollowsRules true) (hjumps : c.JumpsStay) {n : Neighbourhood}
    (hn : n ∈ c.neighbourhoods) :
    Element.Transfers c.elements n.predecessors n.successors := by
  rcases (surrounds h hjumps).moves hn with hmoves | ⟨-, hnil, hleaves⟩
  · exact .inl hmoves
  · exact .inr ⟨hnil, hleaves⟩

/-- After the transition that follows an AND divergence, no step in the divergence is active. -/
theorem exists_join (h : c.FollowsRules true) (hjumps : c.JumpsStay) {bs : List Branch}
    {t : Transition} (ht : (bs, t) ∈ c.joins) :
    ∃ n ∈ c.neighbourhoods, n.transition = .transition t.number ∧
      ∀ A, Element.IsSound A (Element.slots c.elements) → (∀ x ∈ n.predecessors, x ∈ A) →
        ∀ x ∈ bs.flatMap Branch.steps, x ∉ move A n.predecessors n.successors :=
  (surrounds h hjumps).exists_join ht

end Chart

end SequentialChart
