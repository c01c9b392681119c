import Mathlib
import SequentialChart.Compile
import SequentialChart.Proofs.Chart.Neighbourhoods
import SequentialChart.Proofs.Chart.Numbers
import SequentialChart.Proofs.Diagram.Region

/-!
# The steps around a transition, in the chart and in its diagram

In a diagram, the steps around a transition are found by following connections through gates. They
are those that can be read off the chart. The proof goes down the chart along regions of the
diagram: it assumes for what stands around a sequence that the ways out of it lead to the right
steps, and shows it for what stands around the sequences within.

## Main definitions

* `Diagram.MeetsStep` — the steps that ways from some nodes lead to.
* `Diagram.IsMet` — the steps around a transition are those that the ways from it lead to.

## Main statements

* `Element.isMet_of_mem_neighbourhoodsAll` — the step of the induction.
* `Diagram.Shows.map_transitions` — the steps around all transitions of a diagram.
-/

namespace SequentialChart

variable {α : Type} {d : Diagram α} {direction : Direction}

/-! ### Ways to steps -/

namespace Diagram

/-- Some way from one of the nodes leads to the step with the number `n`; `behind` tells whether the
nodes stand right behind a gate. -/
def MeetsStep (d : Diagram α) (direction : Direction) (behind : Bool) (nodes : List NodeId)
    (n : Nat) : Prop :=
  ∃ v ∈ nodes, d.Meets direction (v, behind) (.step n)

theorem not_meetsStep_nil {behind : Bool} {n : Nat} : ¬ d.MeetsStep direction behind [] n :=
  nofun

theorem meetsStep_congr {behind : Bool} {vs ws : List NodeId} {n : Nat}
    (h : ∀ v, v ∈ vs ↔ v ∈ ws) :
    d.MeetsStep direction behind vs n ↔ d.MeetsStep direction behind ws n := by
  simp only [MeetsStep, h]

theorem meets_iff {v : Visit} {x : NodeId} :
    d.Meets direction v x ↔ x = v.1 ∨ ∃ w ∈ d.beyond direction v, d.Meets direction w x := by
  constructor
  · intro h
    cases h with
    | here => exact .inl rfl
    | beyond hw hm => exact .inr ⟨_, hw, hm⟩
  · rintro (rfl | ⟨w, hw, hm⟩)
    · exact .here v
    · exact .beyond hw hm

theorem id_of_node? {id : NodeId} {n : Node α} (h : d.node? id = some n) : n.id = id :=
  (mem_nodes_of_node? h).2

/-- Ways end at steps. -/
theorem beyond_stepId (k : Nat) (behind : Bool) : d.beyond direction (.step k, behind) = [] := by
  match h : d.node? (.step k) with
  | none => simp [beyond, h]
  | some (.step s) => exact beyond_step h behind
  | some (.transition t) => cases id_of_node? h
  | some (.gate g) => cases id_of_node? h

theorem meets_step_iff {k n : Nat} {behind : Bool} :
    d.Meets direction (.step k, behind) (.step n) ↔ n = k := by
  rw [meets_iff, beyond_stepId]
  simp

/-- Only behind a gate and only on the way forward a transition is passed. -/
theorem beyond_transitionId (k : Nat) {behind : Bool}
    (h : (behind && direction = .forward) = false) :
    d.beyond direction (.transition k, behind) = [] := by
  match hn : d.node? (.transition k) with
  | none => simp [beyond, hn]
  | some (.step s) => cases id_of_node? hn
  | some (.transition t) => rw [beyond_transition hn, h]; rfl
  | some (.gate g) => cases id_of_node? hn

theorem not_meets_transition {k n : Nat} {behind : Bool}
    (h : (behind && direction = .forward) = false) :
    ¬ d.Meets direction (.transition k, behind) (.step n) := by
  rw [meets_iff, beyond_transitionId k h]
  simp

theorem meets_transition_iff {k n : Nat} (h : ∃ x, d.node? (.transition k) = some x) :
    d.Meets .forward (.transition k, true) (.step n) ↔
      d.MeetsStep .forward false (d.neighbours .forward (.transition k)) n := by
  have hbeyond : d.beyond .forward (.transition k, true) =
      (d.neighbours .forward (.transition k)).map (·, false) := by
    match h with
    | ⟨.transition t, hn⟩ => exact beyond_transition hn true
    | ⟨.step s, hn⟩ => cases id_of_node? hn
    | ⟨.gate g, hn⟩ => cases id_of_node? hn
  rw [meets_iff, hbeyond]
  simp [MeetsStep]

theorem meets_gate_iff {i n : Nat} {behind : Bool} (h : ∃ x, d.node? (.gate i) = some x) :
    d.Meets direction (.gate i, behind) (.step n) ↔
      d.MeetsStep direction true (d.neighbours direction (.gate i)) n := by
  have hbeyond : d.beyond direction (.gate i, behind) =
      (d.neighbours direction (.gate i)).map (·, true) := by
    match h with
    | ⟨.gate g, hn⟩ => exact beyond_gate hn behind
    | ⟨.step s, hn⟩ => cases id_of_node? hn
    | ⟨.transition t, hn⟩ => cases id_of_node? hn
  rw [meets_iff, hbeyond]
  simp [MeetsStep]

theorem meetsStep_singleton {behind : Bool} {v : NodeId} {n : Nat} :
    d.MeetsStep direction behind [v] n ↔ d.Meets direction (v, behind) (.step n) := by
  simp [MeetsStep]

/-- From steps no way leads on. -/
theorem meetsStep_steps {behind : Bool} (numbers : List Nat) {n : Nat} :
    d.MeetsStep direction behind (numbers.map .step) n ↔ NodeId.step n ∈ numbers.map .step := by
  simp [MeetsStep, meets_step_iff]

theorem not_meetsStep_transitions {behind : Bool} (h : (behind && direction = .forward) = false)
    {vs : List NodeId} (hvs : ∀ v ∈ vs, ∃ k, v = .transition k) (n : Nat) :
    ¬ d.MeetsStep direction behind vs n := by
  rintro ⟨v, hv, hm⟩
  obtain ⟨k, rfl⟩ := hvs v hv
  exact not_meets_transition h hm

/-- The steps around a transition are those that the ways from it lead to. -/
def IsMet (d : Diagram α) (n : Neighbourhood) : Prop :=
  (∀ k, d.MeetsStep .backward false (d.neighbours .backward n.transition) k ↔
    .step k ∈ n.predecessors) ∧
  ∀ k, d.MeetsStep .forward false (d.neighbours .forward n.transition) k ↔
    .step k ∈ n.successors

end Diagram

/-! ### Both ends of a sequence -/

namespace Element

/-- The exits of a sequence are those of its last element. -/
theorem exits_outlineAll {es : List Element} {e : Element} (h : es.getLast? = some e)
    (above : List NodeId) (gate : Nat) : ∃ above' gate',
      (outlineAll above gate es).exits = (e.outline above' gate').exits := by
  induction es generalizing above gate with
  | nil => cases h
  | cons e' es ih =>
    cases es with
    | nil =>
      obtain rfl : e' = e := by simpa using h
      exact ⟨above, gate, congrArg Outline.exits (outlineAll_singleton e')⟩
    | cons e'' es => exact ih (by simpa using h) _ _

end Element

namespace Branch

theorem entries_outlineAll (opening : NodeId) {bs : List Branch}
    (h : ∀ b ∈ bs, Junction.and.Bounds b.elements) (gate : Nat) :
    (outlineAll opening gate bs).entries = firstSteps bs := by
  induction bs generalizing gate with
  | nil => rfl
  | cons b bs ih =>
    obtain ⟨elements, span⟩ := b
    match elements, (h (.mk elements span) (by simp)).1 with
    | .step s :: es, _ =>
      exact congrArg (NodeId.step s.number :: ·) (ih (fun b hb => h b (by simp [hb])) _)

theorem exits_outlineAll_and {opening : NodeId} {bs : List Branch}
    (h : ∀ b ∈ bs, Junction.and.Bounds b.elements) (gate : Nat) :
    (outlineAll opening gate bs).exits = lastSteps bs := by
  induction bs generalizing gate with
  | nil => rfl
  | cons b bs ih =>
    match hb : b.elements.getLast?, (h b (by simp)).2 with
    | some (.step s), _ =>
      obtain ⟨above', gate', hexits⟩ := Element.exits_outlineAll hb [opening] gate
      have hsteps : lastSteps (b :: bs) = .step s.number :: lastSteps bs := by
        simp [lastSteps, lasts, hb, Element.stepNumbers, Element.step?]
      rw [outlineAll, Outline.beside, ih fun b hb => h b (by simp [hb]), hsteps, outline_eq, hexits]
      rfl

/-- Only transitions lead out of the branches of an OR divergence. -/
theorem exits_outlineAll_or {opening : NodeId} {bs : List Branch}
    (h : ∀ b ∈ bs, Junction.or.Bounds b.elements) (gate : Nat) :
    ∀ v ∈ (outlineAll opening gate bs).exits, ∃ k, v = .transition k := by
  induction bs generalizing gate with
  | nil => nofun
  | cons b bs ih =>
    intro v hv
    rcases List.mem_append.1 hv with hv | hv
    · have hlast : ∃ e, b.elements.getLast? = some e ∧ (e.isTransition ∨ e.isJump) := by
        rcases (h b (by simp)).2 with hl | ⟨hl, -⟩
        · obtain ⟨e, he, hkind⟩ := (Option.any_eq_true _ _).1 hl
          exact ⟨e, he, .inl hkind⟩
        · obtain ⟨e, he, hkind⟩ := (Option.any_eq_true _ _).1 hl
          exact ⟨e, he, .inr hkind⟩
      obtain ⟨e, he, hkind⟩ := hlast
      obtain ⟨above', gate', hexits⟩ := Element.exits_outlineAll he [opening] gate
      rw [outline_eq, hexits] at hv
      match e, hkind with
      | .transition t, _ => exact ⟨t.number, List.mem_singleton.1 hv⟩
      | .jump j, _ => cases hv
    · exact ih (fun b hb => h b (by simp [hb])) _ v hv

end Branch

/-! ### Going down the chart -/

namespace Element

variable {strict : Bool} {previous : Option Element} {above below before after : List NodeId}
  {gate : Nat} {e : Element} {es : List Element}

/-- What a sequence may assume about the nodes below it: behind a last transition, the ways lead to
the steps `after`; nothing stands below a divergence at the end of the chart. -/
def Continues (d : Diagram α) (below after : List NodeId) (es : List Element) : Prop :=
  match es.getLast? with
  | some (.transition _) => ∀ n, d.MeetsStep .forward false below n ↔ .step n ∈ after
  | some (.divergence ..) => below = [] ∧ after = []
  | _ => True

theorem Continues.tail (h : Continues d below after (e :: es)) : Continues d below after es := by
  cases es with
  | nil => trivial
  | cons e' es => exact h

theorem continues_of_and (h : Junction.and.Bounds es) : Continues d below after es := by
  obtain ⟨e, he, hstep⟩ := (Option.any_eq_true _ _).1 h.2
  unfold Continues
  rw [he]
  match e, hstep with
  | .step s, _ => trivial

theorem continues_of_or (h : Junction.or.Bounds es)
    (hafter : ∀ n, d.MeetsStep .forward false below n ↔ .step n ∈ after) :
    Continues d below after es := by
  unfold Continues
  rcases h.2 with hlast | ⟨hlast, -⟩
  · obtain ⟨e, he, htransition⟩ := (Option.any_eq_true _ _).1 hlast
    rw [he]
    match e, htransition with
    | .transition t, _ => exact hafter
  · obtain ⟨e, he, hjump⟩ := (Option.any_eq_true _ _).1 hlast
    rw [he]
    match e, hjump with
    | .jump j, _ => trivial

/-- The ways from a transition lead to the steps ahead of it. -/
theorem meetsStep_entriesOr (h : d.Embeds (outlineAll above gate es) above below)
    (hplaced : ArePlaced strict previous es) (hprevious : previous.any isTransition)
    (hend : es = [] → ∀ n, d.MeetsStep .forward false below n ↔ .step n ∈ after) (n : Nat) :
    d.MeetsStep .forward false (entriesOr below gate es) n ↔ .step n ∈ stepsAhead after es := by
  match es with
  | [] => exact hend rfl n
  | .step s :: es => exact Diagram.meetsStep_steps [s.number]
  | .transition t :: es =>
    exact iff_of_false (Diagram.not_meetsStep_transitions rfl
      (fun v hv => ⟨t.number, List.mem_singleton.1 hv⟩) n) nofun
  | .jump j :: es => exact Diagram.meetsStep_steps [j.target]
  | .divergence .and bs span endSpan :: es =>
    obtain ⟨hopening, -, -⟩ := (h.head hplaced).divergence hplaced
    have hentries := Branch.entries_outlineAll (.gate gate)
      (fun b hb => (hplaced.branch hb).1) (gate + 1)
    rw [hentries] at hopening
    refine Diagram.meetsStep_singleton.trans ?_
    rw [entry, Diagram.meets_gate_iff (hopening.drawn _ (by simp [Outline.node])),
      Diagram.meetsStep_congr hopening.mem_forward_node]
    exact Diagram.meetsStep_steps _
  | .divergence .or bs span endSpan :: es =>
    have hstep : previous.any isStep := hplaced.2.1.1
    cases previous with
    | none => cases hstep
    | some p => cases p <;> simp [isStep, isTransition] at hstep hprevious

/-- The ways from the end of an OR divergence lead to the steps behind it. -/
theorem meetsStep_continuation {bs : List Branch} {span endSpan : Span}
    (h : d.Embeds (outlineAll above gate es) above below)
    (hplaced : ArePlaced strict (some (.divergence .or bs span endSpan)) es)
    (hend : Continues d below after (.divergence .or bs span endSpan :: es)) (n : Nat) :
    d.MeetsStep .forward true (entriesOr below gate es) n ↔ .step n ∈ continuation after es := by
  match es with
  | [] =>
    obtain ⟨rfl, rfl⟩ := hend
    exact iff_of_false Diagram.not_meetsStep_nil nofun
  | .step s :: es => exact Diagram.meetsStep_steps [s.number]
  | .jump j :: es => exact Diagram.meetsStep_steps [j.target]
  | .transition t :: es =>
    have ht := h.head hplaced
    refine Diagram.meetsStep_singleton.trans ?_
    rw [entry, Diagram.meets_transition_iff (ht.drawn _ (by simp [outline, Outline.node])),
      Diagram.meetsStep_congr ht.mem_forward_node]
    refine meetsStep_entriesOr (h.rest hplaced) hplaced.tail rfl ?_ n
    rintro rfl
    exact hend
  | .divergence .and _ _ _ :: es => exact absurd hplaced.2.1.1 (by simp [isTransition])
  | .divergence .or _ _ _ :: es => exact absurd hplaced.2.1.1 (by simp [isStep])

/-- What stands behind an element is found on the way back from its exits. -/
theorem meetsStep_exits (h : d.Embeds (e.outline above gate) above below)
    (hplaced : ArePlaced strict previous (e :: es)) (behind : Bool) (n : Nat) :
    d.MeetsStep .backward behind (e.outline above gate).exits n ↔
      .step n ∈ stepsBehind before (some e) := by
  match e with
  | .step s => exact Diagram.meetsStep_steps [s.number]
  | .transition t =>
    exact iff_of_false (Diagram.not_meetsStep_transitions (by simp)
      (by simp [outline, Outline.node]) n) List.not_mem_nil
  | .jump j => exact iff_of_false Diagram.not_meetsStep_nil List.not_mem_nil
  | .divergence junction bs span endSpan =>
    obtain ⟨-, -, hclosing⟩ := h.divergence hplaced
    refine Diagram.meetsStep_singleton.trans ?_
    rw [Diagram.meets_gate_iff (hclosing.drawn _ (by simp [Outline.node])),
      Diagram.meetsStep_congr (hclosing.mem_backward_node (by simp))]
    cases junction with
    | and =>
      rw [Branch.exits_outlineAll_and fun b hb => (hplaced.branch hb).1]
      exact Diagram.meetsStep_steps _
    | or =>
      exact iff_of_false (Diagram.not_meetsStep_transitions (by simp)
        (Branch.exits_outlineAll_or (fun b hb => (hplaced.branch hb).1) _) n) List.not_mem_nil

/-- If the ways into and out of a sequence lead to the steps around it, the ways from each of its
transitions lead to the steps around the transition. -/
theorem isMet_of_mem_neighbourhoodsAll (h : d.Embeds (outlineAll above gate es) above below)
    (hplaced : ArePlaced strict previous es)
    (hbehind : ∀ behind n, d.MeetsStep .backward behind above n ↔
      .step n ∈ stepsBehind before previous)
    (hend : Continues d below after es) {n : Neighbourhood}
    (hn : n ∈ neighbourhoodsAll before after previous es) : d.IsMet n := by
  induction es using sequence_induction generalizing above below before after previous gate with
  | nil => cases hn
  | step s es ih =>
    exact ih (h.rest hplaced) hplaced.tail (meetsStep_exits (h.head hplaced) hplaced) hend.tail hn
  | transition t es ih =>
    rcases List.mem_cons.1 hn with rfl | hn
    · have ht := h.head hplaced
      constructor
      · intro k
        rw [Diagram.meetsStep_congr (ht.mem_backward_node (by simp))]
        exact hbehind false k
      · intro k
        rw [Diagram.meetsStep_congr ht.mem_forward_node]
        refine meetsStep_entriesOr (h.rest hplaced) hplaced.tail rfl ?_ k
        rintro rfl
        exact hend
    · exact ih (h.rest hplaced) hplaced.tail (meetsStep_exits (h.head hplaced) hplaced) hend.tail hn
  | jump j es ih =>
    exact ih (h.rest hplaced) hplaced.tail (meetsStep_exits (h.head hplaced) hplaced) hend.tail hn
  | divergence junction bs span endSpan es hbs ih =>
    rcases List.mem_append.1 hn with hn | hn
    · obtain ⟨hopening, hinner, hclosing⟩ := (h.head hplaced).divergence hplaced
      have hfits : ∀ b ∈ bs, ∀ gate', (outlineAll [.gate gate] gate' b.elements).Fits
          [.gate gate] := fun b hb gate' =>
        fits_outlineAll (hplaced.branch hb).2 (hplaced.branch hb).1.ne_nil _ gate'
      have hback : ∀ behind n, d.MeetsStep .backward behind [.gate gate] n ↔
          .step n ∈ stepsBehind before previous := by
        intro behind n
        rw [Diagram.meetsStep_singleton,
          Diagram.meets_gate_iff (hopening.drawn _ (by simp [Outline.node])),
          Diagram.meetsStep_congr (hopening.mem_backward_node (by simp))]
        exact hbehind true n
      cases junction with
      | and =>
        obtain ⟨b, hb, hn⟩ := Branch.mem_neighbourhoodsAll.1 hn
        obtain ⟨gate', hb'⟩ := hinner.branch hfits hb
        have hnone : stepsBehind before previous = stepsBehind [] none :=
          stepsBehind_of_isTransition hplaced.2.1.1
        exact hbs b hb hb' (hplaced.branch hb).2 (hnone ▸ hback)
          (continues_of_and (hplaced.branch hb).1) hn
      | or =>
        obtain ⟨b, hb, hn⟩ := Branch.mem_neighbourhoodsAll.1 hn
        obtain ⟨gate', hb'⟩ := hinner.branch hfits hb
        have hfirst : ∀ behind n, d.MeetsStep .backward behind [.gate gate] n ↔
            .step n ∈ stepsBehind (stepsBehind before previous) none := hback
        refine hbs b hb hb' (hplaced.branch hb).2 hfirst
          (continues_of_or (hplaced.branch hb).1 fun n => ?_) hn
        rw [Diagram.meetsStep_singleton,
          Diagram.meets_gate_iff (hclosing.drawn _ (by simp [Outline.node])),
          Diagram.meetsStep_congr hclosing.mem_forward_node]
        exact meetsStep_continuation (h.rest hplaced) hplaced.tail hend n
    · exact ih (h.rest hplaced) hplaced.tail (meetsStep_exits (h.head hplaced) hplaced) hend.tail hn

end Element

/-! ### All transitions -/

theorem eraseDups_of_nodup {β : Type} [BEq β] [LawfulBEq β] {l : List β} (h : l.Nodup) :
    l.eraseDups = l := by
  induction l with
  | nil => rfl
  | cons a l ih =>
    obtain ⟨ha, hl⟩ := List.nodup_cons.1 h
    have hfilter : l.filter (fun b => !b == a) = l :=
      List.filter_eq_self.2 fun b hb => by
        have : b ≠ a := by
          intro hba
          exact ha (hba ▸ hb)
        simpa using this
    rw [List.eraseDups_cons, hfilter, ih hl]

/-- A part of a list in the same order is what a filter leaves over that keeps its members. -/
theorem filter_eq_of_sublist {β : Type} {l part : List β} (h : part.Sublist l) (hl : l.Nodup)
    {p : β → Bool} (hp : ∀ x ∈ l, p x ↔ x ∈ part) : l.filter p = part := by
  have hsub : part.Sublist (l.filter p) := by
    have := h.filter p
    rwa [List.filter_eq_self.2 fun x hx => (hp x (h.subset hx)).2 hx] at this
  have hlength : (l.filter p).length ≤ part.length :=
    (hl.filter p).length_le_of_subset fun x hx =>
      (hp x (List.mem_filter.1 hx).1).1 (List.mem_filter.1 hx).2
  exact (hsub.eq_of_length_le hlength).symm

namespace Diagram

/-- A transition of a diagram with the steps around it. -/
def neighbourhood (d : Diagram α) (id : NodeId) : Neighbourhood :=
  ⟨id, d.predecessors id, d.successors id⟩

namespace Shows

variable {c : Chart}

/-- What the diagram of a chart that follows the rules has to offer. -/
theorem isMet (h : d.Shows c) (hrules : c.FollowsRules false)
    (htransitions : (Element.transitionNumbers c.walk).Nodup) {n : Neighbourhood}
    (hn : n ∈ c.neighbourhoods) : d.IsMet n := by
  have hembeds := h.embeds hrules.nodup_steps htransitions
  have hbehind : ∀ behind n, d.MeetsStep .backward behind [] n ↔
      .step n ∈ Element.stepsBehind [] none := fun behind n =>
    iff_of_false not_meetsStep_nil nofun
  have hend : Element.Continues d [] [] c.elements := by
    unfold Element.Continues
    split
    · exact fun n => iff_of_false not_meetsStep_nil nofun
    · exact ⟨rfl, rfl⟩
    · trivial
  exact Element.isMet_of_mem_neighbourhoodsAll hembeds hrules.placed hbehind hend hn

theorem stepIds_eq (h : d.Shows c) (hsteps : (Element.stepNumbers c.walk).Nodup) :
    d.stepIds = (Element.stepNumbers c.walk).map .step := by
  have hmap : d.steps.map (·.id) = (Element.stepNumbers c.walk).map .step := by
    rw [← h.steps]
    simp [StepNode.id, Function.comp_def]
  rw [stepIds, hmap, eraseDups_of_nodup (hsteps.map fun _ _ => NodeId.step.inj)]

/-- The steps met from a transition are those that some way leads to. -/
theorem stepsBeyond_eq (h : d.Shows c) (hsteps : (Element.stepNumbers c.walk).Nodup)
    (htransitions : (Element.transitionNumbers c.walk).Nodup) (direction : Direction) {k : Nat}
    (hk : k ∈ Element.transitionNumbers c.walk) {part : List NodeId}
    (hpart : part.Sublist ((Element.stepNumbers c.walk).map .step))
    (hmet : ∀ n, d.MeetsStep direction false (d.neighbours direction (.transition k)) n ↔
      .step n ∈ part) : d.stepsBeyond direction (.transition k) = part := by
  have hdrawn : NodeId.transition k ∈ d.nodes.map (·.id) := by
    rw [map_id_nodes, h.transitions]
    simp [hk]
  have htransition : ∃ t, d.node? (.transition k) = some (.transition t) := by
    obtain ⟨node, hnode⟩ := exists_node hdrawn
    cases node with
    | step s => cases id_of_node? hnode
    | transition t => exact ⟨t, hnode⟩
    | gate g => cases id_of_node? hnode
  obtain ⟨t, ht⟩ := htransition
  rw [stepsBeyond, h.stepIds_eq hsteps]
  refine filter_eq_of_sublist hpart (hsteps.map fun _ _ => NodeId.step.inj) fun x hx => ?_
  obtain ⟨n, -, rfl⟩ := List.mem_map.1 hx
  rw [← hmet n, List.contains_iff_mem]
  exact mem_reach_iff (h.unambiguous hsteps htransitions) ht (by simp)

theorem neighbourhood_eq (h : d.Shows c) (hrules : c.FollowsRules false)
    (htransitions : (Element.transitionNumbers c.walk).Nodup) {n : Neighbourhood}
    (hn : n ∈ c.neighbourhoods) : d.neighbourhood n.transition = n := by
  have hstand : Element.StandIn ((Element.stepNumbers c.walk).map .step) c.elements :=
    ⟨.refl _, fun k hk => List.mem_map_of_mem (hrules.jumps.mem hk)⟩
  have hbehind : (Element.stepsBehind [] none).Sublist
      ((Element.stepNumbers c.walk).map .step) := List.nil_sublist _
  obtain ⟨hpred, hsucc⟩ := Element.sublist_of_mem_neighbourhoodsAll hstand hbehind
    (List.nil_sublist _) hn
  obtain ⟨hbackward, hforward⟩ := h.isMet hrules htransitions hn
  have hid : n.transition ∈ (Element.transitionNumbers c.walk).map .transition := by
    rw [← Chart.map_transition_neighbourhoods]
    exact List.mem_map_of_mem hn
  obtain ⟨k, hk, htransition⟩ := List.mem_map.1 hid
  rw [← htransition] at hbackward hforward
  have h1 := h.stepsBeyond_eq hrules.nodup_steps htransitions .backward hk hpred hbackward
  have h2 := h.stepsBeyond_eq hrules.nodup_steps htransitions .forward hk hsucc hforward
  rw [neighbourhood, predecessors, successors, ← htransition, h1, h2, htransition]

/-- The steps around the transitions of a diagram are those around the transitions of its chart. -/
theorem map_neighbourhood (h : d.Shows c) (hrules : c.FollowsRules false)
    (htransitions : (Element.transitionNumbers c.walk).Nodup) :
    d.transitions.map (fun t => d.neighbourhood t.id) = c.neighbourhoods := by
  have hids : d.transitions.map (·.id) = c.neighbourhoods.map (·.transition) := by
    have hnumbers : d.transitions.map (·.id) =
        (d.transitions.map (·.number)).map .transition := by
      simp [TransitionNode.id, Function.comp_def]
    rw [hnumbers, h.transitions, Chart.map_transition_neighbourhoods]
  calc d.transitions.map (fun t => d.neighbourhood t.id)
      = (d.transitions.map (·.id)).map d.neighbourhood := by simp [Function.comp_def]
    _ = c.neighbourhoods.map fun n => d.neighbourhood n.transition := by
        rw [hids]
        simp [Function.comp_def]
    _ = c.neighbourhoods := by
        rw [List.map_congr_left fun n hn => h.neighbourhood_eq hrules htransitions hn]
        simp

end Shows

end Diagram

/-! ### Sources that are accepted -/

theorem Chart.nodup_transitions_of_check {source : String} {c : Chart} {ws : List Diagnostic}
    (h : Chart.check source = .ok (c, ws)) : (Element.transitionNumbers c.walk).Nodup := by
  have hrules := Chart.followsRules_of_check h
  obtain ⟨c', ws', hparse, -, heq⟩ := Chart.check_eq_ok_iff.1 h
  obtain ⟨rfl, -⟩ := Prod.mk.inj heq
  obtain ⟨-, hchart⟩ := Chart.parse_eq_ok_iff.1 hparse
  obtain ⟨rfl, -⟩ := Prod.mk.inj hchart
  exact Chart.nodup_transitions_numbered hrules.nodup_written

/-- A chart that is accepted can be drawn. -/
theorem Chart.exists_draw_of_check [Length α] {source : String} {c : Chart}
    {ws : List Diagnostic} (h : Chart.check source = .ok (c, ws)) (s : Spacing α) :
    ∃ d, c.draw s = .ok d ∧ d.Shows c :=
  Chart.exists_draw s fun _ hn => (Chart.followsRules_of_check h).jumps.mem hn

/-- What is found of the chart and the diagram of a source without warnings by computing both. -/
theorem Chart.exists_drawn_of_any (source : String) (p : Chart → Diagram Float32 → Bool)
    (h : (Chart.checkAll source).toOption.any fun r =>
      r.2.isEmpty && (r.1.draw ({} : Config).spacing).toOption.any (p r.1)) :
    ∃ c d, Chart.check source = .ok (c, []) ∧ Chart.compile {} source = .ok ⟨d, []⟩ ∧ p c d := by
  match hall : Chart.checkAll source with
  | .error ds => simp [hall, Except.toOption] at h
  | .ok (c, ws) =>
    obtain ⟨ws', hcheck, hwarnings⟩ := Chart.checkAll_eq_ok_iff.1 hall
    obtain ⟨d, hdraw, -⟩ := Chart.exists_draw_of_check hcheck ({} : Config).spacing
    obtain ⟨rfl, hp⟩ : ws = [] ∧ p c d := by
      simpa [hall, hdraw, Except.toOption] using h
    obtain ⟨rfl, -⟩ := List.append_eq_nil_iff.1 hwarnings.symm
    exact ⟨c, d, hcheck, Chart.compile_eq_ok_iff.2 ⟨c, hall, hdraw⟩, hp⟩

/-- A chart in which a transition behind an OR divergence is passed, and one of the branches ends
with a jump. -/
def alternatives : String :=
  "Step 0 (Initial)\nDivergence OR\nBranch\nTransition a\nBranch\nTransition b\nJump 0\n" ++
    "EndDivergence\nTransition c\nStep 1"

theorem neighbourhoods_alternatives :
    (Chart.check alternatives).toOption.map (·.1.neighbourhoods) =
      some [⟨.transition 0, [.step 0], [.step 1]⟩, ⟨.transition 1, [.step 0], [.step 0]⟩,
        ⟨.transition 2, [], [.step 1]⟩] := by
  decide +kernel

/-- Whatever the spacing, the steps before and after the transitions of a diagram, found by
following its connections, are those that can be read off the chart. -/
theorem Chart.map_neighbourhood_of_check [Length α] {source : String} {c : Chart}
    {ws : List Diagnostic} (h : Chart.check source = .ok (c, ws)) (s : Spacing α) :
    ∃ d, c.draw s = .ok d ∧
      d.transitions.map (fun t => d.neighbourhood t.id) = c.neighbourhoods := by
  obtain ⟨d, hdraw, hshows⟩ := Chart.exists_draw_of_check h s
  exact ⟨d, hdraw, hshows.map_neighbourhood (Chart.followsRules_of_check h)
    (Chart.nodup_transitions_of_check h)⟩

theorem Chart.map_neighbourhood_alternatives :
    ∃ c ws, Chart.check alternatives = .ok (c, ws) ∧
      ∃ d : Diagram Float32, c.draw .default = .ok d ∧
        d.transitions.map (fun t => d.neighbourhood t.id) =
          [⟨.transition 0, [.step 0], [.step 1]⟩, ⟨.transition 1, [.step 0], [.step 0]⟩,
            ⟨.transition 2, [], [.step 1]⟩] := by
  have hsteps := neighbourhoods_alternatives
  match h : Chart.check alternatives with
  | .error ds => simp [h, Except.toOption] at hsteps
  | .ok (c, ws) =>
    have hc : c.neighbourhoods = [⟨.transition 0, [.step 0], [.step 1]⟩,
        ⟨.transition 1, [.step 0], [.step 0]⟩, ⟨.transition 2, [], [.step 1]⟩] := by
      simpa [h, Except.toOption] using hsteps
    exact ⟨c, ws, rfl, hc ▸ Chart.map_neighbourhood_of_check h .default⟩

end SequentialChart
