import Mathlib
import SequentialChart.Proofs.Diagram.Degrees

/-!
# What can be reached

Everything in the diagram of a chart hangs from its first step, as long as some branch of every
divergence leads to its lower bar. If all branches of a divergence end with jumps, nothing leads to
its lower bar and to what follows it, though such a chart is accepted.

## Main definitions

* `Diagram.Reaches` — connections lead from one node to another one.
* `Outline.HangsFrom` — every node of an outline can be reached from those above it.
* `Bar.isEntered` — something leads to a bar.

## Main statements

* `Element.hangsFrom_outlineAll` — a sequence whose bars are entered hangs from what is above it.
* `Chart.forall_reaches_iff` — all nodes of the diagram of a chart can be reached from its first
  step exactly if all bars are entered.
-/

namespace SequentialChart

/-- Something leads to an upper bar from above; to a lower one, only branches lead that do not end
with jumps. -/
def Bar.isEntered (b : Bar) : Bool :=
  match b.mode with
  | .divergence => true
  | .convergence => b.branches.any (!·.endsWithJump)

/-! ### Outlines -/

namespace Outline

variable {o p : Outline} {above : List NodeId} {links links' : List (NodeId × NodeId)}
  {a b v : NodeId}

/-- Links lead from one node to another one, directly or through others. -/
def Reaches (links : List (NodeId × NodeId)) : NodeId → NodeId → Prop :=
  Relation.ReflTransGen fun a b => (a, b) ∈ links

theorem Reaches.mono (h : Reaches links a b) (hsub : links ⊆ links') : Reaches links' a b :=
  Relation.ReflTransGen.mono (fun _ _ hlink => hsub hlink) _ _ h

/-- What no link leaves is not left. -/
theorem Reaches.mem_of_forall {P : NodeId → Prop} (h : Reaches links a b) (ha : P a)
    (hlinks : ∀ l ∈ links, P l.1 → P l.2) : P b := by
  induction h with
  | refl => exact ha
  | tail _ hlink ih => exact hlinks _ hlink ih

/-- Every node of the outline can be reached from those above it. -/
def HangsFrom (o : Outline) (above : List NodeId) : Prop :=
  ∀ v ∈ o.nodes, ∃ a ∈ above, Reaches o.links a v

theorem hangsFrom_node (habove : above ≠ []) (v : NodeId) : (node above v).HangsFrom above := by
  intro w hw
  obtain rfl := List.mem_singleton.1 hw
  obtain ⟨a, ha⟩ := List.exists_mem_of_ne_nil above habove
  exact ⟨a, ha, .single (mem_link.2 ⟨ha, rfl⟩)⟩

theorem hangsFrom_bar (habove : above ≠ []) (index : Nat) : (bar above index).HangsFrom above :=
  hangsFrom_node habove (.gate index)

/-- An outline hangs from what the outline above it hangs from. -/
theorem HangsFrom.stack (ho : o.HangsFrom above) (hexits : o.exits ⊆ o.nodes)
    (hp : p.HangsFrom o.exits) : (o.stack p).HangsFrom above := by
  have hupper : ∀ v ∈ o.nodes, ∃ a ∈ above, Reaches (o.stack p).links a v := by
    intro v hv
    obtain ⟨a, ha, hreaches⟩ := ho v hv
    exact ⟨a, ha, hreaches.mono (List.subset_append_left ..)⟩
  intro v hv
  rcases List.mem_append.1 hv with hv | hv
  · exact hupper v hv
  · obtain ⟨w, hw, hlower⟩ := hp v hv
    obtain ⟨a, ha, hreaches⟩ := hupper w (hexits hw)
    exact ⟨a, ha, hreaches.trans (hlower.mono (List.subset_append_right ..))⟩

theorem HangsFrom.beside (ho : o.HangsFrom above) (hp : p.HangsFrom above) :
    (o.beside p).HangsFrom above := by
  intro v hv
  rcases List.mem_append.1 hv with hv | hv
  · obtain ⟨a, ha, hreaches⟩ := ho v hv
    exact ⟨a, ha, hreaches.mono (List.subset_append_left ..)⟩
  · obtain ⟨a, ha, hreaches⟩ := hp v hv
    exact ⟨a, ha, hreaches.mono (List.subset_append_right ..)⟩

end Outline

namespace Branch

variable {junction : Junction} {bs : List Branch}

theorem mem_barsAll {x : Bar} : x ∈ barsAll bs ↔ ∃ b ∈ bs, x ∈ Element.barsAll b.elements := by
  induction bs with
  | nil => simp [barsAll]
  | cons b bs ih =>
    obtain ⟨elements, span⟩ := b
    simp [barsAll, bars, ih]

/-- Branches have an end if one of them does not end with a jump. -/
theorem exits_ne_nil (hbounds : ∀ b ∈ bs, junction.Bounds b.elements)
    (h : bs.any (!·.endsWithJump)) (opening : NodeId) (gate : Nat) :
    (outlineAll opening gate bs).exits ≠ [] := by
  obtain ⟨b, hb, hjump⟩ := List.any_eq_true.1 h
  rw [← isSome_last? (hbounds b hb), Option.isSome_iff_exists] at hjump
  obtain ⟨v, hv⟩ := hjump
  rw [exits_eq hbounds]
  exact List.ne_nil_of_mem (List.mem_filterMap.2 ⟨b, hb, hv⟩)

theorem hangsFrom_outlineAll {opening : NodeId}
    (h : ∀ b ∈ bs, ∀ gate, (Element.outlineAll [opening] gate b.elements).HangsFrom [opening])
    (gate : Nat) : (outlineAll opening gate bs).HangsFrom [opening] := by
  induction bs generalizing gate with
  | nil => nofun
  | cons b bs ih =>
    have hb := h b List.mem_cons_self gate
    rw [← outline_eq] at hb
    exact hb.beside (ih (fun b hb => h b (List.mem_cons_of_mem _ hb)) _)

end Branch

namespace Element

variable {strict : Bool} {previous : Option Element} {above : List NodeId} {gate : Nat}
  {e : Element} {es : List Element}

theorem hangsFrom_divergence {junction : Junction} {bs : List Branch} {span endSpan : Span}
    (hplaced : ArePlaced strict previous (.divergence junction bs span endSpan :: es))
    (habove : above ≠ []) (hentered : bs.any (!·.endsWithJump))
    (hbs : ∀ b ∈ bs, ∀ gate',
      (outlineAll [.gate gate] gate' b.elements).HangsFrom [.gate gate]) :
    ((divergence junction bs span endSpan).outline above gate).HangsFrom above := by
  have hbounds : ∀ b ∈ bs, junction.Bounds b.elements := fun b hb => (hplaced.branch hb).1
  have hexits := Branch.exits_sublist (fun b hb => (hbounds b hb).ne_nil) (.gate gate) (gate + 1)
  have hlower := Outline.hangsFrom_bar
    (Branch.exits_ne_nil hbounds hentered (.gate gate) (gate + 1))
    (gate + 1 + (Branch.outlineAll (.gate gate) (gate + 1) bs).gates)
  have hinner := Branch.hangsFrom_outlineAll hbs (gate + 1)
  exact (Outline.hangsFrom_bar habove gate).stack (List.Subset.refl _)
    (hinner.stack hexits.subset hlower)

/-- A sequence whose bars are entered hangs from what is above it. -/
theorem hangsFrom_outlineAll (hplaced : ArePlaced strict previous es) (habove : above ≠ [])
    (hbars : ∀ b ∈ barsAll es, b.isEntered) : (outlineAll above gate es).HangsFrom above := by
  have hcons : ∀ {e es previous above gate}, ArePlaced strict previous (e :: es) →
      (∀ b ∈ barsAll (e :: es), b.isEntered) → (e.outline above gate).HangsFrom above →
      (∀ {previous above gate}, ArePlaced strict previous es → above ≠ [] →
        (∀ b ∈ barsAll es, b.isEntered) → (outlineAll above gate es).HangsFrom above) →
      (outlineAll above gate (e :: es)).HangsFrom above := by
    intro e es previous above gate hplaced hbars he hes
    refine he.stack (exits_outline_sublist e above gate).subset ?_
    match es with
    | [] => nofun
    | f :: es =>
      -- an element that something follows is no jump, so there is a node to hang from
      have hone := length_exits_of_arePlaced hplaced.tail (by simp) above gate
      exact hes hplaced.tail (List.ne_nil_of_length_pos (by omega))
        fun b hb => hbars b (List.mem_append_right _ hb)
  induction es using sequence_induction generalizing above previous gate with
  | nil => nofun
  | step s es ih => exact hcons hplaced hbars (Outline.hangsFrom_node habove _) ih
  | transition t es ih => exact hcons hplaced hbars (Outline.hangsFrom_node habove _) ih
  | jump j es ih => exact hcons hplaced hbars nofun ih
  | divergence junction bs span endSpan es hbs ih =>
    refine hcons hplaced hbars (hangsFrom_divergence hplaced habove ?_ fun b hb gate' => ?_) ih
    · exact hbars ⟨junction, .convergence, bs⟩ (by simp [barsAll, bars])
    · refine hbs b hb (hplaced.branch hb).2 (List.cons_ne_nil _ _) fun x hx => hbars x ?_
      have hinner : x ∈ Branch.barsAll bs := Branch.mem_barsAll.2 ⟨b, hb, hx⟩
      simp [barsAll, bars, hinner]

end Element

/-! ### Diagrams -/

variable {α : Type} {d : Diagram α} {c : Chart}

namespace Diagram

/-- Connections lead from one node to another one, directly or through others. -/
def Reaches (d : Diagram α) : NodeId → NodeId → Prop :=
  Outline.Reaches (d.connections.map (·.ends))

/-- Some connection leads to a node that can be reached from another one. -/
theorem Reaches.incoming_ne_nil {a b : NodeId} (h : d.Reaches a b) (hne : a ≠ b) :
    d.incoming b ≠ [] := by
  rcases Relation.ReflTransGen.cases_tail h with hba | ⟨v, -, hlink⟩
  · exact absurd hba.symm hne
  · obtain ⟨k, hk, hends⟩ := List.mem_map.1 hlink
    have htarget : k.target = b := congrArg Prod.snd hends
    exact List.ne_nil_of_mem (List.mem_filter.2 ⟨hk, by simpa using htarget⟩)

/-- A bar with a connection above it is entered. -/
theorem IsTied.isEntered {id : NodeId} {b : Bar} (h : d.IsTied id b) (hne : d.incoming id ≠ []) :
    b.isEntered := by
  obtain ⟨junction, mode, branches⟩ := b
  cases mode with
  | divergence => rfl
  | convergence =>
    obtain ⟨-, hlength, -⟩ := h
    have hpos := List.length_pos_iff.2 hne
    rw [hlength] at hpos
    obtain ⟨b, hb⟩ := List.exists_mem_of_ne_nil _ (List.length_pos_iff.1 hpos)
    obtain ⟨hmem, hjump⟩ := List.mem_filter.1 hb
    exact List.any_eq_true.2 ⟨b, hmem, hjump⟩

theorem IsWellFormed.exists_gate (h : d.IsWellFormed c) {b : Bar} (hb : b ∈ c.bars) :
    ∃ g ∈ d.gates, d.IsTied g.id b := by
  obtain ⟨i, hi, rfl⟩ := List.getElem_of_mem hb
  have hlength := h.gates.length_eq
  exact ⟨d.gates[i], List.getElem_mem _, (h.gates.get (hlength ▸ hi) hi).2⟩

/-- If all bars are entered, all nodes can be reached from the first step. -/
theorem Shows.reaches (h : d.Shows c) (hrules : c.FollowsRules false)
    (hbars : ∀ b ∈ c.bars, b.isEntered) {id : NodeId} (hid : id ∈ d.nodes.map (·.id)) :
    ∃ first ∈ d.steps.head?, d.Reaches first.id id := by
  have hnode : id ∈ c.outline.nodes := h.nodes.mem_iff.1 hid
  have hsub : c.outline.links ⊆ d.connections.map (·.ends) := h.links.symm.subset
  match hes : c.elements with
  | [] => simp [Chart.outline, hes, Element.outlineAll] at hnode
  | .transition _ :: _ | .jump _ :: _ | .divergence .. :: _ =>
    simpa [hes, Element.isStep] using hrules.starts
  | .step s :: es =>
    have hnumbers : d.steps.map (·.number) = s.number :: Element.stepNumbers (Element.walkAll es) := by
      rw [h.steps, Chart.walk, hes]
      rfl
    obtain ⟨first, steps, hsteps, hfirst, -⟩ := List.map_eq_cons_iff.1 hnumbers
    refine ⟨first, by simp [hsteps], ?_⟩
    rw [StepNode.id, hfirst]
    -- the rest of the chart hangs from its first step
    rw [Chart.outline, hes, Element.outlineAll_cons] at hnode hsub
    rcases List.mem_append.1 hnode with hfirst | hrest
    · obtain rfl := List.mem_singleton.1 hfirst
      exact .refl
    · have hplaced : Element.ArePlaced false (some (.step s)) es := (hes ▸ hrules.placed).tail
      have hrestBars : ∀ b ∈ Element.barsAll es, b.isEntered := fun b hb => hbars b (by
        rw [Chart.bars, hes]
        exact List.mem_append_right _ hb)
      obtain ⟨a, ha, hreaches⟩ :=
        Element.hangsFrom_outlineAll hplaced (List.cons_ne_nil _ []) hrestBars id hrest
      obtain rfl := List.mem_singleton.1 ha
      exact hreaches.mono fun l hl => hsub (List.mem_append_right _ hl)

end Diagram

/-! ### Sources that are accepted -/

/-- In the diagram of a source that is accepted, all steps, transitions and bars can be reached from
the first step exactly if some branch of every divergence leads to its lower bar. -/
theorem Chart.forall_reaches_iff {source : String} {ws : List Diagnostic}
    (hcheck : check source = .ok (c, ws)) (config : Config) :
    ∃ d warnings, compile config source = .ok ⟨d, warnings⟩ ∧
      ((∀ n ∈ d.nodes, ∃ first ∈ d.steps.head?, d.Reaches first.id n.id) ↔
        ∀ b ∈ c.bars, b.isEntered) := by
  have hrules := followsRules_of_check hcheck
  obtain ⟨d, hdraw, hshows⟩ := exists_draw_of_check hcheck config.spacing
  have hwellFormed : d.IsWellFormed c := hshows.isWellFormed hrules
    (nodup_transitions_of_check hcheck) (map_shape_of_draw hdraw)
  have hall := checkAll_eq_ok_iff.2 ⟨ws, hcheck, rfl⟩
  refine ⟨d, _, compile_eq_ok_iff.2 ⟨c, hall, hdraw⟩, fun hreaches b hb => ?_, fun hbars n hn => ?_⟩
  · obtain ⟨g, hg, htied⟩ := hwellFormed.exists_gate hb
    have hnode : Node.gate g ∈ d.nodes := by simp [Diagram.nodes, hg]
    obtain ⟨first, -, hfirst⟩ := hreaches _ hnode
    -- the first step is no gate, so a connection leads to the gate
    exact htied.isEntered (hfirst.incoming_ne_nil (by rintro ⟨⟩))
  · exact hshows.reaches hrules hbars (List.mem_map_of_mem hn)

/-- A chart in which one branch of the divergence leads back to the first step. -/
def oneBack : String :=
  "Step 0 (Initial)\nDivergence OR\nBranch\nTransition a\nJump 0\nBranch\nTransition b\n" ++
    "EndDivergence\nStep 1"

/-- Everything can be reached, as the other branch leads on. -/
theorem Chart.forall_reaches_oneBack :
    ∃ c ws d warnings, check oneBack = .ok (c, ws) ∧ compile {} oneBack = .ok ⟨d, warnings⟩ ∧
      (∀ b ∈ c.bars, b.isEntered) ∧
        ∀ n ∈ d.nodes, ∃ first ∈ d.steps.head?, d.Reaches first.id n.id := by
  have hbars : (check oneBack).toOption.any fun r => r.1.bars.all Bar.isEntered := by
    decide +kernel
  match h : check oneBack with
  | .error ds => simp [h, Except.toOption] at hbars
  | .ok (c, ws) =>
    have hentered : ∀ b ∈ c.bars, b.isEntered := by
      simpa [h, Except.toOption] using hbars
    obtain ⟨d, warnings, hcompile, hiff⟩ := forall_reaches_iff h {}
    exact ⟨c, ws, d, warnings, rfl, hcompile, hentered, hiff.2 hentered⟩

/-- A chart in which both branches of the divergence lead back to the first step. -/
def bothBack : String :=
  "Step 0 (Initial)\nDivergence OR\nBranch\nTransition a\nJump 0\nBranch\nTransition b\n" ++
    "Jump 0\nEndDivergence\nStep 1"

/-- Nothing leads to the last step, but the chart is accepted without a warning. -/
theorem Chart.not_forall_reaches_bothBack :
    ∃ c d, check bothBack = .ok (c, []) ∧ compile {} bothBack = .ok ⟨d, []⟩ ∧
      (d.steps.map (·.id) = [.step 0, .step 1] ∧ ¬ d.Reaches (.step 0) (.step 1)) ∧
        ¬ ∀ n ∈ d.nodes, ∃ first ∈ d.steps.head?, d.Reaches first.id n.id := by
  have hdraws : (compile {} bothBack).toOption.any fun r => r.warnings.isEmpty ∧
      r.diagram.steps.map (·.id) = [.step 0, .step 1] ∧
        r.diagram.connections.map (·.ends) =
          [(.step 0, .gate 0), (.gate 0, .transition 0), (.gate 0, .transition 1),
            (.gate 1, .step 1), (.transition 0, .step 0), (.transition 1, .step 0)] := by
    decide +kernel
  match hcompile : compile {} bothBack with
  | .error ds => simp [hcompile, Except.toOption] at hdraws
  | .ok ⟨d, warnings⟩ =>
    simp only [hcompile, Except.toOption, Option.any_some, decide_eq_true_eq,
      List.isEmpty_iff] at hdraws
    obtain ⟨rfl, hsteps, hends⟩ := hdraws
    obtain ⟨c, hall, -⟩ := compile_eq_ok_iff.1 hcompile
    obtain ⟨ws, hcheck, hnil⟩ := checkAll_eq_ok_iff.1 hall
    obtain ⟨rfl, -⟩ := List.append_eq_nil_iff.1 hnil.symm
    -- the lower bar is the only way to the last step, and nothing leads to it
    have hlast : ¬ d.Reaches (.step 0) (.step 1) := fun h => by
      have := h.mem_of_forall (P := fun v => v ≠ .gate 1 ∧ v ≠ .step 1) (by decide)
        (by rw [hends]; decide)
      exact this.2 rfl
    refine ⟨c, d, hcheck, rfl, ⟨hsteps, hlast⟩, fun hreaches => hlast ?_⟩
    obtain ⟨first, last, hfirst⟩ : ∃ first last, d.steps = [first, last] ∧
        first.id = .step 0 ∧ last.id = .step 1 := by
      simpa [List.map_eq_cons_iff] using hsteps
    obtain ⟨hsteps, hzero, hone⟩ := hfirst
    have hnode : Node.step last ∈ d.nodes := by simp [Diagram.nodes, hsteps]
    obtain ⟨first', hfirst', hpath⟩ := hreaches _ hnode
    obtain rfl : first = first' := by simpa [hsteps] using hfirst'
    rw [← hzero, ← hone]
    exact hpath

end SequentialChart
