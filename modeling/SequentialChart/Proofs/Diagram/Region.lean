import Mathlib
import SequentialChart.Proofs.Diagram.Exploration
import SequentialChart.Proofs.Diagram.Outline

/-!
# Regions of a diagram

The nodes of a diagram are connected with few others, and only next to the place of an element in
the chart. A region is the part of a diagram that an outline describes. Its nodes have no further
connections except those that lead on from its exits, and jumps into its steps.

## Main definitions

* `Outline.Fits` — an outline is linked to other nodes only at its entries.
* `Diagram.Embeds` — a region of a diagram.

## Main statements

* `Diagram.Embeds.stackLeft`, `Diagram.Embeds.stackRight`, `Diagram.Embeds.besideLeft`,
  `Diagram.Embeds.besideRight` — the parts of a region are regions.
* `Diagram.Shows.embeds` — a whole diagram is one.
-/

namespace SequentialChart

/-- The outline is linked to the nodes `above` only at its entries, and to nodes below only at steps
and at its exits. -/
structure Outline.Fits (o : Outline) (above : List NodeId) : Prop where
  source : ∀ a b, (a, b) ∈ o.links → a ∈ o.nodes ∨ a ∈ above ∧ b ∈ o.entries
  target : ∀ a b, (a, b) ∈ o.links → b ∈ o.nodes ∨ ∃ n, b = .step n
  entry : ∀ a ∈ above, ∀ b ∈ o.entries, (a, b) ∈ o.links
  exit : ∀ a ∈ o.exits, a ∈ o.nodes

namespace Outline

variable {o p : Outline} {above : List NodeId}

@[simp] theorem mem_link {above : List NodeId} {target a b : NodeId} :
    (a, b) ∈ link above target ↔ a ∈ above ∧ b = target := by
  simp [link, eq_comm]

/-- A node that is no step is entered only within its own outline. -/
theorem Fits.not_mem_links_into (h : o.Fits above) {v : NodeId} (hv : v ∉ o.nodes)
    (hstep : ∀ n, v ≠ .step n) (a : NodeId) : (a, v) ∉ o.links := fun hlink =>
  (h.target a v hlink).elim hv fun ⟨n, hn⟩ => hstep n hn

/-- A node is left only within its own outline and into the entries of the next one. -/
theorem Fits.not_mem_links_from (h : o.Fits above) {v : NodeId} (hv : v ∉ o.nodes)
    (habove : v ∉ above) (b : NodeId) : (v, b) ∉ o.links := fun hlink =>
  (h.source v b hlink).elim hv fun ⟨hmem, _⟩ => habove hmem

theorem fits_node (above : List NodeId) (id : NodeId) : (node above id).Fits above where
  source a b h := .inr (by simpa [node] using h)
  target a b h := .inl (by simpa [node] using (mem_link.1 h).2)
  entry a ha b hb := mem_link.2 ⟨ha, by simpa [node] using hb⟩
  exit a ha := ha

theorem fits_bar (above : List NodeId) (index : Nat) : (bar above index).Fits above :=
  let h := fits_node above (.gate index)
  ⟨h.source, h.target, h.entry, h.exit⟩

theorem fits_jump (above : List NodeId) (n : Nat) : (jump above n).Fits above where
  source a b h := .inr (by simpa [jump] using h)
  target a b h := .inr ⟨n, (mem_link.1 h).2⟩
  entry a ha b hb := mem_link.2 ⟨ha, by simpa [jump] using hb⟩
  exit := nofun

theorem fits_empty (above : List NodeId) : ({} : Outline).Fits above :=
  ⟨nofun, nofun, nofun, nofun⟩

theorem Fits.stack (ho : o.Fits above) (hp : p.Fits o.exits) : (o.stack p).Fits above where
  source a b h := by
    rcases List.mem_append.1 h with h | h
    · exact (ho.source a b h).imp_left fun h => List.mem_append_left _ h
    · rcases hp.source a b h with h | ⟨h, -⟩
      · exact .inl (List.mem_append_right _ h)
      · exact .inl (List.mem_append_left _ (ho.exit a h))
  target a b h := (List.mem_append.1 h).elim
    (fun h => (ho.target a b h).imp_left fun h => List.mem_append_left _ h)
    (fun h => (hp.target a b h).imp_left fun h => List.mem_append_right _ h)
  entry a ha b hb := List.mem_append_left _ (ho.entry a ha b hb)
  exit a ha := List.mem_append_right _ (hp.exit a ha)

theorem Fits.beside (ho : o.Fits above) (hp : p.Fits above) : (o.beside p).Fits above where
  source a b h := by
    rcases List.mem_append.1 h with h | h
    · exact (ho.source a b h).imp (List.mem_append_left _)
        fun ⟨ha, hb⟩ => ⟨ha, List.mem_append_left _ hb⟩
    · exact (hp.source a b h).imp (List.mem_append_right _)
        fun ⟨ha, hb⟩ => ⟨ha, List.mem_append_right _ hb⟩
  target a b h := (List.mem_append.1 h).elim
    (fun h => (ho.target a b h).imp_left fun h => List.mem_append_left _ h)
    (fun h => (hp.target a b h).imp_left fun h => List.mem_append_right _ h)
  entry a ha b hb := (List.mem_append.1 hb).elim
    (fun hb => List.mem_append_left _ (ho.entry a ha b hb))
    (fun hb => List.mem_append_right _ (hp.entry a ha b hb))
  exit a ha := (List.mem_append.1 ha).elim (fun ha => List.mem_append_left _ (ho.exit a ha))
    (fun ha => List.mem_append_right _ (hp.exit a ha))

end Outline

/-! ### Outlines of sequences that follow the rules -/

namespace Element

variable {strict : Bool} {previous : Option Element} {above : List NodeId} {gate : Nat}

theorem outlineAll_singleton (e : Element) : outlineAll above gate [e] = e.outline above gate := by
  simp [outlineAll, Outline.stack]

theorem outlineAll_cons (e : Element) (es : List Element) :
    outlineAll above gate (e :: es) = (e.outline above gate).stack
      (outlineAll (e.outline above gate).exits (gate + (e.outline above gate).gates) es) := rfl

end Element

namespace Branch

theorem outline_eq (opening : NodeId) (gate : Nat) (b : Branch) :
    b.outline opening gate = Element.outlineAll [opening] gate b.elements := by
  cases b
  rfl

theorem fits_outlineAll {opening : NodeId} {bs : List Branch}
    (h : ∀ b ∈ bs, ∀ gate, (Element.outlineAll [opening] gate b.elements).Fits [opening])
    (gate : Nat) : (outlineAll opening gate bs).Fits [opening] := by
  induction bs generalizing gate with
  | nil => exact Outline.fits_empty _
  | cons b bs ih =>
    have hb := h b (by simp) gate
    rw [← outline_eq] at hb
    exact hb.beside (ih (fun b hb => h b (by simp [hb])) _)

end Branch

namespace Element

/-- The outline of a divergence whose branches fit. -/
theorem fits_divergence {junction : Junction} {bs : List Branch} {span endSpan : Span}
    (h : ∀ b ∈ bs, ∀ opening gate,
      (outlineAll [opening] gate b.elements).Fits [opening]) (above : List NodeId) (gate : Nat) :
    ((divergence junction bs span endSpan).outline above gate).Fits above :=
  (Outline.fits_bar above gate).stack
    ((Branch.fits_outlineAll (fun b hb => h b hb _) _).stack (Outline.fits_bar _ _))

/-- The outline of a sequence that follows the rules and is not empty. -/
theorem fits_outlineAll {strict : Bool} {previous : Option Element} {es : List Element}
    (h : ArePlaced strict previous es) (hne : es ≠ []) (above : List NodeId) (gate : Nat) :
    (outlineAll above gate es).Fits above := by
  have hcons : ∀ (e : Element) (es : List Element),
      (∀ above gate, (e.outline above gate).Fits above) →
      (es ≠ [] → ∀ above gate, (outlineAll above gate es).Fits above) →
      ∀ above gate, (outlineAll above gate (e :: es)).Fits above := by
    intro e es he hes above gate
    cases es with
    | nil => exact outlineAll_singleton e ▸ he above gate
    | cons e' es => exact (he above gate).stack (hes (by simp) _ _)
  induction es using sequence_induction generalizing previous above gate with
  | nil => exact absurd rfl hne
  | step s es ih =>
    exact hcons (.step s) es (fun _ _ => Outline.fits_node _ _) (ih h.tail) above gate
  | transition t es ih =>
    exact hcons (.transition t) es (fun _ _ => Outline.fits_node _ _) (ih h.tail) above gate
  | jump j es ih =>
    exact hcons (.jump j) es (fun _ _ => Outline.fits_jump _ _) (ih h.tail) above gate
  | divergence junction bs span endSpan es hbs ih =>
    have hdivergence : ∀ above gate,
        ((divergence junction bs span endSpan).outline above gate).Fits above :=
      fits_divergence fun b hb opening =>
        hbs b hb (h.branch hb).2 (h.branch hb).1.ne_nil [opening]
    exact hcons _ es hdivergence (ih h.tail) above gate

theorem fits_outline {strict : Bool} {previous : Option Element} {e : Element} {es : List Element}
    (h : ArePlaced strict previous (e :: es)) (above : List NodeId) (gate : Nat) :
    (e.outline above gate).Fits above := by
  cases e with
  | step s => exact Outline.fits_node _ _
  | transition t => exact Outline.fits_node _ _
  | jump j => exact Outline.fits_jump _ _
  | divergence junction bs span endSpan =>
    exact fits_divergence (fun b hb opening gate =>
      fits_outlineAll (h.branch hb).2 (h.branch hb).1.ne_nil [opening] gate) above gate

/-- The node that links to the element lead to. -/
def entry (gate : Nat) : Element → NodeId
  | step s => .step s.number
  | transition t => .transition t.number
  | jump j => .step j.target
  | divergence .. => .gate gate

/-- What the exits of whatever stands above a sequence are linked to. -/
def entriesOr (below : List NodeId) (gate : Nat) : List Element → List NodeId
  | [] => below
  | e :: _ => [e.entry gate]

theorem entries_outline (e : Element) (above : List NodeId) (gate : Nat) :
    (e.outline above gate).entries = [e.entry gate] := by
  cases e <;> rfl

end Element

/-! ### Regions -/

variable {α : Type}

/-- The part of a diagram that the outline describes is linked to the nodes `above` and `below` and
to steps that are targets of jumps, but to nothing else. -/
structure Diagram.Embeds (d : Diagram α) (o : Outline) (above below : List NodeId) : Prop where
  drawn : ∀ v ∈ o.nodes, ∃ n, d.node? v = some n
  nodup : o.nodes.Nodup
  fresh : ∀ v ∈ above, v ∉ o.nodes
  into : ∀ v ∈ o.nodes, (∀ n, v ≠ .step n) →
    ∀ a, a ∈ d.neighbours .backward v ↔ (a, v) ∈ o.links
  onward : ∀ v ∈ o.nodes,
    ∀ b, b ∈ d.neighbours .forward v ↔ (v, b) ∈ o.links ∨ v ∈ o.exits ∧ b ∈ below

namespace Diagram.Embeds

variable {d : Diagram α} {o p : Outline} {above below : List NodeId}

theorem stackLeft (h : d.Embeds (o.stack p) above below) (hp : p.Fits o.exits) :
    d.Embeds o above p.entries where
  drawn v hv := h.drawn v (List.mem_append_left _ hv)
  nodup := (List.nodup_append'.1 h.nodup).1
  fresh v hv hmem := h.fresh v hv (List.mem_append_left _ hmem)
  into v hv hstep a := by
    have hdisjoint : v ∉ p.nodes := (List.nodup_append'.1 h.nodup).2.2 hv
    rw [h.into v (List.mem_append_left _ hv) hstep a]
    exact List.mem_append.trans (or_iff_left (hp.not_mem_links_into hdisjoint hstep a))
  onward v hv b := by
    have hdisjoint : v ∉ p.nodes := (List.nodup_append'.1 h.nodup).2.2 hv
    rw [h.onward v (List.mem_append_left _ hv) b]
    constructor
    · rintro (hlink | ⟨hexit, -⟩)
      · rcases List.mem_append.1 hlink with hlink | hlink
        · exact .inl hlink
        · exact .inr ((hp.source v b hlink).resolve_left hdisjoint)
      · exact absurd (hp.exit v hexit) hdisjoint
    · rintro (hlink | ⟨hexit, hb⟩)
      · exact .inl (List.mem_append_left _ hlink)
      · exact .inl (List.mem_append_right _ (hp.entry v hexit b hb))

theorem stackRight (h : d.Embeds (o.stack p) above below) (ho : o.Fits above) :
    d.Embeds p o.exits below where
  drawn v hv := h.drawn v (List.mem_append_right _ hv)
  nodup := (List.nodup_append'.1 h.nodup).2.1
  fresh v hv := (List.nodup_append'.1 h.nodup).2.2 (ho.exit v hv)
  into v hv hstep a := by
    have hdisjoint : v ∉ o.nodes := by
      intro hv'
      exact (List.nodup_append'.1 h.nodup).2.2 hv' hv
    rw [h.into v (List.mem_append_right _ hv) hstep a]
    exact List.mem_append.trans (or_iff_right (ho.not_mem_links_into hdisjoint hstep a))
  onward v hv b := by
    have hdisjoint : v ∉ o.nodes := by
      intro hv'
      exact (List.nodup_append'.1 h.nodup).2.2 hv' hv
    rw [h.onward v (List.mem_append_right _ hv) b]
    have habove : v ∉ above := by
      intro hmem
      exact h.fresh v hmem (List.mem_append_right _ hv)
    exact or_congr_left
      (List.mem_append.trans (or_iff_right (ho.not_mem_links_from hdisjoint habove b)))

theorem besideLeft (h : d.Embeds (o.beside p) above below) (hp : p.Fits above) :
    d.Embeds o above below where
  drawn v hv := h.drawn v (List.mem_append_left _ hv)
  nodup := (List.nodup_append'.1 h.nodup).1
  fresh v hv hmem := h.fresh v hv (List.mem_append_left _ hmem)
  into v hv hstep a := by
    have hdisjoint : v ∉ p.nodes := (List.nodup_append'.1 h.nodup).2.2 hv
    rw [h.into v (List.mem_append_left _ hv) hstep a]
    exact List.mem_append.trans (or_iff_left (hp.not_mem_links_into hdisjoint hstep a))
  onward v hv b := by
    have hdisjoint : v ∉ p.nodes := (List.nodup_append'.1 h.nodup).2.2 hv
    rw [h.onward v (List.mem_append_left _ hv) b]
    have habove : v ∉ above := by
      intro hmem
      exact h.fresh v hmem (List.mem_append_left _ hv)
    have hlinks := hp.not_mem_links_from hdisjoint habove b
    have hexits : v ∉ p.exits := by
      intro hexit
      exact hdisjoint (hp.exit v hexit)
    exact or_congr (List.mem_append.trans (or_iff_left hlinks))
      (and_congr_left fun _ => List.mem_append.trans (or_iff_left hexits))

theorem beside_comm (h : d.Embeds (o.beside p) above below) :
    d.Embeds (p.beside o) above below where
  drawn v hv := h.drawn v (List.perm_append_comm.mem_iff.1 hv)
  nodup := List.perm_append_comm.nodup_iff.1 h.nodup
  fresh v hv hmem := h.fresh v hv (List.perm_append_comm.mem_iff.1 hmem)
  into v hv hstep a := by
    rw [h.into v (List.perm_append_comm.mem_iff.1 hv) hstep a]
    exact List.perm_append_comm.mem_iff
  onward v hv b := by
    rw [h.onward v (List.perm_append_comm.mem_iff.1 hv) b]
    exact or_congr List.perm_append_comm.mem_iff
      (and_congr_left fun _ => List.perm_append_comm.mem_iff)

theorem besideRight (h : d.Embeds (o.beside p) above below) (ho : o.Fits above) :
    d.Embeds p above below :=
  h.beside_comm.besideLeft ho

/-- A node that is no step is linked to what stands above it. -/
theorem mem_backward_node {id : NodeId} (h : d.Embeds (.node above id) above below)
    (hid : ∀ n, id ≠ .step n) (a : NodeId) : a ∈ d.neighbours .backward id ↔ a ∈ above := by
  rw [h.into id (by simp [Outline.node]) hid]
  simp [Outline.node]

/-- A node leads to what stands below it. -/
theorem mem_forward_node {id : NodeId} (h : d.Embeds (.node above id) above below) (b : NodeId) :
    b ∈ d.neighbours .forward id ↔ b ∈ below := by
  have hfresh : id ∉ above := by
    intro hmem
    exact h.fresh id hmem (by simp [Outline.node])
  rw [h.onward id (by simp [Outline.node])]
  simp [Outline.node, hfresh]

/-- A bar is a node. -/
theorem ofBar {index : Nat} (h : d.Embeds (.bar above index) above below) :
    d.Embeds (.node above (.gate index)) above below :=
  ⟨h.drawn, h.nodup, h.fresh, h.into, h.onward⟩

/-! #### The parts of a sequence -/

section Parts

variable {strict : Bool} {previous : Option Element} {gate : Nat} {e : Element} {es : List Element}

theorem head (h : d.Embeds (Element.outlineAll above gate (e :: es)) above below)
    (hplaced : Element.ArePlaced strict previous (e :: es)) :
    d.Embeds (e.outline above gate) above
      (Element.entriesOr below (gate + (e.outline above gate).gates) es) := by
  cases es with
  | nil => exact Element.outlineAll_singleton e ▸ h
  | cons e' es =>
    have hleft := stackLeft h (Element.fits_outlineAll hplaced.tail (by simp) _ _)
    rwa [Element.outlineAll_cons, Outline.stack, Element.entries_outline] at hleft

theorem rest (h : d.Embeds (Element.outlineAll above gate (e :: es)) above below)
    (hplaced : Element.ArePlaced strict previous (e :: es)) :
    d.Embeds (Element.outlineAll (e.outline above gate).exits
      (gate + (e.outline above gate).gates) es) (e.outline above gate).exits below :=
  stackRight h (Element.fits_outline hplaced above gate)

variable {junction : Junction} {bs : List Branch} {span endSpan : Span}

/-- The two bars of a divergence and what is between them. -/
theorem divergence
    (h : d.Embeds ((Element.divergence junction bs span endSpan).outline above gate) above below)
    (hplaced : Element.ArePlaced strict previous (.divergence junction bs span endSpan :: es)) :
    let inner := Branch.outlineAll (.gate gate) (gate + 1) bs
    let closing := gate + 1 + inner.gates
    d.Embeds (.node above (.gate gate)) above inner.entries ∧
      d.Embeds inner [.gate gate] [.gate closing] ∧
      d.Embeds (.node inner.exits (.gate closing)) inner.exits below := by
  intro inner closing
  have hinner : inner.Fits [.gate gate] := Branch.fits_outlineAll (fun b hb gate =>
    Element.fits_outlineAll (hplaced.branch hb).2 (hplaced.branch hb).1.ne_nil _ gate) _
  have hclosing := Outline.fits_bar inner.exits closing
  have hrest : d.Embeds (inner.stack (.bar inner.exits closing)) [.gate gate] below :=
    stackRight h (Outline.fits_bar above gate)
  exact ⟨(stackLeft h (hinner.stack hclosing)).ofBar, stackLeft hrest hclosing,
    (stackRight hrest hinner).ofBar⟩

theorem branch {opening : NodeId}
    (h : d.Embeds (Branch.outlineAll opening gate bs) [opening] below)
    (hfits : ∀ b ∈ bs, ∀ gate, (Element.outlineAll [opening] gate b.elements).Fits [opening])
    {b : Branch} (hb : b ∈ bs) :
    ∃ gate, d.Embeds (Element.outlineAll [opening] gate b.elements) [opening] below := by
  induction bs generalizing gate with
  | nil => cases hb
  | cons b' bs ih =>
    have hfirst : (b'.outline opening gate).Fits [opening] := by
      rw [Branch.outline_eq]
      exact hfits b' (by simp) gate
    have hothers : ∀ b ∈ bs, ∀ gate,
        (Element.outlineAll [opening] gate b.elements).Fits [opening] := fun b hb =>
      hfits b (by simp [hb])
    rcases List.mem_cons.1 hb with rfl | hb
    · refine ⟨gate, ?_⟩
      rw [← Branch.outline_eq]
      exact besideLeft h (Branch.fits_outlineAll hothers _)
    · exact ih (besideRight h hfirst) hothers hb

end Parts

end Diagram.Embeds

/-! ### The whole diagram -/

namespace Diagram

variable {d : Diagram α}

theorem mem_backward_iff {v a : NodeId} :
    a ∈ d.neighbours .backward v ↔ (a, v) ∈ d.connections.map (·.ends) := by
  simp [mem_neighbours_iff, Connection.ends, Direction.near, Direction.far, and_comm]

theorem mem_forward_iff {v b : NodeId} :
    b ∈ d.neighbours .forward v ↔ (v, b) ∈ d.connections.map (·.ends) := by
  simp [mem_neighbours_iff, Connection.ends, Direction.near, Direction.far]

theorem exists_node {v : NodeId} (h : v ∈ d.nodes.map (·.id)) : ∃ n, d.node? v = some n := by
  obtain ⟨n, hn, hid⟩ := List.mem_map.1 h
  cases hfound : d.node? v with
  | some n => exact ⟨n, rfl⟩
  | none =>
    have := List.find?_eq_none.1 hfound n (List.mem_reverse.2 hn)
    simp [hid] at this

theorem map_id_nodes (d : Diagram α) : d.nodes.map (·.id) =
    (d.steps.map (·.number)).map .step ++ (d.transitions.map (·.number)).map .transition ++
      (d.gates.map (·.index)).map .gate := by
  simp [nodes, Node.id, StepNode.id, TransitionNode.id, GateNode.id, Function.comp_def]

/-- No two nodes have one identifier if no two steps and no two transitions have one number. -/
theorem Shows.nodup {c : Chart} (h : d.Shows c) (hsteps : (Element.stepNumbers c.walk).Nodup)
    (htransitions : (Element.transitionNumbers c.walk).Nodup) : (d.nodes.map (·.id)).Nodup := by
  rw [map_id_nodes, h.steps, h.transitions, h.gates]
  refine List.nodup_append'.2 ⟨List.nodup_append'.2 ⟨?_, ?_, ?_⟩, ?_, ?_⟩
  · exact hsteps.map fun _ _ => NodeId.step.inj
  · exact htransitions.map fun _ _ => NodeId.transition.inj
  · simp [List.disjoint_left]
  · exact List.Nodup.map (fun _ _ => NodeId.gate.inj) List.nodup_range'
  · simp only [List.disjoint_left, List.mem_append, List.mem_map]
    rintro _ (⟨_, _, rfl⟩ | ⟨_, _, rfl⟩) ⟨_, _, h⟩ <;> cases h

theorem Shows.embeds {c : Chart} (h : d.Shows c) (hsteps : (Element.stepNumbers c.walk).Nodup)
    (htransitions : (Element.transitionNumbers c.walk).Nodup) : d.Embeds c.outline [] [] where
  drawn v hv := exists_node (h.nodes.mem_iff.2 hv)
  nodup := h.nodes.nodup_iff.1 (h.nodup hsteps htransitions)
  fresh := nofun
  into v _ _ a := mem_backward_iff.trans h.links.mem_iff
  onward v _ b := (mem_forward_iff.trans h.links.mem_iff).trans (by simp)

end Diagram

/-! ### Transitions are entered once -/

def NodeId.isTransition : NodeId → Bool
  | transition _ => true
  | _ => false

namespace Outline

/-- The transitions that links lead to, once for every link. -/
def enteredTransitions (o : Outline) : List NodeId :=
  (o.links.map Prod.snd).filter NodeId.isTransition

/-- Every transition is entered at most once, and no other ones are. -/
def EntersOnce (o : Outline) : Prop := o.enteredTransitions.Sublist o.nodes

variable {o p : Outline}

theorem enteredTransitions_append (ls ms : List (NodeId × NodeId)) :
    ((ls ++ ms).map Prod.snd).filter NodeId.isTransition =
      (ls.map Prod.snd).filter NodeId.isTransition ++
        (ms.map Prod.snd).filter NodeId.isTransition := by
  simp

theorem EntersOnce.stack (ho : o.EntersOnce) (hp : p.EntersOnce) : (o.stack p).EntersOnce := by
  unfold EntersOnce enteredTransitions at *
  simp only [Outline.stack, enteredTransitions_append]
  exact ho.append hp

theorem EntersOnce.beside (ho : o.EntersOnce) (hp : p.EntersOnce) : (o.beside p).EntersOnce := by
  unfold EntersOnce enteredTransitions at *
  simp only [Outline.beside, enteredTransitions_append]
  exact ho.append hp

theorem map_snd_link (above : List NodeId) (v : NodeId) :
    (link above v).map Prod.snd = List.replicate above.length v := by
  simp [link, Function.comp_def]

theorem entersOnce_node {above : List NodeId} (h : above.length ≤ 1) (v : NodeId) :
    (node above v).EntersOnce := by
  unfold EntersOnce enteredTransitions
  simp only [node, map_snd_link]
  exact List.filter_sublist.trans (List.replicate_sublist_iff.2 (by simpa using h))

theorem entersOnce_bar (above : List NodeId) (index : Nat) : (bar above index).EntersOnce := by
  unfold EntersOnce enteredTransitions
  simp [bar, node, map_snd_link, NodeId.isTransition]

theorem entersOnce_jump (above : List NodeId) (n : Nat) : (jump above n).EntersOnce := by
  unfold EntersOnce enteredTransitions
  simp [jump, map_snd_link, NodeId.isTransition]

end Outline

theorem Branch.entersOnce_outlineAll (opening : NodeId) {bs : List Branch}
    (h : ∀ b ∈ bs, ∀ gate, (Element.outlineAll [opening] gate b.elements).EntersOnce)
    (gate : Nat) : (Branch.outlineAll opening gate bs).EntersOnce := by
  induction bs generalizing gate with
  | nil => exact List.nil_sublist _
  | cons b bs ih =>
    have hb := h b (by simp) gate
    rw [← Branch.outline_eq] at hb
    exact hb.beside (ih (fun b hb => h b (by simp [hb])) _)

theorem Element.entersOnce_outlineAll (es : List Element) {above : List NodeId}
    (habove : above.length ≤ 1) (gate : Nat) : (Element.outlineAll above gate es).EntersOnce := by
  induction es using Element.sequence_induction generalizing above gate with
  | nil => exact List.nil_sublist _
  | step s es ih => exact (Outline.entersOnce_node habove _).stack (ih le_rfl _)
  | transition t es ih => exact (Outline.entersOnce_node habove _).stack (ih le_rfl _)
  | jump j es ih =>
    exact (Outline.entersOnce_jump above j.target).stack (ih (by exact Nat.zero_le 1) _)
  | divergence junction bs span endSpan es hbs ih =>
    have hinner := Branch.entersOnce_outlineAll (.gate gate)
      (fun b hb gate => hbs b hb (by simp) gate) (gate + 1)
    exact ((Outline.entersOnce_bar _ _).stack (hinner.stack (Outline.entersOnce_bar _ _))).stack
      (ih le_rfl _)

/-- All connections into a transition come from one node. -/
theorem Diagram.Shows.unambiguous {d : Diagram α} {c : Chart} (h : d.Shows c)
    (hsteps : (Element.stepNumbers c.walk).Nodup)
    (htransitions : (Element.transitionNumbers c.walk).Nodup) : d.Unambiguous := by
  have hnodes := h.nodes.nodup_iff.1 (h.nodup hsteps htransitions)
  have honce : c.outline.enteredTransitions.Nodup :=
    (Element.entersOnce_outlineAll c.elements (by simp) 0).nodup hnodes
  have hentered : ((d.connections.map (·.ends)).filter fun l => l.2.isTransition).map Prod.snd =
      ((d.connections.map (·.ends)).map Prod.snd).filter NodeId.isTransition := by
    rw [List.filter_map (f := Prod.snd)]
    rfl
  have hinj := List.inj_on_of_nodup_map
    (hentered ▸ ((h.links.map Prod.snd).filter _).nodup_iff.2 honce)
  rintro l hl l' hl' htarget ⟨t, ht⟩
  have hid : l.target.isTransition := by
    have := (mem_nodes_of_node? ht).2
    rw [← this]
    rfl
  have hmem : ∀ k ∈ d.connections, k.target = l.target →
      k.ends ∈ (d.connections.map (·.ends)).filter fun l => l.2.isTransition := by
    intro k hk htarget
    refine List.mem_filter.2 ⟨List.mem_map_of_mem hk, ?_⟩
    rw [← hid, ← htarget]
    rfl
  exact congrArg Prod.fst (hinj (hmem l hl rfl) (hmem l' hl' htarget.symm) htarget)

end SequentialChart
