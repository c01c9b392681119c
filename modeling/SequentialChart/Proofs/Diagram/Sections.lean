import Mathlib
import SequentialChart.Proofs.Chart.Places
import SequentialChart.Proofs.Diagram.Bars

/-!
# The sections of a diagram

A chart is a tree, its diagram consists of flat lists of nodes, one for each kind. The tree can be
found in them again: each sequence is drawn as a part of every list, and a divergence as a section,
that is, a bar, the parts of its branches one after the other, and another bar.

## Main definitions

* `Part` — nodes by kind, in the order in which they were placed.
* `Section` — the bars of a divergence and what stands between them, branch by branch.
* `Element.AreMirroredBy` — a part shows the elements of a sequence, and all of its sections have a
  property.
* `Section.IsLevel` — the branches begin at one height.

## Main statements

* `Element.areMirroredBy_placeAll` — what is drawn of a sequence mirrors it, with every property
  that the sections have wherever they are drawn.
* `Element.AreMirroredBy.lists` — no step and no transition is lost, doubled or exchanged.
* `Chart.mirrors_of_draw` — the diagram of a chart mirrors it.
-/

namespace SequentialChart

variable {α : Type}

/-! ### Parts and sections -/

/-- The nodes of a part of a diagram, in the order in which they were placed. -/
structure Part (α : Type) where
  steps : List (StepNode α) := []
  transitions : List (TransitionNode α) := []
  gates : List (GateNode α) := []

namespace Part

/-- One part after another. -/
def append (p q : Part α) : Part α where
  steps := p.steps ++ q.steps
  transitions := p.transitions ++ q.transitions
  gates := p.gates ++ q.gates

instance : Append (Part α) := ⟨append⟩

@[simp] theorem steps_append (p q : Part α) : (p ++ q).steps = p.steps ++ q.steps := rfl

@[simp] theorem transitions_append (p q : Part α) :
    (p ++ q).transitions = p.transitions ++ q.transitions := rfl

@[simp] theorem gates_append (p q : Part α) : (p ++ q).gates = p.gates ++ q.gates := rfl

/-- A single bar. -/
def bar (g : GateNode α) : Part α := { gates := [g] }

/-- Parts one after the other. -/
def join (ps : List (Part α)) : Part α := ps.foldr (· ++ ·) {}

@[simp] theorem join_nil : join ([] : List (Part α)) = {} := rfl

@[simp] theorem join_cons (p : Part α) (ps : List (Part α)) : join (p :: ps) = p ++ join ps := rfl

/-- The steps and transitions of a part. -/
def leaves (p : Part α) : List (Node α) := p.steps.map .step ++ p.transitions.map .transition

/-- All nodes of a part. -/
def nodes (p : Part α) : List (Node α) := p.leaves ++ p.gates.map .gate

theorem leaves_subset_nodes (p : Part α) : p.leaves ⊆ p.nodes := List.subset_append_left _ _

theorem mem_leaves_append {p q : Part α} {n : Node α} :
    n ∈ (p ++ q).leaves ↔ n ∈ p.leaves ∨ n ∈ q.leaves := by
  simp only [leaves, steps_append, transitions_append, List.map_append, List.mem_append]
  tauto

theorem mem_nodes_append {p q : Part α} {n : Node α} :
    n ∈ (p ++ q).nodes ↔ n ∈ p.nodes ∨ n ∈ q.nodes := by
  simp only [nodes, gates_append, List.map_append, List.mem_append, mem_leaves_append]
  tauto

theorem nodes_subset_append_left (p q : Part α) : p.nodes ⊆ (p ++ q).nodes :=
  fun _ hn => mem_nodes_append.2 (.inl hn)

theorem nodes_subset_append_right (p q : Part α) : q.nodes ⊆ (p ++ q).nodes :=
  fun _ hn => mem_nodes_append.2 (.inr hn)

theorem nodes_subset_join {p : Part α} {ps : List (Part α)} (hp : p ∈ ps) :
    p.nodes ⊆ (join ps).nodes := by
  induction ps with
  | nil => cases hp
  | cons q ps ih =>
    rcases List.mem_cons.1 hp with rfl | hp
    · exact nodes_subset_append_left p _
    · exact List.Subset.trans (ih hp) (nodes_subset_append_right q _)

end Part

/-- The nodes of a drawing. -/
def Drawing.part (d : Drawing α) : Part α := ⟨d.steps, d.transitions, d.gates⟩

/-- The nodes of a diagram. -/
def Diagram.whole (d : Diagram α) : Part α := ⟨d.steps, d.transitions, d.gates⟩

@[simp] theorem Drawing.part_append (d e : Drawing α) : (d ++ e).part = d.part ++ e.part := rfl

/-- A divergence as it is drawn. -/
structure Section (α : Type) where
  junction : Junction
  branches : List Branch
  opening : GateNode α
  /-- What is drawn of each branch. -/
  parts : List (Part α)
  closing : GateNode α

namespace Section

/-- All nodes of a section. -/
def whole (sec : Section α) : Part α := .bar sec.opening ++ Part.join sec.parts ++ .bar sec.closing

theorem steps_whole (sec : Section α) : sec.whole.steps = (Part.join sec.parts).steps := by
  simp [whole, Part.bar]

theorem transitions_whole (sec : Section α) :
    sec.whole.transitions = (Part.join sec.parts).transitions := by
  simp [whole, Part.bar]

theorem nodes_subset_whole (sec : Section α) {p : Part α} (hp : p ∈ sec.parts) :
    p.nodes ⊆ sec.whole.nodes := by
  refine List.Subset.trans (Part.nodes_subset_join hp) (List.Subset.trans ?_
    (Part.nodes_subset_append_left _ _))
  exact Part.nodes_subset_append_right _ _

/-- The bars of a section tell what divergence it is. -/
structure IsFramed (sec : Section α) : Prop where
  opening : sec.opening.shape = (sec.junction, .divergence, sec.branches.length)
  closing : sec.closing.shape = (sec.junction, .convergence, sec.branches.length)

/-- The bars of a section stand one above the other and are of equal size. -/
structure IsAligned (sec : Section α) : Prop where
  left : sec.closing.position.x = sec.opening.position.x
  size : sec.closing.size = sec.opening.size

end Section

/-- The top of the node that an element is drawn as, if it is the first one of a part. -/
def Part.firstTop? [Length α] (p : Part α) : Element → Option α
  | .step _ => p.steps.head?.map (·.bounds.top)
  | .transition _ => p.transitions.head?.map (·.bounds.top)
  | .divergence .. => p.gates.head?.map (·.bounds.top)
  | .jump _ => none

/-- The first nodes of all branches have their tops at one height, unless a branch begins with a
jump. -/
def Section.IsLevel [Length α] (sec : Section α) : Prop :=
  (∀ b ∈ sec.branches, ¬ b.elements.head?.any Element.isJump) →
    ∃ top, ∀ r ∈ sec.branches.zip sec.parts, ∀ e ∈ r.1.elements.head?, r.2.firstTop? e = some top

/-! ### What mirrors a chart -/

/-- A node shows a step with all that is written about it. -/
structure StepNode.IsOf (n : StepNode α) (s : Step) : Prop where
  number : n.number = s.number
  kind : n.kind = s.kind
  label : n.label = s.label
  actions : n.actions = s.actions.map (·.value)
  linkedFile : n.linkedFile = s.linkedFile

/-- A node shows a transition with all that is written about it. -/
structure TransitionNode.IsOf (n : TransitionNode α) (t : Transition) : Prop where
  number : n.number = t.number
  condition : n.condition = t.condition

mutual

/-- The part shows the element, and every section of it has the property `P`. -/
def Element.IsMirroredBy (P : Section α → Prop) (p : Part α) : Element → Prop
  | .step s => ∃ n : StepNode α, n.IsOf s ∧ p = { steps := [n] }
  | .transition t => ∃ n : TransitionNode α, n.IsOf t ∧ p = { transitions := [n] }
  | .jump _ => p = {}
  | .divergence junction branches _ _ => ∃ opening parts closing,
      p = Section.whole ⟨junction, branches, opening, parts, closing⟩ ∧
      Section.IsFramed ⟨junction, branches, opening, parts, closing⟩ ∧
      P ⟨junction, branches, opening, parts, closing⟩ ∧ Branch.AreMirroredBy P parts branches

/-- The part shows the elements of a sequence, one after the other. -/
def Element.AreMirroredBy (P : Section α → Prop) (p : Part α) : List Element → Prop
  | [] => p = {}
  | e :: es => ∃ q r, p = q ++ r ∧ e.IsMirroredBy P q ∧ Element.AreMirroredBy P r es

/-- The part shows the branch. -/
def Branch.IsMirroredBy (P : Section α → Prop) (p : Part α) : Branch → Prop
  | .mk elements _ => Element.AreMirroredBy P p elements

/-- Each part shows a branch. -/
def Branch.AreMirroredBy (P : Section α → Prop) (ps : List (Part α)) : List Branch → Prop
  | [] => ps = []
  | b :: bs => ∃ q qs, ps = q :: qs ∧ b.IsMirroredBy P q ∧ Branch.AreMirroredBy P qs bs

end

/-! ### What can be read off a part -/

/-- The identifiers of the steps and the transitions among elements. -/
def Element.leafIds (es : List Element) : List NodeId :=
  (stepNumbers es).map .step ++ (transitionNumbers es).map .transition

/-- The steps and transitions of a part are those among the elements, in their order. -/
structure Part.Lists (p : Part α) (es : List Element) : Prop where
  steps : List.Forall₂ StepNode.IsOf p.steps (es.filterMap Element.step?)
  transitions : List.Forall₂ TransitionNode.IsOf p.transitions (es.filterMap Element.transition?)

namespace Part.Lists

variable {p q : Part α} {es fs : List Element}

theorem nil : Part.Lists ({} : Part α) [] := ⟨.nil, .nil⟩

theorem append (hp : p.Lists es) (hq : q.Lists fs) : (p ++ q).Lists (es ++ fs) where
  steps := by
    rw [List.filterMap_append]
    exact List.rel_append hp.steps hq.steps
  transitions := by
    rw [List.filterMap_append]
    exact List.rel_append hp.transitions hq.transitions

/-- The steps and transitions of a part bear the identifiers of those among the elements. -/
theorem map_id_leaves (h : p.Lists es) : p.leaves.map Node.id = Element.leafIds es := by
  have hsteps : p.steps.map (·.number) = Element.stepNumbers es :=
    List.forall₂_eq_eq_eq ▸ List.forall₂_map_left_iff.2
      (List.forall₂_map_right_iff.2 (h.steps.imp fun _ _ hn => hn.number))
  have htransitions : p.transitions.map (·.number) = Element.transitionNumbers es :=
    List.forall₂_eq_eq_eq ▸ List.forall₂_map_left_iff.2
      (List.forall₂_map_right_iff.2 (h.transitions.imp fun _ _ hn => hn.number))
  simp only [Part.leaves, Element.leafIds, ← hsteps, ← htransitions, List.map_append, List.map_map]
  rfl

end Part.Lists

section Mirrored

variable {P : Section α → Prop}

theorem Branch.AreMirroredBy.lists {bs : List Branch}
    (h : ∀ b ∈ bs, ∀ p : Part α, Element.AreMirroredBy P p b.elements →
      p.Lists (Element.walkAll b.elements)) {ps : List (Part α)} (hps : AreMirroredBy P ps bs) :
    (Part.join ps).Lists (walkBranches bs) := by
  induction bs generalizing ps with
  | nil =>
    rw [AreMirroredBy] at hps
    rw [hps]
    exact .nil
  | cons b bs ih =>
    obtain ⟨elements, span⟩ := b
    obtain ⟨q, qs, rfl, hq, hqs⟩ := hps
    exact (h _ List.mem_cons_self q hq).append
      (ih (fun b hb => h b (List.mem_cons_of_mem _ hb)) hqs)

/-- The nodes that mirror a sequence are those of its elements. -/
theorem Element.AreMirroredBy.lists {es : List Element} {p : Part α}
    (h : AreMirroredBy P p es) : p.Lists (walkAll es) := by
  have hcons : ∀ {e : Element} {es : List Element} {p : Part α},
      AreMirroredBy P p (e :: es) → (∀ q, e.IsMirroredBy P q → q.Lists e.walk) →
      (∀ q, AreMirroredBy P q es → q.Lists (walkAll es)) → p.Lists (walkAll (e :: es)) := by
    rintro e es p ⟨q, r, rfl, hq, hr⟩ he hes
    exact (he q hq).append (hes r hr)
  induction es using sequence_induction generalizing p with
  | nil =>
    rw [AreMirroredBy] at h
    rw [h]
    exact .nil
  | step s es ih =>
    refine hcons h ?_ fun q hq => ih hq
    rintro q ⟨n, hn, rfl⟩
    exact ⟨.cons hn .nil, .nil⟩
  | transition t es ih =>
    refine hcons h ?_ fun q hq => ih hq
    rintro q ⟨n, hn, rfl⟩
    exact ⟨.nil, .cons hn .nil⟩
  | jump j es ih =>
    refine hcons h ?_ fun q hq => ih hq
    rintro q hq
    rw [IsMirroredBy] at hq
    exact hq ▸ ⟨.nil, .nil⟩
  | divergence junction bs span endSpan es hbs ih =>
    refine hcons h ?_ fun q hq => ih hq
    rintro q ⟨opening, parts, closing, rfl, -, -, hparts⟩
    have hinner := Branch.AreMirroredBy.lists (fun b hb p hp => hbs b hb hp) hparts
    refine ⟨?_, ?_⟩
    · rw [Section.steps_whole]
      exact hinner.steps
    · rw [Section.transitions_whole]
      exact hinner.transitions

theorem Branch.AreMirroredBy.exists_mem {bs : List Branch} {ps : List (Part α)}
    (h : AreMirroredBy P ps bs) {b : Branch} (hb : b ∈ bs) :
    ∃ p ∈ ps, Element.AreMirroredBy P p b.elements := by
  induction bs generalizing ps with
  | nil => cases hb
  | cons b' bs ih =>
    obtain ⟨elements, span⟩ := b'
    obtain ⟨q, qs, rfl, hq, hqs⟩ := h
    rcases List.mem_cons.1 hb with rfl | hb
    · exact ⟨q, List.mem_cons_self, hq⟩
    · obtain ⟨p, hp, hmirrored⟩ := ih hqs hb
      exact ⟨p, List.mem_cons_of_mem _ hp, hmirrored⟩

/-- Every divergence of a sequence, at any depth, is shown by a section. -/
theorem Element.AreMirroredBy.exists_section {es : List Element} {p : Part α}
    (h : AreMirroredBy P p es) {junction : Junction} {bs : List Branch} {span endSpan : Span}
    (hd : divergence junction bs span endSpan ∈ walkAll es) :
    ∃ sec : Section α, sec.branches = bs ∧ P sec ∧ sec.whole.nodes ⊆ p.nodes := by
  have htail : ∀ {e : Element} {es : List Element} {p : Part α}, AreMirroredBy P p (e :: es) →
      (∀ q, AreMirroredBy P q es →
        ∃ sec : Section α, sec.branches = bs ∧ P sec ∧ sec.whole.nodes ⊆ q.nodes) →
      ∃ sec : Section α, sec.branches = bs ∧ P sec ∧ sec.whole.nodes ⊆ p.nodes := by
    rintro e es p ⟨q, r, rfl, hq, hr⟩ hes
    obtain ⟨sec, hbranches, hsec, hnodes⟩ := hes r hr
    exact ⟨sec, hbranches, hsec, List.Subset.trans hnodes (Part.nodes_subset_append_right q r)⟩
  induction es using sequence_induction generalizing p with
  | nil => cases hd
  | step s es ih | transition s es ih | jump s es ih =>
    exact htail h fun q hq => ih hq (by simpa [walkAll, walk] using hd)
  | divergence junction' bs' span' endSpan' es hbs ih =>
    obtain ⟨q, r, rfl, ⟨opening, parts, closing, rfl, -, hsec, hparts⟩, hr⟩ := id h
    let outer : Section α := ⟨junction', bs', opening, parts, closing⟩
    have houter : outer.whole.nodes ⊆ (outer.whole ++ r).nodes :=
      Part.nodes_subset_append_left _ r
    rcases List.mem_append.1 hd with hd | hd
    · rcases List.mem_cons.1 hd with hd | hd
      · cases hd
        exact ⟨outer, rfl, hsec, houter⟩
      · -- the divergence stands within one of the branches
        obtain ⟨b, hb, hd⟩ := Branch.mem_walkBranches_iff.1 hd
        obtain ⟨part, hpart, hmirrored⟩ := hparts.exists_mem hb
        obtain ⟨sec, hbranches, hinner, hnodes⟩ := hbs b hb hmirrored hd
        exact ⟨sec, hbranches, hinner,
          List.Subset.trans hnodes (List.Subset.trans (outer.nodes_subset_whole hpart) houter)⟩
    · exact htail h fun q hq => ih hq hd

end Mirrored

/-! ### Placing -/

variable [Length α]

/-- The height at which the branches below a bar begin. -/
def Column.branchTop (s : Spacing α) (c : Column α) (junction : Junction) (opening : Anchor α) : α :=
  match junction with
  | .and => opening.bounds.bottom + s.transitionToStep
  | .or => c.baseline + Length.larger s.stepToTransition (opening.bounds.bottom - c.baseline)

theorem Column.enter_branch (s : Spacing α) (c : Column α) (junction : Junction)
    (opening : Anchor α) (centerX : α) (e : Element) (next : Option Element) :
    ((c.branch s junction opening centerX).enter s e next).2 = c.branchTop s junction opening := by
  cases junction <;> rfl

/-- What is drawn of each branch. -/
def Branch.partsAll (s : Spacing α) (column : α → Column α) (gate : Nat) :
    List Branch → List α → List (Part α)
  | b :: bs, centerX :: centers =>
    let first := (b.place s (column centerX) gate).1
    first.part :: Branch.partsAll s column (gate + first.gates.length) bs centers
  | _, _ => []

/-- The section that a divergence is drawn as, with its top at `top`. -/
def Section.place (s : Spacing α) (c : Column α) (top : α) (gate : Nat) (junction : Junction)
    (branches : List Branch) : Section α :=
  let widths := Branch.widths s branches
  let size := gateSize s junction widths c.centerX
  let left := c.centerX - Length.half size.width
  let opening : GateNode α :=
    { index := gate, junction, mode := .divergence, branchCount := branches.length,
      position := ⟨left, top⟩, size }
  let column := c.branch s junction opening.anchor
  let centers := s.branchCenters c.centerX widths
  let (inner, ends) := Branch.placeAll s column (gate + 1) branches centers
  let bottom := ends.foldl (fun b e => Length.larger b e.bottom) opening.bounds.bottom
  { junction, branches, opening
    parts := Branch.partsAll s column (gate + 1) branches centers
    closing :=
      { index := gate + 1 + inner.gates.length, junction, mode := .convergence,
        branchCount := branches.length, position := ⟨left, bottom + s.gateOffset junction⟩, size } }

section Place

variable {s : Spacing α} {c : Column α} {gate : Nat}

theorem Branch.part_placeAll (column : α → Column α) (gate : Nat) (bs : List Branch)
    (centers : List α) : (placeAll s column gate bs centers).1.part =
      Part.join (partsAll s column gate bs centers) := by
  induction bs generalizing gate centers with
  | nil => rfl
  | cons b bs ih =>
    cases centers with
    | nil => rfl
    | cons x centers =>
      simp only [placeAll, partsAll, Drawing.part_append, Part.join_cons, ih]

/-- A divergence is drawn as a section. -/
theorem Element.part_place_divergence {next : Option Element} {junction : Junction}
    {bs : List Branch} {span endSpan : Span} :
    ((Element.divergence junction bs span endSpan).place s c gate next).1.part =
      (Section.place s { c with entryGap := none }
        (c.enter s (.divergence junction bs span endSpan) next).2 gate junction bs).whole := by
  simp only [place, Section.whole, Drawing.part_append, Branch.part_placeAll]
  rfl

theorem Section.isFramed_place (c : Column α) (top : α) (gate : Nat) (junction : Junction)
    (bs : List Branch) : (Section.place s c top gate junction bs).IsFramed := ⟨rfl, rfl⟩

theorem Section.isAligned_place (c : Column α) (top : α) (gate : Nat) (junction : Junction)
    (bs : List Branch) : (Section.place s c top gate junction bs).IsAligned := ⟨rfl, rfl⟩

/-- The first nodes of all branches are placed at the height at which the branches begin. -/
theorem Branch.firstTop?_partsAll {column : α → Column α} {top : α}
    (hcolumn : ∀ x e next, ((column x).enter s e next).2 = top) {bs : List Branch}
    (hbs : ∀ b ∈ bs, ¬ b.elements.head?.any Element.isJump) (gate : Nat) (centers : List α) :
    ∀ r ∈ bs.zip (partsAll s column gate bs centers), ∀ e ∈ r.1.elements.head?,
      r.2.firstTop? e = some top := by
  induction bs generalizing gate centers with
  | nil => simp
  | cons b bs ih =>
    cases centers with
    | nil => simp [partsAll]
    | cons x centers =>
      rw [partsAll, List.zip_cons_cons, List.forall_mem_cons]
      refine ⟨?_, ih (fun b hb => hbs b (List.mem_cons_of_mem _ hb)) _ _⟩
      obtain ⟨elements, span⟩ := b
      have hfirst := hbs _ List.mem_cons_self
      intro e he
      obtain ⟨rest, rfl⟩ := List.head?_eq_some_iff.1 he
      have htop := hcolumn x e rest.head?
      cases e with
      | jump j => simp [Element.isJump] at hfirst
      | step | transition | divergence => exact congrArg some htop

theorem Section.isLevel_place (c : Column α) (top : α) (gate : Nat) (junction : Junction)
    (bs : List Branch) : (Section.place s c top gate junction bs).IsLevel :=
  fun hbs => ⟨_, Branch.firstTop?_partsAll (c.enter_branch s junction _) hbs _ _⟩

variable {P : Section α → Prop}

theorem Branch.areMirroredBy_partsAll {column : α → Column α} {bs : List Branch}
    (h : ∀ b ∈ bs, ∀ (c : Column α) (gate : Nat),
      Element.AreMirroredBy P (Element.placeAll s c gate b.elements).1.part b.elements)
    (gate : Nat) {centers : List α} (hlength : centers.length = bs.length) :
    AreMirroredBy P (partsAll s column gate bs centers) bs := by
  induction bs generalizing gate centers with
  | nil => rfl
  | cons b bs ih =>
    obtain ⟨elements, span⟩ := b
    cases centers with
    | nil => cases hlength
    | cons x centers =>
      exact ⟨_, _, rfl, h _ List.mem_cons_self _ _,
        ih (fun b hb => h b (List.mem_cons_of_mem _ hb)) _ (Nat.succ.inj hlength)⟩

/-- What is drawn of a sequence mirrors it, and its sections have every property that the sections of
its divergences have wherever they are placed. -/
theorem Element.areMirroredBy_placeAll {es : List Element}
    (hP : ∀ junction bs span endSpan, divergence junction bs span endSpan ∈ walkAll es →
      ∀ c top gate, P (Section.place s c top gate junction bs)) (c : Column α) (gate : Nat) :
    AreMirroredBy P (placeAll s c gate es).1.part es := by
  have hcons : ∀ {e : Element} {es : List Element} {c : Column α} {gate : Nat},
      e.IsMirroredBy P (e.place s c gate es.head?).1.part →
      (∀ c gate, AreMirroredBy P (placeAll s c gate es).1.part es) →
      AreMirroredBy P (placeAll s c gate (e :: es)).1.part (e :: es) :=
    fun he hes => ⟨_, _, rfl, he, hes _ _⟩
  have htail : ∀ {e : Element} {es : List Element}, (walkAll es).Sublist (walkAll (e :: es)) :=
    List.sublist_append_right _ _
  induction es using sequence_induction generalizing c gate with
  | nil => rfl
  | step step es ih =>
    refine hcons ⟨_, ⟨rfl, rfl, rfl, rfl, rfl⟩, rfl⟩ (ih fun _ _ _ _ hd => ?_)
    exact hP _ _ _ _ (htail.subset hd)
  | transition t es ih =>
    refine hcons ⟨_, ⟨rfl, rfl⟩, rfl⟩ (ih fun _ _ _ _ hd => ?_)
    exact hP _ _ _ _ (htail.subset hd)
  | jump j es ih =>
    refine hcons rfl (ih fun _ _ _ _ hd => ?_)
    exact hP _ _ _ _ (htail.subset hd)
  | divergence junction bs span endSpan es hbs ih =>
    refine hcons ?_ (ih fun _ _ _ _ hd => hP _ _ _ _ (htail.subset hd))
    have hlength : ∀ centerX : α, (s.branchCenters centerX (Branch.widths s bs)).length =
        bs.length := fun centerX => by rw [length_branchCenters, Branch.length_widths]
    refine ⟨_, _, _, part_place_divergence, Section.isFramed_place _ _ _ _ _,
      hP _ _ _ _ List.mem_cons_self _ _ _, Branch.areMirroredBy_partsAll ?_ _ (hlength _)⟩
    exact fun b hb => hbs b hb fun _ _ _ _ hd =>
      hP _ _ _ _ ((walkAll_sublist_branch hb).subset hd)

/-- What is drawn of a sequence are its steps and transitions. -/
theorem Element.lists_placeAll (s : Spacing α) (es : List Element) (c : Column α) (gate : Nat) :
    (placeAll s c gate es).1.part.Lists (walkAll es) :=
  (areMirroredBy_placeAll (P := fun _ => True) (fun _ _ _ _ _ _ _ _ => trivial) c gate).lists

end Place

/-! ### Diagrams -/

namespace Chart

variable {c : Chart} {s : Spacing α} {d : Diagram α}

/-- The nodes of a diagram are those of the drawing without jumps. -/
theorem whole_of_draw (h : c.draw s = .ok d) : d.whole = (c.drawing s).part := by
  cases hjumps : (c.drawing s).routeJumps s.jumpMargin with
  | error e => simp [draw, hjumps, bind, Except.bind] at h
  | ok lines =>
    simp only [draw, hjumps, bind, Except.bind, pure, Except.pure, Except.ok.injEq] at h
    exact h ▸ rfl

/-- The diagram of a chart mirrors it, with every property that the sections of its divergences have
wherever they are placed. -/
theorem areMirroredBy_of_draw (h : c.draw s = .ok d) {P : Section α → Prop}
    (hP : ∀ junction bs span endSpan, .divergence junction bs span endSpan ∈ c.walk →
      ∀ c top gate, P (Section.place s c top gate junction bs)) :
    Element.AreMirroredBy P d.whole c.elements :=
  whole_of_draw h ▸ Element.areMirroredBy_placeAll hP (trunk s) 0

theorem map_index_of_draw (h : c.draw s = .ok d) :
    d.gates.map (·.index) = List.range d.gates.length := by
  have hdrawing := c.realizes_drawing s
  have hgates : d.gates = (c.drawing s).gates := congrArg Part.gates (whole_of_draw h)
  rw [hgates, hdrawing.gates, hdrawing.length_gates, List.range_eq_range']

/-- A diagram has the steps and the transitions of its chart, in document order and with all that is
written about them; its gates are numbered through. Read as brackets, they are the tree of the
divergences: the two bars of each have the same left edge and the same size, and all its branches
begin at the same height, unless one begins with a jump. -/
theorem mirrors_of_draw (h : c.draw s = .ok d) :
    List.Forall₂ StepNode.IsOf d.steps c.steps ∧
      List.Forall₂ TransitionNode.IsOf d.transitions c.transitions ∧
      d.gates.map (·.id.text) = (List.range d.gates.length).map ("G" ++ Nat.repr ·) ∧
      d.gates.map GateNode.shape = c.bars.map Bar.shape ∧
      Element.AreMirroredBy (fun sec => sec.IsAligned ∧ sec.IsLevel) d.whole c.elements := by
  have hmirrored : Element.AreMirroredBy (fun sec => sec.IsAligned ∧ sec.IsLevel) d.whole
      c.elements :=
    areMirroredBy_of_draw h fun junction bs _ _ _ c top gate =>
      ⟨Section.isAligned_place c top gate junction bs, Section.isLevel_place c top gate junction bs⟩
  refine ⟨hmirrored.lists.steps, hmirrored.lists.transitions, ?_, map_shape_of_draw h, hmirrored⟩
  rw [← map_index_of_draw h, List.map_map]
  rfl

end Chart

/-- A chart that breaks the rules: one of its branches begins with a divergence, another one is
empty, and a step number occurs twice. -/
def forkAtOnce : String :=
  "Divergence OR\nBranch\nDivergence AND\nBranch\nStep 1\nBranch\nStep 1\nEndDivergence\n" ++
    "Branch\nTransition a\nBranch\nEndDivergence"

/-- It is drawn all the same, and its diagram mirrors it. -/
theorem Chart.mirrors_forkAtOnce :
    ∃ c d, parse forkAtOnce = .ok (c, []) ∧ c.draw (.default : Spacing Float32) = .ok d ∧
      d.steps.map (·.number) = [1, 1] ∧
      d.gates.map GateNode.shape = [(.or, .divergence, 3), (.and, .divergence, 2),
        (.and, .convergence, 2), (.or, .convergence, 3)] ∧
      Element.AreMirroredBy (fun sec => sec.IsAligned ∧ sec.IsLevel) d.whole c.elements := by
  have hdrawn : (parse forkAtOnce).toOption.any fun r => r.2.isEmpty &&
      (r.1.draw (.default : Spacing Float32)).toOption.any fun d =>
        decide (d.steps.map (·.number) = [1, 1] ∧
          d.gates.map GateNode.shape = [(.or, .divergence, 3), (.and, .divergence, 2),
            (.and, .convergence, 2), (.or, .convergence, 3)]) := by
    decide +kernel
  match h : parse forkAtOnce with
  | .error ds => simp [h, Except.toOption] at hdrawn
  | .ok (c, ws) =>
    cases hd : c.draw (.default : Spacing Float32) with
    | error reason => simp [h, hd, Except.toOption] at hdrawn
    | ok d =>
      simp only [h, hd, Except.toOption, Option.any_some, Bool.and_eq_true, List.isEmpty_iff,
        decide_eq_true_eq] at hdrawn
      obtain ⟨rfl, hsteps, hgates⟩ := hdrawn
      exact ⟨c, d, rfl, hd, hsteps, hgates, (mirrors_of_draw hd).2.2.2.2⟩

end SequentialChart
