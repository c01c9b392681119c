import Mathlib
import SequentialChart.Diagram.Placement
import SequentialChart.Proofs.Chart.Rules

/-!
# What is drawn, apart from where

Lengths decide where a node is placed, but not which nodes there are and which of them are
connected. The outline of a sequence is its drawing without places. Outlines are put together from
bars and single nodes by stacking them and by setting them side by side.

## Main definitions

* `Outline` — nodes, links between them, and the ends that others are linked to.
* `Element.outlineAll` — the outline of a sequence.
* `Drawing.Realizes` — a drawing shows the outline of elements.

## Main statements

* `Element.realizes_placeAll` — the drawing of a sequence shows its outline.
* `Chart.draw_eq_ok` — a chart whose jumps lead to its steps can be drawn, and the diagram shows
  its outline.
-/

namespace SequentialChart

/-- A part of a diagram without places. A jump is a link, too. -/
structure Outline where
  nodes : List NodeId := []
  /-- The number of gates among the nodes. -/
  gates : Nat := 0
  links : List (NodeId × NodeId) := []
  /-- The nodes that links from above lead to. -/
  entries : List NodeId := []
  /-- The nodes that are linked to what stands below. -/
  exits : List NodeId := []

namespace Outline

/-- Links from each of the nodes `above` to one node. -/
def link (above : List NodeId) (target : NodeId) : List (NodeId × NodeId) :=
  above.map (·, target)

/-- A step or a transition below others. -/
def node (above : List NodeId) (id : NodeId) : Outline where
  nodes := [id]
  links := link above id
  entries := [id]
  exits := [id]

/-- The bar of a divergence or of a convergence. -/
def bar (above : List NodeId) (index : Nat) : Outline :=
  { node above (.gate index) with gates := 1 }

/-- A jump to a step. -/
def jump (above : List NodeId) (target : Nat) : Outline where
  links := link above (.step target)
  entries := [.step target]

/-- One outline below another one. -/
def stack (a b : Outline) : Outline where
  nodes := a.nodes ++ b.nodes
  gates := a.gates + b.gates
  links := a.links ++ b.links
  entries := a.entries
  exits := b.exits

/-- One outline beside another one. -/
def beside (a b : Outline) : Outline where
  nodes := a.nodes ++ b.nodes
  gates := a.gates + b.gates
  links := a.links ++ b.links
  entries := a.entries ++ b.entries
  exits := a.exits ++ b.exits

theorem stack_assoc (a b c : Outline) : (a.stack b).stack c = a.stack (b.stack c) := by
  simp [stack, List.append_assoc, Nat.add_assoc]

end Outline

mutual

/-- The outline of an element below the nodes `above`; `gate` is the index of the next gate. -/
def Element.outline (above : List NodeId) (gate : Nat) : Element → Outline
  | .step s => .node above (.step s.number)
  | .transition t => .node above (.transition t.number)
  | .jump j => .jump above j.target
  | .divergence _ branches _ _ =>
    let inner := Branch.outlineAll (.gate gate) (gate + 1) branches
    (Outline.bar above gate).stack (inner.stack (.bar inner.exits (gate + 1 + inner.gates)))

/-- The outline of a sequence. -/
def Element.outlineAll (above : List NodeId) (gate : Nat) : List Element → Outline
  | [] => { exits := above }
  | e :: es =>
    let first := e.outline above gate
    first.stack (Element.outlineAll first.exits (gate + first.gates) es)

/-- The outline of a branch below the bar `opening`. -/
def Branch.outline (opening : NodeId) (gate : Nat) : Branch → Outline
  | .mk elements _ => Element.outlineAll [opening] gate elements

/-- The outline of branches below the bar `opening`. -/
def Branch.outlineAll (opening : NodeId) (gate : Nat) : List Branch → Outline
  | [] => {}
  | b :: bs =>
    let first := b.outline opening gate
    first.beside (Branch.outlineAll opening (gate + first.gates) bs)

end

/-- The outline of a chart. -/
def Chart.outline (c : Chart) : Outline := Element.outlineAll [] 0 c.elements

/-! ### Drawings without places -/

variable {α : Type}

namespace Connection

/-- The nodes that a line connects. -/
def ends (c : Connection α) : NodeId × NodeId := (c.source, c.target)

end Connection

/-- The nodes that the line of a jump connects, if it has one. -/
def OpenJump.ends? (j : OpenJump α) : Option (NodeId × NodeId) :=
  j.source.map fun a => (a.id, .step j.target)

namespace Drawing

/-- The nodes of a drawing. -/
def nodeIds (d : Drawing α) : List NodeId :=
  d.steps.map (·.id) ++ d.transitions.map (·.id) ++ d.gates.map (·.id)

/-- The links of a drawing, those of its jumps included. -/
def links (d : Drawing α) : List (NodeId × NodeId) :=
  d.connections.map (·.ends) ++ d.jumps.filterMap (·.ends?)

theorem perm_append_append {β : Type} (a b a' b' : List β) :
    ((a ++ a') ++ (b ++ b')).Perm ((a ++ b) ++ (a' ++ b')) := by
  rw [List.append_assoc, List.append_assoc, ← List.append_assoc a', ← List.append_assoc b]
  exact (List.perm_append_comm.append_right b').append_left a

theorem nodeIds_append (a b : Drawing α) : (a ++ b).nodeIds.Perm (a.nodeIds ++ b.nodeIds) := by
  simp only [nodeIds, steps_append, transitions_append, gates_append, List.map_append]
  exact ((perm_append_append _ _ _ _).append_right _).trans (perm_append_append _ _ _ _)

theorem links_append (a b : Drawing α) : (a ++ b).links.Perm (a.links ++ b.links) := by
  simp only [links, connections_append, jumps_append, List.map_append, List.filterMap_append]
  exact perm_append_append _ _ _ _

/-- The drawing shows the elements `es`, gates from the index `gate` on, as they are outlined. -/
structure Realizes (d : Drawing α) (gate : Nat) (es : List Element) (o : Outline) : Prop where
  steps : d.steps.map (fun s => (s.number, s.kind)) =
    (es.filterMap Element.step?).map fun s => (s.number, s.kind)
  transitions : d.transitions.map (·.number) = Element.transitionNumbers es
  gates : d.gates.map (·.index) = List.range' gate o.gates
  jumps : d.jumps.map (·.target) = Element.jumpTargets es
  nodes : d.nodeIds.Perm o.nodes
  links : d.links.Perm o.links

namespace Realizes

variable {a b : Drawing α} {gate : Nat} {es fs : List Element} {o p : Outline}

theorem stepNumbers (h : a.Realizes gate es o) :
    a.steps.map (·.number) = Element.stepNumbers es := by
  have := congrArg (List.map Prod.fst) h.steps
  simpa [Element.stepNumbers, Function.comp_def] using this

theorem initialNumbers (h : a.Realizes gate es o) :
    (a.steps.filter (·.isInitial)).map (·.number) =
      ((es.filterMap Element.step?).filter (·.kind = .initial)).map (·.number) := by
  have := congrArg (fun l => (l.filter fun p => p.2 = .initial).map Prod.fst) h.steps
  simpa [List.filter_map, Function.comp_def, StepNode.isInitial] using this

theorem length_gates (h : a.Realizes gate es o) : a.gates.length = o.gates := by
  rw [← List.length_map (·.index), h.gates, List.length_range']

theorem append_aux (ha : a.Realizes gate es o) (hb : b.Realizes (gate + o.gates) fs p)
    {q : Outline} (hnodes : q.nodes = o.nodes ++ p.nodes) (hgates : q.gates = o.gates + p.gates)
    (hlinks : q.links = o.links ++ p.links) : (a ++ b).Realizes gate (es ++ fs) q where
  steps := by simp [ha.steps, hb.steps]
  transitions := by simp [ha.transitions, hb.transitions]
  gates := by simp [ha.gates, hb.gates, hgates, List.range'_append_1]
  jumps := by simp [ha.jumps, hb.jumps]
  nodes := hnodes ▸ (nodeIds_append a b).trans (ha.nodes.append hb.nodes)
  links := hlinks ▸ (links_append a b).trans (ha.links.append hb.links)

theorem stack (ha : a.Realizes gate es o) (hb : b.Realizes (gate + o.gates) fs p) :
    (a ++ b).Realizes gate (es ++ fs) (o.stack p) :=
  append_aux ha hb rfl rfl rfl

theorem beside (ha : a.Realizes gate es o) (hb : b.Realizes (gate + o.gates) fs p) :
    (a ++ b).Realizes gate (es ++ fs) (o.beside p) :=
  append_aux ha hb rfl rfl rfl

/-- Divergences themselves have no numbers. -/
theorem divergence (h : a.Realizes gate es o) (junction : Junction) (bs : List Branch)
    (span endSpan : Span) :
    a.Realizes gate (.divergence junction bs span endSpan :: es) o :=
  ⟨h.steps, h.transitions, h.gates, h.jumps, h.nodes, h.links⟩

end Realizes

end Drawing

/-! ### Placing -/

/-- A bar alone. -/
theorem Drawing.realizes_bar {g : GateNode α} {lines : List (Connection α)} {above : List NodeId}
    (h : lines.map (·.ends) = Outline.link above g.id) :
    Drawing.Realizes { gates := [g], connections := lines } g.index [] (.bar above g.index) where
  steps := rfl
  transitions := rfl
  gates := rfl
  jumps := rfl
  nodes := .refl _
  links := .of_eq ((List.append_nil _).trans h)

/-- A drawing between two bars. -/
theorem Drawing.realizes_between {above : List NodeId} {opening closing : GateNode α}
    {before after : List (Connection α)} {inner : Drawing α} {es : List Element} {o : Outline}
    (hbefore : before.map (·.ends) = Outline.link above opening.id)
    (hinner : inner.Realizes (opening.index + 1) es o)
    (hafter : after.map (·.ends) = Outline.link o.exits closing.id)
    (hindex : closing.index = opening.index + 1 + o.gates) :
    Drawing.Realizes ({ gates := [opening], connections := before } ++ inner ++
        { gates := [closing], connections := after }) opening.index es
      ((Outline.bar above opening.index).stack (o.stack (.bar o.exits closing.index))) := by
  have hopening := Drawing.realizes_bar hbefore
  have hclosing := Drawing.realizes_bar hafter
  have hinner' : Drawing.Realizes ({ gates := [opening], connections := before } ++ inner)
      opening.index es ((Outline.bar above opening.index).stack o) := hopening.stack hinner
  rw [← Outline.stack_assoc, ← List.append_nil es]
  refine hinner'.stack ?_
  rw [show opening.index + ((Outline.bar above opening.index).stack o).gates = closing.index by
    rw [hindex]
    simp only [Outline.stack, Outline.bar]
    omega]
  exact hclosing

variable [Length α]

/-- What the next element of a column is linked to. -/
def Column.above (c : Column α) : List NodeId := c.previous.toList.map (·.id)

/-- A drawing with the column below it shows elements with their exits. -/
def Drawing.IsPlaced (r : Drawing α × Column α) (gate : Nat) (es : List Element) (o : Outline) :
    Prop :=
  r.1.Realizes gate es o ∧ r.2.above = o.exits

theorem Connection.map_ends_routeFrom? (previous : Option (Anchor α)) (target : Anchor α) :
    (Connection.routeFrom? previous target).map (·.ends) =
      Outline.link (previous.toList.map (·.id)) target.id := by
  cases previous <;> rfl

theorem Connection.map_ends_route (sources : List (Anchor α)) (target : Anchor α) :
    (sources.map fun source => Connection.route source target).map (·.ends) =
      Outline.link (sources.map (·.id)) target.id := by
  simp [Outline.link, Connection.ends, Connection.route, Function.comp_def]

section Place

variable {s : Spacing α} {c : Column α} {gate : Nat} {next : Option Element}

theorem Element.isPlaced_step (step : Step) :
    Drawing.IsPlaced ((Element.step step).place s c gate next) gate [.step step]
      ((Element.step step).outline c.above gate) := by
  refine ⟨⟨rfl, rfl, rfl, rfl, .refl _, ?_⟩, rfl⟩
  simp only [Drawing.links, Element.place, Connection.map_ends_routeFrom?]
  exact .of_eq (List.append_nil _)

theorem Element.isPlaced_transition (t : Transition) :
    Drawing.IsPlaced ((Element.transition t).place s c gate next) gate [.transition t]
      ((Element.transition t).outline c.above gate) := by
  refine ⟨⟨rfl, rfl, rfl, rfl, .refl _, ?_⟩, rfl⟩
  simp only [Drawing.links, Element.place, Connection.map_ends_routeFrom?]
  exact .of_eq (List.append_nil _)

theorem Element.isPlaced_jump (j : Jump) :
    Drawing.IsPlaced ((Element.jump j).place s c gate next) gate [.jump j]
      ((Element.jump j).outline c.above gate) := by
  refine ⟨⟨rfl, rfl, rfl, rfl, .refl _, .of_eq ?_⟩, rfl⟩
  obtain ⟨_, _, previous, _, _⟩ := c
  cases previous <;> rfl

end Place

theorem length_centersFrom (s : Spacing α) (left : α) (ws : List α) :
    (s.centersFrom left ws).length = ws.length := by
  induction ws generalizing left with
  | nil => rfl
  | cons w ws ih => simp [Spacing.centersFrom, ih]

theorem length_branchCenters (s : Spacing α) (centerX : α) (ws : List α) :
    (s.branchCenters centerX ws).length = ws.length := by
  unfold Spacing.branchCenters
  dsimp only
  split <;> simp [length_centersFrom]

theorem Branch.length_widths (s : Spacing α) (bs : List Branch) :
    (Branch.widths s bs).length = bs.length := by
  induction bs with
  | nil => rfl
  | cons b bs ih => simp [Branch.widths, ih]

/-- The exits of branches are what leads to the end of the divergence. -/
theorem Branch.realizes_placeAll {s : Spacing α} {column : α → Column α} {opening : NodeId}
    (hcolumn : ∀ x, (column x).above = [opening]) {bs : List Branch}
    (h : ∀ b ∈ bs, ∀ (c : Column α) (gate : Nat),
      Drawing.IsPlaced (Element.placeAll s c gate b.elements) gate (Element.walkAll b.elements)
        (Element.outlineAll c.above gate b.elements))
    (gate : Nat) {centers : List α} (hlength : centers.length = bs.length) :
    (Branch.placeAll s column gate bs centers).1.Realizes gate (Branch.walkBranches bs)
        (Branch.outlineAll opening gate bs) ∧
      ((Branch.placeAll s column gate bs centers).2.filterMap (·.last)).map (·.id) =
        (Branch.outlineAll opening gate bs).exits := by
  induction bs generalizing gate centers with
  | nil => exact ⟨⟨rfl, rfl, rfl, rfl, .refl _, .refl _⟩, rfl⟩
  | cons b bs ih =>
    obtain ⟨elements, span⟩ := b
    cases centers with
    | nil => simp at hlength
    | cons x centers =>
      obtain ⟨hfirst, hexits⟩ := h (.mk elements span) (by simp) (column x) gate
      rw [hcolumn, Branch.elements_mk] at hfirst hexits
      have hgates := hfirst.length_gates
      obtain ⟨hrest, hends⟩ := ih (fun b hb => h b (by simp [hb]))
        (gate + (Element.outlineAll [opening] gate elements).gates)
        (show centers.length = bs.length by simpa using hlength)
      simp only [Branch.placeAll, Branch.place, hgates]
      refine ⟨hfirst.beside hrest, ?_⟩
      have hlast : ∀ (e : BranchEnd α) (es : List (BranchEnd α)),
          ((e :: es).filterMap (·.last)).map (·.id) =
            e.last.toList.map (·.id) ++ (es.filterMap (·.last)).map (·.id) := by
        intro e es
        cases h : e.last <;> simp [h]
      rw [hlast, hends]
      exact congrArg (· ++ _) hexits

theorem Element.isPlaced_divergence {s : Spacing α} {c : Column α} {next : Option Element}
    {junction : Junction} {bs : List Branch} {span endSpan : Span}
    (h : ∀ b ∈ bs, ∀ (c : Column α) (gate : Nat),
      Drawing.IsPlaced (Element.placeAll s c gate b.elements) gate (Element.walkAll b.elements)
        (Element.outlineAll c.above gate b.elements)) (gate : Nat) :
    Drawing.IsPlaced ((Element.divergence junction bs span endSpan).place s c gate next) gate
      (Element.divergence junction bs span endSpan).walk
      ((Element.divergence junction bs span endSpan).outline c.above gate) := by
  let entered := (c.enter s (.divergence junction bs span endSpan) next).1
  let top := (c.enter s (.divergence junction bs span endSpan) next).2
  let size := gateSize s junction (Branch.widths s bs) entered.centerX
  let opening : GateNode α :=
    { index := gate, junction, mode := .divergence, branchCount := bs.length,
      position := ⟨entered.centerX - Length.half size.width, top⟩, size }
  have hcolumn : ∀ x, (entered.branch s junction opening.anchor x).above = [.gate gate] :=
    fun x => rfl
  have hlength : (s.branchCenters entered.centerX (Branch.widths s bs)).length = bs.length := by
    rw [length_branchCenters, Branch.length_widths]
  obtain ⟨hinner, hends⟩ := Branch.realizes_placeAll hcolumn h (gate + 1) hlength
  have hgates := hinner.length_gates
  simp only [Element.place, Element.outline, Element.walk]
  refine ⟨.divergence ?_ junction bs span endSpan, ?_⟩
  · rw [← hgates]
    have hbefore : (Connection.routeFrom? c.previous opening.anchor).map (·.ends) =
        Outline.link c.above opening.id := Connection.map_ends_routeFrom? c.previous opening.anchor
    refine Drawing.realizes_between hbefore hinner ?_ (by rw [← hgates])
    rw [← hends]
    exact Connection.map_ends_route _ _
  · rw [← hgates]
    rfl

/-- The drawing of a sequence shows its outline. -/
theorem Element.isPlaced_placeAll (s : Spacing α) (c : Column α) (gate : Nat) (es : List Element) :
    Drawing.IsPlaced (Element.placeAll s c gate es) gate (Element.walkAll es)
      (Element.outlineAll c.above gate es) := by
  have hcons : ∀ (e : Element) (es : List Element) (c : Column α) (gate : Nat),
      Drawing.IsPlaced (e.place s c gate es.head?) gate e.walk (e.outline c.above gate) →
      (∀ c gate, Drawing.IsPlaced (Element.placeAll s c gate es) gate (Element.walkAll es)
        (Element.outlineAll c.above gate es)) →
      Drawing.IsPlaced (Element.placeAll s c gate (e :: es)) gate (Element.walkAll (e :: es))
        (Element.outlineAll c.above gate (e :: es)) := by
    intro e es c gate ⟨hfirst, hexits⟩ ih
    have hgates := hfirst.length_gates
    obtain ⟨hrest, hlast⟩ := ih (e.place s c gate es.head?).2
      (gate + (e.outline c.above gate).gates)
    rw [hexits] at hrest hlast
    simp only [Element.placeAll, hgates]
    exact ⟨hfirst.stack hrest, hlast⟩
  induction es using Element.sequence_induction generalizing c gate with
  | nil => exact ⟨⟨rfl, rfl, rfl, rfl, .refl _, .refl _⟩, rfl⟩
  | step step es ih => exact hcons _ es c gate (Element.isPlaced_step step) ih
  | transition t es ih => exact hcons _ es c gate (Element.isPlaced_transition t) ih
  | jump j es ih => exact hcons _ es c gate (Element.isPlaced_jump j) ih
  | divergence junction bs span endSpan es hbs ih =>
    exact hcons _ es c gate (Element.isPlaced_divergence (fun b hb c gate => hbs b hb c gate) gate)
      ih

theorem Chart.realizes_drawing (c : Chart) (s : Spacing α) :
    (c.drawing s).Realizes 0 c.walk c.outline :=
  (Element.isPlaced_placeAll s (Chart.trunk s) 0 c.elements).1

/-! ### Jumps -/

namespace Drawing

variable {d : Drawing α}

omit [Length α] in
theorem exists_target {n : Nat} (h : n ∈ d.steps.map (·.number)) :
    ∃ target, d.target? n = some target ∧ target.number = n := by
  obtain ⟨step, hstep, hn⟩ := List.mem_map.1 h
  cases hfound : d.target? n with
  | none =>
    have := List.find?_eq_none.1 hfound step (List.mem_reverse.2 hstep)
    simp [hn] at this
  | some target => exact ⟨target, rfl, by simpa using List.find?_some hfound⟩

theorem exists_routeJumpsFrom (margin lane : α) {js : List (OpenJump α)}
    (h : ∀ j ∈ js, j.target ∈ d.steps.map (·.number)) :
    ∃ lines, d.routeJumpsFrom margin lane js = .ok lines ∧
      lines.map (·.ends) = js.filterMap (·.ends?) := by
  induction js generalizing lane with
  | nil => exact ⟨[], rfl, rfl⟩
  | cons j js ih =>
    obtain ⟨target, htarget, hnumber⟩ := exists_target (h j (by simp))
    have hrest := fun lane => ih lane fun j hj => h j (by simp [hj])
    cases hsource : j.source with
    | none =>
      obtain ⟨lines, hlines, hends⟩ := hrest lane
      exact ⟨lines, by simp [routeJumpsFrom, htarget, hsource, hlines],
        by simp [OpenJump.ends?, hsource, hends]⟩
    | some source =>
      obtain ⟨lines, hlines, hends⟩ := hrest (lane + Length.half margin)
      refine ⟨Connection.routeJump margin lane source target.anchor :: lines, ?_, ?_⟩
      · simp [routeJumpsFrom, htarget, hsource, hlines, bind, Except.bind, pure, Except.pure]
      · have hend : (Connection.routeJump margin lane source target.anchor).ends =
            (source.id, .step j.target) := by
          simp [Connection.ends, Connection.routeJump, StepNode.anchor, StepNode.id, hnumber]
        have hends? : j.ends? = some (source.id, .step j.target) := by
          simp [OpenJump.ends?, hsource]
        rw [List.map_cons, hend, hends, List.filterMap_cons_some hends?]

/-- Jumps to steps that are drawn can be drawn. -/
theorem exists_routeJumps (margin : α) (h : ∀ j ∈ d.jumps, j.target ∈ d.steps.map (·.number)) :
    ∃ lines, d.routeJumps margin = .ok lines ∧
      lines.map (·.ends) = d.jumps.filterMap (·.ends?) := by
  unfold routeJumps
  cases hextent : d.extent? with
  | none =>
    -- without any node there is no target, so there is no jump either
    have hsteps : d.steps = [] := by
      have := Bounds.extent?_eq_none_iff.1 hextent
      simp_all
    have hjumps : d.jumps = [] := List.eq_nil_iff_forall_not_mem.2 fun j hj => by
      simpa [hsteps] using h j hj
    exact ⟨[], rfl, by simp [hjumps]⟩
  | some extent => exact exists_routeJumpsFrom margin _ h

end Drawing

/-- The diagram shows a chart. -/
structure Diagram.Shows (d : Diagram α) (c : Chart) : Prop where
  steps : d.steps.map (·.number) = Element.stepNumbers c.walk
  initialSteps :
    d.initialSteps.map (·.number) = (c.steps.filter (·.kind = .initial)).map (·.number)
  transitions : d.transitions.map (·.number) = Element.transitionNumbers c.walk
  gates : d.gates.map (·.index) = List.range' 0 c.outline.gates
  nodes : (d.nodes.map (·.id)).Perm c.outline.nodes
  links : (d.connections.map (·.ends)).Perm c.outline.links

/-- A chart whose jumps lead to its steps can be drawn. -/
theorem Chart.exists_draw {c : Chart} (s : Spacing α)
    (h : ∀ n ∈ Element.jumpTargets c.walk, n ∈ Element.stepNumbers c.walk) :
    ∃ d, c.draw s = .ok d ∧ d.Shows c := by
  have hdrawing := c.realizes_drawing s
  obtain ⟨lines, hlines, hends⟩ := Drawing.exists_routeJumps (d := c.drawing s) s.jumpMargin
    fun j hj => by
      rw [hdrawing.stepNumbers]
      exact h _ (hdrawing.jumps ▸ List.mem_map_of_mem hj)
  refine ⟨_, by simp only [Chart.draw, hlines, bind, Except.bind]; rfl,
    hdrawing.stepNumbers, ?_, hdrawing.transitions, hdrawing.gates, ?_, ?_⟩
  · exact hdrawing.initialNumbers
  · refine .trans (.of_eq ?_) hdrawing.nodes
    simp [Diagram.nodes, Drawing.nodeIds, Node.id, Function.comp_def]
  · refine .trans (.of_eq ?_) hdrawing.links
    simp [Drawing.links, hends]

end SequentialChart
