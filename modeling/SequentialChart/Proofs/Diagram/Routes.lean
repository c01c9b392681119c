import Mathlib
import SequentialChart.Proofs.Diagram.Descent

/-!
# The routes of connections

A connection is drawn when the node at its end is placed, or at the very end if it is that of a
jump, from what is then known of the node at its start. What is known never changes, so that every
line begins and ends at the nodes of the finished diagram: below its source, above its target, and
in horizontal and vertical pieces between them.

## Main definitions

* `Drawing.IsAnchored` — the lines of a drawing lead between nodes that have been placed.
* `Connection.Runs` — a line leads from the bottom of a node to the top of a node.
* `Connection.IsPlain`, `Connection.IsJump` — the lines that are drawn at once, and those of jumps.

## Main statements

* `Element.isAnchored_placeAll` — lines lead between placed nodes, however branches are nested.
* `Connection.isPlain_route`, `Connection.isJump_routeJump` — the two ways of drawing a line.
* `Chart.routes_of_check` — the routes in the diagram of an accepted chart.
-/

namespace SequentialChart

/-! ### Lines lead between nodes -/

section Anchored

variable {α : Type} [Length α] {above mid below above' below' : List (Anchor α)}
  {d d' : Drawing α}

/-- The lines and jumps of a drawing, which goes on from the nodes `above`, begin at these nodes or
at its own ones, and the lines end at its own ones. Lines from the nodes `below` can be added. -/
structure Drawing.IsAnchored (above : List (Anchor α)) (d : Drawing α) (below : List (Anchor α)) :
    Prop where
  below : below ⊆ above ++ d.part.anchors
  lines : ∀ k ∈ d.connections, ∃ a ∈ above ++ d.part.anchors, ∃ b ∈ d.part.anchors,
    k = Connection.route a b
  jumps : ∀ j ∈ d.jumps, ∀ a ∈ j.source, a ∈ above ++ d.part.anchors

theorem Drawing.anchors_append_subset {known : List (Anchor α)}
    (h : known ⊆ above ++ d.part.anchors) :
    known ++ d'.part.anchors ⊆ above ++ (d ++ d').part.anchors := by
  refine List.append_subset.2 ⟨fun a ha => ?_, fun a ha => ?_⟩
  · rcases List.mem_append.1 (h ha) with ha | ha
    · exact List.mem_append_left _ ha
    · exact List.mem_append_right _ (Drawing.anchors_subset_append_left ha)
  · exact List.mem_append_right _ (Drawing.anchors_subset_append_right ha)

namespace Drawing.IsAnchored

theorem nil (above : List (Anchor α)) : IsAnchored above {} above :=
  ⟨List.subset_append_left _ _, List.forall_mem_nil _, List.forall_mem_nil _⟩

/-- A jump begins at one of the nodes above it, if anything leads to it, and nothing goes on behind
it. -/
theorem jump (previous : Option (Anchor α)) (target : Nat) :
    IsAnchored previous.toList { jumps := [{ source := previous, target }] } [] := by
  refine ⟨List.nil_subset _, List.forall_mem_nil _, fun j hj a ha => ?_⟩
  obtain rfl := List.mem_singleton.1 hj
  exact List.mem_append_left _ (Option.mem_toList.2 ha)

/-- One node with lines to it from nodes above it. -/
theorem node {n : Node α} (hnodes : d.part.nodes = [n])
    (hlines : d.connections = above.map fun a => Connection.route a n.anchor)
    (hjumps : d.jumps = []) : IsAnchored above d [n.anchor] := by
  have hanchors : d.part.anchors = [n.anchor] := by rw [Part.anchors, hnodes, List.map_singleton]
  refine ⟨hanchors ▸ List.subset_append_right _ _, fun k hk => ?_, hjumps ▸ List.forall_mem_nil _⟩
  rw [hlines] at hk
  obtain ⟨a, ha, rfl⟩ := List.mem_map.1 hk
  exact ⟨a, List.mem_append_left _ ha, n.anchor, hanchors ▸ List.mem_singleton_self _, rfl⟩

/-- Lines of two drawings, if those of the second one begin at what the first one knows. -/
theorem lines_append {known : List (Anchor α)} (hknown : known ⊆ above ++ d.part.anchors)
    (h : ∀ k ∈ d.connections, ∃ a ∈ above ++ d.part.anchors, ∃ b ∈ d.part.anchors,
      k = Connection.route a b)
    (h' : ∀ k ∈ d'.connections, ∃ a ∈ known ++ d'.part.anchors, ∃ b ∈ d'.part.anchors,
      k = Connection.route a b) :
    ∀ k ∈ (d ++ d').connections, ∃ a ∈ above ++ (d ++ d').part.anchors,
      ∃ b ∈ (d ++ d').part.anchors, k = Connection.route a b := by
  intro k hk
  rcases List.mem_append.1 hk with hk | hk
  · obtain ⟨a, ha, b, hb, rfl⟩ := h k hk
    refine ⟨a, ?_, b, anchors_subset_append_left hb, rfl⟩
    exact anchors_append_subset (List.Subset.refl _) (List.mem_append_left _ ha)
  · obtain ⟨a, ha, b, hb, rfl⟩ := h' k hk
    exact ⟨a, anchors_append_subset hknown ha, b, anchors_subset_append_right hb, rfl⟩

theorem jumps_append {known : List (Anchor α)} (hknown : known ⊆ above ++ d.part.anchors)
    (h : ∀ j ∈ d.jumps, ∀ a ∈ j.source, a ∈ above ++ d.part.anchors)
    (h' : ∀ j ∈ d'.jumps, ∀ a ∈ j.source, a ∈ known ++ d'.part.anchors) :
    ∀ j ∈ (d ++ d').jumps, ∀ a ∈ j.source, a ∈ above ++ (d ++ d').part.anchors := by
  intro j hj a ha
  rcases List.mem_append.1 hj with hj | hj
  · exact anchors_append_subset (List.Subset.refl _) (List.mem_append_left _ (h j hj a ha))
  · exact anchors_append_subset hknown (h' j hj a ha)

/-- A drawing that goes on from another one. -/
theorem append (h : IsAnchored above d mid) (h' : IsAnchored mid d' below) :
    IsAnchored above (d ++ d') below :=
  ⟨List.Subset.trans h'.below (anchors_append_subset h.below),
    lines_append h.below h.lines h'.lines, jumps_append h.below h.jumps h'.jumps⟩

/-- Two drawings that go on from the same nodes. -/
theorem beside (h : IsAnchored above d below) (h' : IsAnchored above d' below') :
    IsAnchored above (d ++ d') (below ++ below') := by
  have habove : above ⊆ above ++ d.part.anchors := List.subset_append_left _ _
  refine ⟨List.append_subset.2 ⟨?_, ?_⟩, lines_append habove h.lines h'.lines,
    jumps_append habove h.jumps h'.jumps⟩
  · exact List.Subset.trans (List.Subset.trans h.below (List.subset_append_left _ _))
      (anchors_append_subset (List.Subset.refl _))
  · exact List.Subset.trans h'.below (anchors_append_subset habove)

end Drawing.IsAnchored

theorem Connection.routeFrom?_eq_map (previous : Option (Anchor α)) (target : Anchor α) :
    routeFrom? previous target = previous.toList.map fun a => route a target := by
  cases previous <;> rfl

variable {s : Spacing α}

/-- Branches below the bar `opening`. -/
theorem Branch.isAnchored_placeAll (column : α → Column α) (opening : Anchor α)
    (hcolumn : ∀ x, (column x).previous = some opening) {bs : List Branch}
    (h : ∀ b ∈ bs, ∀ (c : Column α) (gate : Nat), Drawing.IsAnchored c.previous.toList
      (Element.placeAll s c gate b.elements).1
      (Element.placeAll s c gate b.elements).2.previous.toList) (gate : Nat) (centers : List α) :
    Drawing.IsAnchored [opening] (placeAll s column gate bs centers).1
      ((placeAll s column gate bs centers).2.filterMap (·.last)) := by
  have hempty : Drawing.IsAnchored [opening] {} [] :=
    ⟨List.nil_subset _, List.forall_mem_nil _, List.forall_mem_nil _⟩
  induction bs generalizing gate centers with
  | nil => exact hempty
  | cons b bs ih =>
    cases centers with
    | nil => exact hempty
    | cons x centers =>
      obtain ⟨elements, span⟩ := b
      have hfirst := h _ List.mem_cons_self (column x) gate
      rw [hcolumn, Option.toList_some] at hfirst
      have hlasts : ∀ (e : BranchEnd α) (ends : List (BranchEnd α)),
          (e :: ends).filterMap (·.last) = e.last.toList ++ ends.filterMap (·.last) := by
        intro e ends
        cases hlast : e.last <;> simp [hlast]
      rw [placeAll, hlasts]
      exact hfirst.beside (ih (fun b hb => h b (List.mem_cons_of_mem _ hb))
        (gate + (Element.placeAll s (column x) gate elements).1.gates.length) centers)

namespace Element

theorem isAnchored_place_step (step : Step) (c : Column α) (gate : Nat) (next : Option Element) :
    Drawing.IsAnchored c.previous.toList ((Element.step step).place s c gate next).1
      ((Element.step step).place s c gate next).2.previous.toList :=
  .node (n := .step _) rfl (Connection.routeFrom?_eq_map c.previous _) rfl

theorem isAnchored_place_transition (t : Transition) (c : Column α) (gate : Nat)
    (next : Option Element) :
    Drawing.IsAnchored c.previous.toList ((Element.transition t).place s c gate next).1
      ((Element.transition t).place s c gate next).2.previous.toList :=
  .node (n := .transition _) rfl (Connection.routeFrom?_eq_map c.previous _) rfl

theorem isAnchored_place_divergence {junction : Junction} {bs : List Branch}
    (h : ∀ b ∈ bs, ∀ (c : Column α) (gate : Nat), Drawing.IsAnchored c.previous.toList
      (Element.placeAll s c gate b.elements).1
      (Element.placeAll s c gate b.elements).2.previous.toList)
    (span endSpan : Span) (c : Column α) (gate : Nat) (next : Option Element) :
    Drawing.IsAnchored c.previous.toList
      ((divergence junction bs span endSpan).place s c gate next).1
      ((divergence junction bs span endSpan).place s c gate next).2.previous.toList := by
  let top := (c.enter s (.divergence junction bs span endSpan) next).2
  let sec := Section.place s { c with entryGap := none } top gate junction bs
  have hinner := Branch.isAnchored_placeAll
    (Column.branch s { c with entryGap := none } junction sec.opening.anchor) sec.opening.anchor
    (fun x => by cases junction <;> rfl) h (gate + 1)
    (s.branchCenters c.centerX (Branch.widths s bs))
  -- the bar above, the branches, and the bar below them
  refine .append (.append (.node (n := .gate sec.opening) rfl ?_ rfl) hinner)
    (.node (n := .gate sec.closing) rfl rfl rfl)
  exact Connection.routeFrom?_eq_map c.previous sec.opening.anchor

/-- The lines of a sequence lead between its nodes and from the node that leads to it. -/
theorem isAnchored_placeAll (s : Spacing α) (es : List Element) (c : Column α) (gate : Nat) :
    Drawing.IsAnchored c.previous.toList (placeAll s c gate es).1
      (placeAll s c gate es).2.previous.toList := by
  induction es using sequence_induction generalizing c gate with
  | nil => exact .nil _
  | step step es ih => exact (isAnchored_place_step step c gate es.head?).append (ih _ _)
  | transition t es ih => exact (isAnchored_place_transition t c gate es.head?).append (ih _ _)
  | jump j es ih =>
    have hjump : Drawing.IsAnchored c.previous.toList ((jump j).place s c gate es.head?).1
        ((jump j).place s c gate es.head?).2.previous.toList := .jump c.previous j.target
    exact hjump.append (ih _ _)
  | divergence junction bs span endSpan es hbs ih =>
    exact (isAnchored_place_divergence hbs span endSpan c gate es.head?).append (ih _ _)

end Element

/-- Lines of jumps lead from the sources of jumps to steps. -/
theorem Drawing.exists_of_mem_routeJumpsFrom {margin lane : α} {js : List (OpenJump α)}
    {lines : List (Connection α)} (h : d.routeJumpsFrom margin lane js = .ok lines) :
    ∀ k ∈ lines, ∃ j ∈ js, ∃ source ∈ j.source, ∃ step ∈ d.steps, ∃ lane,
      k = Connection.routeJump margin lane source step.anchor := by
  induction js generalizing lane lines with
  | nil =>
    cases h
    exact List.forall_mem_nil _
  | cons j js ih =>
    have hrest : ∀ {lane lines}, d.routeJumpsFrom margin lane js = .ok lines → ∀ k ∈ lines,
        ∃ j' ∈ j :: js, ∃ source ∈ j'.source, ∃ step ∈ d.steps, ∃ lane,
          k = Connection.routeJump margin lane source step.anchor := by
      intro lane lines h k hk
      obtain ⟨j', hj', hroute⟩ := ih h k hk
      exact ⟨j', List.mem_cons_of_mem _ hj', hroute⟩
    rw [routeJumpsFrom] at h
    cases htarget : d.target? j.target with
    | none => simp [htarget] at h
    | some step =>
      have hstep : step ∈ d.steps := List.mem_reverse.1 (List.mem_of_find?_eq_some htarget)
      cases hsource : j.source with
      | none =>
        simp only [htarget, hsource] at h
        exact hrest h
      | some source =>
        simp only [htarget, hsource] at h
        cases hlines : d.routeJumpsFrom margin (lane + Length.half margin) js with
        | error reason => simp [hlines, bind, Except.bind] at h
        | ok rest =>
          simp only [hlines, bind, Except.bind, pure, Except.pure, Except.ok.injEq] at h
          rw [← h, List.forall_mem_cons]
          exact ⟨⟨j, List.mem_cons_self, source, hsource, step, hstep, lane, rfl⟩, hrest hlines⟩

end Anchored

/-! ### The shape of a line -/

/-- The points stand one above the other or beside each other. -/
def Point.IsAlignedWith (p q : Point ℚ) : Prop := p.x = q.x ∨ p.y = q.y

/-- Whether the node is a bar. -/
def Node.isGate {α : Type} : Node α → Bool
  | .gate _ => true
  | _ => false

@[simp] theorem Node.isGate_anchor {α : Type} [Length α] (n : Node α) :
    n.anchor.isGate = n.isGate := by
  cases n <;> rfl

namespace Connection

/-- The line leads from the point `first` at the bottom of the node `m` to the point `last` at the
top of the node `n`, in horizontal and vertical pieces. It begins and ends in the middle of the
nodes unless they are bars. -/
structure Runs (k : Connection ℚ) (m n : Node ℚ) (first last : Point ℚ) : Prop where
  head : k.points.head? = some first
  getLast : k.points.getLast? = some last
  rectilinear : k.points.IsChain Point.IsAlignedWith
  bottom : first.y = m.bounds.bottom
  top : last.y = n.bounds.top
  source : m.isGate = false → first.x = m.bounds.centerX
  target : n.isGate = false → last.x = n.bounds.centerX

/-- The line leads from one node to another, and where it meets a bar it does so at the `x` of its
other end. It does not have as many points as the line of a jump. -/
def IsPlain (k : Connection ℚ) (m n : Node ℚ) : Prop :=
  k.points.length ≠ 6 ∧ ∃ first last, k.Runs m n first last ∧
    (m.isGate = true → first.x = last.x) ∧ (n.isGate = true → last.x = first.x)

/-- The line leads from a node to the middle of the upper edge of a step, and has six points. -/
def IsJump (k : Connection ℚ) (m : Node ℚ) (step : StepNode ℚ) : Prop :=
  k.points.length = 6 ∧ ∃ first, k.Runs m (.step step) first step.bounds.topCenter

theorem isPlain_route (m n : Node ℚ) : (route m.anchor n.anchor).IsPlain m n := by
  unfold route IsPlain
  simp only [Node.isGate_anchor, Node.bounds_anchor]
  set startX := if m.isGate then n.bounds.centerX else m.bounds.centerX with hstart
  set endX := if n.isGate then startX else n.bounds.centerX with hend
  -- at a bar both ends have the `x` of the other node
  have hsource : m.isGate = true → startX = endX := by
    intro hm
    cases hn : n.isGate <;> simp [hstart, hend, hm, hn]
  have htarget : n.isGate = true → endX = startX := fun hn => by simp [hend, hn]
  by_cases hsame : startX = endX
  · have hpoints : Length.same startX endX = true := decide_eq_true hsame
    rw [if_pos hpoints]
    refine ⟨by simp, _, _, ⟨rfl, rfl, ?_, rfl, rfl, ?_, ?_⟩, hsource, htarget⟩
    · exact .cons_cons (.inl hsame) (.singleton _)
    · intro hm
      simp [hstart, hm]
    · intro hn
      simp [hend, hn]
  · have hpoints : ¬ Length.same startX endX = true := fun h => hsame (of_decide_eq_true h)
    rw [if_neg hpoints]
    refine ⟨by simp, _, _, ⟨rfl, rfl, ?_, rfl, rfl, ?_, ?_⟩, hsource, htarget⟩
    · exact .cons_cons (.inl rfl) (.cons_cons (.inr rfl) (.cons_cons (.inl rfl) (.singleton _)))
    · intro hm
      simp [hstart, hm]
    · intro hn
      simp [hend, hn]

theorem isJump_routeJump (margin lane : ℚ) (m : Node ℚ) (step : StepNode ℚ) :
    (routeJump margin lane m.anchor step.anchor).IsJump m step := by
  refine ⟨rfl, _, rfl, rfl, ?_, ?_, rfl, fun _ => ?_, fun _ => rfl⟩
  · exact .cons_cons (.inl rfl) (.cons_cons (.inr rfl) (.cons_cons (.inl rfl)
      (.cons_cons (.inr rfl) (.cons_cons (.inl rfl) (.singleton _)))))
  · exact congrArg Bounds.bottom m.bounds_anchor
  · exact congrArg Bounds.centerX m.bounds_anchor

end Connection

/-! ### Sources that are accepted -/

namespace Chart

variable {c : Chart}

/-- The lines that are drawn of a chart lead between its nodes, and so do those of its jumps. -/
theorem exists_nodes_of_draw {s : Spacing ℚ} {d : Diagram ℚ} (h : c.draw s = .ok d)
    {jumps : List (Connection ℚ)} (hjumps : d.connections = (c.drawing s).connections ++ jumps) :
    (∀ k ∈ (c.drawing s).connections, ∃ m ∈ d.nodes, ∃ n ∈ d.nodes,
      k = Connection.route m.anchor n.anchor) ∧
    ∀ k ∈ jumps, ∃ m ∈ d.nodes, ∃ step ∈ d.steps, ∃ lane,
      k = Connection.routeJump s.jumpMargin lane m.anchor step.anchor := by
  have hanchored := Element.isAnchored_placeAll s c.elements (trunk s) 0
  have hnode : ∀ a ∈ (trunk s).previous.toList ++ (c.drawing s).part.anchors,
      ∃ n ∈ d.nodes, n.anchor = a := by
    intro a ha
    rw [← whole_of_draw h] at ha
    exact List.mem_map.1 ha
  constructor
  · intro k hk
    obtain ⟨a, ha, b, hb, rfl⟩ := hanchored.lines k hk
    obtain ⟨m, hm, rfl⟩ := hnode a ha
    obtain ⟨n, hn, rfl⟩ := hnode b (List.mem_append_right _ hb)
    exact ⟨m, hm, n, hn, rfl⟩
  · cases hlines : (c.drawing s).routeJumps s.jumpMargin with
    | error reason => simp [draw, hlines, bind, Except.bind] at h
    | ok lines =>
      simp only [draw, hlines, bind, Except.bind, pure, Except.pure, Except.ok.injEq] at h
      obtain rfl : lines = jumps := by
        rw [← h] at hjumps
        exact List.append_cancel_left hjumps
      have hsteps : (c.drawing s).steps = d.steps := by rw [← h]
      intro k hk
      unfold Drawing.routeJumps at hlines
      split at hlines
      · cases hlines
        cases hk
      · obtain ⟨j, hj, a, ha, step, hstep, lane, rfl⟩ :=
          Drawing.exists_of_mem_routeJumpsFrom hlines k hk
        obtain ⟨m, hm, rfl⟩ := hnode a (hanchored.jumps j hj a ha)
        exact ⟨m, hm, step, hsteps ▸ hstep, lane, rfl⟩

/-- With exact lengths, whatever they are, every connection of an accepted chart runs in horizontal
and vertical pieces from the bottom of its source to the top of its target. The connections of
jumps, and no others, have six points; they end at the middle of the upper edge of a step. -/
theorem routes_of_check {source : String} {ws : List Diagnostic}
    (hcheck : check source = .ok (c, ws)) (s : Spacing ℚ) :
    ∃ d lines jumps, c.draw s = .ok d ∧ d.connections = lines ++ jumps ∧
      jumps.map (·.target) = c.jumps.map (fun j => .step j.target) ∧
      (∀ k ∈ lines, ∃ m n, d.node? k.source = some m ∧ d.node? k.target = some n ∧
        k.IsPlain m n) ∧
      ∀ k ∈ jumps, ∃ m step, d.node? k.source = some m ∧ d.node? k.target = some (.step step) ∧
        k.IsJump m step := by
  have hrules := followsRules_of_check hcheck
  obtain ⟨d, hdraw, hshows⟩ := exists_draw_of_check hcheck s
  obtain ⟨jumps, hconnections, htargets⟩ := exists_jumps_of_draw hdraw hrules
  obtain ⟨hlines, hjumps⟩ := exists_nodes_of_draw hdraw hconnections
  have hnodup := hshows.nodup hrules.nodup_steps (nodup_transitions_of_check hcheck)
  have hnode : ∀ n ∈ d.nodes, d.node? n.anchor.id = some n := fun n hn =>
    (Diagram.node?_eq_some_iff_of_nodup hnodup).2 ⟨hn, n.id_anchor.symm⟩
  refine ⟨d, _, jumps, hdraw, hconnections, htargets, fun k hk => ?_, fun k hk => ?_⟩
  · obtain ⟨m, hm, n, hn, rfl⟩ := hlines k hk
    exact ⟨m, n, hnode m hm, hnode n hn, Connection.isPlain_route m n⟩
  · obtain ⟨m, hm, step, hstep, lane, rfl⟩ := hjumps k hk
    have hmem : Node.step step ∈ d.nodes := by simp [Diagram.nodes, hstep]
    exact ⟨m, step, hnode m hm, hnode _ hmem, Connection.isJump_routeJump _ lane m step⟩

/-- A chart in which both alternatives lead to a bar, and a jump leads on from there. -/
def backFromBar : String :=
  "Step 0 (Initial)\nDivergence OR\nBranch\nTransition a\nStep 1\nTransition b\nBranch\n" ++
    "Transition c\nEndDivergence\nJump 0"

/-- All connections but the last one are straight; the last one is that of the jump. -/
theorem routes_backFromBar :
    ∃ c ws d lines jumps, check backFromBar = .ok (c, ws) ∧
      c.draw (.default : Spacing ℚ) = .ok d ∧ d.connections = lines ++ jumps ∧
      d.connections.map (fun k => (k.source, k.target, k.points.length)) =
        [(.step 0, .gate 0, 2), (.gate 0, .transition 0, 2), (.transition 0, .step 1, 2),
          (.step 1, .transition 1, 2), (.gate 0, .transition 2, 2), (.transition 1, .gate 1, 2),
          (.transition 2, .gate 1, 2), (.gate 1, .step 0, 6)] ∧
      (∀ k ∈ lines, ∃ m n, d.node? k.source = some m ∧ d.node? k.target = some n ∧
        k.IsPlain m n) ∧
      ∀ k ∈ jumps, ∃ m step, d.node? k.source = some m ∧ d.node? k.target = some (.step step) ∧
        k.IsJump m step := by
  have hshape : (check backFromBar).toOption.any fun r =>
      (r.1.draw (.default : Spacing ℚ)).toOption.any fun d =>
        d.connections.map (fun k => (k.source, k.target, k.points.length)) =
          [(.step 0, .gate 0, 2), (.gate 0, .transition 0, 2), (.transition 0, .step 1, 2),
            (.step 1, .transition 1, 2), (.gate 0, .transition 2, 2), (.transition 1, .gate 1, 2),
            (.transition 2, .gate 1, 2), (.gate 1, .step 0, 6)] := by
    decide +kernel
  match h : check backFromBar with
  | .error ds => simp [h, Except.toOption] at hshape
  | .ok (c, ws) =>
    obtain ⟨d, lines, jumps, hdraw, hconnections, -, hlines, hjumps⟩ := routes_of_check h .default
    simp only [h, hdraw, Except.toOption, Option.any_some, decide_eq_true_eq] at hshape
    exact ⟨c, ws, d, lines, jumps, rfl, hdraw, hconnections, hshape, hlines, hjumps⟩

end Chart

end SequentialChart
