import Mathlib
import SequentialChart.Proofs.Diagram.Degrees
import SequentialChart.Proofs.Diagram.Exact
import SequentialChart.Proofs.Diagram.Jumps
import SequentialChart.Proofs.Diagram.Sections

/-!
# Drawing downwards

A column is filled from above: every element is placed below what stands before it, and what leads
to it has been placed by then. The one place where the column is not simply continued is a
divergence. Alternative branches are measured from above their bar, and the bar below branches is
placed under the lowest of them. With exact lengths none of which is negative, neither leads upwards
again.

## Main definitions

* `Column.IsOrdered` — what leads to the next element of a column lies above it.
* `Drawing.Descends` — a drawing stands in a column, from its start down to where the column is
  continued, and its lines lead downwards.
* `Section.Encloses` — the branches of a divergence stand between its bars.

## Main statements

* `Drawing.fills_node`, `Drawing.fills_branches` — what a single node and what branches preserve.
* `Element.descends_placeAll` — a sequence descends in every column.
* `Chart.descends_of_check` — the diagram of an accepted chart is read from above.
-/

namespace SequentialChart

/-! ### Heights -/

/-- A node, as lines see it. -/
def Node.anchor {α : Type} [Length α] : Node α → Anchor α
  | .step s => s.anchor
  | .transition t => t.anchor
  | .gate g => g.anchor

@[simp] theorem Node.bounds_anchor {α : Type} [Length α] (n : Node α) :
    n.anchor.bounds = n.bounds := by
  cases n <;> rfl

@[simp] theorem Node.id_anchor {α : Type} [Length α] (n : Node α) : n.anchor.id = n.id := by
  cases n <;> rfl

namespace Part

section

variable {α : Type} {p q : Part α}

/-- The nodes of a part, as lines see them. -/
def anchors [Length α] (p : Part α) : List (Anchor α) := p.nodes.map Node.anchor

theorem mem_anchors_append [Length α] {a : Anchor α} :
    a ∈ (p ++ q).anchors ↔ a ∈ p.anchors ∨ a ∈ q.anchors := by
  simp only [anchors, List.mem_map, mem_nodes_append, or_and_right, exists_or]

end

/-- All nodes of the part lie between two heights. -/
def LiesBetween (p : Part ℚ) (top bottom : ℚ) : Prop :=
  ∀ n ∈ p.nodes, top ≤ n.bounds.top ∧ n.bounds.bottom ≤ bottom

namespace LiesBetween

variable {p q : Part ℚ} {top top' bottom bottom' : ℚ}

theorem nil (top bottom : ℚ) : LiesBetween {} top bottom := List.forall_mem_nil _

theorem mono (h : p.LiesBetween top bottom) (htop : top' ≤ top) (hbottom : bottom ≤ bottom') :
    p.LiesBetween top' bottom' :=
  fun n hn => ⟨htop.trans (h n hn).1, (h n hn).2.trans hbottom⟩

theorem append (hp : p.LiesBetween top bottom) (hq : q.LiesBetween top bottom) :
    (p ++ q).LiesBetween top bottom :=
  fun n hn => (mem_nodes_append.1 hn).elim (hp n) (hq n)

theorem join {ps : List (Part ℚ)} (h : ∀ p ∈ ps, p.LiesBetween top bottom) :
    (Part.join ps).LiesBetween top bottom := by
  induction ps with
  | nil => exact nil top bottom
  | cons p ps ih =>
    exact (h p List.mem_cons_self).append (ih fun q hq => h q (List.mem_cons_of_mem _ hq))

end LiesBetween

end Part

namespace Drawing

variable {α : Type} [Length α] {d d' : Drawing α}

omit [Length α] in
theorem append_assoc (a b c : Drawing α) : a ++ b ++ c = a ++ (b ++ c) := by
  change (a.append b).append c = a.append (b.append c)
  simp only [append, List.append_assoc]

theorem anchors_subset_append_left : d.part.anchors ⊆ (d ++ d').part.anchors := by
  rw [part_append]
  exact fun _ ha => Part.mem_anchors_append.2 (.inl ha)

theorem anchors_subset_append_right : d'.part.anchors ⊆ (d ++ d').part.anchors := by
  rw [part_append]
  exact fun _ ha => Part.mem_anchors_append.2 (.inr ha)

end Drawing

/-- The bars of a section enclose everything between them. -/
def Section.Encloses (sec : Section ℚ) : Prop :=
  ∀ p ∈ sec.parts, p.LiesBetween sec.opening.bounds.bottom sec.closing.bounds.top

/-- The line leads from one of the anchors `sources` down to one of the anchors `targets`. -/
def Connection.LeadsDown (sources targets : List (Anchor ℚ)) (k : Connection ℚ) : Prop :=
  ∃ a ∈ sources, ∃ b ∈ targets, k = route a b ∧ a.bounds.bottom ≤ b.bounds.top

theorem Connection.LeadsDown.mono {sources sources' targets targets' : List (Anchor ℚ)}
    {k : Connection ℚ} (h : k.LeadsDown sources targets) (hsources : sources ⊆ sources')
    (htargets : targets ⊆ targets') : k.LeadsDown sources' targets' := by
  obtain ⟨a, ha, b, hb, hk⟩ := h
  exact ⟨a, hsources ha, b, htargets hb, hk⟩

theorem Connection.leadsDown_of_mem_routeFrom? {previous : Option (Anchor ℚ)} {target : Anchor ℚ}
    (h : ∀ a ∈ previous, a.bounds.bottom ≤ target.bounds.top) :
    ∀ k ∈ routeFrom? previous target, k.LeadsDown previous.toList [target] := by
  intro k hk
  cases previous with
  | none => cases hk
  | some a =>
    obtain rfl := List.mem_singleton.1 hk
    exact ⟨a, List.mem_singleton_self a, target, List.mem_singleton_self _, rfl, h a rfl⟩

/-! ### Columns -/

namespace Column

/-- The height from which on the next element of a column is placed. -/
def start (c : Column ℚ) : ℚ := c.baseline + c.entryGap.getD 0

/-- What leads to the next element of a column lies above it. -/
structure IsOrdered (c : Column ℚ) : Prop where
  entryGap : ∀ gap ∈ c.entryGap, 0 ≤ gap
  previous : ∀ a ∈ c.previous, a.bounds.bottom ≤ c.start

variable {s : Spacing ℚ} {c : Column ℚ}

theorem start_of_entryGap (h : c.entryGap = none) : c.start = c.baseline := by
  simp [start, h]

theorem IsOrdered.baseline_le_start (h : c.IsOrdered) : c.baseline ≤ c.start := by
  cases hgap : c.entryGap with
  | none => rw [start_of_entryGap hgap]
  | some gap =>
    have := h.entryGap gap hgap
    simp only [start, hgap, Option.getD_some]
    linarith

theorem isOrdered_follow (c : Column ℚ) (a : Anchor ℚ) : (c.follow a).IsOrdered := by
  refine ⟨nofun, fun b hb => ?_⟩
  obtain rfl : a = b := Option.some.inj hb
  simp [follow, start]

theorem start_branch (s : Spacing ℚ) (c : Column ℚ) (junction : Junction) (opening : Anchor ℚ)
    (x : ℚ) : (c.branch s junction opening x).start = c.branchTop s junction opening := by
  cases junction <;> rfl

theorem previous_branch (s : Spacing ℚ) (c : Column ℚ) (junction : Junction) (opening : Anchor ℚ)
    (x : ℚ) : (c.branch s junction opening x).previous = some opening := by
  cases junction <;> rfl

/-- Though alternative branches are measured from above their bar, they begin below it. -/
theorem bottom_le_branchTop (hs : s.IsNonneg) (c : Column ℚ) (junction : Junction)
    (opening : Anchor ℚ) : opening.bounds.bottom ≤ c.branchTop s junction opening := by
  cases junction with
  | and => exact le_add_of_nonneg_right hs.transitionToStep
  | or =>
    have := le_max_right s.stepToTransition (opening.bounds.bottom - c.baseline)
    simp only [branchTop, Length.larger_rat]
    linarith

theorem isOrdered_branch (hs : s.IsNonneg) (c : Column ℚ) (junction : Junction)
    (opening : Anchor ℚ) (x : ℚ) : (c.branch s junction opening x).IsOrdered := by
  refine ⟨fun gap hgap => ?_, fun a ha => ?_⟩
  · cases junction with
    | and => exact Option.some.inj hgap ▸ hs.transitionToStep
    | or => exact Option.some.inj hgap ▸ hs.stepToTransition.trans (le_max_left _ _)
  · rw [previous_branch] at ha
    obtain rfl := Option.some.inj ha
    rw [start_branch]
    exact bottom_le_branchTop hs c junction opening

/-- An element is placed below the start of its column. -/
theorem start_le_enter (hs : s.IsNonneg) (c : Column ℚ) (e : Element) (next : Option Element) :
    c.start ≤ (c.enter s e next).2 := by
  have := hs.gapBefore c.lastKind e next
  unfold enter start
  cases c.entryGap <;> simp [this]

end Column

namespace Element

variable {α : Type} [Length α] {s : Spacing α}

theorem entryGap_place (e : Element) (c : Column α) (gate : Nat) (next : Option Element) :
    (e.place s c gate next).2.entryGap = none := by
  cases e <;> rfl

/-- A gap for the first element of a column is used up by it. -/
theorem entryGap_placeAll {es : List Element} (hne : es ≠ []) (c : Column α) (gate : Nat) :
    (placeAll s c gate es).2.entryGap = none := by
  induction es generalizing c gate with
  | nil => exact absurd rfl hne
  | cons e es ih =>
    cases es with
    | nil => exact entryGap_place e c gate none
    | cons e' es => exact ih (List.cons_ne_nil _ _) _ _

end Element

/-! ### Drawings -/

/-- A drawing fills a column from its start down to the end of the column `c'`, and its lines lead
downwards. -/
structure Drawing.Descends (c : Column ℚ) (d : Drawing ℚ) (c' : Column ℚ) : Prop where
  within : d.part.LiesBetween c.start c'.baseline
  baseline : c.baseline ≤ c'.baseline
  isOrdered : c'.IsOrdered
  previous : c'.previous.toList ⊆ c.previous.toList ++ d.part.anchors
  lines : ∀ k ∈ d.connections, k.LeadsDown (c.previous.toList ++ d.part.anchors) d.part.anchors

namespace Drawing.Descends

variable {c c' c'' : Column ℚ} {d d' : Drawing ℚ}

theorem nil (hc : c.IsOrdered) : Descends c {} c :=
  ⟨.nil _ _, le_rfl, hc, List.subset_append_left _ _, List.forall_mem_nil _⟩

/-- What is drawn at the end of a column does not lead out of it. -/
theorem sources_subset (h : Descends c d c') :
    c'.previous.toList ++ d'.part.anchors ⊆ c.previous.toList ++ (d ++ d').part.anchors := by
  refine List.append_subset.2 ⟨fun a ha => ?_, fun a ha => ?_⟩
  · exact List.mem_append.2 ((List.mem_append.1 (h.previous ha)).imp_right fun ha =>
      Drawing.anchors_subset_append_left ha)
  · exact List.mem_append_right _ (Drawing.anchors_subset_append_right ha)

/-- The lines of two drawings, if those of the second one begin at what is known by then. -/
theorem lines_append {sources : List (Anchor ℚ)}
    (h : ∀ k ∈ d.connections, k.LeadsDown (sources ++ d.part.anchors) d.part.anchors)
    (h' : ∀ k ∈ d'.connections, k.LeadsDown (sources ++ (d ++ d').part.anchors) d'.part.anchors) :
    ∀ k ∈ (d ++ d').connections,
      k.LeadsDown (sources ++ (d ++ d').part.anchors) (d ++ d').part.anchors := by
  intro k hk
  rcases List.mem_append.1 hk with hk | hk
  · refine (h k hk).mono (List.append_subset.2 ⟨List.subset_append_left _ _, fun a ha => ?_⟩)
      Drawing.anchors_subset_append_left
    exact List.mem_append_right _ (Drawing.anchors_subset_append_left ha)
  · exact (h' k hk).mono (List.Subset.refl _) Drawing.anchors_subset_append_right

end Drawing.Descends

/-- A drawing goes on below the start of its column. -/
structure Drawing.Fills (c : Column ℚ) (d : Drawing ℚ) (c' : Column ℚ) : Prop
    extends Drawing.Descends c d c' where
  start : c.start ≤ c'.baseline
  entryGap : c'.entryGap = none

namespace Drawing

variable {c c' c'' : Column ℚ} {d d' : Drawing ℚ}

/-- A drawing below another one. -/
theorem Fills.append (h : Fills c d c') (h' : Descends c' d' c'') : Descends c (d ++ d') c'' where
  within := by
    have hstart := h.start.trans (Column.start_of_entryGap h.entryGap).ge
    exact (h.within.mono le_rfl h'.baseline).append (h'.within.mono hstart le_rfl)
  baseline := h.baseline.trans h'.baseline
  isOrdered := h'.isOrdered
  previous := List.Subset.trans h'.previous h.sources_subset
  lines := Descends.lines_append h.lines fun k hk =>
    (h'.lines k hk).mono h.sources_subset (List.Subset.refl _)

theorem Fills.trans (h : Fills c d c') (h' : Fills c' d' c'') : Fills c (d ++ d') c'' where
  toDescends := h.append h'.toDescends
  start := h.start.trans h'.baseline
  entryGap := h'.entryGap

/-- A single node below what leads to it. -/
theorem fills_node (hc : c.IsOrdered) {n : Node ℚ} (hnodes : d.part.nodes = [n])
    (hlines : d.connections = Connection.routeFrom? c.previous n.anchor)
    (htop : c.start ≤ n.bounds.top) (hheight : n.bounds.top ≤ n.bounds.bottom) :
    Fills c d (c.follow n.anchor) := by
  have hanchors : d.part.anchors = [n.anchor] := by rw [Part.anchors, hnodes, List.map_singleton]
  have hbottom : (c.follow n.anchor).baseline = n.bounds.bottom :=
    congrArg Bounds.bottom n.bounds_anchor
  have hstart : c.start ≤ (c.follow n.anchor).baseline := hbottom ▸ htop.trans hheight
  refine ⟨⟨?_, hc.baseline_le_start.trans hstart, c.isOrdered_follow _, ?_, ?_⟩, hstart, rfl⟩
  · intro m hm
    rw [hnodes] at hm
    obtain rfl := List.mem_singleton.1 hm
    exact ⟨htop, hbottom.ge⟩
  · rw [hanchors]
    exact List.subset_append_right _ _
  · rw [hlines, hanchors]
    intro k hk
    refine (Connection.leadsDown_of_mem_routeFrom? (fun a ha => ?_) k hk).mono
      (List.subset_append_left _ _) (List.Subset.refl _)
    rw [n.bounds_anchor]
    exact (hc.previous a ha).trans htop

/-- Branches and the bar below them. -/
theorem fills_branches {closing : GateNode ℚ} {lasts : List (Anchor ℚ)}
    (hwithin : d.part.LiesBetween c.start closing.bounds.top) (hc : c.IsOrdered)
    (hlines : ∀ k ∈ d.connections,
      k.LeadsDown (c.previous.toList ++ d.part.anchors) d.part.anchors)
    (hlasts : ∀ a ∈ lasts, a ∈ c.previous.toList ++ d.part.anchors ∧
      a.bounds.bottom ≤ closing.bounds.top)
    (htop : c.start ≤ closing.bounds.top) (hheight : closing.bounds.top ≤ closing.bounds.bottom) :
    Fills c (d ++ { gates := [closing],
                    connections := lasts.map fun last => Connection.route last closing.anchor })
      (c.follow closing.anchor) := by
  have hstart : c.start ≤ (c.follow closing.anchor).baseline := htop.trans hheight
  refine ⟨⟨?_, hc.baseline_le_start.trans hstart, c.isOrdered_follow _, ?_, ?_⟩, hstart, rfl⟩
  · rw [Drawing.part_append]
    refine (hwithin.mono le_rfl hheight).append fun n hn => ?_
    obtain rfl : n = .gate closing := List.mem_singleton.1 hn
    exact ⟨htop, le_rfl⟩
  · intro a ha
    refine List.mem_append_right _ (Drawing.anchors_subset_append_right ?_)
    exact ha
  · refine Descends.lines_append hlines fun k hk => ?_
    obtain ⟨last, hlast, rfl⟩ := List.mem_map.1 hk
    obtain ⟨hmem, hbottom⟩ := hlasts last hlast
    refine ⟨last, ?_, closing.anchor, List.mem_singleton_self _, rfl, hbottom⟩
    exact List.mem_append.2 ((List.mem_append.1 hmem).imp_right fun ha =>
      Drawing.anchors_subset_append_left ha)

end Drawing

/-! ### Branches -/

/-- What is drawn of branches below the bar `opening`, from the height `top` on. -/
structure Branch.Descend (opening : Anchor ℚ) (top : ℚ) (inner : Drawing ℚ)
    (parts : List (Part ℚ)) (ends : List (BranchEnd ℚ)) : Prop where
  within : ∀ bottom, (∀ e ∈ ends, e.bottom ≤ bottom) → ∀ p ∈ parts, p.LiesBetween top bottom
  lines : ∀ k ∈ inner.connections, k.LeadsDown (opening :: inner.part.anchors) inner.part.anchors
  lasts : ∀ e ∈ ends, ∀ a ∈ e.last,
    a ∈ opening :: inner.part.anchors ∧ a.bounds.bottom ≤ e.bottom

/-- The branches are not empty and descend wherever they are placed. -/
def Branch.Descending (s : Spacing ℚ) (bs : List Branch) : Prop :=
  ∀ b ∈ bs, b.elements ≠ [] ∧ ∀ (c : Column ℚ) (gate : Nat), c.IsOrdered →
    (Element.placeAll s c gate b.elements).1.Descends c (Element.placeAll s c gate b.elements).2

namespace Branch

variable {s : Spacing ℚ} {opening : Anchor ℚ} {top : ℚ}

theorem Descend.nil : Descend opening top {} [] [] :=
  ⟨fun _ _ => List.forall_mem_nil _, List.forall_mem_nil _, List.forall_mem_nil _⟩

theorem Descend.cons {c c' : Column ℚ} {first inner : Drawing ℚ} {parts : List (Part ℚ)}
    {ends : List (BranchEnd ℚ)} (hprevious : c.previous = some opening) (hstart : top ≤ c.start)
    (hgap : c'.entryGap = none) (h : first.Descends c c')
    (h' : Descend opening top inner parts ends) :
    Descend opening top (first ++ inner) (first.part :: parts)
      (⟨c'.baseline, c'.previous⟩ :: ends) where
  within bottom hbottom := by
    rw [List.forall_mem_cons] at hbottom ⊢
    exact ⟨h.within.mono hstart hbottom.1, h'.within bottom hbottom.2⟩
  lines := by
    have hlines := h.lines
    rw [hprevious] at hlines
    refine Drawing.Descends.lines_append hlines fun k hk => (h'.lines k hk).mono ?_
      (List.Subset.refl _)
    exact List.cons_subset_cons _ Drawing.anchors_subset_append_right
  lasts := by
    rw [List.forall_mem_cons]
    constructor
    · intro a ha
      refine ⟨?_, (h.isOrdered.previous a ha).trans (Column.start_of_entryGap hgap).le⟩
      have hmem := h.previous (Option.mem_toList.2 ha)
      rw [hprevious] at hmem
      exact List.cons_subset_cons _ Drawing.anchors_subset_append_left hmem
    · intro e he a ha
      obtain ⟨hmem, hbottom⟩ := h'.lasts e he a ha
      exact ⟨List.cons_subset_cons _ Drawing.anchors_subset_append_right hmem, hbottom⟩

/-- Columns below a bar, if every branch descends in each of them. -/
theorem descend_placeAll {column : ℚ → Column ℚ} (hordered : ∀ x, (column x).IsOrdered)
    (hprevious : ∀ x, (column x).previous = some opening) (hstart : ∀ x, top ≤ (column x).start)
    {bs : List Branch} (h : Descending s bs) (gate : Nat) (centers : List ℚ) :
    Descend opening top (placeAll s column gate bs centers).1 (partsAll s column gate bs centers)
      (placeAll s column gate bs centers).2 := by
  induction bs generalizing gate centers with
  | nil => exact .nil
  | cons b bs ih =>
    cases centers with
    | nil => exact .nil
    | cons x centers =>
      obtain ⟨elements, span⟩ := b
      obtain ⟨hne, hdescends⟩ := h _ List.mem_cons_self
      exact (ih (fun b hb => h b (List.mem_cons_of_mem _ hb)) _ _).cons (hprevious x) (hstart x)
        (Element.entryGap_placeAll hne _ _) (hdescends _ _ (hordered x))

end Branch

/-- The lower end of branches lies below each of them. -/
theorem BranchEnd.le_foldl_larger (ends : List (BranchEnd ℚ)) (top : ℚ) :
    top ≤ ends.foldl (fun b e => Length.larger b e.bottom) top ∧
      ∀ e ∈ ends, e.bottom ≤ ends.foldl (fun b e => Length.larger b e.bottom) top := by
  induction ends generalizing top with
  | nil => exact ⟨le_rfl, List.forall_mem_nil _⟩
  | cons e ends ih =>
    obtain ⟨htop, hends⟩ := ih (max top e.bottom)
    refine ⟨(le_max_left _ _).trans htop, List.forall_mem_cons.2 ⟨?_, hends⟩⟩
    exact (le_max_right _ _).trans htop

/-! ### Sections -/

namespace Section

variable {s : Spacing ℚ} {junction : Junction} {bs : List Branch}

theorem descend_place (hs : s.IsNonneg) (junction : Junction) (hbs : Branch.Descending s bs)
    (c : Column ℚ) (top : ℚ) (gate : Nat) :
    let sec := place s c top gate junction bs
    let r := Branch.placeAll s (c.branch s junction sec.opening.anchor) (gate + 1) bs
      (s.branchCenters c.centerX (Branch.widths s bs))
    Branch.Descend sec.opening.anchor sec.opening.bounds.bottom r.1 sec.parts r.2 ∧
      sec.opening.bounds.bottom ≤ sec.closing.bounds.top ∧
      ∀ e ∈ r.2, e.bottom ≤ sec.closing.bounds.top := by
  intro sec r
  obtain ⟨hopening, hends⟩ := BranchEnd.le_foldl_larger r.2 sec.opening.bounds.bottom
  have hclosing : r.2.foldl (fun b e => Length.larger b e.bottom) sec.opening.bounds.bottom ≤
      sec.closing.bounds.top := le_add_of_nonneg_right (hs.gateOffset junction)
  refine ⟨?_, hopening.trans hclosing, fun e he => (hends e he).trans hclosing⟩
  exact Branch.descend_placeAll (fun x => c.isOrdered_branch hs junction sec.opening.anchor x)
    (fun x => c.previous_branch s junction sec.opening.anchor x)
    (fun x => (c.start_branch s junction sec.opening.anchor x).symm ▸
      c.bottom_le_branchTop hs junction sec.opening.anchor) hbs _ _

theorem encloses_place (hs : s.IsNonneg) (hbs : Branch.Descending s bs) (c : Column ℚ) (top : ℚ)
    (gate : Nat) : (place s c top gate junction bs).Encloses := by
  obtain ⟨hdescend, -, hends⟩ := descend_place hs junction hbs c top gate
  exact hdescend.within _ hends

end Section

namespace Element

variable {s : Spacing ℚ} {c : Column ℚ}

theorem fills_step (hs : s.IsNonneg) (hc : c.IsOrdered) (step : Step) (gate : Nat)
    (next : Option Element) : ((Element.step step).place s c gate next).1.Fills c
      ((Element.step step).place s c gate next).2 :=
  Drawing.fills_node hc (n := .step _) rfl rfl (c.start_le_enter hs _ next)
    (le_add_of_nonneg_right hs.stepHeight)

theorem fills_transition (hs : s.IsNonneg) (hc : c.IsOrdered) (t : Transition) (gate : Nat)
    (next : Option Element) : ((Element.transition t).place s c gate next).1.Fills c
      ((Element.transition t).place s c gate next).2 :=
  Drawing.fills_node hc (n := .transition _) rfl rfl (c.start_le_enter hs _ next)
    (le_add_of_nonneg_right hs.transitionHeight)

theorem fills_divergence (hs : s.IsNonneg) (hc : c.IsOrdered) {junction : Junction}
    {bs : List Branch} (hbs : Branch.Descending s bs) (span endSpan : Span) (gate : Nat)
    (next : Option Element) :
    ((Element.divergence junction bs span endSpan).place s c gate next).1.Fills c
      ((Element.divergence junction bs span endSpan).place s c gate next).2 := by
  let top := (c.enter s (.divergence junction bs span endSpan) next).2
  let sec := Section.place s { c with entryGap := none } top gate junction bs
  obtain ⟨hdescend, htop, hends⟩ := Section.descend_place hs junction hbs
    { c with entryGap := none } top gate
  let before : Drawing ℚ :=
    { gates := [sec.opening]
      connections := Connection.routeFrom? c.previous sec.opening.anchor }
  have hopening : before.Fills c (c.follow sec.opening.anchor) :=
    Drawing.fills_node hc (n := .gate sec.opening) rfl rfl (c.start_le_enter hs _ next)
      (le_add_of_nonneg_right (hs.gateHeight junction))
  have hstart : (c.follow sec.opening.anchor).start = sec.opening.bounds.bottom :=
    Column.start_of_entryGap rfl
  simp only [place, Drawing.append_assoc]
  refine hopening.trans (Drawing.fills_branches ?_ (c.isOrdered_follow _) hdescend.lines ?_
    (hstart.le.trans htop) (le_add_of_nonneg_right (hs.gateHeight junction)))
  · rw [hstart, Branch.part_placeAll]
    exact .join (hdescend.within _ hends)
  · intro a ha
    obtain ⟨e, he, hlast⟩ := List.mem_filterMap.1 ha
    obtain ⟨hmem, hbottom⟩ := hdescend.lasts e he a hlast
    exact ⟨hmem, hbottom.trans (hends e he)⟩

/-- A sequence whose jumps end it descends in every column. -/
theorem descends_placeAll (hs : s.IsNonneg) {es : List Element} {strict : Bool}
    {previous : Option Element} (h : ArePlaced strict previous es) (hc : c.IsOrdered) (gate : Nat) :
    (placeAll s c gate es).1.Descends c (placeAll s c gate es).2 := by
  have hcons : ∀ {e : Element} {es : List Element} {c : Column ℚ} {gate : Nat},
      (e.place s c gate es.head?).1.Fills c (e.place s c gate es.head?).2 →
      (∀ c gate, c.IsOrdered → (placeAll s c gate es).1.Descends c (placeAll s c gate es).2) →
      (placeAll s c gate (e :: es)).1.Descends c (placeAll s c gate (e :: es)).2 :=
    fun he hes => he.append (hes _ _ he.isOrdered)
  induction es using sequence_induction generalizing c gate previous with
  | nil => exact .nil hc
  | step step es ih => exact hcons (fills_step hs hc step gate _) fun _ gate hc => ih h.tail hc gate
  | transition t es ih =>
    exact hcons (fills_transition hs hc t gate _) fun _ gate hc => ih h.tail hc gate
  | jump j es ih =>
    -- nothing follows a jump
    cases es with
    | nil =>
      refine ⟨.nil _ _, le_rfl, ⟨nofun, nofun⟩, List.nil_subset _, List.forall_mem_nil _⟩
    | cons e es => exact absurd rfl h.tail.1
  | divergence junction bs span endSpan es hbs ih =>
    refine hcons (fills_divergence hs hc (fun b hb => ?_) span endSpan gate _)
      fun _ gate hc => ih h.tail hc gate
    exact ⟨(h.branch hb).1.ne_nil, fun c gate hc => hbs b hb (h.branch hb).2 hc gate⟩

end Element

/-! ### Sources that are accepted -/

namespace Chart

variable {c : Chart}

/-- With exact lengths none of which is negative, all connections but those of jumps lead downwards,
and the bars of every divergence enclose what is drawn of its branches. -/
theorem descends_of_check {source : String} {ws : List Diagnostic}
    (hcheck : check source = .ok (c, ws)) {s : Spacing ℚ} (hs : s.IsNonneg) :
    ∃ d lines jumps, c.draw s = .ok d ∧ d.connections = lines ++ jumps ∧
      jumps.map (·.target) = c.jumps.map (fun j => .step j.target) ∧
      (∀ k ∈ lines, ∃ m n, d.node? k.source = some m ∧ d.node? k.target = some n ∧
        m.bounds.bottom ≤ n.bounds.top) ∧
      Element.AreMirroredBy Section.Encloses d.whole c.elements := by
  have hrules := followsRules_of_check hcheck
  obtain ⟨d, hdraw, hshows⟩ := exists_draw_of_check hcheck s
  obtain ⟨jumps, hconnections, htargets⟩ := exists_jumps_of_draw hdraw hrules
  have hdescends : (c.drawing s).Descends (trunk s) (Element.placeAll s (trunk s) 0 c.elements).2 :=
    Element.descends_placeAll hs hrules.placed ⟨by simp [trunk], by simp [trunk]⟩ 0
  refine ⟨d, _, jumps, hdraw, hconnections, htargets, fun k hk => ?_, ?_⟩
  · have hnodup := hshows.nodup hrules.nodup_steps (nodup_transitions_of_check hcheck)
    have hnode : ∀ a ∈ (c.drawing s).part.anchors, ∃ n, d.node? a.id = some n ∧
        n.bounds = a.bounds := by
      intro a ha
      rw [← whole_of_draw hdraw] at ha
      obtain ⟨n, hn, rfl⟩ := List.mem_map.1 ha
      exact ⟨n, (Diagram.node?_eq_some_iff_of_nodup hnodup).2 ⟨hn, n.id_anchor.symm⟩,
        n.bounds_anchor.symm⟩
    obtain ⟨a, ha, b, hb, rfl, hdown⟩ := hdescends.lines k hk
    obtain ⟨m, hm, hsource⟩ := hnode a ha
    obtain ⟨n, hn, htarget⟩ := hnode b hb
    exact ⟨m, n, hm, hn, hsource ▸ htarget ▸ hdown⟩
  · refine areMirroredBy_of_draw hdraw fun junction bs span endSpan hd c top gate => ?_
    refine Section.encloses_place hs (fun b hb => ?_) c top gate
    have hwithin := Element.isWithin_of_mem_nested (Element.mem_nested_of_mem_walkAll hd hb)
    obtain ⟨_, hbounds⟩ := hwithin.exists_bounds hrules.placed
    exact ⟨hbounds.ne_nil, fun c gate hc =>
      Element.descends_placeAll hs (hwithin.arePlaced hrules.placed) hc gate⟩

/-- Of two alternatives, one splits into parallel branches and the other one jumps back to the first
step. All connections lead downwards but the jump. -/
theorem descends_sideBySideOrBack :
    ∃ c ws d lines jumps, check sideBySideOrBack = .ok (c, ws) ∧
      (Spacing.default : Spacing ℚ).IsNonneg ∧ c.draw (.default : Spacing ℚ) = .ok d ∧
      d.connections = lines ++ jumps ∧ jumps.map (·.target) = [.step 0] ∧
      (∀ k ∈ lines, ∃ m n, d.node? k.source = some m ∧ d.node? k.target = some n ∧
        m.bounds.bottom ≤ n.bounds.top) ∧
      Element.AreMirroredBy Section.Encloses d.whole c.elements := by
  have hjumps : (check sideBySideOrBack).toOption.any fun r => r.1.jumps.map (·.target) = [0] := by
    decide +kernel
  match h : check sideBySideOrBack with
  | .error ds => simp [h, Except.toOption] at hjumps
  | .ok (c, ws) =>
    obtain ⟨d, lines, jumps, hdraw, hconnections, htargets, hlines, hsections⟩ :=
      descends_of_check h Spacing.isNonneg_default
    simp only [h, Except.toOption, Option.any_some, decide_eq_true_eq] at hjumps
    refine ⟨c, ws, d, lines, jumps, rfl, Spacing.isNonneg_default, hdraw, hconnections, ?_, hlines, hsections⟩
    calc jumps.map (·.target) = (c.jumps.map (·.target)).map .step := by
          rw [htargets, List.map_map, Function.comp_def]
      _ = [.step 0] := by rw [hjumps, List.map_singleton]

end Chart

end SequentialChart
