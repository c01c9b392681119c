import Mathlib
import SequentialChart.Compile
import SequentialChart.Proofs.Diagram.Bars
import SequentialChart.Proofs.Diagram.Links

/-!
# How nodes are connected

The diagram of a chart that follows the rules is a graph in which a transition has one connection
above it and no node but the upper bar of a divergence has more than one below it. The branches of a
divergence hang between its bars, each by one connection above and, unless it ends with a jump, by
one below. Every chart that is accepted has such a diagram.

## Main definitions

* `Diagram.IsTied` — the connections of a bar are those of its branches.
* `Diagram.Ties` — all nodes of a sequence are connected as they should be.
* `Diagram.IsWellFormed` — all nodes of a diagram are.

## Main statements

* `Element.ties_outlineAll` — the step of the induction.
* `Diagram.Shows.isWellFormed` — the diagram of a chart that follows the rules is well-formed.
* `Chart.compile_of_check` — every chart that is accepted has a well-formed diagram.
-/

namespace SequentialChart

/-- Whether a branch ends with a jump. -/
def Branch.endsWithJump (b : Branch) : Bool := b.elements.getLast?.any Element.isJump

variable {α : Type} {d : Diagram α}

namespace Diagram

/-- One connection leads from the upper bar of a divergence to the beginning of every branch, and one
to its lower bar from the end of every branch that does not end with a jump. One connection leads to
the upper bar, and at most one from the lower bar. -/
def IsTied (d : Diagram α) (id : NodeId) (b : Bar) : Prop :=
  match b.mode with
  | .divergence => (d.incoming id).length = 1 ∧ (d.outgoing id).length = b.branches.length ∧
    ((d.outgoing id).map (·.target)).Perm (b.branches.filterMap Branch.first?)
  | .convergence => (d.outgoing id).length ≤ 1 ∧
    (d.incoming id).length = (b.branches.filter (!·.endsWithJump)).length ∧
    ((d.incoming id).map (·.source)).Perm (b.branches.filterMap Branch.last?)

/-- The steps and transitions among the elements, and the bars, which are gates from the index
`gate` on, are connected as they should be. -/
structure Ties (d : Diagram α) (gate : Nat) (es : List Element) (bars : List Bar) : Prop where
  steps : ∀ n ∈ Element.stepNumbers es, (d.outgoing (.step n)).length ≤ 1
  transitions : ∀ n ∈ Element.transitionNumbers es,
    (d.incoming (.transition n)).length = 1 ∧ (d.outgoing (.transition n)).length ≤ 1
  bars : List.Forall₂ (fun i b => d.IsTied (.gate i) b) (List.range' gate bars.length) bars

namespace Ties

variable {gate : Nat} {es fs : List Element} {bs cs : List Bar}

theorem nil (d : Diagram α) (gate : Nat) : d.Ties gate [] [] := ⟨nofun, nofun, .nil⟩

theorem append (h : d.Ties gate es bs) (h' : d.Ties (gate + bs.length) fs cs) :
    d.Ties gate (es ++ fs) (bs ++ cs) where
  steps n hn := by
    rw [Element.stepNumbers_append] at hn
    exact (List.mem_append.1 hn).elim (h.steps n) (h'.steps n)
  transitions n hn := by
    rw [Element.transitionNumbers_append] at hn
    exact (List.mem_append.1 hn).elim (h.transitions n) (h'.transitions n)
  bars := by
    rw [List.length_append, ← List.range'_append_1]
    exact List.rel_append h.bars h'.bars

theorem bar {b : Bar} (h : d.IsTied (.gate gate) b) : d.Ties gate [] [b] :=
  ⟨nofun, nofun, .cons h .nil⟩

/-- Divergences themselves have no numbers. -/
theorem divergence (h : d.Ties gate es bs) (junction : Junction) (branches : List Branch)
    (span endSpan : Span) : d.Ties gate (.divergence junction branches span endSpan :: es) bs :=
  ⟨h.steps, h.transitions, h.bars⟩

end Ties

/-! ### Connections and links -/

section Neighbours

variable (hlinks : (d.connections.map (·.ends)).Nodup)

include hlinks

/-- If no two connections have the same ends, a node has no neighbour twice. -/
theorem nodup_neighbours (direction : Direction) (id : NodeId) :
    (d.neighbours direction id).Nodup := by
  rw [neighbours_eq]
  refine List.Nodup.map_on (fun k hk l hl hfar => ?_) (hlinks.of_map.filter _)
  have hnear : direction.near k = direction.near l := by
    have hk := (List.mem_filter.1 hk).2
    have hl := (List.mem_filter.1 hl).2
    simp only [decide_eq_true_eq] at hk hl
    rw [hk, hl]
  refine List.inj_on_of_nodup_map hlinks (List.mem_filter.1 hk).1 (List.mem_filter.1 hl).1 ?_
  cases direction with
  | backward => exact Prod.ext hfar hnear
  | forward => exact Prod.ext hnear hfar

theorem perm_neighbours (direction : Direction) {id : NodeId} {ids : List NodeId}
    (hids : ids.Nodup) (h : ∀ a, a ∈ d.neighbours direction id ↔ a ∈ ids) :
    (d.neighbours direction id).Perm ids :=
  (List.perm_ext_iff_of_nodup (nodup_neighbours hlinks direction id) hids).2 h

end Neighbours

end Diagram

namespace Diagram.Embeds

variable {above below : List NodeId} {id : NodeId}

theorem incoming_node (hlinks : (d.connections.map (·.ends)).Nodup)
    (h : d.Embeds (.node above id) above below) (hid : ∀ n, id ≠ .step n) (habove : above.Nodup) :
    ((d.incoming id).map (·.source)).Perm above :=
  perm_neighbours hlinks .backward habove (h.mem_backward_node hid)

theorem outgoing_node (hlinks : (d.connections.map (·.ends)).Nodup)
    (h : d.Embeds (.node above id) above below) (hbelow : below.Nodup) :
    ((d.outgoing id).map (·.target)).Perm below :=
  perm_neighbours hlinks .forward hbelow h.mem_forward_node

end Diagram.Embeds

/-! ### The branches of a divergence -/

namespace Branch

variable {junction : Junction} {bs : List Branch}

theorem length_filterMap_first? (h : ∀ b ∈ bs, junction.Bounds b.elements) :
    (bs.filterMap first?).length = bs.length := by
  refine List.filterMap_length_eq_length.2 fun b hb => ?_
  obtain ⟨e, rest, v, hes, hid⟩ := (h b hb).exists_cons
  simp [first?, hes, hid]

/-- A branch has no last node exactly if it ends with a jump. -/
theorem isSome_last? {b : Branch} (h : junction.Bounds b.elements) :
    b.last?.isSome = !b.endsWithJump := by
  obtain ⟨e, he, hkind⟩ := h.exists_getLast
  rw [last?, endsWithJump, he]
  cases e with
  | step | transition | jump => rfl
  | divergence => simp [Element.isStep, Element.isTransition, Element.isJump] at hkind

theorem length_filterMap_last? (h : ∀ b ∈ bs, junction.Bounds b.elements) :
    (bs.filterMap last?).length = (bs.filter (!·.endsWithJump)).length := by
  rw [List.length_filterMap_eq_countP, ← List.countP_eq_length_filter]
  exact List.countP_congr fun b hb => by rw [isSome_last? (h b hb)]

end Branch

/-- The branches of a divergence, if each of them is connected as it should be. -/
theorem Branch.ties_outlineAll {opening : NodeId} {below : List NodeId} {bs : List Branch}
    {gate : Nat} (h : d.Embeds (Branch.outlineAll opening gate bs) [opening] below)
    (hfits : ∀ b ∈ bs, ∀ gate, (Element.outlineAll [opening] gate b.elements).Fits [opening])
    (hbs : ∀ b ∈ bs, ∀ gate, d.Embeds (Element.outlineAll [opening] gate b.elements) [opening]
      below → d.Ties gate (Element.walkAll b.elements) (Element.barsAll b.elements)) :
    d.Ties gate (walkBranches bs) (barsAll bs) := by
  induction bs generalizing gate with
  | nil => exact .nil d gate
  | cons b bs ih =>
    obtain ⟨elements, span⟩ := b
    have hrest : ∀ gate, (Branch.outlineAll opening gate bs).Fits [opening] :=
      Branch.fits_outlineAll fun b hb => hfits b (List.mem_cons_of_mem _ hb)
    have hfirst := hbs (.mk elements span) List.mem_cons_self gate (h.besideLeft (hrest _))
    refine hfirst.append ?_
    rw [Branch.elements_mk, Element.length_barsAll _ [opening] gate]
    exact ih (h.besideRight (hfits (.mk elements span) List.mem_cons_self gate))
      (fun b hb => hfits b (List.mem_cons_of_mem _ hb))
      fun b hb => hbs b (List.mem_cons_of_mem _ hb)

/-! ### Going down the chart -/

namespace Element

variable {strict : Bool} {previous : Option Element} {above below : List NodeId} {gate : Nat}
  {e : Element} {es : List Element} {junction : Junction} {bs : List Branch} {span endSpan : Span}

theorem length_entriesOr_le (hbelow : below.length ≤ 1) (gate : Nat) (es : List Element) :
    (entriesOr below gate es).length ≤ 1 := by
  cases es with
  | nil => exact hbelow
  | cons e es => exact le_rfl

/-- One node leads on from what is not the end of a sequence. -/
theorem length_exits_of_arePlaced (h : ArePlaced strict (some e) es) (hne : es ≠ [])
    (above : List NodeId) (gate : Nat) : (e.outline above gate).exits.length = 1 := by
  cases es with
  | nil => exact absurd rfl hne
  | cons e' es =>
    cases e with
    | jump j => exact absurd rfl h.1
    | step | transition | divergence => rfl

variable (hlinks : (d.connections.map (·.ends)).Nodup)

include hlinks

theorem ties_step (s : Step) (h : d.Embeds ((step s).outline above gate) above below)
    (hbelow : below.length ≤ 1) : d.Ties gate (step s).walk (step s).bars := by
  have hnode : d.Embeds (.node above (.step s.number)) above below := h
  have hout := hnode.outgoing_node hlinks (nodup_of_length_le_one hbelow)
  refine ⟨fun n hn => ?_, nofun, .nil⟩
  obtain rfl := List.mem_singleton.1 hn
  rwa [← hout.length_eq, List.length_map] at hbelow

theorem ties_transition (t : Transition)
    (h : d.Embeds ((transition t).outline above gate) above below) (habove : above.length = 1)
    (hbelow : below.length ≤ 1) : d.Ties gate (transition t).walk (transition t).bars := by
  have hnode : d.Embeds (.node above (.transition t.number)) above below := h
  have hin := hnode.incoming_node hlinks (by simp) (nodup_of_length_le_one habove.le)
  have hout := hnode.outgoing_node hlinks (nodup_of_length_le_one hbelow)
  refine ⟨nofun, fun n hn => ?_, .nil⟩
  obtain rfl := List.mem_singleton.1 hn
  rw [← hin.length_eq, List.length_map] at habove
  rw [← hout.length_eq, List.length_map] at hbelow
  exact ⟨habove, hbelow⟩

/-- The bars of a divergence are tied to its branches. -/
theorem isTied_divergence
    (h : d.Embeds ((divergence junction bs span endSpan).outline above gate) above below)
    (hplaced : ArePlaced strict previous (.divergence junction bs span endSpan :: es))
    (habove : above.length = 1) (hbelow : below.length ≤ 1) :
    d.IsTied (.gate gate) ⟨junction, .divergence, bs⟩ ∧
      d.IsTied (.gate (gate + 1 + (Branch.barsAll bs).length)) ⟨junction, .convergence, bs⟩ := by
  obtain ⟨hopening, hinner, hclosing⟩ := h.divergence hplaced
  have hbounds : ∀ b ∈ bs, junction.Bounds b.elements := fun b hb => (hplaced.branch hb).1
  have hentries := hinner.nodup.sublist (Branch.entries_sublist hbounds (.gate gate) (gate + 1))
  have hexits := hinner.nodup.sublist
    (Branch.exits_sublist (fun b hb => (hbounds b hb).ne_nil) (.gate gate) (gate + 1))
  have hgates : (Branch.barsAll bs).length = (Branch.outlineAll (.gate gate) (gate + 1) bs).gates :=
    Branch.length_barsAll _ (fun b _ gate' => length_barsAll b.elements _ gate') _
  rw [← hgates] at hclosing
  have hin := hopening.incoming_node hlinks (by simp) (nodup_of_length_le_one habove.le)
  have hdown := hopening.outgoing_node hlinks hentries
  have hup := hclosing.incoming_node hlinks (by simp) hexits
  have hout := hclosing.outgoing_node hlinks (nodup_of_length_le_one hbelow)
  rw [Branch.entries_eq hbounds] at hdown
  rw [Branch.exits_eq hbounds] at hup
  -- the numbers of connections are the lengths of these lists
  refine ⟨⟨?_, ?_, hdown⟩, ?_, ?_, hup⟩
  · rw [← habove, ← hin.length_eq, List.length_map]
  · rw [← Branch.length_filterMap_first? hbounds, ← hdown.length_eq, List.length_map]
  · rwa [← hout.length_eq, List.length_map] at hbelow
  · rw [← Branch.length_filterMap_last? hbounds, ← hup.length_eq, List.length_map]

/-- All nodes of a sequence are connected as they should be, if it begins with a step or has one
node above it, and has at most one below it. -/
theorem ties_outlineAll (h : d.Embeds (outlineAll above gate es) above below)
    (hplaced : ArePlaced strict previous es)
    (habove : ∀ e ∈ es.head?, e.isStep ∨ above.length = 1) (hbelow : below.length ≤ 1) :
    d.Ties gate (walkAll es) (barsAll es) := by
  have hcons : ∀ {e es previous above below gate},
      d.Embeds (outlineAll above gate (e :: es)) above below →
      ArePlaced strict previous (e :: es) → below.length ≤ 1 →
      (∀ {below}, d.Embeds (e.outline above gate) above below → below.length ≤ 1 →
        d.Ties gate e.walk e.bars) →
      (∀ {previous above gate}, d.Embeds (outlineAll above gate es) above below →
        ArePlaced strict previous es → (∀ e ∈ es.head?, e.isStep ∨ above.length = 1) →
        d.Ties gate (walkAll es) (barsAll es)) →
      d.Ties gate (walkAll (e :: es)) (barsAll (e :: es)) := by
    intro e es previous above below gate h hplaced hbelow he hes
    refine (he (h.head hplaced) (length_entriesOr_le hbelow _ _)).append ?_
    rw [length_bars e above gate]
    -- the element is no jump if something follows it, so one node leads on from it
    refine hes (h.rest hplaced) hplaced.tail fun e' he' => .inr ?_
    exact length_exits_of_arePlaced hplaced.tail (List.ne_nil_of_mem (List.mem_of_head? he')) _ _
  induction es using sequence_induction generalizing above below previous gate with
  | nil => exact .nil d gate
  | step s es ih =>
    exact hcons h hplaced hbelow (fun h => ties_step hlinks s h) fun h hplaced habove =>
      ih h hplaced habove hbelow
  | transition t es ih =>
    have hone : above.length = 1 := (habove _ rfl).resolve_left Bool.false_ne_true
    exact hcons h hplaced hbelow (fun h => ties_transition hlinks t h hone)
      fun h hplaced habove => ih h hplaced habove hbelow
  | jump j es ih =>
    exact hcons h hplaced hbelow (fun _ _ => ⟨nofun, nofun, .nil⟩) fun h hplaced habove =>
      ih h hplaced habove hbelow
  | divergence junction bs span endSpan es hbs ih =>
    have hone : above.length = 1 := (habove _ rfl).resolve_left Bool.false_ne_true
    refine hcons h hplaced hbelow (fun h hbelow => ?_) fun h hplaced habove =>
      ih h hplaced habove hbelow
    obtain ⟨hopening, hclosing⟩ := isTied_divergence hlinks h hplaced hone hbelow
    obtain ⟨-, hinner, -⟩ := h.divergence hplaced
    have hbranches : d.Ties (gate + 1) (Branch.walkBranches bs) (Branch.barsAll bs) :=
      Branch.ties_outlineAll hinner (hplaced.fits_branch _) fun b hb gate' hb' =>
        hbs b hb hb' (hplaced.branch hb).2 (fun _ _ => .inr rfl) le_rfl
    have hall := (Diagram.Ties.bar hopening).append (hbranches.append (.bar hclosing))
    rw [List.nil_append, List.append_nil] at hall
    exact hall.divergence junction bs span endSpan

end Element

/-! ### The whole diagram -/

namespace Diagram

/-- Every node of a diagram has an identifier of its own, connections lead from nodes to nodes, and
the nodes are connected as the chart has it. -/
structure IsWellFormed (d : Diagram α) (c : Chart) : Prop where
  nodup : (d.nodes.map (·.id)).Nodup
  node?_eq_some_iff : ∀ id n, d.node? id = some n ↔ n ∈ d.nodes ∧ n.id = id
  ends : ∀ l ∈ d.connections, l.source ∈ d.nodes.map (·.id) ∧ l.target ∈ d.nodes.map (·.id)
  transitions : ∀ t ∈ d.transitions, (d.incoming t.id).length = 1 ∧ (d.outgoing t.id).length ≤ 1
  steps : ∀ s ∈ d.steps, (d.outgoing s.id).length ≤ 1
  gates : List.Forall₂ (fun g b => g.shape = b.shape ∧ d.IsTied g.id b) d.gates c.bars

theorem node?_eq_some_iff_of_nodup (h : (d.nodes.map (·.id)).Nodup) {id : NodeId} {n : Node α} :
    d.node? id = some n ↔ n ∈ d.nodes ∧ n.id = id := by
  refine ⟨mem_nodes_of_node?, fun ⟨hn, hid⟩ => ?_⟩
  obtain ⟨m, hm⟩ := exists_node (hid ▸ List.mem_map_of_mem hn : id ∈ d.nodes.map (·.id))
  obtain ⟨hmem, hm'⟩ := mem_nodes_of_node? hm
  rw [hm, List.inj_on_of_nodup_map h hmem hn (hm'.trans hid.symm)]

namespace Shows

variable {c : Chart}

theorem nodup_links (h : d.Shows c) (hrules : c.FollowsRules false)
    (htransitions : (Element.transitionNumbers c.walk).Nodup) :
    (d.connections.map (·.ends)).Nodup :=
  h.links.nodup_iff.2 (Element.isSimple_outlineAll (h.embeds hrules.nodup_steps htransitions)
    hrules.placed .nil).nodup

theorem mem_nodes_of_mem_connections (h : d.Shows c) (hrules : c.FollowsRules false)
    {l : Connection α} (hl : l ∈ d.connections) :
    l.source ∈ d.nodes.map (·.id) ∧ l.target ∈ d.nodes.map (·.id) := by
  have hlink : l.ends ∈ c.outline.links := h.links.subset (List.mem_map_of_mem hl)
  have hne : c.elements ≠ [] := by
    intro hnil
    simp [Chart.outline, hnil, Element.outlineAll] at hlink
  constructor
  · have hfits := Element.fits_outlineAll hrules.placed hne [] 0
    rcases hfits.source _ _ hlink with hsource | ⟨hnone, -⟩
    · exact h.nodes.mem_iff.2 hsource
    · exact absurd hnone List.not_mem_nil
  · rcases Element.landsIn_outlineAll c.elements [] 0 _ hlink with htarget | ⟨n, hn, htarget⟩
    · exact h.nodes.mem_iff.2 htarget
    · have hstep : n ∈ Element.stepNumbers c.walk := hrules.jumps.mem hn
      rw [show l.target = .step n from htarget, map_id_nodes, h.steps]
      simp [hstep]

/-- The diagram of a chart that follows the rules is well-formed. -/
theorem isWellFormed (h : d.Shows c) (hrules : c.FollowsRules false)
    (htransitions : (Element.transitionNumbers c.walk).Nodup)
    (hgates : d.gates.map GateNode.shape = c.bars.map Bar.shape) : d.IsWellFormed c := by
  have hnodup := h.nodup hrules.nodup_steps htransitions
  have hties : d.Ties 0 c.walk c.bars :=
    Element.ties_outlineAll (h.nodup_links hrules htransitions)
      (h.embeds hrules.nodup_steps htransitions) hrules.placed
      (fun e he => .inl (hrules.starts e he)) (Nat.zero_le 1)
  refine ⟨hnodup, fun id n => node?_eq_some_iff_of_nodup hnodup,
    fun l hl => h.mem_nodes_of_mem_connections hrules hl, fun t ht => ?_, fun s hs => ?_, ?_⟩
  · exact hties.transitions _ (h.transitions ▸ List.mem_map_of_mem ht)
  · exact hties.steps _ (h.steps ▸ List.mem_map_of_mem hs)
  · have hindices : d.gates.map (·.index) = List.range' 0 c.bars.length := by
      rw [h.gates, Chart.bars, Element.length_barsAll c.elements [] 0]
      rfl
    have hshapes : List.Forall₂ (fun g b => GateNode.shape g = Bar.shape b) d.gates c.bars := by
      rw [← List.forall₂_map_right_iff, ← List.forall₂_map_left_iff, List.forall₂_eq_eq_eq]
      exact hgates
    refine List.Forall₂.mp (fun g b hshape htied => ⟨hshape, htied⟩) hshapes ?_
    have hbars := hties.bars
    rwa [← hindices, List.forall₂_map_left_iff] at hbars

end Shows

end Diagram

/-! ### Sources that are accepted -/

/-- Checking and compiling accept the same sources, with the same warnings, and the diagram of a
source that is accepted is well-formed whatever the configuration. -/
theorem Chart.compile_of_check (source : String) (config : Config) :
    (∀ warnings, (∃ c, checkAll source = .ok (c, warnings)) ↔
      ∃ d, compile config source = .ok ⟨d, warnings⟩) ∧
    ∀ c ws, check source = .ok (c, ws) →
      ∃ d warnings, checkAll source = .ok (c, warnings) ∧
        compile config source = .ok ⟨d, warnings⟩ ∧ d.IsWellFormed c := by
  have hdraw : ∀ c ws, check source = .ok (c, ws) →
      ∃ d, c.draw config.spacing = .ok d ∧ d.IsWellFormed c := by
    intro c ws hcheck
    obtain ⟨d, hd, hshows⟩ := exists_draw_of_check hcheck config.spacing
    exact ⟨d, hd, hshows.isWellFormed (followsRules_of_check hcheck)
      (nodup_transitions_of_check hcheck) (map_shape_of_draw hd)⟩
  refine ⟨fun warnings => ⟨?_, ?_⟩, fun c ws hcheck => ?_⟩
  · rintro ⟨c, hall⟩
    obtain ⟨ws, hcheck, -⟩ := checkAll_eq_ok_iff.1 hall
    obtain ⟨d, hd, -⟩ := hdraw c ws hcheck
    exact ⟨d, compile_eq_ok_iff.2 ⟨c, hall, hd⟩⟩
  · rintro ⟨d, hcompile⟩
    obtain ⟨c, hall, -⟩ := compile_eq_ok_iff.1 hcompile
    exact ⟨c, hall⟩
  · obtain ⟨d, hd, hwellFormed⟩ := hdraw c ws hcheck
    have hall := checkAll_eq_ok_iff.2 ⟨ws, hcheck, rfl⟩
    exact ⟨d, _, hall, compile_eq_ok_iff.2 ⟨c, hall, hd⟩, hwellFormed⟩

/-- A chart with branches side by side within the first one of two alternatives; the other one ends
with a jump. -/
def sideBySideOrBack : String :=
  "Step 0 (Initial)\nDivergence OR\nBranch\nTransition a\nDivergence AND\nBranch\nStep 1\n" ++
    "Branch\nStep 2\nEndDivergence\nTransition b\nBranch\nTransition c\nJump 0\n" ++
    "EndDivergence\nStep 3"

/-- Only one of the alternatives leads to the last bar. -/
theorem Chart.compile_sideBySideOrBack :
    ∃ c ws d warnings, check sideBySideOrBack = .ok (c, ws) ∧
      compile {} sideBySideOrBack = .ok ⟨d, warnings⟩ ∧ d.IsWellFormed c ∧
      c.bars.map (fun b => (b.shape, (b.branches.filter (!·.endsWithJump)).length)) =
        [((.or, .divergence, 2), 1), ((.and, .divergence, 2), 2), ((.and, .convergence, 2), 2),
          ((.or, .convergence, 2), 1)] := by
  have hbars : (check sideBySideOrBack).toOption.map (fun r =>
      r.1.bars.map fun b => (b.shape, (b.branches.filter (!·.endsWithJump)).length)) =
        some [((.or, .divergence, 2), 1), ((.and, .divergence, 2), 2),
          ((.and, .convergence, 2), 2), ((.or, .convergence, 2), 1)] := by
    decide +kernel
  match h : check sideBySideOrBack with
  | .error ds => simp [h, Except.toOption] at hbars
  | .ok (c, ws) =>
    obtain ⟨d, warnings, -, hcompile, hwellFormed⟩ :=
      (compile_of_check sideBySideOrBack {}).2 c ws h
    exact ⟨c, ws, d, warnings, rfl, hcompile, hwellFormed, by simpa [h, Except.toOption] using hbars⟩

end SequentialChart
