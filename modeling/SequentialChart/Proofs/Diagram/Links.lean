import Mathlib
import SequentialChart.Proofs.Diagram.Neighbourhoods

/-!
# Links

In the outline of a chart that follows the rules no link occurs twice, and links end at nodes or at
the steps that jumps lead to.

## Main definitions

* `Element.id?`, `Branch.first?`, `Branch.last?` — the nodes at which branches begin and end.
* `Outline.IsSimple` — no link occurs twice.
* `Outline.LandsIn` — the ends of the links.

## Main statements

* `Branch.entries_eq`, `Branch.exits_eq` — branches are entered and left at these nodes.
* `Element.isSimple_outlineAll` — no link of a sequence occurs twice.
* `Element.landsIn_outlineAll` — where the links of a sequence end.
-/

namespace SequentialChart

/-! ### The ends of branches -/

/-- The node that an element is drawn as, if it is drawn as a single one. -/
def Element.id? : Element → Option NodeId
  | .step s => some (.step s.number)
  | .transition t => some (.transition t.number)
  | .jump _ => none
  | .divergence .. => none

/-- The node at which a branch begins. -/
def Branch.first? (b : Branch) : Option NodeId := b.elements.head?.bind Element.id?

/-- The node at which a branch ends; there is none if it ends with a jump. -/
def Branch.last? (b : Branch) : Option NodeId := b.elements.getLast?.bind Element.id?

namespace Junction.Bounds

variable {junction : Junction} {es : List Element}

/-- A branch begins with a single node. -/
theorem exists_cons (h : junction.Bounds es) : ∃ e rest v, es = e :: rest ∧ e.id? = some v := by
  cases es with
  | nil => exact absurd rfl h.ne_nil
  | cons e rest =>
    refine ⟨e, rest, ?_⟩
    cases junction <;> cases e <;>
      simp_all [Junction.Bounds, Element.isStep, Element.isTransition, Element.id?]

/-- A branch ends with a single node or with a jump. -/
theorem exists_getLast (h : junction.Bounds es) :
    ∃ e, es.getLast? = some e ∧ (e.isStep ∨ e.isTransition ∨ e.isJump) := by
  cases junction with
  | and =>
    obtain ⟨e, he, hstep⟩ := (Option.any_eq_true _ _).1 h.2
    exact ⟨e, he, .inl hstep⟩
  | or =>
    rcases h.2 with hlast | ⟨hlast, -⟩
    · obtain ⟨e, he, htransition⟩ := (Option.any_eq_true _ _).1 hlast
      exact ⟨e, he, .inr (.inl htransition)⟩
    · obtain ⟨e, he, hjump⟩ := (Option.any_eq_true _ _).1 hlast
      exact ⟨e, he, .inr (.inr hjump)⟩

end Junction.Bounds

namespace Element

variable {e : Element} {es : List Element} {above : List NodeId} {gate : Nat}

theorem outline_of_id? {v : NodeId} (h : e.id? = some v) :
    e.outline above gate = .node above v := by
  cases e <;> cases h <;> rfl

theorem exits_outline_sublist (e : Element) (above : List NodeId) (gate : Nat) :
    (e.outline above gate).exits.Sublist (e.outline above gate).nodes := by
  cases e with
  | step | transition => exact .refl _
  | jump => exact .refl _
  | divergence =>
    simp only [outline, Outline.stack]
    exact List.sublist_append_of_sublist_right (List.sublist_append_right ..)

/-- Ways lead on from at most one node of an element. -/
theorem length_exits_outline_le (e : Element) (above : List NodeId) (gate : Nat) :
    (e.outline above gate).exits.length ≤ 1 := by
  cases e <;> simp [outline, Outline.node, Outline.jump, Outline.stack, Outline.bar]

theorem exits_outlineAll_sublist (hne : es ≠ []) (above : List NodeId) (gate : Nat) :
    (outlineAll above gate es).exits.Sublist (outlineAll above gate es).nodes := by
  induction es generalizing above gate with
  | nil => exact absurd rfl hne
  | cons e es ih =>
    cases es with
    | nil =>
      rw [outlineAll_singleton]
      exact exits_outline_sublist e above gate
    | cons e' es => exact (ih (by simp) _ _).trans (List.sublist_append_right ..)

end Element

namespace Branch

variable {junction : Junction} {bs : List Branch}

theorem entries_sublist (h : ∀ b ∈ bs, junction.Bounds b.elements) (opening : NodeId)
    (gate : Nat) :
    (outlineAll opening gate bs).entries.Sublist (outlineAll opening gate bs).nodes := by
  induction bs generalizing gate with
  | nil => exact .slnil
  | cons b bs ih =>
    obtain ⟨e, rest, v, hb, hid⟩ := (h b List.mem_cons_self).exists_cons
    refine .append ?_ (ih (fun b hb => h b (List.mem_cons_of_mem _ hb)) _)
    rw [outline_eq, hb, Element.outlineAll_cons, Element.outline_of_id? hid]
    exact List.sublist_append_left ..

/-- Branches are entered at their first nodes. -/
theorem entries_eq (h : ∀ b ∈ bs, junction.Bounds b.elements) (opening : NodeId) (gate : Nat) :
    (outlineAll opening gate bs).entries = bs.filterMap first? := by
  induction bs generalizing gate with
  | nil => rfl
  | cons b bs ih =>
    obtain ⟨e, rest, v, hb, hid⟩ := (h b List.mem_cons_self).exists_cons
    have hfirst : b.first? = some v := by simp [first?, hb, hid]
    have hentries : (b.outline opening gate).entries = [v] := by
      rw [outline_eq, hb, Element.outlineAll_cons, Element.outline_of_id? hid]
      rfl
    have hrest := ih (fun b hb => h b (List.mem_cons_of_mem _ hb))
      (gate + (b.outline opening gate).gates)
    rw [outlineAll, Outline.beside, hentries, hrest, List.filterMap_cons_some hfirst,
      List.singleton_append]

theorem exits_sublist (h : ∀ b ∈ bs, b.elements ≠ []) (opening : NodeId) (gate : Nat) :
    (outlineAll opening gate bs).exits.Sublist (outlineAll opening gate bs).nodes := by
  induction bs generalizing gate with
  | nil => exact .slnil
  | cons b bs ih =>
    refine .append ?_ (ih (fun b hb => h b (List.mem_cons_of_mem _ hb)) _)
    rw [outline_eq]
    exact Element.exits_outlineAll_sublist (h b List.mem_cons_self) _ _

/-- Branches are left at their last nodes. -/
theorem exits_eq (h : ∀ b ∈ bs, junction.Bounds b.elements) (opening : NodeId) (gate : Nat) :
    (outlineAll opening gate bs).exits = bs.filterMap last? := by
  induction bs generalizing gate with
  | nil => rfl
  | cons b bs ih =>
    have hexits : (b.outline opening gate).exits = b.last?.toList := by
      obtain ⟨e, he, hkind⟩ := (h b List.mem_cons_self).exists_getLast
      obtain ⟨above', gate', hexits⟩ := Element.exits_outlineAll he [opening] gate
      rw [outline_eq, hexits, last?, he, Option.bind_some]
      cases e with
      | step | transition | jump => rfl
      | divergence => simp [Element.isStep, Element.isTransition, Element.isJump] at hkind
    have hrest := ih (fun b hb => h b (List.mem_cons_of_mem _ hb))
      (gate + (b.outline opening gate).gates)
    rw [outlineAll, Outline.beside, hexits, hrest]
    cases hlast : b.last? with
    | none => rw [List.filterMap_cons_none hlast, Option.toList_none, List.nil_append]
    | some v => rw [List.filterMap_cons_some hlast, Option.toList_some, List.singleton_append]

end Branch

/-! ### No link occurs twice -/

namespace Outline

variable {o p : Outline} {above below : List NodeId}

/-- No link occurs twice, and within the outline nothing leads on from its exits. -/
structure IsSimple (o : Outline) : Prop where
  nodup : o.links.Nodup
  exits : ∀ a ∈ o.exits, ∀ b, (a, b) ∉ o.links

theorem nodup_link (h : above.Nodup) (v : NodeId) : (link above v).Nodup :=
  h.map fun _ _ h => congrArg Prod.fst h

theorem isSimple_empty (exits : List NodeId) : IsSimple { exits } := ⟨.nil, nofun⟩

theorem isSimple_node (h : above.Nodup) {v : NodeId} (hv : v ∉ above) :
    (node above v).IsSimple where
  nodup := nodup_link h v
  exits a ha b hlink := by
    obtain rfl := List.mem_singleton.1 ha
    exact hv (mem_link.1 hlink).1

theorem isSimple_bar (h : above.Nodup) {index : Nat} (hv : .gate index ∉ above) :
    (bar above index).IsSimple :=
  ⟨(isSimple_node h hv).nodup, (isSimple_node h hv).exits⟩

theorem isSimple_jump (h : above.Nodup) (n : Nat) : (jump above n).IsSimple :=
  ⟨nodup_link h _, nofun⟩

end Outline

variable {α : Type} {d : Diagram α}

namespace Diagram.Embeds

variable {o p : Outline} {above below : List NodeId}

theorem isSimple_stack (h : d.Embeds (o.stack p) above below) (ho : o.Fits above)
    (hp : p.Fits o.exits) (ho' : o.IsSimple) (hp' : p.IsSimple) : (o.stack p).IsSimple := by
  have hapart : ∀ v ∈ o.nodes, v ∉ p.nodes := fun v hv => (List.nodup_append'.1 h.nodup).2.2 hv
  have habove : ∀ v ∈ p.nodes, v ∉ above := fun v hv hmem =>
    h.fresh v hmem (List.mem_append_right _ hv)
  have hlower : ∀ v ∈ p.nodes, ∀ b, (v, b) ∉ o.links := fun v hv =>
    ho.not_mem_links_from (fun hmem => hapart v hmem hv) (habove v hv)
  refine ⟨List.nodup_append'.2 ⟨ho'.nodup, hp'.nodup, ?_⟩, fun a ha b hlink => ?_⟩
  · rintro ⟨a, b⟩ hlink hlink'
    rcases hp.source a b hlink' with ha | ⟨ha, -⟩
    · exact hlower a ha b hlink
    · exact ho'.exits a ha b hlink
  · rcases List.mem_append.1 hlink with hlink | hlink
    · exact hlower a (hp.exit a ha) b hlink
    · exact hp'.exits a ha b hlink

theorem isSimple_beside (h : d.Embeds (o.beside p) above below) (ho : o.Fits above)
    (hp : p.Fits above) (hentries : ∀ v ∈ o.entries, v ∉ p.entries) (ho' : o.IsSimple)
    (hp' : p.IsSimple) : (o.beside p).IsSimple := by
  have hapart : ∀ v ∈ o.nodes, v ∉ p.nodes := fun v hv => (List.nodup_append'.1 h.nodup).2.2 hv
  have habove : ∀ v ∈ o.nodes ++ p.nodes, v ∉ above := fun v hv hmem => h.fresh v hmem hv
  have hleft : ∀ v ∈ o.nodes, ∀ b, (v, b) ∉ p.links := fun v hv =>
    hp.not_mem_links_from (hapart v hv) (habove v (List.mem_append_left _ hv))
  have hright : ∀ v ∈ p.nodes, ∀ b, (v, b) ∉ o.links := fun v hv =>
    ho.not_mem_links_from (fun hmem => hapart v hmem hv) (habove v (List.mem_append_right _ hv))
  refine ⟨List.nodup_append'.2 ⟨ho'.nodup, hp'.nodup, ?_⟩, fun a ha b hlink => ?_⟩
  · rintro ⟨a, b⟩ hlink hlink'
    rcases ho.source a b hlink with ha | ⟨-, hb⟩
    · exact hleft a ha b hlink'
    · rcases hp.source a b hlink' with ha' | ⟨-, hb'⟩
      · exact hright a ha' b hlink
      · exact hentries b hb hb'
  · rcases List.mem_append.1 ha with ha | ha <;> rcases List.mem_append.1 hlink with hlink | hlink
    · exact ho'.exits a ha b hlink
    · exact hleft a (ho.exit a ha) b hlink
    · exact hright a (hp.exit a ha) b hlink
    · exact hp'.exits a ha b hlink

end Diagram.Embeds

/-- The branches of a divergence, if no link of a single one occurs twice. -/
theorem Branch.isSimple_outlineAll {junction : Junction} {opening : NodeId} {below : List NodeId}
    {bs : List Branch} {gate : Nat}
    (h : d.Embeds (Branch.outlineAll opening gate bs) [opening] below)
    (hbounds : ∀ b ∈ bs, junction.Bounds b.elements)
    (hfits : ∀ b ∈ bs, ∀ gate, (Element.outlineAll [opening] gate b.elements).Fits [opening])
    (hbs : ∀ b ∈ bs, ∀ gate, d.Embeds (Element.outlineAll [opening] gate b.elements) [opening]
      below → (Element.outlineAll [opening] gate b.elements).IsSimple) :
    (Branch.outlineAll opening gate bs).IsSimple := by
  induction bs generalizing gate with
  | nil => exact Outline.isSimple_empty []
  | cons b bs ih =>
    have hfirst : (b.outline opening gate).Fits [opening] := by
      rw [outline_eq]
      exact hfits b List.mem_cons_self gate
    have hrest : ∀ gate, (Branch.outlineAll opening gate bs).Fits [opening] :=
      Branch.fits_outlineAll fun b hb => hfits b (List.mem_cons_of_mem _ hb)
    have hentries := (h.nodup.sublist (Branch.entries_sublist hbounds opening gate))
    refine h.isSimple_beside hfirst (hrest _) (fun v hv => ?_) ?_ ?_
    · exact (List.nodup_append'.1 hentries).2.2 hv
    · have := hbs b List.mem_cons_self gate
      rw [← outline_eq] at this
      exact this (h.besideLeft (hrest _))
    · exact ih (h.besideRight hfirst) (fun b hb => hbounds b (List.mem_cons_of_mem _ hb))
        (fun b hb => hfits b (List.mem_cons_of_mem _ hb))
        fun b hb => hbs b (List.mem_cons_of_mem _ hb)

theorem nodup_of_length_le_one {ids : List NodeId} (h : ids.length ≤ 1) : ids.Nodup :=
  List.nodup_iff_count_le_one.2 fun _ => List.count_le_length.trans h

theorem Diagram.Embeds.not_mem_above {above below : List NodeId} {v : NodeId}
    (h : d.Embeds (.node above v) above below) : v ∉ above := fun hv =>
  h.fresh v hv (List.mem_singleton_self v)

namespace Element

variable {strict : Bool} {previous : Option Element} {above below : List NodeId} {gate : Nat}
  {e : Element} {es : List Element}

theorem isSimple_cons (h : d.Embeds (outlineAll above gate (e :: es)) above below)
    (hplaced : ArePlaced strict previous (e :: es)) (he : (e.outline above gate).IsSimple)
    (hes : es ≠ [] → (outlineAll (e.outline above gate).exits
      (gate + (e.outline above gate).gates) es).IsSimple) :
    (outlineAll above gate (e :: es)).IsSimple := by
  cases es with
  | nil => rwa [outlineAll_singleton]
  | cons e' es =>
    exact h.isSimple_stack (fits_outline hplaced _ _)
      (fits_outlineAll hplaced.tail (by simp) _ _) he (hes (by simp))

theorem nodup_exits_outline (e : Element) (above : List NodeId) (gate : Nat) :
    (e.outline above gate).exits.Nodup :=
  nodup_of_length_le_one (length_exits_outline_le e above gate)

/-- The branches of a divergence fit between its bars. -/
theorem ArePlaced.fits_branch {junction : Junction} {bs : List Branch} {span endSpan : Span}
    (h : ArePlaced strict previous (.divergence junction bs span endSpan :: es))
    (opening : NodeId) :
    ∀ b ∈ bs, ∀ gate, (outlineAll [opening] gate b.elements).Fits [opening] := fun _ hb gate =>
  fits_outlineAll (h.branch hb).2 (h.branch hb).1.ne_nil [opening] gate

/-- No link of a sequence occurs twice. -/
theorem isSimple_outlineAll (h : d.Embeds (outlineAll above gate es) above below)
    (hplaced : ArePlaced strict previous es) (habove : above.Nodup) :
    (outlineAll above gate es).IsSimple := by
  induction es using sequence_induction generalizing above below previous gate with
  | nil => exact Outline.isSimple_empty above
  | step s es ih =>
    have hnode : d.Embeds (.node above (.step s.number)) above _ := h.head hplaced
    exact isSimple_cons h hplaced (Outline.isSimple_node habove hnode.not_mem_above) fun _ =>
      ih (h.rest hplaced) hplaced.tail (nodup_exits_outline _ _ _)
  | transition t es ih =>
    have hnode : d.Embeds (.node above (.transition t.number)) above _ := h.head hplaced
    exact isSimple_cons h hplaced (Outline.isSimple_node habove hnode.not_mem_above) fun _ =>
      ih (h.rest hplaced) hplaced.tail (nodup_exits_outline _ _ _)
  | jump j es ih =>
    exact isSimple_cons h hplaced (Outline.isSimple_jump habove j.target) fun _ =>
      ih (h.rest hplaced) hplaced.tail (nodup_exits_outline _ _ _)
  | divergence junction bs span endSpan es hbs ih =>
    have hhead := h.head hplaced
    obtain ⟨hopening, hinner, hclosing⟩ := hhead.divergence hplaced
    have hbounds : ∀ b ∈ bs, junction.Bounds b.elements := fun b hb => (hplaced.branch hb).1
    have hfits := hplaced.fits_branch (.gate gate)
    have hsimple := Branch.isSimple_outlineAll hinner hbounds hfits fun b hb gate' hb' =>
      hbs b hb hb' (hplaced.branch hb).2 (List.nodup_singleton _)
    have hexits := hinner.nodup.sublist
      (Branch.exits_sublist (fun b hb => (hbounds b hb).ne_nil) (.gate gate) (gate + 1))
    -- the branches with the bar below them, and then the bar above them
    have hbelow := (hhead.stackRight (Outline.fits_bar above gate)).isSimple_stack
      (Branch.fits_outlineAll hfits _) (Outline.fits_bar _ _) hsimple
      (Outline.isSimple_bar hexits hclosing.not_mem_above)
    have hdivergence := hhead.isSimple_stack (Outline.fits_bar above gate)
      ((Branch.fits_outlineAll hfits _).stack (Outline.fits_bar _ _))
      (Outline.isSimple_bar habove hopening.not_mem_above) hbelow
    exact isSimple_cons h hplaced hdivergence fun _ =>
      ih (h.rest hplaced) hplaced.tail (nodup_exits_outline _ _ _)

end Element

/-! ### Where links end -/

namespace Outline

variable {o p : Outline} {js ks : List Nat}

/-- Every link ends at a node of the outline or at one of the steps with the numbers `js`. -/
def LandsIn (o : Outline) (js : List Nat) : Prop :=
  ∀ l ∈ o.links, l.2 ∈ o.nodes ∨ ∃ n ∈ js, l.2 = .step n

theorem LandsIn.stack (ho : o.LandsIn js) (hp : p.LandsIn ks) : (o.stack p).LandsIn (js ++ ks) := by
  intro l hl
  rcases List.mem_append.1 hl with hl | hl
  · exact (ho l hl).imp (List.mem_append_left _) fun ⟨n, hn, h⟩ => ⟨n, List.mem_append_left _ hn, h⟩
  · exact (hp l hl).imp (List.mem_append_right _)
      fun ⟨n, hn, h⟩ => ⟨n, List.mem_append_right _ hn, h⟩

theorem LandsIn.beside (ho : o.LandsIn js) (hp : p.LandsIn ks) :
    (o.beside p).LandsIn (js ++ ks) :=
  LandsIn.stack ho hp

theorem landsIn_node (above : List NodeId) (v : NodeId) : (node above v).LandsIn [] := by
  intro l hl
  exact .inl (by simpa [node] using (mem_link.1 hl).2)

theorem landsIn_jump (above : List NodeId) (n : Nat) : (jump above n).LandsIn [n] := by
  intro l hl
  exact .inr ⟨n, List.mem_singleton_self n, (mem_link.1 hl).2⟩

end Outline

theorem Branch.landsIn_outlineAll (opening : NodeId) {bs : List Branch}
    (h : ∀ b ∈ bs, ∀ gate, (Element.outlineAll [opening] gate b.elements).LandsIn
      (Element.jumpTargets (Element.walkAll b.elements))) (gate : Nat) :
    (Branch.outlineAll opening gate bs).LandsIn (Element.jumpTargets (walkBranches bs)) := by
  induction bs generalizing gate with
  | nil => exact nofun
  | cons b bs ih =>
    obtain ⟨elements, span⟩ := b
    rw [walkBranches, Element.jumpTargets_append]
    exact (h (.mk elements span) List.mem_cons_self gate).beside
      (ih (fun b hb => h b (List.mem_cons_of_mem _ hb)) _)

/-- The links of a sequence end at its nodes or at the targets of its jumps. -/
theorem Element.landsIn_outlineAll (es : List Element) (above : List NodeId) (gate : Nat) :
    (outlineAll above gate es).LandsIn (jumpTargets (walkAll es)) := by
  induction es using sequence_induction generalizing above gate with
  | nil => exact nofun
  | step s es ih => exact (Outline.landsIn_node above _).stack (ih _ _)
  | transition t es ih => exact (Outline.landsIn_node above _).stack (ih _ _)
  | jump j es ih => exact (Outline.landsIn_jump above j.target).stack (ih _ _)
  | divergence junction bs span endSpan es hbs ih =>
    have hinner := Branch.landsIn_outlineAll (.gate gate) (fun b hb gate' => hbs b hb _ gate')
      (gate + 1)
    have hdivergence : ((divergence junction bs span endSpan).outline above gate).LandsIn
        (jumpTargets (Branch.walkBranches bs)) := by
      have := (Outline.landsIn_node above (.gate gate)).stack
        (hinner.stack (Outline.landsIn_node (Branch.outlineAll (.gate gate) (gate + 1) bs).exits
          (.gate (gate + 1 + (Branch.outlineAll (.gate gate) (gate + 1) bs).gates))))
      rwa [List.nil_append, List.append_nil] at this
    rw [walkAll, jumpTargets_append]
    exact hdivergence.stack (ih _ _)

end SequentialChart
