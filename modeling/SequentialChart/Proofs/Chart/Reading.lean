import Mathlib
import SequentialChart.Proofs.Chart.Nesting
import SequentialChart.Proofs.Chart.Sequences

/-!
# From lines to a chart

A source whose lines can all be read denotes a chart exactly if its directives nest. The chart is
the sequence that the directives say, with its transitions numbered, and its elements in document
order are what the lines for steps, transitions, jumps and divergences say, one for each line.

## Main definitions

* `Chart.directives` — the directives of a source.
* `Element.ComesFrom` — an element is what a line says.
* `Element.ActionsComeFrom` — the actions of elements are what lines say.

## Main statements

* `Chart.faults_build` — lines that can be read have the effect of their directives.
* `Nesting.Sequence.comesFrom`, `Nesting.Sequence.actionsComeFrom` — the elements of a sequence and
  their actions come from its lines.
* `Chart.parse_iff_sequence` — the sources that denote a chart, and the chart they denote.
-/

namespace SequentialChart

/-! ### Lines that can be read -/

namespace Build

/-- The build without the findings that do not stop the work. -/
def faults (b : Build) : Build := { b with findings := b.findings.filter (·.isFault) }

theorem faults_apply (b : Build) (span : Span) (d : Directive) :
    (b.apply span d).faults = b.faults.apply span d := by
  obtain ⟨new, hnew, h⟩ := b.exists_reports_apply span d
  have hself : b.apply span d = { b.apply span d with findings := new ++ b.findings } :=
    h b.findings
  calc (b.apply span d).faults
      = { b.apply span d with findings := (new ++ b.findings).filter (·.isFault) } := by
        conv_lhs => rw [hself]
        rfl
    _ = { b.apply span d with findings := new ++ b.findings.filter (·.isFault) } := by
        rw [List.filter_append, List.filter_eq_self.2 hnew]
    _ = b.faults.apply span d := (h _).symm

theorem faults_report_unrecognized (b : Build) (place : Span) :
    (b.report (.unrecognized place)).faults = b.faults := by
  simp [faults, report, ParseFinding.isFault]

end Build

/-- The directive on a line, if there is one. -/
def Line.directive? (l : Line) : Option (Located Directive) :=
  (Directive.ofLine l).toOption.join.map (⟨·, l.span⟩)

/-- Lines that can be read have the effect of their directives; other lines are only noted. -/
theorem Build.faults_foldl_readLine {lines : List Line}
    (h : ∀ l ∈ lines, ∃ d, Directive.ofLine l = .ok d) (b : Build) :
    (lines.foldl Build.readLine b).faults = b.faults.run (lines.filterMap Line.directive?) := by
  induction lines generalizing b with
  | nil => rfl
  | cons l lines ih =>
    obtain ⟨⟨d, hd⟩, hlines⟩ := List.forall_mem_cons.1 h
    rw [List.foldl_cons, ih hlines]
    cases d with
    | none =>
      have hl : l.directive? = none := by simp [Line.directive?, hd, Except.toOption]
      rw [List.filterMap_cons_none hl, readLine, hd]
      exact congrArg (Build.run · _) (b.faults_report_unrecognized l.span)
    | some d =>
      have hl : l.directive? = some ⟨d, l.span⟩ := by
        simp [Line.directive?, hd, Except.toOption]
      rw [List.filterMap_cons_some hl, readLine, hd, run_cons]
      exact congrArg (Build.run · _) (b.faults_apply l.span d)

namespace Chart

/-- The directives of a source. -/
def directives (source : String) : List (Located Directive) :=
  (Line.ofSource source.toList).filterMap Line.directive?

variable {source : String}

theorem faults_build (h : ∀ l ∈ Line.ofSource source.toList, ∃ d, Directive.ofLine l = .ok d) :
    (build source).faults = ({} : Build).run (directives source) :=
  Build.faults_foldl_readLine h {}

/-- Nothing stops the work exactly if the directives nest. -/
theorem exists_parse_iff (h : ∀ l ∈ Line.ofSource source.toList, ∃ d, Directive.ofLine l = .ok d) :
    (∃ r, parse source = .ok r) ↔ ∃ es, Nesting.Sequence (directives source) es := by
  have hfindings : (({} : Build).run (directives source)).findings = [] ↔
      ∀ f ∈ (build source).findings, f.isFault = false := by
    rw [← faults_build h, Build.faults]
    simp
  have hpending : (({} : Build).run (directives source)).pending = (build source).pending :=
    (congrArg Build.pending (faults_build h)).symm
  rw [Nesting.exists_sequence_iff_run, hfindings, hpending]
  constructor
  · rintro ⟨r, hr⟩
    obtain ⟨hfaults, -⟩ := parse_eq_ok_iff.1 hr
    refine ⟨fun f hf => hfaults f (by simp [Build.allFindings, hf]), ?_⟩
    refine List.eq_nil_iff_forall_not_mem.2 fun d hd => ?_
    have := hfaults (.nesting (.unclosed d.junction d.span))
      (List.mem_append_right _ (List.mem_map_of_mem hd))
    cases this
  · rintro ⟨hfaults, hpending⟩
    refine ⟨_, parse_eq_ok_iff.2 ⟨?_, rfl⟩⟩
    simpa [Build.allFindings, hpending] using hfaults

theorem chart_build {es : List Element}
    (h : ∀ l ∈ Line.ofSource source.toList, ∃ d, Directive.ofLine l = .ok d)
    (hes : Nesting.Sequence (directives source) es) :
    (build source).chart =
      numbered { title := Nesting.title (directives source), elements := es } := by
  have hbuild : (build source).faults =
      { root := es.reverse, title := Nesting.title (directives source) } :=
    (faults_build h).trans (hes.run_eq rfl)
  have htitle := congrArg Build.title hbuild
  have hroot := congrArg Build.root hbuild
  rw [Build.chart, show (build source).title = _ from htitle,
    show (build source).root = _ from hroot, List.reverse_reverse]

end Chart

/-! ### Elements and their lines -/

/-- Whether a line stands for an element of its own. -/
def Directive.isElement : Directive → Bool
  | .step .. | .transition .. | .jump _ | .divergence _ => true
  | _ => false

/-- The element is what the line says. Other lines say which actions and which branches it has, and
the number of a transition is assigned if it is not written. -/
inductive Element.ComesFrom : Element → Located Directive → Prop
  | step (number kind label actions linkedFile span) :
    ComesFrom (.step { number, kind, label, actions, linkedFile, span })
      ⟨.step number kind label, span⟩
  | written (number condition span) :
    ComesFrom (.transition { number, explicit := true, condition, span })
      ⟨.transition (some number) condition, span⟩
  | unwritten (number condition span) :
    ComesFrom (.transition { number, explicit := false, condition, span })
      ⟨.transition none condition, span⟩
  | jump (target span) : ComesFrom (.jump { target, span }) ⟨.jump target, span⟩
  | divergence (junction branches span endSpan) :
    ComesFrom (.divergence junction branches span endSpan) ⟨.divergence junction, span⟩

/-- The second element comes from every line that the first one comes from. -/
def Element.Keeps (e e' : Element) : Prop := ∀ d, e.ComesFrom d → e'.ComesFrom d

namespace Element

theorem ComesFrom.of_element? {d : Directive} {span : Span} {e : Element}
    (h : d.element? span = some e) : e.ComesFrom ⟨d, span⟩ ∧ e.walk = [e] ∧ d.isElement := by
  cases d <;> simp only [Directive.element?, Option.some.injEq, reduceCtorEq] at h
  case step number kind label => subst h; exact ⟨.step .., rfl, rfl⟩
  case transition number condition =>
    subst h
    cases number with
    | none => exact ⟨.unwritten .., rfl, rfl⟩
    | some number => exact ⟨.written .., rfl, rfl⟩
  case jump target => subst h; exact ⟨.jump .., rfl, rfl⟩

theorem Keeps.refl (e : Element) : e.Keeps e := fun _ h => h

instance : Std.Refl Keeps := ⟨Keeps.refl⟩

theorem Keeps.step {s s' : Step} (hnumber : s'.number = s.number) (hkind : s'.kind = s.kind)
    (hlabel : s'.label = s.label) (hspan : s'.span = s.span) : (step s).Keeps (.step s') := by
  obtain ⟨_, _, _, _, _, _⟩ := s'
  cases hnumber
  cases hkind
  cases hlabel
  cases hspan
  rintro _ ⟨⟩
  exact .step ..

theorem forall₂_comesFrom_of_keeps {es es' : List Element} {ds : List (Located Directive)}
    (h : List.Forall₂ ComesFrom es ds) (hkeeps : List.Forall₂ Keeps es es') :
    List.Forall₂ ComesFrom es' ds := by
  induction hkeeps generalizing ds with
  | nil => exact h
  | cons he _ ih =>
    cases h with
    | cons hd hds => exact .cons (he _ hd) (ih hds)

/-- The second element is the first one, but for the numbers of transitions that are not written. -/
structure Renumbers (e e' : Element) : Prop where
  keeps : e.Keeps e'
  step? : e'.step? = e.step?

theorem Renumbers.refl (e : Element) : e.Renumbers e := ⟨.refl e, rfl⟩

theorem renumbers_transition (taken : List Nat) (n : Nat) (t : Transition) :
    List.Forall₂ Renumbers [transition t] ((transition t).numbered taken n).1.walk := by
  unfold numbered
  split
  · exact .cons (.refl _) .nil
  · next hwritten =>
    refine .cons ⟨fun d h => ?_, rfl⟩ .nil
    cases h with
    | written => exact absurd rfl hwritten
    | unwritten => exact .unwritten ..

theorem filterMap_step?_of_renumbers {es es' : List Element} (h : List.Forall₂ Renumbers es es') :
    es'.filterMap step? = es.filterMap step? := by
  induction h with
  | nil => rfl
  | cons he _ ih => rw [List.filterMap_cons, List.filterMap_cons, he.step?, ih]

end Element

theorem Branch.renumbers_walkBranches {taken : List Nat} {bs : List Branch}
    (h : ∀ b ∈ bs, ∀ n, List.Forall₂ Element.Renumbers (Element.walkAll b.elements)
      (Element.walkAll (Element.numberedAll taken n b.elements).1)) (n : Nat) :
    List.Forall₂ Element.Renumbers (Branch.walkBranches bs)
      (Branch.walkBranches (Branch.numberedAll taken n bs).1) := by
  induction bs generalizing n with
  | nil => exact .nil
  | cons b bs ih =>
    obtain ⟨elements, span⟩ := b
    exact List.rel_append (h (.mk elements span) List.mem_cons_self n)
      (ih (fun b hb => h b (List.mem_cons_of_mem _ hb)) _)

theorem Element.renumbers_walkAll (taken : List Nat) (es : List Element) (n : Nat) :
    List.Forall₂ Renumbers (walkAll es) (walkAll (numberedAll taken n es).1) := by
  induction es using sequence_induction generalizing n with
  | nil => exact .nil
  | step s es ih => exact .cons (.refl _) (ih n)
  | transition t es ih => exact List.rel_append (renumbers_transition taken n t) (ih _)
  | jump j es ih => exact .cons (.refl _) (ih n)
  | divergence junction bs span endSpan es hbs ih =>
    refine .cons ⟨?_, rfl⟩ (List.rel_append (Branch.renumbers_walkBranches hbs n) (ih _))
    rintro _ ⟨⟩
    exact .divergence ..

theorem Branch.walkBranches_concat (bs : List Branch) (b : Branch) :
    walkBranches (bs ++ [b]) = walkBranches bs ++ b.walk := by
  induction bs with
  | nil => simp [walkBranches]
  | cons b' bs ih => simp [walkBranches, ih]

namespace Nesting

/-- A line without an element of its own adds none. -/
theorem filter_isElement_concat {ds : List (Located Directive)} {d : Located Directive}
    (h : d.value.isElement = false) :
    (ds ++ [d]).filter (·.value.isElement) = ds.filter (·.value.isElement) := by
  simp [h]

theorem forall₂_keeps_step {before after : List Element} {s s' : Step}
    (h : (Element.step s).Keeps (.step s')) :
    List.Forall₂ Element.Keeps (Element.walkAll (before ++ .step s :: after))
      (Element.walkAll (before ++ .step s' :: after)) := by
  rw [Element.walkAll_append, Element.walkAll_append]
  exact List.rel_append (List.forall₂_refl _) (.cons h (List.forall₂_refl _))

mutual

/-- The elements of a sequence come from its lines, in their order. -/
theorem Sequence.comesFrom {ds : List (Located Directive)} {es : List Element}
    (h : Sequence ds es) :
    List.Forall₂ Element.ComesFrom (Element.walkAll es) (ds.filter (·.value.isElement)) := by
  match h with
  | .empty => exact .nil
  | .title text span h =>
    rw [filter_isElement_concat rfl]
    exact h.comesFrom
  | .element hd h =>
    obtain ⟨hfrom, hwalk, helement⟩ := Element.ComesFrom.of_element? hd
    rw [Element.walkAll_append, List.filter_append]
    refine List.rel_append h.comesFrom ?_
    simpa [Element.walkAll, hwalk, helement] using hfrom
  | .action a span _ h =>
    rw [filter_isElement_concat rfl]
    exact Element.forall₂_comesFrom_of_keeps h.comesFrom
      (forall₂_keeps_step (.step rfl rfl rfl rfl))
  | .linkedFile file span _ h =>
    rw [filter_isElement_concat rfl]
    exact Element.forall₂_comesFrom_of_keeps h.comesFrom
      (forall₂_keeps_step (.step rfl rfl rfl rfl))
  | .divergence junction span endSpan h hbody =>
    rw [filter_isElement_concat rfl, Element.walkAll_append, List.filter_append]
    refine List.rel_append h.comesFrom ?_
    rw [Element.walkAll, Element.walk, Element.walkAll, List.append_nil]
    exact .cons (.divergence ..) hbody.comesFrom

/-- The elements within a divergence come from the lines within it. -/
theorem Branches.comesFrom {ds : List (Located Directive)} {bs : List Branch}
    (h : Branches ds bs) :
    List.Forall₂ Element.ComesFrom (Branch.walkBranches bs) (ds.filter (·.value.isElement)) := by
  match h with
  | .empty => exact .nil
  | .title text span h =>
    rw [filter_isElement_concat rfl]
    exact h.comesFrom
  | .branch span h hbody =>
    rw [Branch.walkBranches_concat, List.filter_append]
    exact List.rel_append h.comesFrom hbody.comesFrom
  | .endedBranch span endSpan h hbody =>
    rw [filter_isElement_concat rfl, Branch.walkBranches_concat, List.filter_append]
    exact List.rel_append h.comesFrom hbody.comesFrom

end

end Nesting

/-! ### Actions and their lines -/

/-- The action that a line adds to a step. -/
def Directive.action? (d : Located Directive) : Option (Located Action) :=
  match d.value with
  | .action a => some ⟨a, d.span⟩
  | _ => none

/-- The steps among the elements have the actions that the lines say, each action once, and those of
one step in the order of their lines. -/
structure Element.ActionsComeFrom (es : List Element) (ds : List (Located Directive)) : Prop where
  perm : ((es.filterMap step?).flatMap (·.actions)).Perm (ds.filterMap Directive.action?)
  sublist : ∀ s, .step s ∈ es → s.actions.Sublist (ds.filterMap Directive.action?)

namespace Element.ActionsComeFrom

variable {es fs before after : List Element} {ds ds' : List (Located Directive)}

theorem nil : ActionsComeFrom [] [] := ⟨.nil, nofun⟩

theorem append (h : ActionsComeFrom es ds) (h' : ActionsComeFrom fs ds') :
    ActionsComeFrom (es ++ fs) (ds ++ ds') where
  perm := by
    rw [List.filterMap_append, List.flatMap_append, List.filterMap_append]
    exact h.perm.append h'.perm
  sublist s hs := by
    rw [List.filterMap_append]
    rcases List.mem_append.1 hs with hs | hs
    · exact (h.sublist s hs).trans (List.sublist_append_left ..)
    · exact (h'.sublist s hs).trans (List.sublist_append_right ..)

theorem filterMap_action?_concat (d : Located Directive) :
    (ds ++ [d]).filterMap Directive.action? =
      ds.filterMap Directive.action? ++ (Directive.action? d).toList := by
  cases h : Directive.action? d <;> simp [h]

/-- A line that is no action adds none. -/
theorem concat (h : ActionsComeFrom es ds) {d : Located Directive}
    (hd : Directive.action? d = none) : ActionsComeFrom es (ds ++ [d]) := by
  have hds : (ds ++ [d]).filterMap Directive.action? = ds.filterMap Directive.action? := by
    rw [filterMap_action?_concat, hd, Option.toList_none, List.append_nil]
  exact ⟨hds ▸ h.perm, hds ▸ h.sublist⟩

/-- A line that adds to a step adds its action behind those of the step, if it is one. -/
theorem attach {s s' : Step} (h : ActionsComeFrom (before ++ .step s :: after) ds)
    {d : Located Directive} (hs : s'.actions = s.actions ++ (Directive.action? d).toList) :
    ActionsComeFrom (before ++ .step s' :: after) (ds ++ [d]) where
  perm := by
    rw [filterMap_action?_concat]
    refine List.Perm.trans ?_ (h.perm.append_right _)
    simp only [List.filterMap_append, List.filterMap_cons, step?, List.flatMap_append,
      List.flatMap_cons, List.append_assoc, hs]
    exact (List.perm_append_comm.append_left _).append_left _
  sublist t ht := by
    rw [filterMap_action?_concat]
    have hold : ∀ t, .step t ∈ before ++ .step s :: after →
        t.actions.Sublist (ds.filterMap Directive.action? ++ (Directive.action? d).toList) :=
      fun t ht => (h.sublist t ht).trans (List.sublist_append_left ..)
    rcases List.mem_append.1 ht with ht | ht
    · exact hold t (by simp [ht])
    · rcases List.mem_cons.1 ht with ht | ht
      · obtain rfl := Element.step.inj ht
        exact hs ▸ (h.sublist s (by simp)).append_right _
      · exact hold t (by simp [ht])

/-- An element does not have actions before their lines have been read. -/
theorem of_element? {d : Directive} {span : Span} {e : Element} (h : d.element? span = some e) :
    ActionsComeFrom [e] [⟨d, span⟩] := by
  refine ⟨?_, fun s hs => ?_⟩
  · cases d <;> cases h <;> exact .nil
  · obtain rfl := List.mem_singleton.1 hs
    cases d <;> cases h
    exact List.nil_sublist _

theorem of_renumbers (h : ActionsComeFrom es ds) (hfs : List.Forall₂ Renumbers es fs) :
    ActionsComeFrom fs ds where
  perm := filterMap_step?_of_renumbers hfs ▸ h.perm
  sublist s hs := h.sublist s (by
    have hmem : s ∈ fs.filterMap step? := List.mem_filterMap.2 ⟨_, hs, rfl⟩
    rw [filterMap_step?_of_renumbers hfs] at hmem
    obtain ⟨e, he, hstep⟩ := List.mem_filterMap.1 hmem
    cases e with
    | step => cases hstep; exact he
    | transition | jump | divergence => cases hstep)

/-- A branch comes behind others. -/
theorem branch {bs : List Branch} {span : Span} (h : ActionsComeFrom (Branch.walkBranches bs) ds)
    (h' : ActionsComeFrom (walkAll es) ds') :
    ActionsComeFrom (Branch.walkBranches (bs ++ [.mk es span])) (ds ++ ⟨.branch, span⟩ :: ds') := by
  rw [Branch.walkBranches_concat, List.append_cons]
  exact (h.concat rfl).append h'

end Element.ActionsComeFrom

namespace Nesting

open Element (ActionsComeFrom)

mutual

/-- The actions of a sequence come from its lines. -/
theorem Sequence.actionsComeFrom {ds : List (Located Directive)} {es : List Element}
    (h : Sequence ds es) : ActionsComeFrom (Element.walkAll es) ds := by
  match h with
  | .empty => exact .nil
  | .title text span h => exact h.actionsComeFrom.concat rfl
  | .element hd h =>
    obtain ⟨-, hwalk, -⟩ := Element.ComesFrom.of_element? hd
    rw [Element.walkAll_append, Element.walkAll, hwalk]
    exact h.actionsComeFrom.append (.of_element? hd)
  | .action a span _ h =>
    have hsteps := h.actionsComeFrom
    rw [Element.walkAll_append] at hsteps ⊢
    exact hsteps.attach rfl
  | .linkedFile file span _ h =>
    have hsteps := h.actionsComeFrom
    rw [Element.walkAll_append] at hsteps ⊢
    exact hsteps.attach (List.append_nil _).symm
  | @Sequence.divergence ds es body bs junction span endSpan h hbody =>
    have hfirst : ActionsComeFrom [.divergence junction bs span endSpan]
        [⟨.divergence junction, span⟩] :=
      ⟨.nil, fun s hs => by cases List.mem_singleton.1 hs⟩
    rw [Element.walkAll_append, Element.walkAll, Element.walk, Element.walkAll, List.append_nil]
    exact (h.actionsComeFrom.append (hfirst.append hbody.actionsComeFrom)).concat rfl

/-- The actions within a divergence come from the lines within it. -/
theorem Branches.actionsComeFrom {ds : List (Located Directive)} {bs : List Branch}
    (h : Branches ds bs) : ActionsComeFrom (Branch.walkBranches bs) ds := by
  match h with
  | .empty => exact .nil
  | .title text span h => exact h.actionsComeFrom.concat rfl
  | .branch span h hbody => exact h.actionsComeFrom.branch hbody.actionsComeFrom
  | .endedBranch span endSpan h hbody =>
    exact (h.actionsComeFrom.branch hbody.actionsComeFrom).concat rfl

end

end Nesting

/-! ### The chart of a source -/

/-- A source whose lines can be read denotes a chart exactly if its directives nest, namely the
sequence that they say. The elements of the chart come from the lines, one from each, and so do the
actions of its steps. -/
theorem Chart.parse_iff_sequence {source : String}
    (h : ∀ l ∈ Line.ofSource source.toList, ∃ d, Directive.ofLine l = .ok d) :
    ((∃ r, parse source = .ok r) ↔ ∃ es, Nesting.Sequence (directives source) es) ∧
      ∀ es, Nesting.Sequence (directives source) es →
        ∃ c ws, parse source = .ok (c, ws) ∧
          c = numbered { title := Nesting.title (directives source), elements := es } ∧
          List.Forall₂ Element.ComesFrom c.walk
            ((directives source).filter (·.value.isElement)) ∧
          Element.ActionsComeFrom c.walk (directives source) := by
  refine ⟨exists_parse_iff h, fun es hes => ?_⟩
  obtain ⟨⟨c, ws⟩, hparse⟩ := (exists_parse_iff h).2 ⟨es, hes⟩
  obtain rfl : c = (build source).chart := congrArg Prod.fst (parse_eq_ok_iff.1 hparse).2
  have hrenumbers := Element.renumbers_walkAll
    (writtenNumbers { title := Nesting.title (directives source), elements := es }) es 0
  -- numbering touches neither the lines of the elements nor the actions
  refine ⟨_, ws, hparse, chart_build h hes, ?_, ?_⟩
  · rw [chart_build h hes]
    exact Element.forall₂_comesFrom_of_keeps hes.comesFrom (hrenumbers.imp fun _ _ h => h.keeps)
  · rw [chart_build h hes]
    exact hes.actionsComeFrom.of_renumbers hrenumbers

/-- A chart whose first branch ends where the second one begins; the last action belongs to the step
before the divergence. -/
def nested : String :=
  "Step 0 (Initial)\nAction run\nDivergence OR\nBranch\nTransition a\nBranch\nTransition b\n" ++
    "Jump 0\nEndBranch\nEndDivergence\nAction stop\nStep 1"

/-- The chart of `nested` has six elements, and both actions belong to its first step. -/
theorem Chart.parse_iff_sequence_nested :
    (∀ l ∈ Line.ofSource nested.toList, ∃ d, Directive.ofLine l = .ok d) ∧
      ∃ es c, Nesting.Sequence (directives nested) es ∧ parse nested = .ok (c, []) ∧
        c = numbered { title := Nesting.title (directives nested), elements := es } ∧
        List.Forall₂ Element.ComesFrom c.walk ((directives nested).filter (·.value.isElement)) ∧
        Element.ActionsComeFrom c.walk (directives nested) ∧
        c.walk.map (·.kind) =
          [.step, .divergence .or, .transition, .transition, .jump, .step] ∧
        c.steps.map (·.actions.map (·.value.name)) = [["run", "stop"], []] := by
  have hlines : ∀ l ∈ Line.ofSource nested.toList, ∃ d, Directive.ofLine l = .ok d := by
    have hall : (Line.ofSource nested.toList).all fun l => (Directive.ofLine l).isOk := by
      decide +kernel
    intro l hl
    have hl := List.all_eq_true.1 hall l hl
    cases hd : Directive.ofLine l with
    | error => simp [hd, Except.isOk, Except.toBool] at hl
    | ok d => exact ⟨d, rfl⟩
  have hchart : (parse nested).toOption.any (fun r => r.2.isEmpty ∧ r.1.walk.map (·.kind) =
      [.step, .divergence .or, .transition, .transition, .jump, .step] ∧
        r.1.steps.map (·.actions.map (·.value.name)) = [["run", "stop"], []]) := by
    decide +kernel
  obtain ⟨hiff, hcome⟩ := parse_iff_sequence hlines
  match hparse : parse nested with
  | .error ds => simp [hparse, Except.toOption] at hchart
  | .ok (c, ws) =>
    simp only [hparse, Except.toOption, Option.any_some, decide_eq_true_eq, List.isEmpty_iff]
      at hchart
    obtain ⟨rfl, hkinds, hactions⟩ := hchart
    obtain ⟨es, hes⟩ := hiff.1 ⟨_, hparse⟩
    obtain ⟨c', ws, hparse', hc, hwalk, hsteps⟩ := hcome es hes
    obtain ⟨rfl, rfl⟩ : c = c' ∧ [] = ws := by simpa [hparse] using hparse'
    exact ⟨hlines, es, c, hes, rfl, hc, hwalk, hsteps, hkinds, hactions⟩

end SequentialChart
