import Mathlib
import SequentialChart.Proofs.Chart.Validity
import SequentialChart.Proofs.Failure
import SequentialChart.Proofs.Source.Edits

/-!
# The paths of diagnostics

A diagnostic names its sequence by a path: for each divergence on the way from the root, the index
of the branch. The path does not say which divergence of a sequence is meant, so it determines the
sequence only where no sequence branches twice.

## Main definitions

* `Place`, `Place.path` — the whole way to a sequence, and what a path keeps of it.
* `Element.opening?`, `Element.sequenceAt?` — the branches of a sequence, and the sequence at a
  place.
* `Element.findingsAt` — what is found of the sequence at a place.
* `Element.BranchesOnce` — at most one divergence of a sequence has branches.

## Main statements

* `SequencePath.text_inj` — the text of a path determines its indices.
* `Element.mem_checkAll_iff` — checking a sequence finds what is found of it and of its branches.
* `Chart.mem_structureFindings_iff` — every finding has the path of its sequence.
* `Chart.validate_paths` — which diagnostics there are, with which paths, and when the paths of
  all sequences differ.
-/

namespace SequentialChart

/-- The way from the root to a sequence: for each divergence on the way, its position in its
sequence and the index of the branch. -/
abbrev Place := List (Nat × Nat)

/-- What a path keeps of a place. -/
def Place.path (p : Place) : SequencePath := p.map Prod.snd

/-! ### The texts of paths -/

namespace SequencePath

variable {p q : SequencePath}

theorem toList_foldl (s : String) (p : SequencePath) :
    (p.foldl (fun s i => s ++ "." ++ Nat.repr i) s).toList =
      s.toList ++ p.flatMap fun i => '.' :: i.repr.toList := by
  induction p generalizing s with
  | nil => simp
  | cons i p ih => simp [ih]

theorem isDigit_head?_flatMap (p : SequencePath) :
    ∀ c ∈ (p.flatMap fun i => '.' :: i.repr.toList).head?, c.isDigit = false := by
  cases p with
  | nil => simp
  | cons i p =>
    rintro c ⟨⟩
    rfl

/-- No index contains a point, so the points divide the text. -/
theorem flatMap_inj : (p.flatMap fun i => '.' :: i.repr.toList) =
    (q.flatMap fun i => '.' :: i.repr.toList) ↔ p = q := by
  refine ⟨fun h => ?_, fun h => h ▸ rfl⟩
  induction p generalizing q with
  | nil =>
    cases q with
    | nil => rfl
    | cons j q => cases h
  | cons i p ih =>
    cases q with
    | nil => cases h
    | cons j q =>
      simp only [List.flatMap_cons, List.cons_append, List.cons.injEq, true_and,
        Nat.toList_repr] at h
      have hdigits (n : Nat) : ∀ c ∈ Nat.toDigits 10 n, c.isDigit := fun c hc =>
        Nat.isDigit_of_mem_toDigits (by decide) le_rfl hc
      obtain ⟨htake, hdrop⟩ :=
        Text.takeWhile_append_of_head? (hdigits i) (isDigit_head?_flatMap p)
      obtain ⟨htake', hdrop'⟩ :=
        Text.takeWhile_append_of_head? (hdigits j) (isDigit_head?_flatMap q)
      simp only [Nat.toList_repr] at htake hdrop htake' hdrop'
      rw [h, htake'] at htake
      rw [h, hdrop'] at hdrop
      have hvalue (n : Nat) : Nat.ofDigitChars 10 (Nat.toDigits 10 n) 0 = n :=
        Nat.ofDigitChars_ten_toDigits
      rw [ih (by simpa only [Nat.toList_repr] using hdrop.symm), ← hvalue i, ← hvalue j, htake]

/-- The text of a path determines its indices. -/
theorem text_inj : p.text = q.text ↔ p = q := by
  rw [← String.toList_inj, text, text, toList_foldl, toList_foldl, List.append_cancel_left_eq,
    flatMap_inj]

end SequencePath

/-! ### Sequences and their places -/

/-- A branch among the elements of a sequence. -/
structure Opening where
  junction : Junction
  branch : Branch
  /-- What stands above the branch, from the start of the sequence on. -/
  above : List Element

namespace Element

/-- The branch with the index `i` of the divergence at the position `k`. -/
def opening? (es : List Element) (k i : Nat) : Option Opening :=
  match es[k]? with
  | some (.divergence junction bs _ _) =>
    bs[i]?.map fun b => ⟨junction, b, walkAll (es.take k) ++ Branch.walkBranches (bs.take i)⟩
  | _ => none

/-- The sequence at a place. -/
def sequenceAt? (es : List Element) : Place → Option (List Element)
  | [] => some es
  | (k, i) :: p => (opening? es k i).bind fun o => sequenceAt? o.branch.elements p

/-- At most one divergence of the sequence has branches. -/
def BranchesOnce (es : List Element) : Prop :=
  ∀ (k k' : Nat) (e e' : Element), es[k]? = some e → es[k']? = some e' →
    e.branches ≠ [] → e'.branches ≠ [] → k = k'

/-- What is found of an element itself. -/
def ownFindings (allSteps : List Nat) (previous next : Option Element) (l : Ledger) :
    Element → List StructureFinding
  | .step s => consecutiveFindings previous (.step s) ++ (l.declare s).1
  | .transition t => consecutiveFindings previous (.transition t) ++ (l.enter t).1
  | .jump j => l.follow allSteps j
  | .divergence junction branches span endSpan =>
    placementFindings junction span endSpan previous next ++
      countFindings junction branches.length span

/-- What is found of the elements of a sequence after the element `previous`, what is in their
branches apart. -/
def sequenceFindings (allSteps : List Nat) (previous : Option Element) (l : Ledger) :
    List Element → List StructureFinding
  | [] => []
  | e :: es =>
    reachFindings previous e ++ e.ownFindings allSteps previous es.head? l ++
      sequenceFindings allSteps (some e) (e.walk.foldl Ledger.record l) es

/-- What is found of the sequence at a place below `es`, with `own` about how `es` itself begins
and ends. -/
def findingsAt (allSteps : List Nat) (own : List StructureFinding) (l : Ledger)
    (es : List Element) : Place → List StructureFinding
  | [] => own ++ sequenceFindings allSteps none l es
  | (k, i) :: p =>
    match opening? es k i with
    | some o =>
      findingsAt allSteps (boundFindings o.junction i o.branch) (o.above.foldl Ledger.record l)
        o.branch.elements p
    | none => []

variable {es : List Element} {e : Element} {k i : Nat} {o : Opening}

theorem opening?_eq_some_iff : opening? es k i = some o ↔
    ∃ junction bs span endSpan b, es[k]? = some (.divergence junction bs span endSpan) ∧
      bs[i]? = some b ∧
      o = ⟨junction, b, walkAll (es.take k) ++ Branch.walkBranches (bs.take i)⟩ := by
  unfold opening?
  split
  · next junction bs span endSpan h => simp [h, eq_comm]
  · next h =>
    simp only [reduceCtorEq, false_iff, not_exists]
    rintro junction bs span endSpan b ⟨he, -⟩
    exact h junction bs span endSpan he

theorem opening?_cons_succ : opening? (e :: es) (k + 1) i =
    (opening? es k i).map fun o => { o with above := e.walk ++ o.above } := by
  unfold opening?
  rw [List.getElem?_cons_succ]
  split
  · simp [walkAll, Function.comp_def]
  · rfl

/-- Branches are there exactly where the divergences have them. -/
theorem isSome_opening?_iff :
    (opening? es k i).isSome ↔ ∃ e, es[k]? = some e ∧ i < e.branches.length := by
  rw [Option.isSome_iff_exists]
  simp only [opening?_eq_some_iff]
  constructor
  · rintro ⟨-, junction, bs, span, endSpan, b, he, hb, -⟩
    exact ⟨_, he, (List.getElem?_eq_some_iff.1 hb).1⟩
  · rintro ⟨e, he, hi⟩
    cases e with
    | divergence junction bs span endSpan =>
      exact ⟨_, junction, bs, span, endSpan, _, he, List.getElem?_eq_getElem hi, rfl⟩
    | _ => cases hi

/-- What holds of a sequence if it holds of the branches in it, holds of all sequences. -/
theorem opening_induction {motive : List Element → Prop}
    (h : ∀ es, (∀ k i o, opening? es k i = some o → motive o.branch.elements) → motive es)
    (es : List Element) : motive es := by
  refine h es fun k i o ho => ?_
  obtain ⟨junction, bs, span, endSpan, b, he, hb, rfl⟩ := opening?_eq_some_iff.1 ho
  have hmem := List.sizeOf_lt_of_mem (List.mem_of_getElem? he)
  have hlt := Branch.sizeOf_elements_lt (List.mem_of_getElem? hb)
  exact opening_induction h b.elements
termination_by sizeOf es
decreasing_by
  rw [Element.divergence.sizeOf_spec] at hmem
  omega

/-! ### Findings and their paths -/

section

variable {allSteps : List Nat} {path : SequencePath} {previous next : Option Element} {l : Ledger}
  {junction : Junction} {bs : List Branch} {x : PlacedFinding}

theorem check_snd (e : Element) :
    (e.check allSteps path previous next l).2 = e.walk.foldl Ledger.record l := by
  match e with
  | .step _ | .transition _ | .jump _ => rfl
  | .divergence junction bs span endSpan =>
    have hchecked : Branch.AreCheckedBy false junction l bs
        (Branch.checkAll allSteps path junction 0 l bs) :=
      Branch.checkAll_of (fun b _ path l => checkAll_passes_iff path none l b.elements) 0 l
    exact hchecked.2

theorem branch_check_snd (b : Branch) :
    (b.check allSteps path junction i l).2 = b.walk.foldl Ledger.record l := by
  obtain ⟨elements, span⟩ := b
  have hchecked : AreCheckedBy false none l elements
      (checkAll allSteps (path ++ [i]) none l elements) :=
    checkAll_passes_iff (path ++ [i]) none l elements
  exact hchecked.2

theorem mem_branch_checkAll_iff {n : Nat} :
    x ∈ (Branch.checkAll allSteps path junction n l bs).1 ↔
      ∃ (i : Nat) (b : Branch), bs[i]? = some b ∧
        x ∈ (b.check allSteps path junction (n + i)
          ((Branch.walkBranches (bs.take i)).foldl Ledger.record l)).1 := by
  induction bs generalizing n l with
  | nil => simp [Branch.checkAll]
  | cons b bs ih =>
    refine Iff.trans ?_ Nat.or_exists_add_one
    simp [Branch.checkAll, branch_check_snd, ih, Branch.walkBranches, Nat.add_assoc, Nat.add_comm 1]

/-- Checking an element finds what is found of it and of its branches. -/
theorem mem_check_iff (es : List Element) : x ∈ (e.check allSteps path previous next l).1 ↔
    (∃ f ∈ e.ownFindings allSteps previous next l, x = ⟨f, some path⟩) ∨
      ∃ i o, opening? (e :: es) 0 i = some o ∧
        x ∈ (o.branch.check allSteps path o.junction i (o.above.foldl Ledger.record l)).1 := by
  match e with
  | .step _ | .transition _ | .jump _ =>
    simp [check, ownFindings, opening?, or_and_right, exists_or, eq_comm]
  | .divergence junction bs span endSpan =>
    simp [check, ownFindings, opening?, mem_branch_checkAll_iff, walkAll, or_and_right, exists_or,
      or_assoc, eq_comm]

/-- Checking a sequence finds what is found of it and of its branches. -/
theorem mem_checkAll_iff : x ∈ (checkAll allSteps path previous l es).1 ↔
    (∃ f ∈ sequenceFindings allSteps previous l es, x = ⟨f, some path⟩) ∨
      ∃ k i o, opening? es k i = some o ∧
        x ∈ (o.branch.check allSteps path o.junction i (o.above.foldl Ledger.record l)).1 := by
  induction es generalizing previous l with
  | nil => simp [checkAll, sequenceFindings, opening?]
  | cons e es ih =>
    have hbranches : (∃ k i o, opening? (e :: es) k i = some o ∧ x ∈ (o.branch.check allSteps path
          o.junction i (o.above.foldl Ledger.record l)).1) ↔
        (∃ i o, opening? (e :: es) 0 i = some o ∧ x ∈ (o.branch.check allSteps path o.junction i
          (o.above.foldl Ledger.record l)).1) ∨
        ∃ k i o, opening? es k i = some o ∧ x ∈ (o.branch.check allSteps path o.junction i
          (o.above.foldl Ledger.record (e.walk.foldl Ledger.record l))).1 := by
      rw [← Nat.or_exists_add_one]
      simp [opening?_cons_succ]
    rw [hbranches]
    simp only [checkAll, sequenceFindings, List.mem_append, List.mem_map, check_snd, ih,
      mem_check_iff es, or_and_right, exists_or, eq_comm (b := x)]
    exact (or_congr_left or_assoc.symm).trans or_or_or_comm

theorem branch_check_fst (b : Branch) : (b.check allSteps path junction i l).1 =
    (boundFindings junction i b).map (⟨·, some (path ++ [i])⟩) ++
      (checkAll allSteps (path ++ [i]) none l b.elements).1 := by
  cases b
  rfl

/-- Everything that is found in a sequence and below it is found of the sequence at some place. -/
theorem mem_own_append_checkAll_iff {own : List StructureFinding} :
    x ∈ own.map (⟨·, some path⟩) ++ (checkAll allSteps path none l es).1 ↔
      ∃ (p : Place) (f : StructureFinding),
        f ∈ findingsAt allSteps own l es p ∧ x = ⟨f, some (path ++ p.path)⟩ := by
  induction es using opening_induction generalizing path l own with
  | h es ih =>
    constructor
    · intro hx
      rw [List.mem_append, mem_checkAll_iff] at hx
      rcases hx with hown | ⟨f, hf, rfl⟩ | ⟨k, i, o, ho, hx⟩
      · obtain ⟨f, hf, rfl⟩ := List.mem_map.1 hown
        exact ⟨[], f, List.mem_append_left _ hf, by simp [Place.path]⟩
      · exact ⟨[], f, List.mem_append_right _ hf, by simp [Place.path]⟩
      · rw [branch_check_fst, ih k i o ho] at hx
        obtain ⟨p, f, hf, rfl⟩ := hx
        refine ⟨(k, i) :: p, f, ?_, by simp [Place.path]⟩
        rw [findingsAt, ho]
        exact hf
    · rintro ⟨p, f, hf, rfl⟩
      rw [List.mem_append, mem_checkAll_iff]
      match p with
      | [] =>
        rcases List.mem_append.1 hf with hown | hf
        · exact .inl (List.mem_map.2 ⟨f, hown, by simp [Place.path]⟩)
        · exact .inr (.inl ⟨f, hf, by simp [Place.path]⟩)
      | (k, i) :: p =>
        rw [findingsAt] at hf
        split at hf
        · next o ho =>
          refine .inr (.inr ⟨k, i, o, ho, ?_⟩)
          rw [branch_check_fst, ih k i o ho]
          exact ⟨p, f, hf, by simp [Place.path]⟩
        · cases hf

/-- What is found at a place is found of the sequence there. -/
theorem isSome_sequenceAt?_of_mem_findingsAt {own : List StructureFinding} {p : Place}
    {f : StructureFinding} (h : f ∈ findingsAt allSteps own l es p) :
    (sequenceAt? es p).isSome := by
  induction p generalizing es own l with
  | nil => rfl
  | cons ki p ih =>
    obtain ⟨k, i⟩ := ki
    rw [findingsAt] at h
    split at h
    · next o ho =>
      rw [sequenceAt?, ho, Option.bind_some]
      exact ih h
    · cases h

end

/-! ### All places -/

section

variable {es' : List Element} {p q : Place}

theorem exists_opening?_iff {P : Branch → Prop} :
    (∃ k i o, opening? es k i = some o ∧ P o.branch) ↔ ∃ e ∈ es, ∃ b ∈ e.branches, P b := by
  constructor
  · rintro ⟨k, i, o, ho, hP⟩
    obtain ⟨junction, bs, span, endSpan, b, he, hb, rfl⟩ := opening?_eq_some_iff.1 ho
    exact ⟨_, List.mem_of_getElem? he, b, List.mem_of_getElem? hb, hP⟩
  · rintro ⟨e, he, b, hb, hP⟩
    cases e with
    | divergence junction bs span endSpan =>
      obtain ⟨k, hk⟩ := List.getElem?_of_mem he
      obtain ⟨i, hi⟩ := List.getElem?_of_mem hb
      exact ⟨k, i, _, opening?_eq_some_iff.2 ⟨junction, bs, span, endSpan, b, hk, hi, rfl⟩, hP⟩
    | _ => cases hb

theorem mem_nested_iff : es' ∈ nested es ↔
    ∃ k i o, opening? es k i = some o ∧
      (es' = o.branch.elements ∨ es' ∈ nested o.branch.elements) := by
  rw [exists_opening?_iff (P := fun b => es' = b.elements ∨ es' ∈ nested b.elements)]
  induction es with
  | nil => simp [nested, walkAll]
  | cons e es ih =>
    rw [nested_cons, List.mem_append, ih, List.exists_mem_cons_iff]
    refine or_congr_left ?_
    cases e with
    | step | transition | jump => simp [walk, branches]
    | divergence junction bs span endSpan =>
      rw [walk, List.flatMap_cons, List.map_append, List.mem_append, mem_walkBranches_nested]
      simp [branches, and_or_left, exists_or, eq_comm]

theorem sequenceAt?_cons {k i : Nat} : sequenceAt? es ((k, i) :: p) = some es' ↔
    ∃ o, opening? es k i = some o ∧ sequenceAt? o.branch.elements p = some es' :=
  Option.bind_eq_some_iff

theorem sequenceAt?_append :
    sequenceAt? es (p ++ q) = (sequenceAt? es p).bind (sequenceAt? · q) := by
  induction p generalizing es with
  | nil => rfl
  | cons ki p ih =>
    obtain ⟨k, i⟩ := ki
    simp only [List.cons_append, sequenceAt?, ih, Option.bind_assoc]

/-- The sequences at all places are the sequence itself and those that are nested in it. -/
theorem exists_sequenceAt?_iff :
    (∃ p, sequenceAt? es p = some es') ↔ es' ∈ es :: nested es := by
  induction es using opening_induction with
  | h es ih =>
    rw [List.mem_cons, mem_nested_iff]
    constructor
    · rintro ⟨p, hp⟩
      match p with
      | [] => exact .inl (Option.some.inj hp).symm
      | (k, i) :: p =>
        obtain ⟨o, ho, hp⟩ := sequenceAt?_cons.1 hp
        exact .inr ⟨k, i, o, ho, List.mem_cons.1 ((ih k i o ho).1 ⟨p, hp⟩)⟩
    · rintro (rfl | ⟨k, i, o, ho, hes⟩)
      · exact ⟨[], rfl⟩
      · obtain ⟨p, hp⟩ := (ih k i o ho).2 (List.mem_cons.2 hes)
        exact ⟨(k, i) :: p, sequenceAt?_cons.2 ⟨o, ho, hp⟩⟩

/-- Where no sequence branches twice, the path determines the place. -/
theorem place_eq_of_path_eq
    (honce : ∀ p es', sequenceAt? es p = some es' → BranchesOnce es')
    (hp : (sequenceAt? es p).isSome) (hq : (sequenceAt? es q).isSome) (h : p.path = q.path) :
    p = q := by
  induction p generalizing es q with
  | nil => exact (List.map_eq_nil_iff.1 h.symm).symm
  | cons ki p ih =>
    match ki, q with
    | (k, i), [] => cases h
    | (k, i), (k', i') :: q =>
      obtain ⟨hindex, hpath⟩ := List.cons.inj h
      obtain rfl : i = i' := hindex
      obtain ⟨esp, hp⟩ := Option.isSome_iff_exists.1 hp
      obtain ⟨esq, hq⟩ := Option.isSome_iff_exists.1 hq
      obtain ⟨o, ho, hp⟩ := sequenceAt?_cons.1 hp
      obtain ⟨o', ho', hq⟩ := sequenceAt?_cons.1 hq
      obtain ⟨e, he, hi⟩ := isSome_opening?_iff.1 (Option.isSome_of_eq_some ho)
      obtain ⟨e', he', hi'⟩ := isSome_opening?_iff.1 (Option.isSome_of_eq_some ho')
      obtain rfl := honce [] es rfl k k' e e' he he'
        (List.ne_nil_of_length_pos (by omega)) (List.ne_nil_of_length_pos (by omega))
      obtain rfl : o = o' := Option.some.inj (ho.symm.trans ho')
      have hbelow : ∀ p es', sequenceAt? o.branch.elements p = some es' → BranchesOnce es' :=
        fun p es' hes => honce ((k, i) :: p) es' (sequenceAt?_cons.2 ⟨o, ho, hes⟩)
      rw [ih hbelow (Option.isSome_of_eq_some hp) (Option.isSome_of_eq_some hq) hpath]

/-- Where the path determines the place, no sequence branches twice. -/
theorem branchesOnce_of_path_inj
    (h : ∀ p q : Place, (sequenceAt? es p).isSome → (sequenceAt? es q).isSome →
      p.path = q.path → p = q)
    (hp : sequenceAt? es p = some es') : BranchesOnce es' := by
  intro k k' e e' he he' hbs hbs'
  have hsome {k : Nat} {e : Element} (he : es'[k]? = some e) (hbs : e.branches ≠ []) :
      (sequenceAt? es (p ++ [(k, 0)])).isSome := by
    obtain ⟨o, ho⟩ := Option.isSome_iff_exists.1
      (isSome_opening?_iff.2 ⟨e, he, List.length_pos_of_ne_nil hbs⟩)
    rw [sequenceAt?_append, hp]
    exact Option.isSome_of_eq_some (sequenceAt?_cons.2 ⟨o, ho, rfl⟩)
  have hplace := h _ _ (hsome he hbs) (hsome he' hbs') (by simp [Place.path])
  simpa using hplace

end

end Element

namespace Chart

/-- The sequence at a place in the chart. -/
def sequenceAt? (c : Chart) (p : Place) : Option (List Element) :=
  Element.sequenceAt? c.elements p

/-- What is found of the sequence at a place in the chart. -/
def findingsAt (c : Chart) (p : Place) : List StructureFinding :=
  Element.findingsAt (c.steps.map (·.number)) c.startFindings {} c.elements p

/-- Every finding but the one about the whole chart has the path of its sequence. -/
theorem mem_structureFindings_iff {c : Chart} {x : PlacedFinding} : x ∈ c.structureFindings ↔
    (∃ (p : Place) (f : StructureFinding), f ∈ c.findingsAt p ∧ x = ⟨f, some p.path⟩) ∨
      c.hasInitial = false ∧ x = ⟨.noInitialStep, none⟩ := by
  have hinitial : x ∈ (if c.hasInitial then [] else [⟨.noInitialStep, none⟩]) ↔
      c.hasInitial = false ∧ x = ⟨.noInitialStep, none⟩ := by
    cases c.hasInitial <;> simp
  rw [structureFindings, List.mem_append, Element.mem_own_append_checkAll_iff, hinitial]
  rfl

/-- A diagnostic stands for what is found of a sequence, with the path of that sequence, or says
that the chart has no initial step. A path has the indices of the branches on the way to its
sequence and nothing else. So the paths of all sequences differ exactly if no sequence has two
divergences with branches. -/
theorem validate_paths (c : Chart) :
    (∀ d, d ∈ c.validate ↔
      (∃ (p : Place) (f : StructureFinding), (c.sequenceAt? p).isSome ∧
        f ∈ c.findingsAt p ∧ d = f.diagnostic (some p.path)) ∨
      c.hasInitial = false ∧ d = StructureFinding.noInitialStep.diagnostic none) ∧
    (∀ p q : Place, p.path.text = q.path.text ↔ p.map Prod.snd = q.map Prod.snd) ∧
    ((∀ p q : Place, (c.sequenceAt? p).isSome → (c.sequenceAt? q).isSome →
        p.path.text = q.path.text → p = q) ↔
      ∀ es ∈ c.sequences, Element.BranchesOnce es) := by
  refine ⟨fun d => ?_, fun p q => SequencePath.text_inj, ?_⟩
  · rw [validate, List.mem_map]
    constructor
    · rintro ⟨x, hx, rfl⟩
      rcases mem_structureFindings_iff.1 hx with ⟨p, f, hf, rfl⟩ | ⟨hinitial, rfl⟩
      · exact .inl ⟨p, f, Element.isSome_sequenceAt?_of_mem_findingsAt hf, hf, rfl⟩
      · exact .inr ⟨hinitial, rfl⟩
    · rintro (⟨p, f, -, hf, rfl⟩ | ⟨hinitial, rfl⟩)
      · exact ⟨_, mem_structureFindings_iff.2 (.inl ⟨p, f, hf, rfl⟩), rfl⟩
      · exact ⟨_, mem_structureFindings_iff.2 (.inr ⟨hinitial, rfl⟩), rfl⟩
  · simp only [SequencePath.text_inj]
    constructor
    · intro h es hes
      obtain ⟨p, hp⟩ := Element.exists_sequenceAt?_iff.2 hes
      exact Element.branchesOnce_of_path_inj h hp
    · intro h p q hp hq hpath
      exact Element.place_eq_of_path_eq
        (fun p es hes => h es (Element.exists_sequenceAt?_iff.1 ⟨p, hes⟩)) hp hq hpath

/-- Two AND divergences, each with a first branch that ends with a transition. -/
def twoForks : String :=
  "Step 0 (Initial)\nTransition a\nDivergence AND\nBranch\nStep 1\nTransition b\nBranch\n" ++
    "Step 2\nEndDivergence\nTransition c\nStep 3\nTransition d\nDivergence AND\nBranch\n" ++
      "Step 4\nTransition e\nBranch\nStep 5\nEndDivergence\nTransition f"

/-- The first branches of both divergences are two sequences with one path. -/
theorem exists_one_path_of_twoForks : ∃ c warnings f f',
    Chart.parse twoForks = .ok (c, warnings) ∧
      (c.sequenceAt? [(2, 0)]).isSome ∧ (c.sequenceAt? [(6, 0)]).isSome ∧
      f ∈ c.findingsAt [(2, 0)] ∧ f' ∈ c.findingsAt [(6, 0)] ∧
      f.labels.map (·.span) ≠ f'.labels.map (·.span) ∧
      f.diagnostic (some (Place.path [(2, 0)])) ∈ c.validate ∧
      f'.diagnostic (some (Place.path [(6, 0)])) ∈ c.validate ∧
      (f.diagnostic (some (Place.path [(2, 0)]))).path = some "root.0" ∧
      (f'.diagnostic (some (Place.path [(6, 0)]))).path = some "root.0" := by
  obtain ⟨⟨c, warnings⟩, hparse, hfound⟩ := exists_of_toOption_any (x := Chart.parse twoForks)
    (p := fun r => (r.1.sequenceAt? [(2, 0)]).isSome ∧ (r.1.sequenceAt? [(6, 0)]).isSome ∧
      ∃ f ∈ r.1.findingsAt [(2, 0)], ∃ f' ∈ r.1.findingsAt [(6, 0)],
        f.labels.map (·.span) ≠ f'.labels.map (·.span))
    (by decide +kernel)
  obtain ⟨hplace, hplace', f, hf, f', hf', hlabels⟩ := of_decide_eq_true hfound
  have hmem {p : Place} {f : StructureFinding} (hf : f ∈ c.findingsAt p) :
      f.diagnostic (some p.path) ∈ c.validate :=
    List.mem_map.2 ⟨_, mem_structureFindings_iff.2 (.inl ⟨p, f, hf, rfl⟩), rfl⟩
  have htext : SequencePath.text [0] = "root.0" := by decide +kernel
  exact ⟨c, warnings, f, f', hparse, hplace, hplace', hf, hf', hlabels, hmem hf, hmem hf',
    congrArg some htext, congrArg some htext⟩

end Chart

end SequentialChart
