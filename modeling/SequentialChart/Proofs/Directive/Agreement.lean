import Mathlib
import SequentialChart.Directive.Read

/-!
# What a line says does not depend on its place

A line is read from its text alone. Where it stands in the source, and on which line, only decides
which place is named when it is at fault.

## Main definitions

* `DirectiveFault.unplaced` — a fault without its place.
* `DirectiveFault.Agree` — results that are equal but for the place of the fault.

## Main statements

* `Directive.agree_ofLine` — the text of a line decides what it gives.
-/

namespace SequentialChart

/-- The fault without its place. -/
def DirectiveFault.unplaced : DirectiveFault → DirectiveFault
  | malformed keyword _ remark usage => malformed keyword default remark usage
  | unexpectedArgument keyword _ => unexpectedArgument keyword default
  | missingCondition _ => missingCondition default
  | unknownAttribute key _ => unknownAttribute key default
  | tooManyAttributes _ => tooManyAttributes default
  | unknownQualifier text _ => unknownQualifier text default
  | invalidDuration text _ => invalidDuration text default
  | missingDuration name qualifier _ => missingDuration name qualifier default

/-- The results are equal but for the place of the fault. -/
inductive DirectiveFault.Agree {α : Type} :
    Except DirectiveFault α → Except DirectiveFault α → Prop
  | ok (a) : Agree (.ok a) (.ok a)
  | error {e e'} : e.unplaced = e'.unplaced → Agree (.error e) (.error e')

namespace DirectiveFault.Agree

variable {α β : Type} {x y : Except DirectiveFault α}

theorem map (h : Agree x y) (f : α → β) : Agree (x.map f) (y.map f) := by
  cases h with
  | ok a => exact .ok (f a)
  | error he => exact .error he

theorem bind (h : Agree x y) {f g : α → Except DirectiveFault β} (hfg : ∀ a, Agree (f a) (g a)) :
    Agree (x >>= f) (y >>= g) := by
  cases h with
  | ok a => exact hfg a
  | error he => exact .error he

end DirectiveFault.Agree

namespace Directive

open DirectiveFault Text

variable {c : LineContext} {l : Line}

theorem agree_expect {α : Type} (usage : Usage) (r : Except Stop α) :
    Agree (c.expect usage r) ({ c with line := l }.expect usage r) := by
  cases r with
  | ok a => exact .ok a
  | error stop => exact .error rfl

theorem agree_alone (d : Directive) : Agree (c.alone d) ({ c with line := l }.alone d) := by
  unfold LineContext.alone
  by_cases h : c.arguments.isEmpty
  · rw [if_pos h, if_pos h]
    exact .ok d
  · rw [if_neg h, if_neg h]
    exact .error rfl

theorem agree_readTransition : Agree (readTransition c) (readTransition { c with line := l }) := by
  unfold readTransition
  dsimp only
  cases textArgument (splitNumber c.arguments).2 with
  | some condition => exact .ok _
  | none => exact .error rfl

theorem agree_slot (draft : ActionDraft) (index : Nat) (a : Attribute) :
    Agree (draft.slot c index a) (draft.slot { c with line := l } index a) := by
  unfold ActionDraft.slot
  cases a.key with
  | some key =>
    dsimp only
    cases Slot.ofKey? key with
    | some slot => exact .ok slot
    | none => exact .error rfl
  | none =>
    dsimp only
    cases draft.positional? index a.value with
    | some slot => exact .ok slot
    | none => exact .error rfl

theorem agree_fill (draft : ActionDraft) (value : List Char) (slot : Slot) :
    Agree (draft.fill c value slot) (draft.fill { c with line := l } value slot) := by
  cases slot with
  | qualifier =>
    unfold ActionDraft.fill
    dsimp only
    cases Qualifier.read? value with
    | some q => exact .ok _
    | none => exact .error rfl
  | duration =>
    unfold ActionDraft.fill
    dsimp only
    cases Duration.read value with
    | some seconds => exact .ok _
    | none => exact .error rfl
  | condition => exact .ok _

theorem agree_fillAll (index : Nat) (as : List Attribute) (draft : ActionDraft) :
    Agree (ActionDraft.fillAll c index as draft)
      (ActionDraft.fillAll { c with line := l } index as draft) := by
  induction as generalizing index draft with
  | nil => exact .ok draft
  | cons a as ih =>
    exact (agree_slot draft index a).bind fun slot =>
      (agree_fill draft a.value slot).bind fun draft => ih (index + 1) draft

theorem agree_ofAttributes (name : List Char) (as : List Attribute) :
    Agree (Action.ofAttributes c name as) (Action.ofAttributes { c with line := l } name as) := by
  unfold Action.ofAttributes
  dsimp only
  by_cases hname : (trim name).isEmpty
  · rw [if_pos hname, if_pos hname]
    exact .error rfl
  · rw [if_neg hname, if_neg hname]
    refine (agree_fillAll 0 as {}).bind fun draft => ?_
    by_cases hduration : (draft.qualifier.getD .nonStored).isTimed && draft.duration.isNone
    · rw [if_pos hduration, if_pos hduration]
      exact .error rfl
    · rw [if_neg hduration, if_neg hduration]
      exact .ok _

/-- The keyword and the arguments decide what a line says. -/
theorem agree_ofKeyword (keyword : String) :
    Agree (ofKeyword keyword c) (ofKeyword keyword { c with line := l }) := by
  unfold ofKeyword
  split
  · exact .ok _
  · exact (agree_expect .step _).map _
  · exact agree_readTransition.map some
  · refine (agree_expect .action _).bind fun r => ?_
    exact (agree_ofAttributes r.1 r.2).bind fun action => .ok _
  · cases textArgument c.arguments with
    | some file => exact .ok _
    | none => exact .error rfl
  · exact (agree_expect .jump _).map _
  · exact (agree_expect .divergence _).map _
  · exact (agree_alone .branch).map some
  · exact (agree_alone .endBranch).map some
  · exact (agree_alone .endDivergence).map some
  · exact (agree_alone .endDivergence).map some
  · exact .ok none

/-- The text of a line decides which directive it gives, or what is wrong with it. -/
theorem agree_ofLine {l l' : Line} (h : l'.text = l.text) : Agree (ofLine l) (ofLine l') := by
  unfold ofLine
  rw [h]
  dsimp only
  split
  · exact .ok none
  · exact agree_ofKeyword _

end Directive

end SequentialChart
