import Mathlib
import SequentialChart.Directive.Read
import SequentialChart.Proofs.Failure
import SequentialChart.Proofs.Source.Lines

/-!
# Where a directive is at fault

A reader of arguments goes on with an ending of the text that it was given, and stops at such an
ending. So whatever is found to be wrong with a line is found at a piece of its text.

## Main definitions

* `DirectiveFault.place` — where a line is at fault.

## Main statements

* `Arguments.isSuffix_of_step` and the like — where readers stop.
* `Directive.covers_place_of_ofLine` — a fault is at a piece of the line.
-/

namespace SequentialChart

open Text

/-! ### Reading goes on at an ending -/

namespace Arguments

variable {s rest : List Char}

/-- What follows the first character of an ending is an ending too. -/
@[grind →] theorem isSuffix_of_cons {c : Char} (h : c :: rest <:+ s) : rest <:+ s :=
  (List.suffix_cons c rest).trans h

theorem skip_isSuffix (s : List Char) : skip s <:+ s := List.dropWhile_suffix _

@[grind →] theorem isSuffix_of_number? {n : Nat} (h : number? s = some (n, rest)) : rest <:+ s := by
  unfold number? at h
  split at h
  · grind
  · have := List.dropWhile_suffix (l := s) Char.isDigit
    grind

@[grind →] theorem isSuffix_of_quoted? {text : List Char} (h : quoted? s = some (text, rest)) :
    rest <:+ s := by
  unfold quoted? at h
  split at h
  · next s =>
    have := List.dropWhile_suffix (l := s) (· ≠ '"')
    grind
  · cases h

@[grind →] theorem isSuffix_of_word? {word : List Char} (h : word? s = some (word, rest)) :
    rest <:+ s := by
  unfold word? at h
  have := List.dropWhile_suffix (l := s) isWordChar
  grind

@[grind →] theorem isSuffix_of_keyword? {word : String} (h : keyword? word s = some rest) :
    rest <:+ s := by
  unfold keyword? at h
  have := List.drop_suffix word.length s
  grind

@[grind →] theorem isSuffix_of_skipSome? (h : skipSome? s = some rest) : rest <:+ s := by
  unfold skipSome? at h
  grind [skip_isSuffix]

@[grind →] theorem isSuffix_of_kind? {kind : StepKind} (h : kind? s = some (kind, rest)) :
    rest <:+ s := by
  unfold kind? at h
  split at h
  · next s =>
    have := List.dropWhile_suffix (l := skip s) Char.isAlpha
    grind [skip_isSuffix]
  · cases h

@[grind →] theorem isSuffix_of_key? {key : List Char} (h : key? s = some (key, rest)) :
    rest <:+ s := by
  unfold key? at h
  simp only [Option.bind_eq_bind, Option.bind_eq_some_iff] at h
  obtain ⟨⟨key, afterKey⟩, hkey, h⟩ := h
  grind [skip_isSuffix]

@[grind →] theorem isSuffix_of_value? {value : List Char} (h : value? s = some (value, rest)) :
    rest <:+ s := by
  unfold value? at h
  have := List.dropWhile_suffix (l := s) fun c => ¬(c = ',' ∨ c = ')' ∨ c = '"')
  grind [skip_isSuffix]

@[grind →] theorem isSuffix_of_attribute? {a : Attribute} (h : attribute? s = some (a, rest)) :
    rest <:+ s := by
  unfold attribute? at h
  cases hkey : key? s with
  | none =>
    rw [hkey] at h
    obtain ⟨⟨value, afterValue⟩, hvalue, h⟩ := Option.map_eq_some_iff.1 h
    grind [skip_isSuffix]
  | some r =>
    obtain ⟨key, afterKey⟩ := r
    rw [hkey] at h
    obtain ⟨⟨value, afterValue⟩, hvalue, h⟩ := Option.map_eq_some_iff.1 h
    grind [skip_isSuffix]

@[grind →] theorem isSuffix_of_attributes? {fuel : Nat} {as : List Attribute}
    (h : attributes? fuel s = some (as, rest)) : rest <:+ s := by
  induction fuel generalizing s as rest with
  | zero => cases h
  | succ fuel ih =>
    unfold attributes? at h
    simp only [Option.bind_eq_bind, Option.bind_eq_some_iff] at h
    obtain ⟨⟨a, afterFirst⟩, hfirst, h⟩ := h
    split at h
    · grind
    · obtain ⟨⟨more, afterMore⟩, hmore, h⟩ := Option.bind_eq_some_iff.1 h
      grind [skip_isSuffix]
    · cases h

@[grind →] theorem isSuffix_of_attributeList? {as : List Attribute}
    (h : attributeList? s = some (as, rest)) : rest <:+ s := by
  unfold attributeList? at h
  grind [skip_isSuffix]

@[grind →] theorem isSuffix_of_finish {α : Type} {a : α} {stop : Stop}
    (h : finish a s = .error stop) : stop.rest <:+ s := by
  unfold finish at h
  grind [skip_isSuffix]

/-! ### Where readers stop -/

theorem isSuffix_of_step {stop : Stop} (h : step s = .error stop) : stop.rest <:+ s := by
  unfold step at h
  split at h
  · next number rest hnumber =>
    have hkind : ((kind? (skip rest)).getD (.normal, skip rest)).2 <:+ skip rest := by
      cases hk : kind? (skip rest) with
      | none => exact List.suffix_rfl
      | some r => exact isSuffix_of_kind? hk
    grind [skip_isSuffix]
  · cases h
    exact List.suffix_rfl

theorem isSuffix_afterStepWord (s : List Char) : afterStepWord s <:+ s := by
  unfold afterStepWord
  grind [Option.bind_eq_some_iff]

theorem isSuffix_of_jump {stop : Stop} (h : jump s = .error stop) : stop.rest <:+ s := by
  unfold jump at h
  grind [skip_isSuffix, isSuffix_afterStepWord]

theorem isSuffix_of_junction {stop : Stop} (h : junction s = .error stop) : stop.rest <:+ s := by
  unfold junction at h
  grind [skip_isSuffix]

theorem isSuffix_of_action {stop : Stop} (h : action s = .error stop) : stop.rest <:+ s := by
  unfold action at h
  split at h
  · next name rest hname =>
    have hrest : rest <:+ s := by
      rcases Option.or_eq_some_iff.1 (Option.orElse_eq_or.symm.trans hname) with hname | ⟨-, hname⟩
      · exact isSuffix_of_quoted? hname
      · exact isSuffix_of_word? hname
    grind [skip_isSuffix]
  · cases h
    exact List.suffix_rfl

end Arguments

/-! ### Faults -/

namespace DirectiveFault

/-- Where a line is at fault. -/
def place : DirectiveFault → Span
  | malformed _ place _ _ | unexpectedArgument _ place | missingCondition place
  | unknownAttribute _ place | tooManyAttributes place | unknownQualifier _ place
  | invalidDuration _ place | missingDuration _ _ place => place

/-- A fault has one label, where it is. -/
theorem labels_diagnostic (f : DirectiveFault) :
    ∃ message, f.diagnostic.labels = [{ span := f.place, message }] := by
  cases f <;> exact ⟨_, rfl⟩

end DirectiveFault

namespace Text

theorem width_le_of_isSuffix {s t : List Char} (h : s <:+ t) : width s ≤ width t := by
  obtain ⟨front, rfl⟩ := h
  simp

end Text

namespace LineContext

variable {c : LineContext} {fault : DirectiveFault}

theorem covers_argumentsSpan (hc : c.arguments <:+ c.line.text) : c.line.Covers c.argumentsSpan :=
  Line.covers_of_isSuffix hc

theorem covers_of_expect {α : Type} {usage : Usage} {r : Except Stop α}
    (hc : c.arguments <:+ c.line.text)
    (hr : ∀ stop, r = .error stop → stop.rest <:+ c.arguments)
    (h : c.expect usage r = .error fault) : c.line.Covers fault.place := by
  cases r with
  | ok a => cases h
  | error stop =>
    cases h
    have hrest := hr stop rfl
    have hplace := Line.covers_of_isSuffix (hrest.trans hc)
    have hstart : c.argumentsStart + (width c.arguments - width stop.rest) =
        c.line.start + (width c.line.text - width stop.rest) := by
      have := width_le_of_isSuffix hrest
      have := width_le_of_isSuffix hc
      rw [argumentsStart]
      omega
    rwa [DirectiveFault.place, hstart]

theorem covers_of_alone {d : Directive} (hc : c.arguments <:+ c.line.text)
    (h : c.alone d = .error fault) : c.line.Covers fault.place := by
  unfold alone at h
  split at h
  · cases h
  · cases h
    exact covers_argumentsSpan hc

theorem covers_of_readTransition (h : readTransition c = .error fault) :
    c.line.Covers fault.place := by
  unfold readTransition at h
  split at h
  split at h
  · cases h
  · cases h
    exact c.line.covers_span

theorem place_of_slot {draft : ActionDraft} {index : Nat} {a : Attribute}
    (h : draft.slot c index a = .error fault) : fault.place = c.argumentsSpan := by
  unfold ActionDraft.slot at h
  grind [DirectiveFault.place]

theorem place_of_fill {draft : ActionDraft} {value : List Char} {slot : Slot}
    (h : draft.fill c value slot = .error fault) : fault.place = c.argumentsSpan := by
  unfold ActionDraft.fill at h
  grind [DirectiveFault.place]

theorem place_of_fillAll {index : Nat} {as : List Attribute} {draft : ActionDraft}
    (h : ActionDraft.fillAll c index as draft = .error fault) : fault.place = c.argumentsSpan := by
  induction as generalizing index draft with
  | nil => cases h
  | cons a as ih =>
    rw [ActionDraft.fillAll, bind_eq_error_iff] at h
    obtain h | ⟨slot, -, h⟩ := h
    · exact place_of_slot h
    · obtain h | ⟨draft, -, h⟩ := bind_eq_error_iff.1 h
      · exact place_of_fill h
      · exact ih h

theorem covers_of_ofAttributes {name : List Char} {as : List Attribute}
    (hc : c.arguments <:+ c.line.text) (h : Action.ofAttributes c name as = .error fault) :
    c.line.Covers fault.place := by
  simp only [Action.ofAttributes] at h
  split at h
  · cases h
    exact c.line.covers_span
  · obtain h | ⟨draft, -, h⟩ := bind_eq_error_iff.1 h
    · rw [place_of_fillAll h]
      exact covers_argumentsSpan hc
    · split at h
      · cases h
        exact c.line.covers_span
      · cases h

end LineContext

namespace Directive

variable {c : LineContext} {fault : DirectiveFault}

theorem covers_of_ofKeyword {keyword : String} (hc : c.arguments <:+ c.line.text)
    (h : ofKeyword keyword c = .error fault) : c.line.Covers fault.place := by
  unfold ofKeyword at h
  split at h
  · cases h
  · exact LineContext.covers_of_expect hc (fun _ => Arguments.isSuffix_of_step)
      (eq_error_of_map_eq_error h)
  · exact LineContext.covers_of_readTransition (eq_error_of_map_eq_error h)
  · obtain h | ⟨⟨name, as⟩, -, h⟩ := bind_eq_error_iff.1 h
    · exact LineContext.covers_of_expect hc (fun _ => Arguments.isSuffix_of_action) h
    · obtain h | ⟨a, -, h⟩ := bind_eq_error_iff.1 h
      · exact LineContext.covers_of_ofAttributes hc h
      · cases h
  · split at h
    · cases h
    · cases h
      exact c.line.covers_span
  · exact LineContext.covers_of_expect hc (fun _ => Arguments.isSuffix_of_jump)
      (eq_error_of_map_eq_error h)
  · exact LineContext.covers_of_expect hc (fun _ => Arguments.isSuffix_of_junction)
      (eq_error_of_map_eq_error h)
  · exact LineContext.covers_of_alone hc (eq_error_of_map_eq_error h)
  · exact LineContext.covers_of_alone hc (eq_error_of_map_eq_error h)
  · exact LineContext.covers_of_alone hc (eq_error_of_map_eq_error h)
  · exact LineContext.covers_of_alone hc (eq_error_of_map_eq_error h)
  · cases h

/-- What follows the keyword ends as the line does. -/
theorem arguments_isSuffix {line : Line} (hline : trim line.text = line.text) :
    trim (line.text.dropWhile Char.isAlpha) <:+ line.text := by
  have hrest := List.dropWhile_suffix (l := line.text) Char.isAlpha
  -- trimming cuts nothing off at the end, since the line has no blank there
  refine (trim_isSuffix fun c hc => ?_).trans hrest
  obtain ⟨front, hfront⟩ := hrest
  refine isBlank_of_mem_getLast?_trimEnd (s := trimStart line.text) ?_
  rw [← trim, hline, ← hfront, List.getLast?_append, Option.mem_def.1 hc]
  rfl

/-- Whatever is wrong with a line is found at a piece of its text. -/
theorem covers_place_of_ofLine {line : Line} (hline : trim line.text = line.text)
    (h : ofLine line = .error fault) : line.Covers fault.place := by
  simp only [ofLine] at h
  split at h
  · cases h
  · exact covers_of_ofKeyword (arguments_isSuffix hline) h

end Directive

end SequentialChart
