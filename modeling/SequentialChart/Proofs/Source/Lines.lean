import Mathlib
import SequentialChart.Source.Line

/-!
# Lines in their source

The text of a line stands in the source, at the place that the line states. It is a piece of one
physical line, without blanks around it.

## Main definitions

* `Line.StandsIn` — the text of a line is found at its place.
* `Line.Covers` — a span is that of a piece of the text.

## Main statements

* `Line.standsIn_of_mem_ofSource` — the lines of a source stand in it.
* `Line.StandsIn.isValid` — what a line covers lies within the source, between characters.
-/

namespace SequentialChart

/-! ### Trimming -/

namespace Text

variable {s : List Char} {c : Char}

theorem isBlank_of_mem_head?_trimStart (h : c ∈ (trimStart s).head?) : isBlank c = false := by
  have := List.head?_dropWhile_not isBlank s
  rw [trimStart] at h
  grind

theorem isBlank_of_mem_getLast?_trimEnd (h : c ∈ (trimEnd s).getLast?) : isBlank c = false := by
  rw [trimEnd, List.getLast?_reverse] at h
  exact isBlank_of_mem_head?_trimStart h

theorem trimEnd_isPrefix (s : List Char) : trimEnd s <+: s := ⟨_, trimEnd_append_blanks s⟩

theorem trimStart_eq_self (h : ∀ c ∈ s.head?, isBlank c = false) : trimStart s = s := by
  cases s with
  | nil => rfl
  | cons c s => simp [trimStart, h c rfl]

theorem trimEnd_eq_self (h : ∀ c ∈ s.getLast?, isBlank c = false) : trimEnd s = s := by
  rw [← List.head?_reverse] at h
  exact (congrArg List.reverse (trimStart_eq_self h)).trans (List.reverse_reverse s)

theorem trim_eq_self (hhead : ∀ c ∈ s.head?, isBlank c = false)
    (hlast : ∀ c ∈ s.getLast?, isBlank c = false) : trim s = s := by
  rw [trim, trimStart_eq_self hhead, trimEnd_eq_self hlast]

theorem isBlank_of_mem_head?_trim (h : c ∈ (trim s).head?) : isBlank c = false := by
  obtain ⟨back, hback⟩ := trimEnd_isPrefix (trimStart s)
  refine isBlank_of_mem_head?_trimStart (s := s) ?_
  rw [← hback, List.head?_append, ← trim, Option.mem_def.1 h]
  rfl

/-- Trimming twice is trimming once. -/
theorem trim_trim (s : List Char) : trim (trim s) = trim s := by
  have hstart : trimStart (trim s) = trim s := trimStart_eq_self fun _ => isBlank_of_mem_head?_trim
  rw [trim, hstart]
  exact trimEnd_eq_self fun _ => isBlank_of_mem_getLast?_trimEnd

/-- Trimming cuts off blanks at both ends, and nothing else. -/
theorem exists_trim_append (s : List Char) :
    ∃ back, (∀ c ∈ back, isBlank c) ∧ s = s.takeWhile isBlank ++ trim s ++ back := by
  refine ⟨((trimStart s).reverse.takeWhile isBlank).reverse, fun c hc => ?_, ?_⟩
  · exact List.mem_takeWhile_imp (List.mem_reverse.1 hc)
  · calc s = s.takeWhile isBlank ++ trimStart s := (takeWhile_append_trimStart s).symm
      _ = _ := by rw [List.append_assoc, trim, trimEnd_append_blanks]

/-- A text that ends as a trimmed one does is trimmed to one of its endings. -/
theorem trim_isSuffix (h : ∀ c ∈ s.getLast?, isBlank c = false) : trim s <:+ s := by
  have hstart : ∀ c ∈ (trimStart s).getLast?, isBlank c = false := by
    intro c hc
    refine h c ?_
    rw [← takeWhile_append_trimStart s, List.getLast?_append]
    grind
  rw [trim, trimEnd_eq_self hstart]
  exact List.dropWhile_suffix _

theorem width_eq_utf8ByteSize (s : List Char) : width s = (String.ofList s).utf8ByteSize := by
  induction s with
  | nil => rfl
  | cons c s ih => simp [ih, String.utf8ByteSize_ofList]

/-- A text ends where a character ends in every text that it begins. -/
theorem isValid_width {source : String} {front : List Char} (h : front <+: source.toList) :
    String.Pos.Raw.IsValid source ⟨width front⟩ := by
  obtain ⟨back, hback⟩ := h
  refine String.Pos.Raw.isValid_iff_exists_append.2 ⟨.ofList front, .ofList back, ?_, ?_⟩
  · rw [← String.ofList_append, hback, String.ofList_toList]
  · rw [width_eq_utf8ByteSize]
    rfl

end Text

namespace Line

open Text

/-! ### Physical lines -/

/-- A line feed ends a line. -/
theorem lineFeed_not_mem_dropLast {s raw : List Char} (h : raw ∈ physical s) :
    '\n' ∉ raw.dropLast := by
  fun_induction physical s generalizing raw with
  | case1 => cases h
  | case2 s ih => grind
  | case3 c s hc hs => grind
  | case4 c s hc line lines hs ih =>
    rcases List.mem_cons.1 h with rfl | h
    · have := ih (by rw [hs]; exact List.mem_cons_self ..)
      cases line <;> grind
    · exact ih (by rw [hs]; exact List.mem_cons_of_mem _ h)

/-- A piece of a physical line has no line feed, unless it ends with one. -/
theorem lineFeed_not_mem {front text back : List Char}
    (h : '\n' ∉ (front ++ text ++ back).dropLast) (hlast : ∀ c ∈ text.getLast?, c ≠ '\n') :
    '\n' ∉ text := by
  induction text using List.reverseRecOn with
  | nil => exact List.not_mem_nil
  | append_singleton text c =>
    have hc : c ≠ '\n' := hlast c (by simp)
    have hback : (front ++ (text ++ [c]) ++ back).dropLast =
        front ++ text ++ (c :: back).dropLast := by
      rw [← List.append_assoc, List.append_assoc (front ++ text)]
      exact List.dropLast_append_of_ne_nil (by simp)
    grind

/-- The text of the line stands in the source at its place. It is not empty, it has no blanks at its
ends, and it is all on one line. -/
structure StandsIn (l : Line) (source : List Char) : Prop where
  exists_append : ∃ before after, source = before ++ l.text ++ after ∧ l.start = width before
  ne_nil : l.text ≠ []
  trim_eq : trim l.text = l.text
  lineFeed_not_mem : '\n' ∉ l.text

theorem standsIn_of_ofPhysical? {number offset : Nat} {before raw after : List Char} {l : Line}
    (h : ofPhysical? number offset raw = some l) (hoffset : offset = width before)
    (hraw : '\n' ∉ raw.dropLast) : l.StandsIn (before ++ raw ++ after) := by
  obtain ⟨hne, hl⟩ : ¬ (trim (code false raw)).isEmpty ∧ _ := Option.ite_none_left_eq_some.1 h
  cases hl
  obtain ⟨comment, hcomment⟩ := code_isPrefix false raw
  obtain ⟨back, -, hback⟩ := exists_trim_append (code false raw)
  constructor
  · refine ⟨before ++ (code false raw).takeWhile isBlank, back ++ comment ++ after, ?_, ?_⟩
    · conv_lhs => rw [← hcomment, hback]
      simp
    · simp [hoffset]
  · simpa using hne
  · exact trim_trim _
  · -- a line feed would be the last character, which is a blank and so has been trimmed
    rw [← hcomment, hback, List.append_assoc] at hraw
    refine lineFeed_not_mem hraw fun c hc hfeed => ?_
    have := isBlank_of_mem_getLast?_trimEnd hc
    rw [hfeed] at this
    exact absurd this (by decide)

theorem standsIn_of_mem_ofPhysicals {number offset : Nat} {before : List Char}
    {raws : List (List Char)} {l : Line} (h : l ∈ ofPhysicals number offset raws)
    (hoffset : offset = width before) (hraws : ∀ raw ∈ raws, '\n' ∉ raw.dropLast) :
    l.StandsIn (before ++ raws.flatten) := by
  induction raws generalizing number offset before with
  | nil => cases h
  | cons raw raws ih =>
    obtain ⟨hraw, hraws⟩ := List.forall_mem_cons.1 hraws
    rw [List.flatten_cons, ← List.append_assoc]
    rcases List.mem_append.1 h with h | h
    · exact standsIn_of_ofPhysical? (Option.mem_toList.1 h) hoffset hraw
    · exact ih h (by rw [width_append, hoffset]) hraws

/-- The lines of a source stand in it. -/
theorem standsIn_of_mem_ofSource {source : List Char} {l : Line} (h : l ∈ ofSource source) :
    l.StandsIn source := by
  have hstands : l.StandsIn ([] ++ (physical source).flatten) :=
    standsIn_of_mem_ofPhysicals h rfl fun _ => lineFeed_not_mem_dropLast
  rwa [List.nil_append, flatten_physical] at hstands

/-! ### Spans within a line -/

/-- The span is that of a piece of the line's text. -/
def Covers (l : Line) (s : Span) : Prop :=
  ∃ front middle back, l.text = front ++ middle ++ back ∧
    s = .ofLength (l.start + width front) (width middle)

variable {l : Line} {s : Span}

theorem covers_span (l : Line) : l.Covers l.span := ⟨[], l.text, [], by simp, rfl⟩

/-- What is left of the text after some of it has been read. -/
theorem covers_of_isSuffix {rest : List Char} (h : rest <:+ l.text) :
    l.Covers (.ofBounds (l.start + (width l.text - width rest)) l.span.stop) := by
  obtain ⟨front, hfront⟩ := h
  refine ⟨front, rest, [], by simp [hfront], ?_⟩
  simp only [span, Span.ofLength, Span.ofBounds, Span.mk.injEq, ← hfront, width_append]
  omega

theorem Covers.within (h : l.Covers s) : l.span.start ≤ s.start ∧ s.stop ≤ l.span.stop := by
  obtain ⟨front, middle, back, htext, rfl⟩ := h
  simp only [span, Span.ofLength, htext, width_append]
  omega

/-- What a line covers begins and ends between characters of the source. -/
theorem StandsIn.isValid {source : String} (hl : l.StandsIn source.toList) (h : l.Covers s) :
    String.Pos.Raw.IsValid source ⟨s.start⟩ ∧ String.Pos.Raw.IsValid source ⟨s.stop⟩ := by
  obtain ⟨before, after, hsource, hstart⟩ := hl.exists_append
  obtain ⟨front, middle, back, htext, rfl⟩ := h
  simp only [hstart, Span.ofLength, ← width_append]
  constructor
  · exact isValid_width ⟨middle ++ back ++ after, by simp [hsource, htext]⟩
  · exact isValid_width ⟨back ++ after, by simp [hsource, htext]⟩

end Line

end SequentialChart
