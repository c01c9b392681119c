import Mathlib
import SequentialChart.Proofs.Source.Edits

/-!
# What a line gives

A line that stands somewhere in a source is cut out of it and read by itself. When no comment begins
on it and it has no blanks at its ends, the whole of it is read: its keyword, and what stands behind
the keyword and a blank.

## Main definitions

* `Line.Gives` — a line gives a directive in whatever source it stands.
* `Line.IsClosed` — a text in which no comment begins and every quote is closed.

## Main statements

* `Line.gives_of_ofKeyword` — a keyword with its arguments gives what they are read as.
-/

namespace SequentialChart

open Text

namespace Line

/-- In every source on one of whose lines the text stands, and nothing else, the directive is what
is read at that place. -/
def Gives (text : List Char) (d : Directive) : Prop :=
  ∀ before after, AreWhole before → (∀ c ∈ after.head?, c = '\n') →
    ∃ l ∈ ofSource (before ++ text ++ after), l.start = width before ∧
      Directive.ofLine l = .ok (some d)

/-! ### The line in its source -/

/-- Lines that are whole are read without regard to what follows them. -/
theorem exists_ofPhysicals_append {front : List Char} (h : AreWhole front) (number offset : Nat)
    (rest : List Char) : ∃ number', ofPhysicals number offset (physical (front ++ rest)) =
      ofPhysicals number offset (physical front) ++
        ofPhysicals number' (offset + width front) (physical rest) := by
  induction front using source_induction generalizing number offset with
  | last line hline =>
    obtain rfl : line = [] := by
      cases hlast : line.getLast? with
      | none => exact List.getLast?_eq_none_iff.1 hlast
      | some c => exact absurd (h c hlast ▸ List.mem_of_getLast? hlast) hline
    exact ⟨number, rfl⟩
  | line line front hline ih =>
    have hfront : AreWhole front := by
      intro c hc
      refine h c ?_
      rw [List.getLast?_append, List.getLast?_cons, Option.mem_def.1 hc]
      rfl
    obtain ⟨number', hnumber'⟩ :=
      ih hfront (number + 1) (offset + width (line ++ ['\n']))
    refine ⟨number', ?_⟩
    have hwidth : width (line ++ '\n' :: front) = width (line ++ ['\n']) + width front := by
      simp [Nat.add_assoc]
    rw [List.append_assoc, List.cons_append, ofPhysicals_line hline, ofPhysicals_line hline,
      hnumber', List.append_assoc, hwidth, Nat.add_assoc]

/-- Behind a text without a line feed, a source is read as the line that the text is on, up to its
line feed, and other lines. -/
theorem exists_ofPhysicals_cons {line after : List Char} (hline : '\n' ∉ line)
    (hafter : ∀ c ∈ after.head?, c = '\n') (number offset : Nat) :
    ∃ ending rest, (∀ c ∈ ending, isBlank c) ∧
      ofPhysicals number offset (physical (line ++ after)) =
        (ofPhysical? number offset (line ++ ending)).toList ++ rest := by
  cases after with
  | nil =>
    refine ⟨[], [], nofun, ?_⟩
    rw [List.append_nil, List.append_nil, ofPhysicals_last hline]
  | cons c after =>
    obtain rfl : c = '\n' := hafter c rfl
    exact ⟨['\n'], _, List.forall_mem_singleton.2 rfl, ofPhysicals_line hline _ _ _⟩

/-- A line that is no comment and has no blanks at its ends gives what its text is read as. -/
theorem gives_of_ofLine {text : List Char} {d : Directive} (hfeed : '\n' ∉ text) (hne : text ≠ [])
    (htext : content text = text)
    (h : ∀ l : Line, l.text = text → Directive.ofLine l = .ok (some d)) : Gives text d := by
  intro before after hbefore hafter
  obtain ⟨number, hnumber⟩ := exists_ofPhysicals_append hbefore 1 0 (text ++ after)
  obtain ⟨ending, rest, hending, hlines⟩ :=
    exists_ofPhysicals_cons hfeed hafter number (0 + width before)
  have hcontent : trim (code false (text ++ ending)) = text :=
    (content_append_of_blanks hending text).trans htext
  -- the line begins where its text does
  have hlead : (code false (text ++ ending)).takeWhile isBlank = [] := by
    obtain ⟨c, s, hs⟩ := List.exists_cons_of_ne_nil hne
    have hblank : isBlank c = false :=
      isBlank_of_mem_head?_trim (s := code false (text ++ ending)) (by rw [hcontent, hs]; rfl)
    obtain ⟨comment, hcomment⟩ := code_isPrefix false (text ++ ending)
    cases hcode : code false (text ++ ending) with
    | nil => rfl
    | cons c' s' =>
      rw [hcode, hs] at hcomment
      obtain rfl : c' = c := (List.cons.inj hcomment).1
      simp [hblank]
  have hline : ofPhysical? number (0 + width before) (text ++ ending) =
      some { text, start := width before, number } := by
    simp [ofPhysical?, hcontent, hlead, hne]
  refine ⟨{ text, start := width before, number }, ?_, rfl, h _ rfl⟩
  rw [ofSource, List.append_assoc, hnumber, hlines, hline]
  simp

/-! ### Texts without comments -/

/-- No comment begins in the text, and it ends outside of quotes. -/
def IsClosed (text : List Char) : Prop :=
  ∀ rest, code false (text ++ rest) = text ++ code false rest

theorem isClosed_of_forall {text : List Char} (h : ∀ c ∈ text, c ≠ '"' ∧ c ≠ '/') :
    IsClosed text := by
  intro rest
  induction text with
  | nil => rfl
  | cons c text ih =>
    obtain ⟨⟨hquote, hslash⟩, htext⟩ := List.forall_mem_cons.1 h
    have hcomment : ¬ (!false && ['/', '/'].isPrefixOf (c :: (text ++ rest))) = true := by
      simp [List.isPrefixOf, Ne.symm hslash]
    rw [List.cons_append, code, if_neg hquote, if_neg hcomment, ih htext]
    rfl

theorem IsClosed.append {text text' : List Char} (h : IsClosed text) (h' : IsClosed text') :
    IsClosed (text ++ text') := by
  intro rest
  rw [List.append_assoc, h, h', List.append_assoc]

/-- Between quotes, slashes begin no comment. -/
theorem code_true_append {text : List Char} (h : '"' ∉ text) (rest : List Char) :
    code true (text ++ '"' :: rest) = text ++ '"' :: code false rest := by
  induction text with
  | nil => rfl
  | cons c text ih =>
    obtain ⟨hc, htext⟩ := not_or.1 (List.mem_cons.not.1 h)
    rw [List.cons_append, code, if_neg (Ne.symm hc), ih htext]
    rfl

theorem isClosed_quoted {text : List Char} (h : '"' ∉ text) :
    IsClosed ('"' :: (text ++ ['"'])) := by
  intro rest
  have hcode := code_true_append h rest
  rw [List.cons_append, List.append_assoc, List.singleton_append, code, if_pos rfl, Bool.not_false,
    hcode]
  simp

theorem IsClosed.content_eq {text : List Char} (h : IsClosed text)
    (hhead : ∀ c ∈ text.head?, isBlank c = false) (hlast : ∀ c ∈ text.getLast?, isBlank c = false) :
    content text = text := by
  have hcode : code false text = text := by
    have := h []
    rwa [List.append_nil, code, List.append_nil] at this
  rw [content, hcode, trim_eq_self hhead hlast]

/-! ### Keywords and arguments -/

theorem ofLine_of_text {l : Line} {keyword arguments : List Char} (hne : keyword ≠ [])
    (hkeyword : ∀ c ∈ keyword, c.isAlpha) (harguments : trim arguments = arguments)
    (hl : l.text = keyword ++ ' ' :: arguments) :
    Directive.ofLine l = Directive.ofKeyword (String.ofList (lower keyword))
      { keyword := String.ofList keyword, line := l, arguments } := by
  have hstop : ∀ c ∈ (' ' :: arguments).head?, c.isAlpha = false := by
    rintro c ⟨⟩
    decide
  obtain ⟨htake, hdrop⟩ := takeWhile_append_of_head? hkeyword hstop
  have hspace : ∀ c ∈ [' '], isBlank c := List.forall_mem_singleton.2 rfl
  have htrim : trim (' ' :: arguments) = arguments :=
    (trim_blanks_append hspace arguments).trans harguments
  have hblank : (keyword.isEmpty || (' ' :: arguments).head?.any fun c => !isBlank c) = false := by
    simp [hne]
    decide
  unfold Directive.ofLine
  simp only [hl, htake, hdrop, htrim, hblank]
  rfl

/-- A keyword, a blank and arguments give what the arguments are read as. -/
theorem gives_of_ofKeyword {keyword arguments : List Char} {d : Directive} (hne : keyword ≠ [])
    (hkeyword : ∀ c ∈ keyword, c.isAlpha) (hfeed : '\n' ∉ arguments) (hargs : arguments ≠ [])
    (hclosed : IsClosed arguments) (htrim : trim arguments = arguments)
    (h : ∀ l, Directive.ofKeyword (String.ofList (lower keyword))
      { keyword := String.ofList keyword, line := l, arguments } = .ok (some d)) :
    Gives (keyword ++ ' ' :: arguments) d := by
  have hword : IsClosed (keyword ++ [' ']) := by
    refine isClosed_of_forall fun c hc => ?_
    rcases List.mem_append.1 hc with hc | hc
    · constructor <;> rintro rfl <;> exact absurd (hkeyword _ hc) (by decide)
    · rw [List.mem_singleton.1 hc]
      decide
  have hall : keyword ++ ' ' :: arguments = keyword ++ [' '] ++ arguments := by simp
  refine gives_of_ofLine ?_ (by simp [hne]) ?_ fun l hl => ?_
  · rw [List.mem_append, List.mem_cons]
    rintro (hmem | hmem | hmem)
    · exact absurd (hkeyword _ hmem) (by decide)
    · exact absurd hmem (by decide)
    · exact hfeed hmem
  · rw [hall]
    refine (hword.append hclosed).content_eq (fun c hc => ?_) fun c hc => ?_
    · rw [List.append_assoc, List.head?_append_of_ne_nil _ hne] at hc
      exact isBlank_of_isAlpha (hkeyword c (List.mem_of_mem_head? hc))
    · rw [List.getLast?_append_of_ne_nil _ hargs, ← htrim] at hc
      exact isBlank_of_mem_getLast?_trimEnd hc
  · rw [ofLine_of_text hne hkeyword htrim hl, h l]

end Line

namespace Arguments

/-- There is nothing to skip where no blank stands. -/
theorem skip_eq_self {s : List Char} (h : ∀ c ∈ s.head?, isBlank c = false) : skip s = s := by
  cases s with
  | nil => rfl
  | cons c s =>
    have hblank : ¬ (c = ' ' ∨ c = '\t') := by
      intro hc
      have := Line.isBlank_of_space_or_tab hc
      rw [h c rfl] at this
      cases this
    rw [skip, List.dropWhile_cons_of_neg (by simpa using hblank)]

end Arguments

end SequentialChart
