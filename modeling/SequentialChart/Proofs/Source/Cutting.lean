import Mathlib
import SequentialChart.Proofs.Source.Lines

/-!
# What lines leave out

Between them, the lines of a source have everything in it but blanks and comments. They stand in the
source one behind the other, each on a physical line of its own, and what stands beside them is
blank or part of a comment.

## Main definitions

* `Line.AreWhole` — a text that ends where a physical line ends.
* `Line.OpensComment`, `Line.InComment` — two slashes that do not stand between double quotes, and
  the places from there on to the end of the line.
* `Line.IsCutFrom` — a line is what its place in the source has.

## Main statements

* `Line.source_induction` — the induction over the physical lines of a source.
* `Line.exists_code_append`, `Line.not_opensComment_trim_code` — a line is cut at its first comment.
* `Line.ofSource_isCutFrom` — the lines of a source, and what they leave out.
-/

namespace SequentialChart

open Text

namespace Text

/-- Blanks are no quotes. -/
theorem count_quote_of_blanks {s : List Char} (h : ∀ c ∈ s, isBlank c) : s.count '"' = 0 := by
  refine List.count_eq_zero.2 fun hquote => ?_
  exact absurd (h _ hquote) (by decide)

end Text

namespace Line

/-! ### Physical lines -/

/-- The text is empty or ends with a line feed. -/
def AreWhole (s : List Char) : Prop := ∀ c ∈ s.getLast?, c = '\n'

theorem areWhole_nil : AreWhole [] := nofun

theorem areWhole_lineFeed (s : List Char) : AreWhole (s ++ ['\n']) := by
  intro c hc
  rw [List.getLast?_append] at hc
  exact (Option.some.inj hc).symm

theorem physical_line {line : List Char} (h : '\n' ∉ line) (rest : List Char) :
    physical (line ++ '\n' :: rest) = (line ++ ['\n']) :: physical rest := by
  induction line with
  | nil => simp [physical]
  | cons c line ih =>
    obtain ⟨hc, hline⟩ := not_or.1 (List.mem_cons.not.1 h)
    simp [physical, ih hline, Ne.symm hc]

theorem physical_last {line : List Char} (h : '\n' ∉ line) (hne : line ≠ []) :
    physical line = [line] := by
  induction line with
  | nil => exact absurd rfl hne
  | cons c line ih =>
    obtain ⟨hc, hline⟩ := not_or.1 (List.mem_cons.not.1 h)
    cases line with
    | nil => simp [physical, Ne.symm hc]
    | cons d line => rw [physical, ih hline (List.cons_ne_nil _ _), if_neg (Ne.symm hc)]

/-- What holds of a text without a line feed, and of a line in front of a text of which it holds,
holds of all texts. -/
@[elab_as_elim]
theorem source_induction {motive : List Char → Prop} (last : ∀ line, '\n' ∉ line → motive line)
    (line : ∀ line rest, '\n' ∉ line → motive rest → motive (line ++ '\n' :: rest))
    (s : List Char) : motive s := by
  induction hlength : s.length using Nat.strong_induction_on generalizing s with
  | h n ih =>
    by_cases hmem : '\n' ∈ s
    · obtain ⟨front, rest, rfl, hfront⟩ := List.eq_append_cons_of_mem hmem
      rw [List.length_append, List.length_cons] at hlength
      exact line front rest hfront (ih rest.length (by omega) rest rfl)
    · exact last s hmem

theorem ofPhysicals_line {line : List Char} (h : '\n' ∉ line) (number offset : Nat)
    (rest : List Char) : ofPhysicals number offset (physical (line ++ '\n' :: rest)) =
      (ofPhysical? number offset (line ++ ['\n'])).toList ++
        ofPhysicals (number + 1) (offset + width (line ++ ['\n'])) (physical rest) := by
  rw [physical_line h, ofPhysicals]

theorem ofPhysicals_last {line : List Char} (h : '\n' ∉ line) (number offset : Nat) :
    ofPhysicals number offset (physical line) = (ofPhysical? number offset line).toList := by
  by_cases hne : line = []
  · subst hne
    rfl
  · rw [physical_last h hne, ofPhysicals, ofPhysicals, List.append_nil]

/-! ### Comments -/

/-- Behind `front`, the text `rest` begins with two slashes, which do not stand between double
quotes: `front` has an even number of those. -/
def OpensComment (front rest : List Char) : Prop := ['/', '/'] <+: rest ∧ Even (front.count '"')

/-- At a place behind `before` and in front of `rest`, a comment has begun on the same physical
line. -/
def InComment (before rest : List Char) : Prop :=
  ∃ lines front middle, before = lines ++ front ++ middle ∧ AreWhole lines ∧
    '\n' ∉ front ++ middle ∧ OpensComment front (middle ++ rest)

/-- What is cut off a line is nothing or a comment. -/
theorem exists_code_append (quoted : Bool) (s : List Char) :
    ∃ comment, s = code quoted s ++ comment ∧ (comment = [] ∨
      ['/', '/'] <+: comment ∧ (Even ((code quoted s).count '"') ↔ quoted = false)) := by
  induction s generalizing quoted with
  | nil => exact ⟨[], rfl, .inl rfl⟩
  | cons c s ih =>
    rw [code]
    split
    · next hc =>
      obtain ⟨comment, hs, hcomment⟩ := ih !quoted
      refine ⟨comment, congrArg (c :: ·) hs, hcomment.imp_right ?_⟩
      rintro ⟨hslashes, heven⟩
      refine ⟨hslashes, ?_⟩
      rw [hc, List.count_cons_self, Nat.even_add_one, heven]
      cases quoted <;> decide
    · next hc =>
      split
      · next hslashes =>
        obtain ⟨hquoted, hprefix⟩ := (Bool.and_eq_true _ _).mp hslashes
        refine ⟨c :: s, rfl, .inr ⟨List.isPrefixOf_iff_prefix.1 hprefix, ?_⟩⟩
        cases quoted
        · decide
        · cases hquoted
      · obtain ⟨comment, hs, hcomment⟩ := ih quoted
        refine ⟨comment, congrArg (c :: ·) hs, ?_⟩
        rwa [List.count_cons_of_ne hc]

/-- No comment begins within what is left of a line. -/
theorem not_isPrefix_of_code {quoted : Bool} {s front rest : List Char}
    (h : code quoted s = front ++ rest) (hfront : Even (front.count '"') ↔ quoted = false) :
    ¬ ['/', '/'] <+: rest := by
  induction s generalizing quoted front with
  | nil =>
    obtain ⟨rfl, rfl⟩ := List.append_eq_nil_iff.1 h.symm
    decide
  | cons c s ih =>
    rw [code] at h
    split at h
    · next hc =>
      cases front with
      | nil =>
        rw [List.nil_append] at h
        rw [← h, hc]
        simp
      | cons d front =>
        obtain ⟨rfl, hcode⟩ := List.cons.inj h
        refine ih hcode ?_
        rw [hc, List.count_cons_self, Nat.even_add_one] at hfront
        cases quoted <;> simp_all
    · next hc =>
      split at h
      · obtain ⟨rfl, rfl⟩ := List.append_eq_nil_iff.1 h.symm
        decide
      · next hslashes =>
        cases front with
        | nil =>
          -- what is left is a beginning of the line, which does not begin with two slashes
          have hquoted : quoted = false := hfront.1 (by decide)
          rw [List.nil_append] at h
          rintro hrest
          rw [← h] at hrest
          have hline := hrest.trans (List.cons_prefix_cons.2 ⟨rfl, code_isPrefix quoted s⟩)
          exact hslashes (by simp [hquoted, List.isPrefixOf_iff_prefix.2 hline])
        | cons d front =>
          obtain ⟨rfl, hcode⟩ := List.cons.inj h
          rw [List.count_cons_of_ne hc] at hfront
          exact ih hcode hfront

/-- No comment begins within the text of a line. -/
theorem not_opensComment_trim_code {raw front rest : List Char}
    (h : trim (code false raw) = front ++ rest) : ¬ OpensComment front rest := by
  rintro ⟨hslashes, heven⟩
  obtain ⟨back, -, hcode⟩ := exists_trim_append (code false raw)
  have hlead := count_quote_of_blanks
    (s := (code false raw).takeWhile isBlank) fun c hc => List.mem_takeWhile_imp hc
  rw [h, List.append_assoc, List.append_assoc, ← List.append_assoc] at hcode
  refine not_isPrefix_of_code hcode ?_ (hslashes.trans (List.prefix_append rest back))
  rw [List.count_append, hlead, Nat.zero_add]
  exact iff_of_true heven rfl

/-! ### The place of a line -/

/-- The line is what stands at its place in the source, which is not empty, has no blanks at its
ends, is all on one physical line and has no comment. The number of the line counts the line feeds
before it. -/
structure IsCutFrom (l : Line) (source : List Char) : Prop where
  place : ∃ before after, source = before ++ l.text ++ after ∧ l.span.start = width before ∧
    l.span.stop = width (before ++ l.text) ∧ l.number = before.count '\n' + 1
  ne_nil : l.text ≠ []
  head : ∀ c ∈ l.text.head?, isBlank c = false
  last : ∀ c ∈ l.text.getLast?, isBlank c = false
  lineFeed_not_mem : '\n' ∉ l.text
  not_opensComment : ∀ front rest, l.text = front ++ rest → ¬ OpensComment front rest

theorem isCutFrom_of_ofPhysical? {before raw : List Char} {l : Line}
    (h : ofPhysical? (before.count '\n' + 1) (width before) raw = some l)
    (hraw : '\n' ∉ raw.dropLast) (after : List Char) : l.IsCutFrom (before ++ raw ++ after) := by
  have hstands : l.StandsIn (before ++ raw ++ after) := standsIn_of_ofPhysical? h rfl hraw
  obtain ⟨hne, hl⟩ : ¬ (trim (code false raw)).isEmpty ∧ _ := Option.ite_none_left_eq_some.1 h
  obtain ⟨comment, hcomment, -⟩ := exists_code_append false raw
  obtain ⟨back, -, hback⟩ := exists_trim_append (code false raw)
  cases hl
  have htext : trim (code false raw) ≠ [] := by simpa using hne
  have hparts : raw = (code false raw).takeWhile isBlank ++ trim (code false raw) ++
      (back ++ comment) := by
    rw [← List.append_assoc, ← hback]
    exact hcomment
  -- blanks in front of the text are on its line, since the line goes on behind them
  have hlead : '\n' ∉ (code false raw).takeWhile isBlank := by
    rw [hparts, List.append_assoc, List.dropLast_append_of_ne_nil
      (List.append_ne_nil_of_left_ne_nil htext _)] at hraw
    exact fun hmem => hraw (List.mem_append_left _ hmem)
  refine ⟨⟨before ++ (code false raw).takeWhile isBlank, back ++ comment ++ after, ?_, ?_, ?_, ?_⟩,
    hstands.ne_nil, fun c hc => ?_, fun c hc => ?_, hstands.lineFeed_not_mem, ?_⟩
  · conv_lhs => rw [hparts]
    simp
  · simp [span, Span.ofLength]
  · simp [span, Span.ofLength, Nat.add_assoc]
  · simp [List.count_eq_zero.2 hlead]
  · exact isBlank_of_mem_head?_trim hc
  · exact isBlank_of_mem_getLast?_trimEnd hc
  · exact fun front rest => not_opensComment_trim_code

theorem isCutFrom_of_mem_ofPhysicals {s : List Char} {l : Line} {before : List Char}
    (h : l ∈ ofPhysicals (before.count '\n' + 1) (width before) (physical s)) :
    l.IsCutFrom (before ++ s) := by
  induction s using source_induction generalizing before with
  | last line hline =>
    rw [ofPhysicals_last hline] at h
    have hraw : '\n' ∉ line.dropLast := fun hmem => hline (List.dropLast_subset _ hmem)
    rw [← List.append_nil (before ++ line)]
    exact isCutFrom_of_ofPhysical? (Option.mem_toList.1 h) hraw []
  | line line rest hline ih =>
    rw [ofPhysicals_line hline] at h
    have hsource : before ++ (line ++ '\n' :: rest) = before ++ (line ++ ['\n']) ++ rest := by simp
    rw [hsource]
    rcases List.mem_append.1 h with h | h
    · refine isCutFrom_of_ofPhysical? (Option.mem_toList.1 h) ?_ rest
      rwa [List.dropLast_concat]
    · have hnumber : (before ++ (line ++ ['\n'])).count '\n' = before.count '\n' + 1 := by
        simp [List.count_eq_zero.2 hline]
      refine ih ?_
      rwa [hnumber, width_append]

/-! ### The order of lines -/

/-- A line lies within its physical line and has a byte at least. -/
theorem within_of_ofPhysical? {number offset : Nat} {raw : List Char} {l : Line}
    (h : ofPhysical? number offset raw = some l) :
    offset ≤ l.span.start ∧ l.span.start < l.span.stop ∧ l.span.stop ≤ offset + width raw := by
  obtain ⟨hne, hl⟩ : ¬ (trim (code false raw)).isEmpty ∧ _ := Option.ite_none_left_eq_some.1 h
  obtain ⟨comment, hcomment, -⟩ := exists_code_append false raw
  obtain ⟨back, -, hback⟩ := exists_trim_append (code false raw)
  cases hl
  have hwidth := congrArg width hcomment
  have hcode := congrArg width hback
  have hpos : 0 < width (trim (code false raw)) := by
    cases htext : trim (code false raw) with
    | nil => simp [htext] at hne
    | cons c text =>
      have := c.utf8Size_pos
      rw [width_cons]
      omega
  simp only [width_append] at hwidth hcode
  simp only [span, Span.ofLength]
  omega

theorem le_start_of_mem_ofPhysicals {number offset : Nat} {raws : List (List Char)} {l : Line}
    (h : l ∈ ofPhysicals number offset raws) : offset ≤ l.span.start := by
  induction raws generalizing number offset with
  | nil => cases h
  | cons raw raws ih =>
    rcases List.mem_append.1 h with h | h
    · exact (within_of_ofPhysical? (Option.mem_toList.1 h)).1
    · exact (Nat.le_add_right _ _).trans (ih h)

/-- Lines stand one behind the other. -/
theorem pairwise_ofPhysicals (number offset : Nat) (raws : List (List Char)) :
    (ofPhysicals number offset raws).Pairwise fun l m =>
      l.span.start < m.span.start ∧ l.span.stop ≤ m.span.start := by
  induction raws generalizing number offset with
  | nil => exact .nil
  | cons raw raws ih =>
    rw [ofPhysicals]
    refine List.pairwise_append.2 ⟨?_, ih _ _, fun l hl m hm => ?_⟩
    · cases ofPhysical? number offset raw <;> simp
    · have hfirst := within_of_ofPhysical? (Option.mem_toList.1 hl)
      have hrest := le_start_of_mem_ofPhysicals hm
      omega

/-! ### What is left out -/

/-- A character of a text that has been divided stands in the first or in the second part. -/
theorem append_eq_append_cons {α : Type} {a b front back : List α} {c : α}
    (h : a ++ b = front ++ c :: back) :
    (∃ back', a = front ++ c :: back') ∨
      ∃ front', front = a ++ front' ∧ b = front' ++ c :: back := by
  rcases List.append_eq_append_iff.1 h with ⟨front', hfront, hb⟩ | ⟨back', ha, hb⟩
  · exact .inr ⟨front', hfront, hb⟩
  · cases back' with
    | nil => exact .inr ⟨[], by simpa using ha.symm, hb.symm⟩
    | cons d back' =>
      obtain ⟨rfl, -⟩ := List.cons.inj hb
      exact .inl ⟨back', ha⟩

/-- The byte stands in none of the lines. -/
def IsLeftOut (lines : List Line) (place : Nat) : Prop :=
  ∀ l ∈ lines, ¬ (l.span.start ≤ place ∧ place < l.span.stop)

/-- What a physical line has beside its text is blank or behind the beginning of a comment. -/
theorem blank_or_opensComment {number offset : Nat} {raw front back : List Char} {c : Char}
    (h : raw = front ++ c :: back)
    (hout : IsLeftOut (ofPhysical? number offset raw).toList (offset + width front)) :
    isBlank c ∨ ∃ front' middle, front = front' ++ middle ∧
      OpensComment front' (middle ++ c :: back) := by
  obtain ⟨comment, hcomment, hopens⟩ := exists_code_append false raw
  obtain ⟨trail, htrail, hcode⟩ := exists_trim_append (code false raw)
  rw [hcomment] at h
  rcases append_eq_append_cons h with ⟨back', hpiece⟩ | ⟨middle, hfront, hpiece⟩
  · left
    rw [hcode] at hpiece
    rcases append_eq_append_cons hpiece with ⟨back', hpiece⟩ | ⟨front', -, hpiece⟩
    · rcases append_eq_append_cons hpiece with ⟨back', hpiece⟩ | ⟨front', hfront, hpiece⟩
      · exact List.mem_takeWhile_imp (hpiece ▸ by simp : c ∈ (code false raw).takeWhile isBlank)
      · -- the character belongs to the text
        have hne : (trim (code false raw)).isEmpty = false := by simp [hpiece]
        have hline : ofPhysical? number offset raw = some
            { text := trim (code false raw), number
              start := offset + width ((code false raw).takeWhile isBlank) } := by
          simp [ofPhysical?, hne]
        have hpos := c.utf8Size_pos
        refine absurd ?_ (hout _ (Option.mem_toList.2 hline))
        simp only [span, Span.ofLength, hpiece, hfront, width_append, width_cons]
        omega
    · exact htrail c (hpiece ▸ by simp)
  · right
    rcases hopens with hnone | ⟨hslashes, heven⟩
    · simp [hnone] at hpiece
    · exact ⟨code false raw, middle, hfront, hpiece ▸ hslashes, heven.2 rfl⟩

theorem OpensComment.append {front rest : List Char} (h : OpensComment front rest)
    (after : List Char) : OpensComment front (rest ++ after) :=
  ⟨h.1.trans (List.prefix_append rest after), h.2⟩

/-- The same of a physical line within a source. -/
theorem blank_or_inComment {number offset : Nat} {before raw front back : List Char} {c : Char}
    (hbefore : AreWhole before) (hraw : '\n' ∉ raw.dropLast) (h : raw = front ++ c :: back)
    (hout : IsLeftOut (ofPhysical? number offset raw).toList (offset + width front))
    (after : List Char) : isBlank c ∨ InComment (before ++ front) (c :: back ++ after) := by
  refine (blank_or_opensComment h hout).imp_right fun ⟨front', middle, hfront, hopens⟩ => ?_
  have hline : '\n' ∉ front := by
    rw [h, List.dropLast_append_of_ne_nil (List.cons_ne_nil c back)] at hraw
    exact fun hmem => hraw (List.mem_append_left _ hmem)
  refine ⟨before, front', middle, by rw [hfront, List.append_assoc], hbefore, hfront ▸ hline, ?_⟩
  rw [← List.append_assoc]
  exact hopens.append after

/-- Nothing but blanks and comments is left out of a text behind whole lines. -/
theorem blank_or_inComment_of_isLeftOut {number offset : Nat} {s before front back : List Char}
    {c : Char} (hbefore : AreWhole before) (h : s = front ++ c :: back)
    (hout : IsLeftOut (ofPhysicals number offset (physical s)) (offset + width front)) :
    isBlank c ∨ InComment (before ++ front) (c :: back) := by
  induction s using source_induction generalizing number offset before front with
  | last line hline =>
    rw [ofPhysicals_last hline] at hout
    have hraw : '\n' ∉ line.dropLast := fun hmem => hline (List.dropLast_subset _ hmem)
    rw [← List.append_nil (c :: back)]
    exact blank_or_inComment hbefore hraw h hout []
  | line line rest hline ih =>
    rw [ofPhysicals_line hline] at hout
    obtain ⟨hfirst, hrest⟩ := List.forall_mem_append.1 hout
    rw [List.append_cons] at h
    rcases append_eq_append_cons h with ⟨back', hpiece⟩ | ⟨front', hfront, hpiece⟩
    · have hraw : '\n' ∉ (line ++ ['\n']).dropLast := by rwa [List.dropLast_concat]
      have hback : back = back' ++ rest := by
        rw [hpiece, List.append_assoc, List.append_cancel_left_eq] at h
        exact (List.cons.inj h).2.symm
      rw [hback]
      exact blank_or_inComment hbefore hraw hpiece hfirst rest
    · rw [hfront, width_append _ front', ← Nat.add_assoc] at hrest
      have hwhole : AreWhole (before ++ (line ++ ['\n'])) := by
        rw [← List.append_assoc]
        exact areWhole_lineFeed _
      rw [hfront, ← List.append_assoc]
      exact ih hwhole hpiece hrest

/-! ### All lines of a source -/

/-- The lines of a source stand in it one behind the other, each as its place has it, and every
character of the source that belongs to no line is blank or stands in a comment. -/
theorem ofSource_isCutFrom (source : List Char) :
    (∀ l ∈ ofSource source, l.IsCutFrom source) ∧
      ((ofSource source).Pairwise fun l m =>
        l.span.start < m.span.start ∧ l.span.stop ≤ m.span.start) ∧
      ∀ before c after, source = before ++ c :: after →
        IsLeftOut (ofSource source) (width before) →
        isBlank c ∨ InComment before (c :: after) := by
  refine ⟨fun l hl => ?_, pairwise_ofPhysicals 1 0 _, fun before c after h hout => ?_⟩
  · have hcut : l.IsCutFrom ([] ++ source) := isCutFrom_of_mem_ofPhysicals hl
    exact hcut
  · have hplace : IsLeftOut (ofPhysicals 1 0 (physical source)) (0 + width before) := by
      rwa [Nat.zero_add]
    exact blank_or_inComment_of_isLeftOut areWhole_nil h hplace

/-- Two lines between quotes, comments and characters of several bytes. -/
def annotated : List Char := "\tSFC \"ä // ö\" // ü\r\n\n  Step 0\u00a0".toList

/-- The slash that opens the comment of the first line belongs to no line, and is not blank. -/
theorem ofSource_annotated :
    (ofSource annotated).map
        (fun l => (String.ofList l.text, l.span.start, l.span.stop, l.number)) =
      [("SFC \"ä // ö\"", 1, 15, 1), ("Step 0", 26, 32, 3)] ∧
      (∀ l ∈ ofSource annotated, l.IsCutFrom annotated) ∧
      annotated = "\tSFC \"ä // ö\" ".toList ++ '/' :: "/ ü\r\n\n  Step 0\u00a0".toList ∧
      IsLeftOut (ofSource annotated) (width "\tSFC \"ä // ö\" ".toList) ∧
      InComment "\tSFC \"ä // ö\" ".toList ('/' :: "/ ü\r\n\n  Step 0\u00a0".toList) := by
  have hout : IsLeftOut (ofSource annotated) (width "\tSFC \"ä // ö\" ".toList) := by
    unfold IsLeftOut
    decide +kernel
  obtain ⟨hcut, -, hleft⟩ := ofSource_isCutFrom annotated
  have hcomment := hleft "\tSFC \"ä // ö\" ".toList '/' "/ ü\r\n\n  Step 0\u00a0".toList
    (by decide) hout
  exact ⟨by decide +kernel, hcut, by decide, hout, hcomment.resolve_left (by decide)⟩

end Line

end SequentialChart
