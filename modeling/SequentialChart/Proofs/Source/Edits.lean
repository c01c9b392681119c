import Mathlib
import SequentialChart.Directive.Read
import SequentialChart.Proofs.Source.Cutting

/-!
# Edits that a source does not notice

A source may be laid out in many ways. Blanks at the ends of lines, comments, blank lines and the
way in which lines end do not change what the lines say, and a line that begins with no keyword says
nothing at all.

## Main definitions

* `Line.content` — what a line says: its text, which may be empty.
* `Line.SaysNothing` — lines with nothing but blanks and a comment.
* `Directive.keywords`, `Line.StartsWithKeyword` — lines that begin with a keyword.
* `Line.Retouch` — a small change to one line.
* `Line.Edit` — a change to the lines of a source, which adds a number of lines without a keyword.
* `Line.Extends` — the same for the lines that are read.

## Main statements

* `Line.map_text_ofSource` — the texts that are read are those that the lines say.
* `Line.content_eq_of_retouch` — a small change to a line does not change what it says.
* `Line.content_eq_nil_iff`, `Line.ofLine_eq_ok_none` — lines that say nothing, and lines that give
  no directive.
* `Line.Edit.extends_ofSource` — what an edit of the source does to the lines that are read.
-/

namespace SequentialChart

namespace Text

theorem trimStart_blanks_append {blanks : List Char} (h : ∀ c ∈ blanks, isBlank c)
    (s : List Char) : trimStart (blanks ++ s) = trimStart s :=
  List.dropWhile_append_of_pos h

theorem trimEnd_append_of_blanks {blanks : List Char} (h : ∀ c ∈ blanks, isBlank c)
    (s : List Char) : trimEnd (s ++ blanks) = trimEnd s := by
  have hreverse : ∀ c ∈ blanks.reverse, isBlank c := fun c hc => h c (List.mem_reverse.1 hc)
  rw [trimEnd, List.reverse_append, List.dropWhile_append_of_pos hreverse, ← trimEnd]

theorem trim_blanks_append {blanks : List Char} (h : ∀ c ∈ blanks, isBlank c) (s : List Char) :
    trim (blanks ++ s) = trim s := by
  rw [trim, trimStart_blanks_append h, ← trim]

theorem trim_append_of_blanks {blanks : List Char} (h : ∀ c ∈ blanks, isBlank c) (s : List Char) :
    trim (s ++ blanks) = trim s := by
  induction s with
  | nil => simpa using trim_blanks_append h []
  | cons c s ih =>
    by_cases hc : isBlank c
    · have hfirst : ∀ d ∈ [c], isBlank d := by simpa using hc
      have hdrop (t : List Char) : trim (c :: t) = trim t := trim_blanks_append hfirst t
      rw [List.cons_append, hdrop, hdrop, ih]
    · have hstart (t : List Char) : trimStart (c :: t) = c :: t := by simp [trimStart, hc]
      rw [trim, trim, List.cons_append, hstart, hstart, ← List.cons_append]
      exact trimEnd_append_of_blanks h _

theorem takeWhile_append_of_head? {p : Char → Bool} {front rest : List Char}
    (hfront : ∀ c ∈ front, p c) (hrest : ∀ c ∈ rest.head?, p c = false) :
    (front ++ rest).takeWhile p = front ∧ (front ++ rest).dropWhile p = rest := by
  rw [List.takeWhile_append_of_pos hfront, List.dropWhile_append_of_pos hfront]
  cases rest with
  | nil => simp
  | cons c rest => simp [hrest c rfl]

theorem isBlank_of_isAlpha {c : Char} (h : c.isAlpha) : isBlank c = false := by
  have hblanks : ∀ n ∈ blanks, ¬ (65 ≤ n ∧ n ≤ 90 ∨ 97 ≤ n ∧ n ≤ 122) := by decide
  have hletter : 65 ≤ c.toNat ∧ c.toNat ≤ 90 ∨ 97 ≤ c.toNat ∧ c.toNat ≤ 122 := by
    simpa [Char.isAlpha, Char.isUpper, Char.isLower, UInt32.le_iff_toNat_le] using h
  rw [isBlank, List.contains_eq_mem, decide_eq_false_iff_not]
  exact fun hmem => hblanks _ hmem hletter

/-- A blank is neither a quote nor a slash. -/
theorem ne_of_isBlank {c : Char} (h : isBlank c) : c ≠ '"' ∧ c ≠ '/' := by
  constructor
  · rintro rfl
    exact absurd h (by decide)
  · rintro rfl
    exact absurd h (by decide)

end Text

namespace Line

open Text

/-! ### What lines say -/

/-- The text on a line: what is left of it without a comment and without the blanks at its ends. -/
def content (line : List Char) : List Char := trim (code false line)

theorem code_blanks_append {blanks : List Char} (h : ∀ c ∈ blanks, isBlank c) (quoted : Bool)
    (s : List Char) : code quoted (blanks ++ s) = blanks ++ code quoted s := by
  induction blanks with
  | nil => rfl
  | cons c blanks ih =>
    obtain ⟨hc, hblanks⟩ := List.forall_mem_cons.1 h
    obtain ⟨hquote, hslash⟩ := ne_of_isBlank hc
    rw [List.cons_append, code, if_neg hquote, if_neg (by simp [Ne.symm hslash]), ih hblanks]
    rfl

/-- Whether two slashes stand at a place of a text does not depend on what follows the text. -/
theorem isPrefixOf_append {rest : List Char} (hrest : rest.head? ≠ some '/') (c : Char)
    (s : List Char) :
    ['/', '/'].isPrefixOf (c :: (s ++ rest)) = ['/', '/'].isPrefixOf (c :: s) := by
  cases s with
  | cons d s => simp [List.isPrefixOf]
  | nil =>
    cases rest with
    | nil => rfl
    | cons d rest =>
      have hd : '/' ≠ d := fun h => hrest (congrArg some h.symm)
      simp [List.isPrefixOf, hd]

/-- Behind a text in which no comment has begun, the rest of the line is cut by itself, unless two
slashes meet at its beginning. It begins between quotes as the text does, if that has an even number
of quotes. -/
theorem code_append {rest : List Char} (hrest : rest.head? ≠ some '/') (quoted : Bool)
    (s : List Char) : code quoted (s ++ rest) = code quoted s ∨
      ∃ quoted', (quoted' = quoted ↔ Even (s.count '"')) ∧
        code quoted (s ++ rest) = code quoted s ++ code quoted' rest := by
  induction s generalizing quoted with
  | nil => exact .inr ⟨quoted, by simp, rfl⟩
  | cons c s ih =>
    rw [List.cons_append, code, code]
    by_cases hc : c = '"'
    · rw [if_pos hc, if_pos hc]
      refine (ih !quoted).imp (congrArg (c :: ·)) ?_
      rintro ⟨quoted', hquoted', hcode⟩
      refine ⟨quoted', ?_, congrArg (c :: ·) hcode⟩
      rw [hc, List.count_cons_self, Nat.even_add_one, ← hquoted']
      cases quoted <;> cases quoted' <;> decide
    · rw [if_neg hc, if_neg hc, List.count_cons_of_ne hc]
      rw [isPrefixOf_append hrest]
      split
      · exact .inl rfl
      · refine (ih quoted).imp (congrArg (c :: ·)) ?_
        rintro ⟨quoted', hquoted', hcode⟩
        exact ⟨quoted', hquoted', congrArg (c :: ·) hcode⟩

/-- What comes to a line behind its end does not count if it is cut down to blanks. -/
theorem content_append {line rest : List Char} (hrest : rest.head? ≠ some '/')
    (hblanks : ∀ quoted, (quoted = false ↔ Even (line.count '"')) →
      ∀ c ∈ code quoted rest, isBlank c) : content (line ++ rest) = content line := by
  rw [content, content]
  rcases code_append hrest false line with h | ⟨quoted, hquoted, h⟩
  · rw [h]
  · rw [h, trim_append_of_blanks (hblanks quoted hquoted)]

theorem content_append_of_blanks {blanks : List Char} (h : ∀ c ∈ blanks, isBlank c)
    (line : List Char) : content (line ++ blanks) = content line := by
  refine content_append (fun hhead => ?_) fun quoted _ c hc => ?_
  · exact (ne_of_isBlank (h _ (List.mem_of_mem_head? hhead))).2 rfl
  · exact h c ((code_isPrefix _ blanks).subset hc)

theorem content_blanks_append {blanks : List Char} (h : ∀ c ∈ blanks, isBlank c)
    (line : List Char) : content (blanks ++ line) = content line := by
  rw [content, code_blanks_append h, trim_blanks_append h, ← content]

/-- A comment does not count behind a line on which every quote is closed. -/
theorem content_append_comment {line : List Char} (h : Even (line.count '"'))
    (comment : List Char) : content (line ++ ' ' :: '/' :: '/' :: comment) = content line := by
  have hcut : code false (' ' :: '/' :: '/' :: comment) = [' '] := rfl
  refine content_append (by simp) fun quoted hquoted => ?_
  rw [hquoted.2 h, hcut]
  exact List.forall_mem_singleton.2 rfl

/-- The texts that lines say. -/
def texts (lines : List (List Char)) : List (List Char) := (lines.map content).filter (· ≠ [])

theorem map_text_ofPhysical? (number offset : Nat) (raw : List Char) :
    (ofPhysical? number offset raw).toList.map (·.text) = texts [raw] := by
  rw [ofPhysical?, texts, List.map_singleton, List.filter_singleton, content]
  cases trim (code false raw) <;> rfl

theorem content_lineFeed (line : List Char) : content (line ++ ['\n']) = content line :=
  content_append_of_blanks (List.forall_mem_singleton.2 rfl) line

/-- The texts that are read are those that the lines say, wherever the source is divided. -/
theorem map_text_ofPhysicals (s : List Char) (number offset : Nat) :
    (ofPhysicals number offset (physical s)).map (·.text) = texts (s.splitOn '\n') := by
  induction s using source_induction generalizing number offset with
  | last line hline =>
    rw [ofPhysicals_last hline, map_text_ofPhysical?, List.splitOn_eq_singleton hline]
  | line line rest hline ih =>
    rw [ofPhysicals_line hline, List.map_append, map_text_ofPhysical?, ih,
      List.splitOn_append_cons_self_of_not_mem hline, texts, texts, texts, List.map_singleton,
      content_lineFeed, ← List.filter_append, ← List.map_singleton, ← List.map_append]
    rfl

theorem map_text_ofSource (s : List Char) :
    (ofSource s).map (·.text) = texts (s.splitOn '\n') := map_text_ofPhysicals s 1 0

end Line

/-! ### Lines without a keyword -/

/-- The words with which directives begin. -/
def Directive.keywords : List String :=
  ["sfc", "step", "transition", "action", "linkedfile", "jump", "divergence", "branch", "endbranch",
    "enddivergence", "converge"]

theorem Directive.ofKeyword_eq_ok_none {keyword : String} (h : keyword ∉ keywords)
    (c : LineContext) : ofKeyword keyword c = .ok none := by
  unfold ofKeyword
  split
  iterate 11 exact absurd (by decide) h
  rfl

namespace Line

open Text

/-- A line falls into its text, blanks around it, and a comment. -/
theorem exists_append_content (line : List Char) : ∃ lead back comment,
    line = lead ++ (content line ++ (back ++ comment)) ∧ (∀ c ∈ lead, isBlank c) ∧
      (∀ c ∈ back, isBlank c) ∧ (comment = [] ∨ ['/', '/'] <+: comment) := by
  obtain ⟨comment, hline, hcomment⟩ := exists_code_append false line
  obtain ⟨back, hback, hcode⟩ := exists_trim_append (code false line)
  refine ⟨(code false line).takeWhile isBlank, back, comment, ?_,
    fun c hc => List.mem_takeWhile_imp hc, hback, hcomment.imp_right And.left⟩
  rw [content, ← List.append_assoc (trim _), ← List.append_assoc, ← List.append_assoc, ← hcode]
  exact hline

/-- There is nothing on the line but blanks and perhaps a comment. -/
def SaysNothing (line : List Char) : Prop := trimStart line = [] ∨ ['/', '/'] <+: trimStart line

instance : DecidablePred SaysNothing := fun _ => inferInstanceAs (Decidable (_ ∨ _))

theorem trimStart_comment {comment : List Char} (h : comment = [] ∨ ['/', '/'] <+: comment) :
    trimStart comment = comment := by
  refine trimStart_eq_self fun c hc => ?_
  rcases h with rfl | ⟨rest, rfl⟩
  · cases hc
  · cases hc
    decide

theorem content_eq_nil_iff {line : List Char} : content line = [] ↔ SaysNothing line := by
  constructor
  · intro h
    obtain ⟨lead, back, comment, hline, hlead, hback, hcomment⟩ := exists_append_content line
    have hstart : trimStart line = comment := by
      rw [hline, h, List.nil_append, trimStart_blanks_append hlead, trimStart_blanks_append hback,
        trimStart_comment hcomment]
    rwa [SaysNothing, hstart]
  · intro h
    rw [← takeWhile_append_trimStart line,
      content_blanks_append fun c hc => List.mem_takeWhile_imp hc]
    rcases h with h | ⟨rest, h⟩
    · rw [h]
      rfl
    · rw [← h]
      rfl

/-- What stands behind a word: nothing, a blank or a comment. -/
def EndsWord (s : List Char) : Prop := (∀ c ∈ s.head?, isBlank c) ∨ ['/', '/'] <+: s

/-- The first word on the line is a keyword, whatever the case of its letters. -/
def StartsWithKeyword (line : List Char) : Prop :=
  String.ofList (lower ((trimStart line).takeWhile Char.isAlpha)) ∈ Directive.keywords ∧
    EndsWord ((trimStart line).dropWhile Char.isAlpha)

instance : DecidablePred EndsWord := fun _ => inferInstanceAs (Decidable (_ ∨ _))

instance : DecidablePred StartsWithKeyword := fun _ => inferInstanceAs (Decidable (_ ∧ _))

theorem endsWord_append {s back comment : List Char} (hs : ∀ c ∈ s.head?, isBlank c)
    (hback : ∀ c ∈ back, isBlank c) (hcomment : comment = [] ∨ ['/', '/'] <+: comment) :
    EndsWord (s ++ (back ++ comment)) := by
  cases s with
  | cons c s => exact .inl hs
  | nil =>
    cases back with
    | cons c back => exact .inl fun d hd => hback d (List.mem_of_mem_head? hd)
    | nil =>
      rcases hcomment with rfl | hcomment
      · exact .inl nofun
      · exact .inr hcomment

theorem EndsWord.isAlpha_eq_false {s : List Char} (h : EndsWord s) {c : Char} (hc : c ∈ s.head?) :
    c.isAlpha = false := by
  rcases h with h | ⟨rest, rfl⟩
  · by_contra halpha
    have hblank := isBlank_of_isAlpha (Bool.not_eq_false _ ▸ halpha)
    rw [h c hc] at hblank
    cases hblank
  · cases hc
    decide

/-- The keyword of a directive is the first word on its line. -/
theorem startsWithKeyword_of_content {line : List Char}
    (hword : String.ofList (lower ((content line).takeWhile Char.isAlpha)) ∈ Directive.keywords)
    (hrest : ∀ c ∈ ((content line).dropWhile Char.isAlpha).head?, isBlank c) :
    StartsWithKeyword line := by
  obtain ⟨lead, back, comment, hline, hlead, hback, hcomment⟩ := exists_append_content line
  have hends := endsWord_append hrest hback hcomment
  have hne : content line ≠ [] := by
    intro hempty
    rw [hempty] at hword
    exact absurd hword (by decide)
  have hstart : trimStart line = (content line).takeWhile Char.isAlpha ++
      ((content line).dropWhile Char.isAlpha ++ (back ++ comment)) := by
    have hblank : ∀ c ∈ (content line ++ (back ++ comment)).head?, isBlank c = false := by
      intro c hc
      rw [List.head?_append_of_ne_nil _ hne] at hc
      exact isBlank_of_mem_head?_trim hc
    conv_lhs => rw [hline, trimStart_blanks_append hlead, trimStart_eq_self hblank]
    rw [← List.append_assoc (List.takeWhile _ _), List.takeWhile_append_dropWhile]
  obtain ⟨htake, hdrop⟩ := takeWhile_append_of_head? (p := Char.isAlpha)
    (fun c hc => List.mem_takeWhile_imp hc) fun c hc => hends.isAlpha_eq_false hc
  rw [StartsWithKeyword, hstart, htake, hdrop]
  exact ⟨hword, hends⟩

/-- A line that does not begin with a keyword gives no directive. -/
theorem ofLine_eq_ok_none {l : Line} {line : List Char} (h : ¬ StartsWithKeyword line)
    (hl : l.text = content line) : Directive.ofLine l = .ok none := by
  unfold Directive.ofLine
  rw [hl]
  dsimp only
  split
  · rfl
  · next hends =>
    refine Directive.ofKeyword_eq_ok_none (fun hword => h ?_) _
    refine startsWithKeyword_of_content hword fun c hc => ?_
    simp_all

/-! ### Edits -/

/-- A small change to a line: blanks or tabs at its ends, a carriage return before its line feed
that comes or goes, or a comment behind it, if all its quotes are closed. -/
inductive Retouch : List Char → List Char → Prop
  | indent (blanks line) : (∀ c ∈ blanks, c = ' ' ∨ c = '\t') → Retouch line (blanks ++ line)
  | pad (blanks line) : (∀ c ∈ blanks, c = ' ' ∨ c = '\t') → Retouch line (line ++ blanks)
  | addReturn (line) : Retouch line (line ++ ['\r'])
  | dropReturn (line) : Retouch (line ++ ['\r']) line
  | comment {line} (comment) : Even (line.count '"') →
    Retouch line (line ++ ' ' :: '/' :: '/' :: comment)

theorem isBlank_of_space_or_tab {c : Char} (h : c = ' ' ∨ c = '\t') : isBlank c := by
  rcases h with rfl | rfl <;> decide

theorem content_eq_of_retouch {line line' : List Char} (h : Retouch line line') :
    content line' = content line := by
  cases h with
  | indent blanks line hblanks =>
    exact content_blanks_append (fun c hc => isBlank_of_space_or_tab (hblanks c hc)) line
  | pad blanks line hblanks =>
    exact content_append_of_blanks (fun c hc => isBlank_of_space_or_tab (hblanks c hc)) line
  | addReturn line => exact content_append_of_blanks (List.forall_mem_singleton.2 rfl) line
  | dropReturn => exact (content_append_of_blanks (List.forall_mem_singleton.2 rfl) line').symm
  | comment comment heven => exact content_append_comment heven comment

theorem content_eq_of_retouches {line line' : List Char}
    (h : Relation.ReflTransGen Retouch line line') : content line' = content line := by
  induction h with
  | refl => rfl
  | tail _ hlast ih => exact (content_eq_of_retouch hlast).trans ih

/-- A change to the lines of a source: lines are retouched, lines that say nothing come and go, and
a number of lines without a keyword is added. -/
inductive Edit : Nat → List (List Char) → List (List Char) → Prop
  | nil : Edit 0 [] []
  | keep {n line line' lines lines'} : Relation.ReflTransGen Retouch line line' →
    Edit n lines lines' → Edit n (line :: lines) (line' :: lines')
  | addEmpty {n line lines lines'} : SaysNothing line → Edit n lines lines' →
    Edit n lines (line :: lines')
  | dropEmpty {n line lines lines'} : SaysNothing line → Edit n lines lines' →
    Edit n (line :: lines) lines'
  | addUnrecognized {n line lines lines'} : ¬ SaysNothing line → ¬ StartsWithKeyword line →
    Edit n lines lines' → Edit (n + 1) lines (line :: lines')

/-- Lines that are read have the same texts, but for a number of lines without a directive. -/
inductive Extends : Nat → List Line → List Line → Prop
  | nil : Extends 0 [] []
  | keep {n l l' ls ls'} : l'.text = l.text → Extends n ls ls' → Extends n (l :: ls) (l' :: ls')
  | add {n l ls ls'} : Directive.ofLine l = .ok none → Extends n ls ls' →
    Extends (n + 1) ls (l :: ls')

theorem texts_cons_of_eq_nil {line : List Char} (h : content line = []) (lines : List (List Char)) :
    texts (line :: lines) = texts lines := by
  simp [texts, h]

theorem texts_cons_of_ne_nil {line : List Char} (h : content line ≠ [])
    (lines : List (List Char)) : texts (line :: lines) = content line :: texts lines := by
  simp [texts, h]

theorem Edit.extends {n : Nat} {lines lines' : List (List Char)} (h : Edit n lines lines')
    {ls ls' : List Line} (hls : ls.map (·.text) = texts lines)
    (hls' : ls'.map (·.text) = texts lines') : Extends n ls ls' := by
  induction h generalizing ls ls' with
  | nil =>
    rw [List.map_eq_nil_iff.1 hls, List.map_eq_nil_iff.1 hls']
    exact .nil
  | @keep n line line' lines lines' hline _ ih =>
    have hcontent := content_eq_of_retouches hline
    by_cases hempty : content line = []
    · rw [texts_cons_of_eq_nil hempty] at hls
      rw [texts_cons_of_eq_nil (hcontent.trans hempty)] at hls'
      exact ih hls hls'
    · rw [texts_cons_of_ne_nil hempty] at hls
      rw [texts_cons_of_ne_nil (hcontent ▸ hempty)] at hls'
      obtain ⟨l, ls, rfl, hl, hls⟩ := List.map_eq_cons_iff.1 hls
      obtain ⟨l', ls', rfl, hl', hls'⟩ := List.map_eq_cons_iff.1 hls'
      exact .keep (by rw [hl, hl', hcontent]) (ih hls hls')
  | addEmpty hempty _ ih =>
    rw [texts_cons_of_eq_nil (content_eq_nil_iff.2 hempty)] at hls'
    exact ih hls hls'
  | dropEmpty hempty _ ih =>
    rw [texts_cons_of_eq_nil (content_eq_nil_iff.2 hempty)] at hls
    exact ih hls hls'
  | addUnrecognized hne hkeyword _ ih =>
    rw [texts_cons_of_ne_nil (content_eq_nil_iff.not.2 hne)] at hls'
    obtain ⟨l', ls', rfl, hl', hls'⟩ := List.map_eq_cons_iff.1 hls'
    exact .add (ofLine_eq_ok_none hkeyword hl') (ih hls hls')

/-- The lines of an edited source are read as before, with the added lines among them. -/
theorem Edit.extends_ofSource {n : Nat} {s s' : List Char}
    (h : Edit n (s.splitOn '\n') (s'.splitOn '\n')) : Extends n (ofSource s) (ofSource s') :=
  h.extends (map_text_ofSource s) (map_text_ofSource s')

end Line

end SequentialChart
