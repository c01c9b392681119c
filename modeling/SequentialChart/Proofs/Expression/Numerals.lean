import Mathlib
import SequentialChart.Proofs.Expression.Rendering
import SequentialChart.Proofs.Source.Edits

/-!
# The characters of expressions

Numerals consist of letters, digits, points and signs, and so texts of expressions have neither
quotes nor slashes in them. No part of a condition can be taken for a comment or for a quoted text.

## Main statements

* `Decimal.isNumeralChar_of_readFloat`, `Duration.isNumeralChar_of_readLiteral` — the characters of
  numerals.
* `Token.Written.ne_quote` — the characters of expressions.
-/

namespace SequentialChart

open Text

/-- The characters of numerals. -/
def Decimal.isNumeralChar (c : Char) : Bool := c.isAlphanum || c == '.' || c == '+' || c == '-'

namespace Decimal

theorem isNumeralChar_of_isDigit {c : Char} (h : c.isDigit) : isNumeralChar c := by
  simp [isNumeralChar, Char.isAlphanum, h]

theorem isDigit_of_isDigits {s : List Char} (h : isDigits s) : ∀ c ∈ s, c.isDigit := by
  rw [isDigits, Bool.and_eq_true] at h
  exact List.all_eq_true.1 h.2

theorem isNumeralChar_of_isDigits {s : List Char} (h : isDigits s) : ∀ c ∈ s, isNumeralChar c :=
  fun c hc => isNumeralChar_of_isDigit (isDigit_of_isDigits h c hc)

theorem isNumeralChar_of_readPlain {s : List Char} {d : Decimal} (h : readPlain s = some d) :
    ∀ c ∈ s, isNumeralChar c := by
  unfold readPlain at h
  rw [← List.takeWhile_append_dropWhile (p := (· ≠ '.')) (l := s)]
  dsimp only at h
  split at h
  · next hrest =>
    obtain ⟨hwhole, -⟩ := Option.ite_none_right_eq_some.1 h
    rw [hrest, List.append_nil]
    exact isNumeralChar_of_isDigits hwhole
  · next point fraction hrest =>
    obtain ⟨hdigits, -⟩ := Option.ite_none_right_eq_some.1 h
    rw [Bool.and_eq_true] at hdigits
    have hpoint : point = '.' := by
      have := List.head?_dropWhile_not (p := (· ≠ '.')) s
      rw [hrest] at this
      simpa using this
    rw [hrest, hpoint, List.forall_mem_append, List.forall_mem_cons]
    exact ⟨isNumeralChar_of_isDigits hdigits.1, rfl, isNumeralChar_of_isDigits hdigits.2⟩

theorem isNumeralChar_of_takeSign {s : List Char} (h : ∀ c ∈ (takeSign s).2, isNumeralChar c) :
    ∀ c ∈ s, isNumeralChar c := by
  unfold takeSign at h
  split at h
  · exact List.forall_mem_cons.2 ⟨rfl, h⟩
  · exact List.forall_mem_cons.2 ⟨rfl, h⟩
  · exact h

theorem isNumeralChar_of_readExponent {s : List Char} {e : Int} (h : readExponent s = some e) :
    ∀ c ∈ s, isNumeralChar c := by
  unfold readExponent at h
  split at h
  · exact nofun
  · next c s =>
    obtain ⟨⟨hc, hdigits⟩, -⟩ := Option.ite_none_right_eq_some.1 h
    refine List.forall_mem_cons.2 ⟨?_, ?_⟩
    · rcases hc with rfl | rfl <;> decide
    · exact isNumeralChar_of_takeSign (isNumeralChar_of_isDigits hdigits)

theorem isNumeralChar_of_readUnsigned {s : List Char} {d : Decimal} (h : readUnsigned s = some d) :
    ∀ c ∈ s, isNumeralChar c := by
  have hdigits (t : List Char) : ∀ c ∈ t.takeWhile Char.isDigit, isNumeralChar c :=
    fun c hc => isNumeralChar_of_isDigit (List.mem_takeWhile_imp hc)
  unfold readUnsigned at h
  rw [← List.takeWhile_append_dropWhile (p := Char.isDigit) (l := s)]
  refine List.forall_mem_append.2 ⟨hdigits s, ?_⟩
  split at h
  next fraction rest hrest =>
  obtain ⟨-, h⟩ := Option.ite_none_left_eq_some.1 h
  obtain ⟨e, he, -⟩ := Option.map_eq_some_iff.1 h
  have hexponent := isNumeralChar_of_readExponent he
  split at hrest
  · next t ht =>
    obtain ⟨rfl, rfl⟩ := Prod.mk.inj hrest
    rw [ht, ← List.takeWhile_append_dropWhile (p := Char.isDigit) (l := t)]
    exact List.forall_mem_cons.2 ⟨rfl, List.forall_mem_append.2 ⟨hdigits t, hexponent⟩⟩
  · obtain ⟨rfl, rfl⟩ := Prod.mk.inj hrest
    exact hexponent

end Decimal

namespace Text

/-- Words that are the same in lower case are the same in upper case. -/
theorem sameWord_iff_upper {s t : List Char} : sameWord s t ↔ upper s = upper t := by
  have hupper (s : List Char) : upper (lower s) = upper s := by simp [upper, lower]
  have hlower (s : List Char) : lower (upper s) = lower s := by simp [upper, lower]
  rw [sameWord, beq_iff_eq]
  exact ⟨fun h => by rw [← hupper s, h, hupper], fun h => by rw [← hlower s, h, hlower]⟩

theorem eq_append_of_dropEnding? {ending s t : List Char} (h : dropEnding? ending s = some t) :
    s = t ++ ending := by
  obtain ⟨hending, ht⟩ := Option.ite_none_right_eq_some.1 h
  obtain ⟨front, rfl⟩ := List.isSuffixOf_iff_suffix.1 hending
  obtain rfl := Option.some.inj ht
  simp

end Text

namespace Decimal

theorem isNumeralChar_of_sameWord {s word : List Char} (h : sameWord s word)
    (hword : ∀ c ∈ lower word, c.isAlpha) : ∀ c ∈ s, isNumeralChar c := by
  intro c hc
  have hmem : c.toLower ∈ lower s := List.mem_map_of_mem hc
  rw [beq_iff_eq.1 h] at hmem
  have halpha : c.isAlpha := c.isAlpha_toLower_eq_isAlpha ▸ hword _ hmem
  simp [isNumeralChar, Char.isAlphanum, halpha]

theorem isNumeralChar_of_readFloat {s : List Char} {x : Float} (h : readFloat s = some x) :
    ∀ c ∈ s, isNumeralChar c := by
  refine isNumeralChar_of_takeSign ?_
  unfold readFloat at h
  dsimp only at h
  split at h
  · next hinf =>
    rw [Bool.or_eq_true] at hinf
    rcases hinf with hinf | hinf
    · exact isNumeralChar_of_sameWord hinf (forall_mem_of_all (by decide))
    · exact isNumeralChar_of_sameWord hinf (forall_mem_of_all (by decide))
  · split at h
    · next hnan => exact isNumeralChar_of_sameWord hnan (forall_mem_of_all (by decide))
    · obtain ⟨d, hd, -⟩ := Option.map_eq_some_iff.1 h
      exact isNumeralChar_of_readUnsigned hd

end Decimal

theorem Duration.isNumeralChar_of_readLiteral {s : List Char} {x : Float}
    (h : readLiteral s = some x) : ∀ c ∈ trim s, Decimal.isNumeralChar c := by
  have hread {digits ending : List Char} {d : Decimal} (hs : trim s = digits ++ ending)
      (hdigits : Decimal.readPlain digits = some d)
      (hending : ∀ c ∈ ending, Decimal.isNumeralChar c) :
      ∀ c ∈ trim s, Decimal.isNumeralChar c := by
    rw [hs]
    exact List.forall_mem_append.2 ⟨Decimal.isNumeralChar_of_readPlain hdigits, hending⟩
  unfold readLiteral at h
  dsimp only at h
  split at h
  · next digits hdigits =>
    obtain ⟨d, hd, -⟩ := Option.map_eq_some_iff.1 h
    exact hread (eq_append_of_dropEnding? hdigits) hd (forall_mem_of_all (by decide))
  · split at h
    · next digits hdigits =>
      obtain ⟨d, hd, -⟩ := Option.map_eq_some_iff.1 h
      exact hread (eq_append_of_dropEnding? hdigits) hd (forall_mem_of_all (by decide))
    · cases h

/-! ### Texts of expressions -/

namespace Token

/-- The characters of a numeral are those of numbers and durations. -/
theorem IsNumeral.isNumeralChar {w : List Char} {x : Float} (h : IsNumeral w x) :
    ∀ c ∈ w, Decimal.isNumeralChar c := by
  have hplain : ∀ c ∈ w, isBlank c = false := by
    intro c hc
    have := h.chars c hc
    rw [isPlain, Bool.and_eq_true, Bool.not_eq_true'] at this
    exact this.1
  have hreads := h.reads
  unfold readNumber at hreads
  split at hreads
  · next seconds hseconds =>
    have htrim : trim w = w := trim_eq_self (fun c hc => hplain c (List.mem_of_mem_head? hc))
      fun c hc => hplain c (List.mem_of_getLast? hc)
    have := Duration.isNumeralChar_of_readLiteral hseconds
    rwa [htrim] at this
  · exact Decimal.isNumeralChar_of_readFloat (Option.filter_eq_some_iff.1 hreads).1

theorem Spells.ne_quote {t : Token} {w : List Char} (h : Spells t w) :
    ∀ c ∈ w, c ≠ '"' ∧ c ≠ '/' := by
  have hne {p : Char → Bool} (hquote : p '"' = false) (hslash : p '/' = false) {c : Char}
      (hc : p c) : c ≠ '"' ∧ c ≠ '/' := by
    constructor <;> rintro rfl <;> simp_all
  intro c hc
  cases h with
  | letters hk hw => exact hne (p := isWordChar) rfl rfl (isWordChar_of_upper_eq hk hw hc)
  | sign hk =>
    have hall : ∀ k ∈ allSigns, k.toList.all fun c => decide (c ≠ '"' ∧ c ≠ '/') := by decide
    exact forall_mem_of_all (hall _ (mem_allSigns hk)) c hc
  | name h => exact hne (p := isNameChar) (by decide) (by decide) (h.chars c hc)
  | numeral h => exact hne (p := Decimal.isNumeralChar) rfl rfl (h.isNumeralChar c hc)

/-- An expression has neither quotes nor slashes in it. -/
theorem Written.ne_quote {afterTight : Bool} {tokens : List Token} {text : List Char}
    (h : Written afterTight tokens text) : ∀ c ∈ text, c ≠ '"' ∧ c ≠ '/' := by
  induction h with
  | nil hgap => exact fun c hc => ne_of_isBlank (hgap c hc)
  | cons hgap hw _ _ ih =>
    rw [List.forall_mem_append, List.forall_mem_append]
    exact ⟨fun c hc => ne_of_isBlank (hgap c hc), hw.ne_quote, ih⟩

end Token

end SequentialChart
