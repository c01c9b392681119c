import SequentialChart.Proofs.Expression.Formula

/-!
# Texts of expressions

How an expression may be written: words in any case, any blanks between them, and none next to the
words that need none.

## Main definitions

* `Token.Spells` — the words that stand for a token.
* `Token.Written` — the texts that consist of such words.
* `Formula.Renders` — the texts of a tree.

## Main statements

* `Token.read_of_written` — reading such a text yields the tokens.
* `Formula.parse_value_of_renders` — a text of a proper tree is an expression with the meaning of
  the tree.
-/

namespace SequentialChart

open Text

/-! ### Words between blanks -/

namespace Text

theorem pieces_ne_nil (s : List Char) : pieces s ≠ [] := by
  induction s with
  | nil => simp [pieces]
  | cons c s ih =>
    unfold pieces
    split
    · simp
    · simpa [List.modifyHead_eq_nil_iff] using ih

/-- A blank ends a piece. -/
theorem pieces_append_blank {c : Char} (hc : isBlank c) (s t : List Char) :
    pieces (s ++ c :: t) = pieces s ++ pieces t := by
  induction s with
  | nil => simp [pieces, hc]
  | cons a s ih =>
    obtain ⟨p, ps, hp⟩ := List.exists_cons_of_ne_nil (pieces_ne_nil s)
    by_cases ha : isBlank a
    · simp [pieces, ha, ih]
    · simp [pieces, ha, ih, hp]

/-- No word reaches across a blank. -/
theorem words_append_blank {c : Char} (hc : isBlank c) (s t : List Char) :
    words (s ++ c :: t) = words s ++ words t := by
  simp [words, pieces_append_blank hc]

theorem words_append_of_blanks {gap : List Char} (h : ∀ c ∈ gap, isBlank c) (s : List Char) :
    words (gap ++ s) = words s := by
  induction gap with
  | nil => rfl
  | cons c gap ih =>
    rw [List.cons_append, words_cons_blank (h c (by simp))]
    exact ih fun d hd => h d (by simp [hd])

theorem pieces_of_not_blank {w : List Char} (h : ∀ c ∈ w, isBlank c = false) : pieces w = [w] := by
  induction w with
  | nil => rfl
  | cons c w ih =>
    have hw := ih fun d hd => h d (by simp [hd])
    simp [pieces, h c (by simp), hw]

theorem words_of_not_blank {w : List Char} (hne : w ≠ []) (h : ∀ c ∈ w, isBlank c = false) :
    words w = [w] := by
  simp [words, pieces_of_not_blank h, hne]

end Text

/-! ### Letters -/

/-- A property of the characters of a list is decided on these characters alone. -/
theorem forall_mem_of_all {p : Char → Prop} [DecidablePred p] {cs : List Char}
    (h : cs.all fun c => decide (p c)) : ∀ c ∈ cs, p c := by
  simpa using h

theorem isUpper_toUpper {c : Char} (h : c.isLower) : c.toUpper.isUpper := by
  simp only [Char.isLower, Bool.and_eq_true, decide_eq_true_eq, ge_iff_le,
    UInt32.le_iff_toNat_le] at h
  have hl : 'a'.val ≤ c.val ∧ c.val ≤ 'z'.val := by simpa only [UInt32.le_iff_toNat_le] using h
  simp only [Char.toUpper, hl, Char.isUpper, and_self, dite_true, decide_eq_true_eq, ge_iff_le,
    UInt32.le_iff_toNat_le, UInt32.toNat_add]
  have hshift : ('A'.val - 'a'.val).toNat = 4294967264 := rfl
  have ha : 'a'.val.toNat = 97 := rfl
  have hz : 'z'.val.toNat = 122 := rfl
  have hA : 'A'.val.toNat = 65 := rfl
  have hZ : 'Z'.val.toNat = 90 := rfl
  omega

theorem toUpper_of_not_isLower {c : Char} (h : c.isLower = false) : c.toUpper = c := by
  have hl : ¬ ('a'.val ≤ c.val ∧ c.val ≤ 'z'.val) := by simpa [Char.isLower] using h
  simp only [Char.toUpper, hl, dite_false]

theorem eq_of_toUpper_eq {c d : Char} (h : c.toUpper = d) (hd : d.isUpper = false) : c = d := by
  cases hc : c.isLower with
  | true =>
    rw [← h, isUpper_toUpper hc] at hd
    cases hd
  | false => rw [← h, toUpper_of_not_isLower hc]

theorem isAlpha_of_isUpper_toUpper {c : Char} (h : c.toUpper.isUpper) : c.isAlpha := by
  cases hc : c.isLower with
  | true => simp only [Char.isAlpha, hc, Bool.or_true]
  | false =>
    rw [toUpper_of_not_isLower hc] at h
    simp only [Char.isAlpha, h, Bool.true_or]

/-! ### Spellings -/

namespace Token

/-- The characters that need no blank around them. -/
def tightChars : List Char := ['(', ')', '*', '+', '>', '<']

/-- A character that belongs to a longer word, unless that word ends. -/
def isPlain (c : Char) : Bool := !isBlank c && !tightChars.contains c

/-- The characters of a name: letters, digits, `_` and `.`. Beyond ASCII every character counts as a
letter that is not blank. -/
def isNameChar (c : Char) : Bool := isWordChar c || (decide (128 ≤ c.toNat) && !isBlank c)

/-- The characters that a name begins with: letters and `_`. -/
def isNameStart (c : Char) : Bool := isNameChar c && !c.isDigit && c != '.'

/-- The words that no variable has as its name, in any case. -/
def keywords : List String := ["NOT", "RE", "FE", "AND", "OR", "TRUE", "FALSE"]

/-- The name of a variable. -/
structure IsName (w : List Char) : Prop where
  start : ∃ c s, w = c :: s ∧ isNameStart c
  chars : ∀ c ∈ w, isNameChar c
  notKeyword : ∀ k ∈ keywords, upper w ≠ k.toList

/-- A numeral or time literal that denotes `x`. -/
structure IsNumeral (w : List Char) (x : Float) : Prop where
  start : ∃ c s, w = c :: s ∧ c.isDigit
  chars : ∀ c ∈ w, isPlain c
  reads : readNumber w = some x

/-- The letters that a token is written with, in any case. -/
def letters? : Token → Option String
  | symbol (.operator (.unary .not)) => some "NOT"
  | symbol (.operator (.unary .risingEdge)) => some "RE"
  | symbol (.operator (.unary .fallingEdge)) => some "FE"
  | symbol (.operator (.binary .and)) => some "AND"
  | symbol (.operator (.binary .or)) => some "OR"
  | symbol (.operand (.literal (.bool true))) => some "TRUE"
  | symbol (.operand (.literal (.bool false))) => some "FALSE"
  | _ => none

/-- The signs that a token is written with. -/
def signs : Token → List String
  | opening => ["("]
  | closing => [")"]
  | symbol (.operator (.binary .and)) => [".", "*"]
  | symbol (.operator (.binary .or)) => ["+"]
  | symbol (.operator (.binary (.compare .greater))) => [">"]
  | symbol (.operator (.binary (.compare .greaterEqual))) => [">="]
  | symbol (.operator (.binary (.compare .less))) => ["<"]
  | symbol (.operator (.binary (.compare .lessEqual))) => ["<="]
  | _ => []

/-- The words that stand for a token. -/
inductive Spells : Token → List Char → Prop
  | letters {t : Token} {k : String} {w : List Char} :
    t.letters? = some k → upper w = k.toList → Spells t w
  | sign {t : Token} {k : String} : k ∈ t.signs → Spells t k.toList
  | name {w : List Char} :
    IsName w → Spells (.symbol (.operand (.variable (String.ofList w)))) w
  | numeral {w : List Char} {x : Float} :
    IsNumeral w x → Spells (.symbol (.operand (.literal (.number x)))) w

/-- Whether no blank is needed next to a word: parentheses, comparisons, `*` and `+`. -/
def isTight (w : List Char) : Bool := w.head?.any tightChars.contains

/-- The texts that consist of words for the tokens. Between two words stand blanks, of which at
least one is needed unless one of the words is tight; `afterTight` tells whether a tight word or the
start of the text stands before. -/
inductive Written : Bool → List Token → List Char → Prop
  | nil {afterTight : Bool} {gap : List Char} : (∀ c ∈ gap, isBlank c) → Written afterTight [] gap
  | cons {afterTight : Bool} {gap w text : List Char} {t : Token} {tokens : List Token} :
    (∀ c ∈ gap, isBlank c) → Spells t w → gap ≠ [] ∨ afterTight ∨ isTight w →
      Written (isTight w) tokens text → Written afterTight (t :: tokens) (gap ++ (w ++ text))

/-! ### Words are read as the tokens they stand for -/

theorem isPlain_of_isWordChar {c : Char} (h : isWordChar c) : isPlain c ∧ c ≠ '=' := by
  have hascii : ∀ n : Fin 128,
      isWordChar (Char.ofNat n) → isPlain (Char.ofNat n) ∧ Char.ofNat n ≠ '=' := by decide
  have hlt : c.toNat < 128 := by
    by_contra hge
    simp [isWordChar, Char.isAlphanum, Char.isAlpha, Char.isUpper, Char.isLower, Char.isDigit,
      UInt32.le_iff_toNat_le, Char.ext_iff, ← UInt32.toNat_inj] at h
    simp at hge
    omega
  have := hascii ⟨c.toNat, hlt⟩
  rw [Char.ofNat_toNat] at this
  exact this h

theorem isPlain_of_isNameChar {c : Char} (h : isNameChar c) : isPlain c ∧ c ≠ '=' := by
  by_cases hw : isWordChar c
  · exact isPlain_of_isWordChar hw
  · simp only [isNameChar, hw, Bool.false_or, Bool.and_eq_true, decide_eq_true_eq,
      Bool.not_eq_true'] at h
    have hne : ∀ d : Char, d.toNat < 128 → c ≠ d := by
      intro d hd e
      rw [e] at h
      omega
    have hloose : c ∉ tightChars := by simp [tightChars, hne]
    exact ⟨by simp [isPlain, h, hloose], hne '=' (by decide)⟩

theorem isWordChar_of_isAlpha {c : Char} (h : c.isAlpha) : isWordChar c := by
  simp [isWordChar, Char.isAlphanum, h]

/-- The letters of a keyword are letters in any case. -/
theorem isAlpha_of_upper_eq {t : Token} {k : String} {w : List Char} (hk : t.letters? = some k)
    (hw : upper w = k.toList) {c : Char} (hc : c ∈ w) : c.isAlpha := by
  have hupper : ∀ d ∈ k.toList, d.isUpper := by
    unfold letters? at hk
    split at hk <;> cases hk <;> exact forall_mem_of_all (by decide)
  have hmem : c.toUpper ∈ upper w := List.mem_map_of_mem hc
  exact isAlpha_of_isUpper_toUpper (hupper _ (hw ▸ hmem))

theorem isWordChar_of_upper_eq {t : Token} {k : String} {w : List Char} (hk : t.letters? = some k)
    (hw : upper w = k.toList) {c : Char} (hc : c ∈ w) : isWordChar c :=
  isWordChar_of_isAlpha (isAlpha_of_upper_eq hk hw hc)

theorem letters?_ne_nil {t : Token} {k : String} (h : t.letters? = some k) : k.toList ≠ [] := by
  unfold letters? at h
  split at h <;> cases h <;> decide

/-- All signs. -/
def allSigns : List String := ["(", ")", ".", "*", "+", ">", ">=", "<", "<="]

theorem mem_allSigns {t : Token} {k : String} (h : k ∈ t.signs) : k ∈ allSigns := by
  unfold signs at h
  split at h <;> revert h <;> simp +contextual [allSigns, or_imp]

theorem Spells.ne_nil {t : Token} {w : List Char} (h : Spells t w) : w ≠ [] := by
  cases h with
  | letters hk hw =>
    rintro rfl
    exact letters?_ne_nil hk hw.symm
  | sign hk =>
    have hall : ∀ k ∈ allSigns, k.toList ≠ [] := by decide
    exact hall _ (mem_allSigns hk)
  | name h => obtain ⟨c, s, rfl, -⟩ := h.start; simp
  | numeral h => obtain ⟨c, s, rfl, -⟩ := h.start; simp

/-- No word begins with the sign that would join the sign before it. -/
theorem Spells.head?_ne {t : Token} {w : List Char} (h : Spells t w) : w.head? ≠ some '=' := by
  cases h with
  | letters hk hw =>
    intro he
    exact (isPlain_of_isWordChar (isWordChar_of_upper_eq hk hw (List.mem_of_head? he))).2 rfl
  | sign hk =>
    have hall : ∀ k ∈ allSigns, k.toList.head? ≠ some '=' := by decide
    exact hall _ (mem_allSigns hk)
  | name h => exact fun he => (isPlain_of_isNameChar (h.chars _ (List.mem_of_head? he))).2 rfl
  | numeral h =>
    obtain ⟨c, s, rfl, hc⟩ := h.start
    rintro ⟨⟩
    revert hc
    decide

theorem Spells.sign_or_isPlain {t : Token} {w : List Char} (h : Spells t w) :
    (∃ k ∈ allSigns, w = k.toList) ∨ ∀ c ∈ w, isPlain c := by
  cases h with
  | letters hk hu =>
    exact .inr fun c hc => (isPlain_of_isWordChar (isWordChar_of_upper_eq hk hu hc)).1
  | sign hk => exact .inl ⟨_, mem_allSigns hk, rfl⟩
  | name h => exact .inr fun c hc => (isPlain_of_isNameChar (h.chars c hc)).1
  | numeral h => exact .inr h.chars

/-- A word that is not tight is plain. -/
theorem Spells.isPlain_of_not_isTight {t : Token} {w : List Char} (h : Spells t w)
    (hw : isTight w = false) : ∀ c ∈ w, isPlain c := by
  obtain ⟨k, hk, rfl⟩ | hplain := h.sign_or_isPlain
  · have hall : ∀ k ∈ allSigns, isTight k.toList = false → k.toList.all isPlain := by decide
    exact List.all_eq_true.1 (hall k hk hw)
  · exact hplain

/-- A tight word is a sign. -/
theorem Spells.mem_allSigns_of_isTight {t : Token} {w : List Char} (h : Spells t w)
    (hw : isTight w) : ∃ k ∈ allSigns, w = k.toList := by
  obtain hsign | hplain := h.sign_or_isPlain
  · exact hsign
  · obtain ⟨c, s, rfl⟩ := List.exists_cons_of_ne_nil h.ne_nil
    have htight : c ∈ tightChars := by simpa [isTight] using hw
    have := hplain c (by simp)
    simp [isPlain, htight] at this

/-- No word contains a blank. -/
theorem Spells.isBlank_eq_false {t : Token} {w : List Char} (h : Spells t w) :
    ∀ c ∈ w, isBlank c = false := by
  obtain ⟨k, hk, rfl⟩ | hplain := h.sign_or_isPlain
  · have hall : ∀ k ∈ allSigns, k.toList.all fun c => decide (isBlank c = false) := by decide
    exact forall_mem_of_all (hall k hk)
  · intro c hc
    have := hplain c hc
    simp only [isPlain, Bool.and_eq_true, Bool.not_eq_true'] at this
    exact this.1

/-! ### Blanks around signs -/

theorem spaceOut_cons {c : Char} (h : tightChars.contains c = false) (s : List Char) :
    spaceOut (c :: s) = c :: spaceOut s := by
  have hc : c ∉ tightChars := by simpa using h
  have h1 : c ≠ '>' := by rintro rfl; exact hc (by decide)
  have h2 : c ≠ '<' := by rintro rfl; exact hc (by decide)
  have h3 : c ∉ ['(', ')', '*', '+', '>', '<'] := hc
  rw [spaceOut.eq_def]
  split <;> simp_all

theorem spaceOut_append {w : List Char} (h : ∀ c ∈ w, tightChars.contains c = false)
    (s : List Char) : spaceOut (w ++ s) = w ++ spaceOut s := by
  induction w with
  | nil => rfl
  | cons c w ih =>
    rw [List.cons_append, spaceOut_cons (h c (by simp)), ih fun d hd => h d (by simp [hd])]
    rfl

/-- A sign that is tight gets a blank on either side. -/
theorem spaceOut_sign {k : String} (hk : k ∈ allSigns) (ht : isTight k.toList) {s : List Char}
    (hs : s.head? ≠ some '=') :
    spaceOut (k.toList ++ s) = ' ' :: (k.toList ++ ' ' :: spaceOut s) := by
  simp only [allSigns, List.mem_cons, List.not_mem_nil, or_false] at hk
  have hjoin : ∀ c ∈ ['>', '<'], spaceOut (c :: s) = ' ' :: c :: ' ' :: spaceOut s := by
    cases s with
    | nil => simp [spaceOut]
    | cons d s =>
      have hd : d ≠ '=' := by simpa using hs
      simp [spaceOut, hd]
  rcases hk with rfl | rfl | rfl | rfl | rfl | rfl | rfl | rfl | rfl
  · rfl
  · rfl
  · cases ht
  · rfl
  · rfl
  · exact hjoin '>' (by simp)
  · rfl
  · exact hjoin '<' (by simp)
  · rfl

/-! ### Reading -/

theorem lookup_letters {t : Token} {k : String} (h : t.letters? = some k) :
    fixed.lookup k.toList = some t := by
  unfold letters? at h
  split at h <;> cases h <;> rfl

theorem lookup_sign {t : Token} {k : String} (h : k ∈ t.signs) :
    fixed.lookup (upper k.toList) = some t := by
  unfold signs at h
  split at h <;> simp only [List.mem_cons, List.not_mem_nil, or_false] at h
  all_goals rcases h with rfl | rfl <;> rfl

/-- A name is no word with a fixed meaning. -/
theorem IsName.lookup {w : List Char} (h : IsName w) : fixed.lookup (upper w) = none := by
  obtain ⟨c, s, rfl, hc⟩ := h.start
  have hne : ∀ d ∈ ['.', '*', '+', '(', ')', '>', '<'], c.toUpper ≠ d := by
    intro d hd he
    have hupper : ∀ d ∈ ['.', '*', '+', '(', ')', '>', '<'], d.isUpper = false :=
      forall_mem_of_all (by decide)
    have hstart : ∀ d ∈ ['.', '*', '+', '(', ')', '>', '<'], isNameStart d = false :=
      forall_mem_of_all (by decide)
    rw [eq_of_toUpper_eq he (hupper d hd), hstart d hd] at hc
    cases hc
  have hkeys := h.notKeyword
  rw [List.lookup_eq_none_iff]
  simp_all [fixed, keywords, upper]

theorem toUpper_of_isDigit {c : Char} (h : c.isDigit) : c.toUpper = c := by
  refine toUpper_of_not_isLower ?_
  simp only [Char.isDigit, Bool.and_eq_true, decide_eq_true_eq, ge_iff_le,
    UInt32.le_iff_toNat_le] at h
  simp only [Char.isLower, Bool.and_eq_false_iff, decide_eq_false_iff_not, ge_iff_le,
    UInt32.le_iff_toNat_le]
  have h9 : '9'.val.toNat = 57 := rfl
  have ha : 'a'.val.toNat = 97 := rfl
  omega

theorem IsNumeral.lookup {w : List Char} {x : Float} (h : IsNumeral w x) :
    fixed.lookup (upper w) = none := by
  obtain ⟨c, s, rfl, hc⟩ := h.start
  have hkeys : ∀ p ∈ fixed, p.1.head?.any Char.isDigit = false := by decide
  rw [List.lookup_eq_none_iff]
  intro p hp
  rw [bne_iff_ne]
  intro he
  have := hkeys p hp
  rw [← he] at this
  simp [upper, toUpper_of_isDigit hc, hc] at this

/-- A word is read as the token it stands for. -/
theorem ofWord_of_spells {t : Token} {w : List Char} (h : Spells t w) : ofWord w = .ok t := by
  cases h with
  | letters hk hu => simp [ofWord, hu, lookup_letters hk]
  | sign hk => simp [ofWord, lookup_sign hk]
  | name h =>
    obtain ⟨c, s, rfl, hc⟩ := h.start
    have hdigit : c.isDigit = false := by
      simp only [isNameStart, Bool.and_eq_true, Bool.not_eq_true'] at hc
      exact hc.1.2
    simp [ofWord, h.lookup, hdigit]
  | numeral h =>
    have hlookup := h.lookup
    obtain ⟨⟨c, s, rfl, hc⟩, -, hreads⟩ := h
    simp [ofWord, hlookup, hc, hreads]

theorem contains_tightChars_of_isBlank {c : Char} (h : isBlank c) :
    tightChars.contains c = false := by
  by_contra htight
  have hall : ∀ c ∈ tightChars, isBlank c = false := forall_mem_of_all (by decide)
  have := hall c (by simpa using htight)
  rw [h] at this
  cases this

theorem spaceOut_append_of_blanks {gap : List Char} (h : ∀ c ∈ gap, isBlank c) (s : List Char) :
    spaceOut (gap ++ s) = gap ++ spaceOut s :=
  spaceOut_append (fun c hc => contains_tightChars_of_isBlank (h c hc)) s

theorem Written.head?_ne {afterTight : Bool} {tokens : List Token} {text : List Char}
    (h : Written afterTight tokens text) : text.head? ≠ some '=' := by
  have hblank (c : Char) (hc : isBlank c) : c ≠ '=' := by
    rintro rfl
    revert hc
    decide
  cases h with
  | nil hg => exact fun he => hblank _ (hg _ (List.mem_of_head? he)) rfl
  | @cons _ gap w text t tokens hg hw _ _ =>
    cases gap with
    | nil =>
      obtain ⟨c, s, rfl⟩ := List.exists_cons_of_ne_nil hw.ne_nil
      exact hw.head?_ne
    | cons c gap => simpa using hblank c (hg c (by simp))

/-- Behind a word that is not tight, a text goes on with a blank, if it goes on. -/
theorem Written.isBlank_head {tokens : List Token} {text : List Char}
    (h : Written false tokens text) : ∀ c ∈ (spaceOut text).head?, isBlank c := by
  generalize hb : false = afterTight at h
  cases h with
  | nil hg =>
    have := spaceOut_append_of_blanks hg []
    simp only [List.append_nil, spaceOut] at this
    rw [this]
    exact fun c hc => hg c (List.mem_of_head? hc)
  | @cons _ gap w text t tokens hg hw hsep hrest =>
    rw [spaceOut_append_of_blanks hg]
    cases gap with
    | cons c gap => simpa using hg c (by simp)
    | nil =>
      have htight : isTight w := by simpa [← hb] using hsep
      obtain ⟨k, hk, rfl⟩ := hw.mem_allSigns_of_isTight htight
      rw [List.nil_append, spaceOut_sign hk htight hrest.head?_ne]
      rintro c ⟨⟩
      decide

/-- The words of a text that goes on behind a word. -/
theorem words_spaceOut_append {t : Token} {w text : List Char} {tokens : List Token}
    (hw : Spells t w) (h : Written (isTight w) tokens text) :
    words (spaceOut (w ++ text)) = w :: words (spaceOut text) := by
  have hword : words w = [w] := words_of_not_blank hw.ne_nil hw.isBlank_eq_false
  have hblank : isBlank ' ' := by decide
  cases ht : isTight w with
  | true =>
    obtain ⟨k, hk, rfl⟩ := hw.mem_allSigns_of_isTight ht
    rw [spaceOut_sign hk ht h.head?_ne, words_cons_blank hblank, words_append_blank hblank, hword]
    rfl
  | false =>
    have hplain : ∀ c ∈ w, tightChars.contains c = false := by
      intro c hc
      have := hw.isPlain_of_not_isTight ht c hc
      simp only [isPlain, Bool.and_eq_true, Bool.not_eq_true'] at this
      exact this.2
    rw [spaceOut_append hplain]
    have hhead := (ht ▸ h).isBlank_head
    cases hs : spaceOut text with
    | nil => simp [hword]
    | cons c s =>
      have hc : isBlank c := hhead c (by simp [hs])
      rw [words_append_blank hc, hword, words_cons_blank hc]
      rfl

/-- A text that consists of words for tokens is read as these tokens. -/
theorem read_of_written {afterTight : Bool} {tokens : List Token} {text : List Char}
    (h : Written afterTight tokens text) : read text = .ok tokens := by
  unfold read
  induction h with
  | @nil _ gap hg =>
    have hspaced := spaceOut_append_of_blanks hg []
    have hwords := words_append_of_blanks hg []
    simp only [List.append_nil, spaceOut, words_nil] at hspaced hwords
    rw [hspaced, hwords]
    rfl
  | cons hg hw _ hrest ih =>
    rw [spaceOut_append_of_blanks hg, words_append_of_blanks hg, words_spaceOut_append hw hrest,
      List.mapM_cons, ofWord_of_spells hw, ih]
    rfl

end Token

namespace Formula

/-- The texts of a tree. -/
def Renders (f : Formula) (text : String) : Prop := Token.Written true f.tokens text.toList

/-- A text of a proper tree is an expression, which has the symbols of the tree in post-order and
the meaning of the tree. -/
theorem parse_value_of_renders {f : Formula} {text : String} (hf : f.IsProper)
    (h : f.Renders text) :
    ∃ e, Expression.parse text = .ok e ∧ e.text = text ∧ e.postfixed = f.postorder ∧
      ∀ now, e.value now = .ok (f.value now) := by
  refine ⟨⟨text, f.postorder⟩, ?_, rfl, rfl, fun now => evaluate_postorder now f⟩
  simp [Expression.parse, Token.read_of_written h, ofTokens_tokens hf, bind, Except.bind, pure,
    Except.pure]

/-- A variable is written with its name. -/
theorem spells_name (w : List Char) (hstart : ∃ c s, w = c :: s ∧ Token.isNameStart c)
    (hchars : w.all Token.isNameChar) (hkey : ∀ k ∈ Token.keywords, upper w ≠ k.toList) :
    Token.Spells (.symbol (.operand (.variable (String.ofList w)))) w :=
  .name ⟨hstart, List.all_eq_true.1 hchars, hkey⟩

/-- The tree of `RE (X1.t)AND not(LEVEL>=2s + B)`. -/
def sampleFormula : Formula :=
  .binary .and (.unary .risingEdge (.group (.operand (.variable "X1.t"))))
    (.unary .not (.group
      (.binary .or
        (.binary (.compare .greaterEqual) (.operand (.variable "LEVEL"))
          (.operand (.literal (.number ((Token.readNumber ['2', 's']).getD 0)))))
        (.operand (.variable "B")))))

theorem renders_sampleFormula : sampleFormula.Renders "RE (X1.t)AND not(LEVEL>=2s + B)" := by
  have hblank (gap : List Char) (h : gap.all isBlank) : ∀ c ∈ gap, isBlank c :=
    List.all_eq_true.1 h
  show Token.Written true _
    ([] ++ (['R', 'E'] ++ ([' '] ++ (['('] ++ ([] ++ (['X', '1', '.', 't'] ++ ([] ++ ([')'] ++
      ([] ++ (['A', 'N', 'D'] ++ ([' '] ++ (['n', 'o', 't'] ++ ([] ++ (['('] ++
      ([] ++ (['L', 'E', 'V', 'E', 'L'] ++ ([] ++ (['>', '='] ++ ([] ++ (['2', 's'] ++
      ([' '] ++ (['+'] ++ ([' '] ++ (['B'] ++ ([] ++ ([')'] ++ []))))))))))))))))))))))))))
  refine .cons (hblank _ rfl) (.letters rfl rfl) (by decide) ?_
  refine .cons (hblank _ rfl) (.sign (k := "(") (by decide)) (by decide) ?_
  refine .cons (hblank _ rfl) (spells_name _ ⟨_, _, rfl, by decide⟩ rfl (by decide)) (by decide) ?_
  refine .cons (hblank _ rfl) (.sign (k := ")") (by decide)) (by decide) ?_
  refine .cons (hblank _ rfl) (.letters rfl rfl) (by decide) ?_
  refine .cons (hblank _ rfl) (.letters rfl rfl) (by decide) ?_
  refine .cons (hblank _ rfl) (.sign (k := "(") (by decide)) (by decide) ?_
  refine .cons (hblank _ rfl) (spells_name _ ⟨_, _, rfl, by decide⟩ rfl (by decide)) (by decide) ?_
  refine .cons (hblank _ rfl) (.sign (k := ">=") (by decide)) (by decide) ?_
  refine .cons (hblank _ rfl)
    (.numeral ⟨⟨_, _, rfl, by decide⟩, forall_mem_of_all (by decide), rfl⟩) (by decide) ?_
  refine .cons (hblank _ rfl) (.sign (k := "+") (by decide)) (by decide) ?_
  refine .cons (hblank _ rfl) (spells_name _ ⟨_, _, rfl, by decide⟩ rfl (by decide)) (by decide) ?_
  refine .cons (hblank _ rfl) (.sign (k := ")") (by decide)) (by decide) ?_
  exact .nil (hblank _ rfl)

theorem parse_value_sampleFormula :
    sampleFormula.IsProper ∧ sampleFormula.Renders "RE (X1.t)AND not(LEVEL>=2s + B)" ∧
      ∃ e, Expression.parse "RE (X1.t)AND not(LEVEL>=2s + B)" = .ok e ∧
        e.text = "RE (X1.t)AND not(LEVEL>=2s + B)" ∧ e.postfixed = sampleFormula.postorder ∧
        ∀ now, e.value now = .ok (sampleFormula.value now) := by
  have hproper : sampleFormula.IsProper := by
    simp [sampleFormula, IsProper, level, Operator.precedence, BinaryOp.precedence]
  exact ⟨hproper, renders_sampleFormula, parse_value_of_renders hproper renders_sampleFormula⟩

end Formula

end SequentialChart
