import Mathlib
import SequentialChart.Proofs.Directive.Given
import SequentialChart.Proofs.Expression.Rendering
import SequentialChart.Proofs.Failure

/-!
# How actions are written

The attributes of an action stand between parentheses, with keys or without. A value between quotes
may contain anything but quotes, the signs between attributes and slashes included. Attributes with
keys may stand in any order.

## Main definitions

* `Attribute.Spells` — the texts of an attribute.
* `Qualifier.IsSpelling` — the words for a qualifier.
* `Action.line` — the line of an action.

## Main statements

* `Arguments.attributeList?_of_spells` — reading a list of attributes yields these attributes.
* `ActionDraft.fillAll_perm` — attributes with keys say the same in every order.
* `Action.isSome_duration_of_ofAttributes` — an action that needs a duration has one.
* `Directive.gives_action_of_spelling` — the two ways of writing an action agree.
-/

namespace SequentialChart

open Text

/-! ### Texts of attributes -/

/-- The signs that may stand next to a word in an attribute list do not belong to it. -/
theorem not_isWordChar_of_mem {c : Char} (h : c ∈ [',', ')', '=', '"']) : isWordChar c = false := by
  have hall : ∀ c ∈ [',', ')', '=', '"'], isWordChar c = false := forall_mem_of_all (by decide)
  exact hall c h

theorem isBlank_of_isWordChar {c : Char} (h : isWordChar c) : isBlank c = false := by
  have := (Token.isPlain_of_isWordChar h).1
  rw [Token.isPlain, Bool.and_eq_true, Bool.not_eq_true'] at this
  exact this.1

namespace Attribute

/-- The texts of a value: a word stands for itself, and anything may stand between quotes. -/
inductive SpellsValue : List Char → List Char → Prop
  | word {w : List Char} : w ≠ [] → (∀ c ∈ w, isWordChar c) → SpellsValue w w
  | quoted {s : List Char} : '"' ∉ s → '\n' ∉ s → SpellsValue s ('"' :: (s ++ ['"']))

/-- The texts of an attribute: its value, with the key and an equals sign before it, if it has a
key. -/
inductive Spells : Attribute → List Char → Prop
  | positional {value text : List Char} : SpellsValue value text → Spells ⟨none, value⟩ text
  | keyed {key value text : List Char} : key ≠ [] → (∀ c ∈ key, isWordChar c) →
    SpellsValue value text → Spells ⟨some key, value⟩ (key ++ '=' :: text)

variable {a : Attribute} {value text : List Char}

theorem SpellsValue.exists_cons (h : SpellsValue value text) :
    ∃ c s, text = c :: s ∧ isBlank c = false ∧ c ≠ ')' := by
  cases h with
  | word hne hw =>
    obtain ⟨c, s, rfl⟩ := List.exists_cons_of_ne_nil hne
    have hc := hw c List.mem_cons_self
    exact ⟨c, s, rfl, isBlank_of_isWordChar hc, by rintro rfl; exact absurd hc (by decide)⟩
  | quoted hquote hfeed => exact ⟨'"', _, rfl, by decide, by decide⟩

theorem Spells.exists_cons (h : Spells a text) :
    ∃ c s, text = c :: s ∧ isBlank c = false ∧ c ≠ ')' := by
  cases h with
  | positional h => exact h.exists_cons
  | keyed hne hkey h =>
    obtain ⟨c, s, rfl⟩ := List.exists_cons_of_ne_nil hne
    have hc := hkey c List.mem_cons_self
    exact ⟨c, _, rfl, isBlank_of_isWordChar hc, by rintro rfl; exact absurd hc (by decide)⟩

theorem isClosed_of_isWordChar {w : List Char} (h : ∀ c ∈ w, isWordChar c) : Line.IsClosed w := by
  refine Line.isClosed_of_forall fun c hc => ?_
  constructor <;> rintro rfl <;> exact absurd (h _ hc) (by decide)

theorem SpellsValue.isClosed (h : SpellsValue value text) : Line.IsClosed text := by
  cases h with
  | word hne hw => exact isClosed_of_isWordChar hw
  | quoted hquote hfeed => exact Line.isClosed_quoted hquote

theorem Spells.isClosed (h : Spells a text) : Line.IsClosed text := by
  cases h with
  | positional h => exact h.isClosed
  | @keyed key value text hne hkey h =>
    have hequals : Line.IsClosed ['='] :=
      Line.isClosed_of_forall (List.forall_mem_singleton.2 (by decide))
    rw [List.append_cons]
    exact ((isClosed_of_isWordChar hkey).append hequals).append h.isClosed

theorem SpellsValue.lineFeed_not_mem (h : SpellsValue value text) : '\n' ∉ text := by
  cases h with
  | word hne hw => exact fun hfeed => absurd (hw _ hfeed) (by decide)
  | quoted hquote hfeed => simp [hfeed]

theorem Spells.lineFeed_not_mem (h : Spells a text) : '\n' ∉ text := by
  cases h with
  | positional h => exact h.lineFeed_not_mem
  | keyed hne hkey h =>
    rw [List.mem_append, List.mem_cons]
    rintro (hfeed | hfeed | hfeed)
    · exact absurd (hkey _ hfeed) (by decide)
    · exact absurd hfeed (by decide)
    · exact h.lineFeed_not_mem hfeed

end Attribute

namespace Arguments

open Attribute

/-- The text begins with a sign that ends an attribute, if it is not empty. -/
def EndsAttribute (rest : List Char) : Prop := ∀ c ∈ rest.head?, c = ',' ∨ c = ')'

variable {a : Attribute} {as : List Attribute} {s w value text rest : List Char}
  {texts : List (List Char)}

theorem EndsAttribute.skip_eq (h : EndsAttribute rest) : skip rest = rest := by
  refine skip_eq_self fun c hc => ?_
  rcases h c hc with rfl | rfl <;> decide

theorem quoted?_append (h : '"' ∉ s) (rest : List Char) :
    quoted? ('"' :: (s ++ '"' :: rest)) = some (s, rest) := by
  have hinside : ∀ c ∈ s, decide (c ≠ '"') := fun c hc => decide_eq_true fun heq => h (heq ▸ hc)
  have hstop : ∀ c ∈ ('"' :: rest).head?, decide (c ≠ '"') = false := by
    rintro c ⟨⟩
    rfl
  obtain ⟨htake, hdrop⟩ := takeWhile_append_of_head? hinside hstop
  unfold quoted?
  simp only [hdrop, htake]

theorem word?_append (hne : w ≠ []) (hw : ∀ c ∈ w, isWordChar c)
    (hrest : ∀ c ∈ rest.head?, isWordChar c = false) : word? (w ++ rest) = some (w, rest) := by
  obtain ⟨htake, hdrop⟩ := takeWhile_append_of_head? hw hrest
  unfold word?
  rw [htake, hdrop]
  cases w with
  | nil => exact absurd rfl hne
  | cons c w => rfl

theorem value?_of_spells (h : SpellsValue value text) (hrest : EndsAttribute rest) :
    value? (text ++ rest) = some (value, rest) := by
  cases h with
  | word hne hw =>
    obtain ⟨c, s, rfl⟩ := List.exists_cons_of_ne_nil hne
    have hinside : ∀ d ∈ c :: s, decide (¬ (d = ',' ∨ d = ')' ∨ d = '"')) := by
      intro d hd
      refine decide_eq_true fun hend => ?_
      have := not_isWordChar_of_mem (c := d) (by rcases hend with rfl | rfl | rfl <;> simp)
      rw [hw d hd] at this
      cases this
    have hstop : ∀ d ∈ rest.head?, decide (¬ (d = ',' ∨ d = ')' ∨ d = '"')) = false := by
      intro d hd
      rcases hrest d hd with rfl | rfl <;> rfl
    obtain ⟨htake, hdrop⟩ := takeWhile_append_of_head? hinside hstop
    have htrim : trimEnd (c :: s) = c :: s :=
      trimEnd_eq_self fun d hd => isBlank_of_isWordChar (hw d (List.mem_of_getLast? hd))
    have hquote : quoted? (c :: s ++ rest) = none := by
      unfold quoted?
      split
      · next heq =>
        obtain rfl : c = '"' := (List.cons.inj heq).1
        exact absurd (hw _ List.mem_cons_self) (by decide)
      · rfl
    unfold value?
    simp only [hquote, htake, hdrop, htrim]
  | quoted hquote hfeed =>
    rw [List.cons_append, List.append_assoc, List.singleton_append, value?, quoted?_append hquote]

/-- No value looks like a key. -/
theorem key?_eq_none_of_spells (h : SpellsValue value text) (hrest : EndsAttribute rest) :
    key? (text ++ rest) = none := by
  cases h with
  | word hne hw =>
    have hword := word?_append hne hw fun c hc =>
      not_isWordChar_of_mem (by rcases hrest c hc with rfl | rfl <;> simp)
    simp only [key?, hword, Option.bind_eq_bind, Option.bind_some, hrest.skip_eq]
    split
    · exact absurd (hrest '=' rfl) (by decide)
    · rfl
  | quoted hquote hfeed => rfl

theorem key?_append {key : List Char} (hne : key ≠ []) (hkey : ∀ c ∈ key, isWordChar c)
    (htext : ∀ c ∈ text.head?, isBlank c = false) :
    key? (key ++ '=' :: text) = some (key, text) := by
  have hword : word? (key ++ '=' :: text) = some (key, '=' :: text) :=
    word?_append hne hkey (by rintro c ⟨⟩; decide)
  have hequals : skip ('=' :: text) = '=' :: text := skip_eq_self (by rintro c ⟨⟩; decide)
  simp only [key?, hword, Option.bind_eq_bind, Option.bind_some, hequals, skip_eq_self htext]
  rfl

/-- An attribute is read, up to the sign that ends it. -/
theorem attribute?_of_spells (h : Spells a text) (hrest : EndsAttribute rest) :
    attribute? (text ++ rest) = some (a, rest) := by
  cases h with
  | positional h =>
    simp only [attribute?, key?_eq_none_of_spells h hrest, value?_of_spells h hrest,
      Option.map_some, hrest.skip_eq]
  | @keyed key value text hne hkey h =>
    have hhead : ∀ c ∈ (text ++ rest).head?, isBlank c = false := by
      obtain ⟨c, s, rfl, hc, -⟩ := h.exists_cons
      rintro d ⟨⟩
      exact hc
    rw [List.append_assoc, List.cons_append]
    simp only [attribute?, key?_append hne hkey hhead, value?_of_spells h hrest, Option.map_some,
      hrest.skip_eq]

/-! ### Lists of attributes -/

/-- Texts of attributes with commas and blanks between them, and a closing parenthesis. -/
def listText (texts : List (List Char)) : List Char := [',', ' '].intercalate texts ++ [')']

@[simp] theorem listText_singleton (text : List Char) : listText [text] = text ++ [')'] := by
  simp [listText]

@[simp] theorem listText_cons_cons (text text' : List Char) (texts : List (List Char)) :
    listText (text :: text' :: texts) = text ++ ',' :: ' ' :: listText (text' :: texts) := by
  simp [listText, List.intercalate_cons_cons]

theorem exists_cons_listText (h : List.Forall₂ Spells as texts) (hne : as ≠ []) :
    ∃ c s, listText texts = c :: s ∧ isBlank c = false ∧ c ≠ ')' := by
  cases h with
  | nil => exact absurd rfl hne
  | cons ha has =>
    obtain ⟨c, s, rfl, hc⟩ := ha.exists_cons
    cases has with
    | nil => exact ⟨c, _, listText_singleton _, hc⟩
    | cons => exact ⟨c, _, listText_cons_cons .., hc⟩

theorem attributes?_listText (h : List.Forall₂ Spells as texts) (hne : as ≠ []) {fuel : Nat}
    (hfuel : (listText texts).length ≤ fuel) :
    attributes? fuel (listText texts) = some (as, []) := by
  have hend {c : Char} {s : List Char} (hc : c = ',' ∨ c = ')') : EndsAttribute (c :: s) := by
    rintro d ⟨⟩
    exact hc
  induction h generalizing fuel with
  | nil => exact absurd rfl hne
  | @cons a text as texts ha has ih =>
    -- there is fuel left, since the text is not empty
    obtain ⟨fuel, rfl⟩ : ∃ m, fuel = m + 1 := Nat.exists_eq_add_one.2 (by
      simp only [listText, List.length_append, List.length_singleton] at hfuel
      omega)
    cases has with
    | nil =>
      rw [listText_singleton, attributes?, attribute?_of_spells ha (hend (.inr rfl))]
      rfl
    | @cons a' text' as texts ha' has =>
      have hlength : (listText (text' :: texts)).length ≤ fuel := by
        simp only [listText_cons_cons, List.length_append, List.length_cons] at hfuel
        omega
      have hmore := ih (List.cons_ne_nil _ _) hlength
      have hhead : ∀ c ∈ (listText (text' :: texts)).head?, isBlank c = false := by
        obtain ⟨c, s, hcs, hc, -⟩ := exists_cons_listText (.cons ha' has) (List.cons_ne_nil _ _)
        rw [hcs]
        rintro d ⟨⟩
        exact hc
      have hskip : skip (' ' :: listText (text' :: texts)) = listText (text' :: texts) :=
        skip_eq_self hhead
      rw [listText_cons_cons, attributes?, attribute?_of_spells ha (hend (.inl rfl))]
      simp only [Option.bind_eq_bind, Option.bind_some, hskip, hmore]
      rfl

/-- A list of attributes is read as these attributes. -/
theorem attributeList?_of_spells (h : List.Forall₂ Spells as texts) :
    attributeList? ('(' :: listText texts) = some (as, []) := by
  by_cases hne : as = []
  · subst hne
    cases h
    rfl
  · obtain ⟨c, s, hcs, hblank, hclosing⟩ := exists_cons_listText h hne
    have hskip : skip (c :: s) = c :: s := skip_eq_self (by rintro d ⟨⟩; exact hblank)
    have hread := attributes?_listText h hne le_rfl
    rw [hcs] at hread ⊢
    simp only [attributeList?, hskip]
    split
    · next heq => exact absurd (List.cons.inj heq).1 hclosing
    · exact hread

theorem isClosed_listText (h : List.Forall₂ Spells as texts) : Line.IsClosed (listText texts) := by
  have hclosing : Line.IsClosed [')'] :=
    Line.isClosed_of_forall (List.forall_mem_singleton.2 (by decide))
  have hcomma : Line.IsClosed [',', ' '] :=
    Line.isClosed_of_forall (forall_mem_of_all (by decide))
  induction h with
  | nil => exact hclosing
  | @cons a text as texts ha has ih =>
    cases has with
    | nil =>
      rw [listText_singleton]
      exact ha.isClosed.append hclosing
    | @cons a' text' as texts ha' has =>
      rw [listText_cons_cons]
      exact ha.isClosed.append (hcomma.append ih)

theorem lineFeed_not_mem_listText (h : List.Forall₂ Spells as texts) :
    '\n' ∉ listText texts := by
  induction h with
  | nil => decide
  | @cons a text as texts ha has ih =>
    have hfeed := ha.lineFeed_not_mem
    cases has with
    | nil => simp [hfeed]
    | @cons a' text' as texts ha' has => simp [hfeed, ih]

theorem action_of_spells {name : List Char} (hname : '"' ∉ name)
    (h : List.Forall₂ Spells as texts) :
    action ('"' :: (name ++ '"' :: ' ' :: '(' :: listText texts)) = .ok (name, as) := by
  have hskip : skip (' ' :: '(' :: listText texts) = '(' :: listText texts :=
    skip_eq_self (s := '(' :: listText texts) (by rintro c ⟨⟩; decide)
  have hread {rest : List Char} : (quoted? ('"' :: (name ++ '"' :: rest)) <|>
      word? ('"' :: (name ++ '"' :: rest))) = some (name, rest) := by
    rw [quoted?_append hname]
    rfl
  simp only [action, hread, hskip, attributeList?_of_spells h]
  rfl

end Arguments

/-! ### Filling in attributes -/

/-- What an attribute with a key says. -/
def Attribute.slot? (a : Attribute) : Option Slot := a.key.bind Slot.ofKey?

namespace ActionDraft

variable {c : LineContext} {draft draft' draft'' : ActionDraft} {as as' : List Attribute}

theorem slot_of_slot? {a : Attribute} {slot : Slot} (h : a.slot? = some slot) (index : Nat) :
    draft.slot c index a = .ok slot := by
  obtain ⟨key, hkey, hslot⟩ := Option.bind_eq_some_iff.1 h
  simp only [ActionDraft.slot, hkey, hslot]

/-- An attribute with a key is filled in wherever it stands. -/
theorem fillAll_cons_of_slot? {a : Attribute} {slot : Slot} (h : a.slot? = some slot)
    (index : Nat) :
    fillAll c index (a :: as) draft = draft.fill c a.value slot >>= fillAll c (index + 1) as := by
  rw [fillAll, slot_of_slot? h]
  rfl

/-- Values for different slots may be filled in one after the other in either order. -/
theorem fill_comm {value value' : List Char} {slot slot' : Slot} (hne : slot ≠ slot')
    (h : draft.fill c value slot = .ok draft') (h' : draft'.fill c value' slot' = .ok draft'') :
    ∃ between, draft.fill c value' slot' = .ok between ∧
      between.fill c value slot = .ok draft'' := by
  cases slot <;> cases slot' <;> first | exact absurd rfl hne | simp only [fill] at h h' ⊢; grind

/-- Attributes with different keys say the same in every order. -/
theorem fillAll_perm (h : as.Perm as') (hkeyed : ∀ a ∈ as, a.slot?.isSome)
    (hnodup : (as.map Attribute.slot?).Nodup) {index : Nat}
    (hfill : fillAll c index as draft = .ok draft') : fillAll c index as' draft = .ok draft' := by
  induction h generalizing draft index with
  | nil => exact hfill
  | @cons a as as' h ih =>
    obtain ⟨hkey, hkeyed⟩ := List.forall_mem_cons.1 hkeyed
    obtain ⟨slot, hslot⟩ := Option.isSome_iff_exists.1 hkey
    rw [fillAll_cons_of_slot? hslot] at hfill ⊢
    obtain ⟨between, hbetween, hfill⟩ := bind_eq_ok_iff.1 hfill
    exact bind_eq_ok_iff.2 ⟨between, hbetween, ih hkeyed (List.nodup_cons.1 hnodup).2 hfill⟩
  | swap a a' as =>
    obtain ⟨hkey', hkeyed⟩ := List.forall_mem_cons.1 hkeyed
    obtain ⟨slot', hslot'⟩ := Option.isSome_iff_exists.1 hkey'
    obtain ⟨slot, hslot⟩ := Option.isSome_iff_exists.1 (hkeyed a List.mem_cons_self)
    have hne : slot' ≠ slot := by
      rintro rfl
      refine (List.nodup_cons.1 hnodup).1 ?_
      rw [hslot', ← hslot]
      exact List.mem_cons_self
    rw [fillAll_cons_of_slot? hslot'] at hfill
    obtain ⟨first, hfirst, hfill⟩ := bind_eq_ok_iff.1 hfill
    rw [fillAll_cons_of_slot? hslot] at hfill
    obtain ⟨second, hsecond, hfill⟩ := bind_eq_ok_iff.1 hfill
    obtain ⟨between, hbetween, hsecond⟩ := fill_comm hne hfirst hsecond
    rw [fillAll_cons_of_slot? hslot]
    refine bind_eq_ok_iff.2 ⟨between, hbetween, ?_⟩
    rw [fillAll_cons_of_slot? hslot']
    exact bind_eq_ok_iff.2 ⟨second, hsecond, hfill⟩
  | trans h h' ih ih' =>
    have hkeyed' := fun a ha => hkeyed a (h.mem_iff.2 ha)
    exact ih' hkeyed' ((h.map _).nodup_iff.1 hnodup) (ih hkeyed hnodup hfill)

end ActionDraft

/-! ### Qualifiers -/

namespace Qualifier

/-- The words for the qualifier: its letters, and the words that may be written instead. -/
def words (q : Qualifier) : List String := q.code :: (aliases.filter (·.2 = q)).map (·.1)

/-- The text is one of the words for the qualifier, in any case. -/
def IsSpelling (q : Qualifier) (w : List Char) : Prop := String.ofList (upper w) ∈ q.words

instance (q : Qualifier) (w : List Char) : Decidable (q.IsSpelling w) :=
  inferInstanceAs (Decidable (_ ∈ _))

theorem ofCode?_or_lookup {q : Qualifier} {word : String} (h : word ∈ q.words) :
    (match ofCode? word with | some q => some q | none => aliases.lookup word) = some q := by
  revert word
  cases q <;> decide

variable {q : Qualifier} {w : List Char}

theorem IsSpelling.isAlpha (h : q.IsSpelling w) : ∀ c ∈ w, c.isAlpha := by
  have hupper : ∀ q ∈ all, ∀ word ∈ q.words, word.toList.all Char.isUpper := by decide
  intro c hc
  refine isAlpha_of_isUpper_toUpper (List.all_eq_true.1 (hupper q q.mem_all _ h) _ ?_)
  rw [String.toList_ofList]
  exact List.mem_map_of_mem hc

theorem IsSpelling.ne_nil (h : q.IsSpelling w) : w ≠ [] := by
  have hne : ∀ q ∈ all, "" ∉ q.words := by decide
  rintro rfl
  exact hne q q.mem_all h

theorem IsSpelling.spellsValue (h : q.IsSpelling w) : Attribute.SpellsValue w w :=
  .word h.ne_nil fun c hc => Token.isWordChar_of_isAlpha (h.isAlpha c hc)

/-- A word for a qualifier is read as this qualifier. -/
theorem IsSpelling.read? (h : q.IsSpelling w) : read? w = some q := by
  have htrim : trim w = w := trim_eq_self
    (fun c hc => isBlank_of_isAlpha (h.isAlpha c (List.mem_of_mem_head? hc)))
    fun c hc => isBlank_of_isAlpha (h.isAlpha c (List.mem_of_getLast? hc))
  rw [Qualifier.read?, htrim]
  exact ofCode?_or_lookup h

end Qualifier

/-! ### Actions -/

namespace Action

variable {c : LineContext} {name : List Char} {as : List Attribute}

/-- The action that a filled draft denotes. -/
theorem ofAttributes_of_fillAll {draft : ActionDraft} {q : Qualifier} (hname : trim name ≠ [])
    (h : ActionDraft.fillAll c 0 as {} = .ok draft) (hq : draft.qualifier = some q)
    (hduration : q.isTimed → draft.duration.isSome) :
    ofAttributes c name as = .ok
      { name := String.ofList (trim name), qualifier := q, condition := draft.condition,
        duration := draft.duration } := by
  have hdue : (q.isTimed && draft.duration.isNone) = false := by
    cases htimed : q.isTimed with
    | false => rfl
    | true =>
      obtain ⟨x, hx⟩ := Option.isSome_iff_exists.1 (hduration htimed)
      rw [hx]
      rfl
  have hempty : (trim name).isEmpty = false := by simpa using hname
  simp [ofAttributes, h, hq, hdue, hempty, pure, Except.pure, bind, Except.bind]

/-- An action that needs a duration has one. -/
theorem isSome_duration_of_ofAttributes {a : Action} (h : ofAttributes c name as = .ok a)
    (ha : a.qualifier.isTimed) : a.duration.isSome := by
  simp only [ofAttributes] at h
  split at h
  · cases h
  · obtain ⟨draft, -, h⟩ := bind_eq_ok_iff.1 h
    split at h
    · cases h
    · next hduration =>
      cases h
      simpa [ha, ← Option.isSome_iff_ne_none] using hduration

end Action

/-! ### Attributes with keys and without -/

namespace Slot

theorem ofKey?_type : ofKey? "Type".toList = some qualifier := rfl

theorem ofKey?_duration : ofKey? "Duration".toList = some duration := rfl

theorem ofKey?_condition : ofKey? "Condition".toList = some condition := rfl

end Slot

namespace ActionDraft

variable {c : LineContext} {q : Qualifier} {w d v : List Char} {x : Float}

theorem fillAll_positional (hw : Qualifier.read? w = some q) (hd : Duration.read d = some x) :
    fillAll c 0 [⟨none, w⟩, ⟨none, d⟩, ⟨none, v⟩] {} =
      .ok ⟨some q, some x, some (String.ofList (trim v))⟩ := by
  simp [fillAll, slot, fill, positional?, hw, hd, bind, Except.bind]

theorem fillAll_keyed (hw : Qualifier.read? w = some q) (hd : Duration.read d = some x) :
    fillAll c 0 [⟨some "Type".toList, w⟩, ⟨some "Duration".toList, d⟩,
      ⟨some "Condition".toList, v⟩] {} = .ok ⟨some q, some x, some (String.ofList (trim v))⟩ := by
  simp only [fillAll, slot, fill, Slot.ofKey?_type, Slot.ofKey?_duration, Slot.ofKey?_condition,
    hw, hd, bind, Except.bind]

/-- The second attribute without a key may be the condition. -/
theorem fillAll_positional_of_not_isTimed (hw : Qualifier.read? w = some q) (hq : q.isTimed = false)
    (hv : Duration.read v = none) :
    fillAll c 0 [⟨none, w⟩, ⟨none, v⟩] {} =
      .ok ⟨some q, none, some (String.ofList (trim v))⟩ := by
  simp [fillAll, slot, fill, positional?, hw, hq, hv, bind, Except.bind]

theorem fillAll_keyed_without_duration (hw : Qualifier.read? w = some q) :
    fillAll c 0 [⟨some "Type".toList, w⟩, ⟨some "Condition".toList, v⟩] {} =
      .ok ⟨some q, none, some (String.ofList (trim v))⟩ := by
  simp only [fillAll, slot, fill, Slot.ofKey?_type, Slot.ofKey?_condition, hw, bind, Except.bind]

end ActionDraft

/-! ### Lines of actions -/

namespace Directive

open Attribute Arguments

theorem gives_action {name : List Char} {as : List Attribute} {texts : List (List Char)}
    {a : Action} (hquote : '"' ∉ name) (hfeed : '\n' ∉ name) (h : List.Forall₂ Spells as texts)
    (ha : ∀ c, Action.ofAttributes c name as = .ok a) :
    Line.Gives ("Action".toList ++ ' ' :: ('"' :: (name ++ '"' :: ' ' :: '(' :: listText texts)))
      (.action a) := by
  have hopening : Line.IsClosed [' ', '('] :=
    Line.isClosed_of_forall (forall_mem_of_all (by decide))
  refine Line.gives_of_ofKeyword (by decide) (List.all_eq_true.1 (by decide)) ?_
    (List.cons_ne_nil _ _) ?_ ?_ fun l => ?_
  · simp [hfeed, lineFeed_not_mem_listText h]
  · have hclosed := ((Line.isClosed_quoted hquote).append hopening).append (isClosed_listText h)
    simpa using hclosed
  · refine trim_eq_self (by rintro c ⟨⟩; decide) fun c hc => ?_
    have hc' : c ∈ (('"' :: (name ++ '"' :: ' ' :: '(' :: [',', ' '].intercalate texts)) ++
        [')']).getLast? := by simpa [listText] using hc
    rw [List.getLast?_append_of_ne_nil _ (List.cons_ne_nil _ _)] at hc'
    cases hc'
    decide
  · have haction := action_of_spells hquote h
    show (LineContext.expect _ .action (Arguments.action _) >>= _) = _
    rw [haction]
    show (Action.ofAttributes _ _ _ >>= _) = _
    rw [ha]
    rfl

end Directive

/-- The text between quotes. -/
def Text.quote (s : String) : String := "\"" ++ s ++ "\""

/-- The text may stand between quotes on a line. -/
def Text.IsQuotable (s : String) : Prop := '"' ∉ s.toList ∧ '\n' ∉ s.toList

instance (s : String) : Decidable (IsQuotable s) := inferInstanceAs (Decidable (_ ∧ _))

namespace Action

/-- The line of an action with a name in quotes and a list of attributes. -/
def line (name : String) (attributes : List String) : String :=
  "Action " ++ quote name ++ " (" ++ ", ".intercalate attributes ++ ")"

/-- The action with a condition, without the blanks around the name and the condition. -/
def trimmed (name : String) (q : Qualifier) (condition : String) (duration : Option Float) :
    Action where
  name := String.ofList (trim name.toList)
  qualifier := q
  condition := some (String.ofList (trim condition.toList))
  duration

end Action

namespace Directive

open Attribute Arguments

theorem spellsValue_quote {s : String} (h : IsQuotable s) :
    SpellsValue s.toList (quote s).toList := by
  have := SpellsValue.quoted h.1 h.2
  simpa [quote] using this

variable {name w condition : String} {q : Qualifier} {duration : Option Float}
  {attributes attributes' : List String} {as : List Attribute}

theorem gives_action_line (hname : IsQuotable name) (hblank : trim name.toList ≠ [])
    (h : List.Forall₂ (fun a text => Spells a text.toList) as attributes)
    (hfill : ∀ c, ActionDraft.fillAll c 0 as {} =
      .ok ⟨some q, duration, some (String.ofList (trim condition.toList))⟩)
    (hduration : q.isTimed → duration.isSome) :
    Line.Gives (Action.line name attributes).toList
      (.action (.trimmed name q condition duration)) := by
  have hgives := gives_action hname.1 hname.2 (List.forall₂_map_right_iff.2 h) fun c =>
    Action.ofAttributes_of_fillAll hblank (hfill c) rfl hduration
  have htext : (Action.line name attributes).toList = "Action".toList ++ ' ' ::
      ('"' :: (name.toList ++ '"' :: ' ' :: '(' :: listText (attributes.map String.toList))) := by
    simp [Action.line, quote, listText]
  rwa [htext]

/-- Attributes with different keys may be written in any order. -/
theorem gives_action_line_of_perm (hname : IsQuotable name) (hblank : trim name.toList ≠ [])
    (h : List.Forall₂ (fun a text => Spells a text.toList) as attributes)
    (slots : List Slot) (hslots : as.map Attribute.slot? = slots.map some) (hnodup : slots.Nodup)
    (hfill : ∀ c, ActionDraft.fillAll c 0 as {} =
      .ok ⟨some q, duration, some (String.ofList (trim condition.toList))⟩)
    (hduration : q.isTimed → duration.isSome) (hperm : attributes'.Perm attributes) :
    Line.Gives (Action.line name attributes').toList
      (.action (.trimmed name q condition duration)) := by
  obtain ⟨as', h', hperm'⟩ := List.perm_comp_forall₂ hperm h.flip
  refine gives_action_line hname hblank h'.flip (fun c => ?_) hduration
  refine ActionDraft.fillAll_perm hperm'.symm (fun a ha => ?_) ?_ (hfill c)
  · have hmem : a.slot? ∈ slots.map some := hslots ▸ List.mem_map_of_mem ha
    obtain ⟨slot, -, hslot⟩ := List.mem_map.1 hmem
    exact hslot ▸ rfl
  · rw [hslots]
    exact hnodup.map (Option.some_injective _)

/-- An attribute with a key is written with the key and an equals sign in front of its value. -/
theorem spells_keyed {key value : List Char} {front text : String}
    (hfront : front.toList = key ++ ['=']) (hne : key ≠ []) (hkey : key.all isWordChar)
    (h : SpellsValue value text.toList) : Spells ⟨some key, value⟩ (front ++ text).toList := by
  have hspells := Spells.keyed hne (List.all_eq_true.1 hkey) h
  rwa [String.toList_append, hfront, List.append_assoc]

/-- An action that needs a duration has one, whatever line it is on. -/
theorem isSome_duration_of_ofLine {l : Line} {a : Action} (h : ofLine l = .ok (some (.action a)))
    (ha : a.qualifier.isTimed) : a.duration.isSome := by
  have halone {c : LineContext} {d : Directive}
      (h : (c.alone d).map some = .ok (some (.action a))) : d = .action a := by
    obtain ⟨d', hd', h⟩ := exists_of_map_eq_ok h
    cases h
    unfold LineContext.alone at hd'
    split at hd' <;> cases hd'
    rfl
  simp only [ofLine] at h
  split at h
  · cases h
  unfold ofKeyword at h
  split at h
  · cases h
  · obtain ⟨r, -, h⟩ := exists_of_map_eq_ok h
    cases h
  · obtain ⟨d, hd, h⟩ := exists_of_map_eq_ok h
    cases h
    unfold readTransition at hd
    split at hd
    split at hd <;> cases hd
  · obtain ⟨r, -, h⟩ := bind_eq_ok_iff.1 h
    obtain ⟨a', ha', h⟩ := bind_eq_ok_iff.1 h
    cases h
    exact Action.isSome_duration_of_ofAttributes ha' ha
  · split at h <;> cases h
  · obtain ⟨r, -, h⟩ := exists_of_map_eq_ok h
    cases h
  · obtain ⟨r, -, h⟩ := exists_of_map_eq_ok h
    cases h
  · cases halone h
  · cases halone h
  · cases halone h
  · cases halone h
  · cases h

/-- An action is the same whether its attributes have keys, in any order, or not. If its qualifier
takes no duration, a second attribute without a key that is none is the condition. -/
theorem gives_action_of_spelling :
    (∀ (name w condition : String) (q : Qualifier), IsQuotable name → trim name.toList ≠ [] →
      q.IsSpelling w.toList → IsQuotable condition →
      (∀ duration x, IsQuotable duration → Duration.read duration.toList = some x →
        Line.Gives (Action.line name [w, quote duration, quote condition]).toList
          (.action (.trimmed name q condition (some x))) ∧
        ∀ attributes : List String, attributes.Perm
            ["Type=" ++ w, "Duration=" ++ quote duration, "Condition=" ++ quote condition] →
          Line.Gives (Action.line name attributes).toList
            (.action (.trimmed name q condition (some x)))) ∧
      (q.isTimed = false → Duration.read condition.toList = none →
        Line.Gives (Action.line name [w, quote condition]).toList
          (.action (.trimmed name q condition none)) ∧
        ∀ attributes : List String, attributes.Perm
            ["Type=" ++ w, "Condition=" ++ quote condition] →
          Line.Gives (Action.line name attributes).toList
            (.action (.trimmed name q condition none)))) ∧
    ∀ (l : Line) (a : Action), ofLine l = .ok (some (.action a)) → a.qualifier.isTimed →
      a.duration.isSome := by
  refine ⟨fun name w condition q hname hblank hw hcondition =>
    ⟨fun duration x hduration hread => ?_, fun htimed hread => ?_⟩,
    fun l a => isSome_duration_of_ofLine⟩
  all_goals
    have hq : SpellsValue w.toList w.toList := hw.spellsValue
    have hv : SpellsValue condition.toList (quote condition).toList := spellsValue_quote hcondition
  · have hd : SpellsValue duration.toList (quote duration).toList := spellsValue_quote hduration
    constructor
    · exact gives_action_line hname hblank
        (.cons (.positional hq) (.cons (.positional hd) (.cons (.positional hv) .nil)))
        (fun c => ActionDraft.fillAll_positional hw.read? hread) fun _ => rfl
    · intro attributes hperm
      exact gives_action_line_of_perm hname hblank
        (.cons (spells_keyed rfl (by decide) (by decide) hq)
          (.cons (spells_keyed rfl (by decide) (by decide) hd)
            (.cons (spells_keyed rfl (by decide) (by decide) hv) .nil)))
        [.qualifier, .duration, .condition] rfl (by decide)
        (fun c => ActionDraft.fillAll_keyed hw.read? hread) (fun _ => rfl) hperm
  · have hdue : q.isTimed → (none : Option Float).isSome := by simp [htimed]
    constructor
    · exact gives_action_line hname hblank
        (.cons (.positional hq) (.cons (.positional hv) .nil))
        (fun c => ActionDraft.fillAll_positional_of_not_isTimed hw.read? htimed hread) hdue
    · intro attributes hperm
      exact gives_action_line_of_perm hname hblank
        (.cons (spells_keyed rfl (by decide) (by decide) hq)
          (.cons (spells_keyed rfl (by decide) (by decide) hv) .nil))
        [.qualifier, .condition] rfl (by decide)
        (fun c => ActionDraft.fillAll_keyed_without_duration hw.read?) hdue hperm

theorem gives_action_valve :
    (∃ x, Duration.read " 5s".toList = some x ∧
      Line.Gives
        (Action.line "Valve, (1) " ["sl", quote " 5s", quote "A // ) B"]).toList
        (.action (.trimmed "Valve, (1) " .setLimited "A // ) B" (some x))) ∧
      Line.Gives
        (Action.line "Valve, (1) " ["Condition=" ++ quote "A // ) B", "Type=" ++ "sl",
          "Duration=" ++ quote " 5s"]).toList
        (.action (.trimmed "Valve, (1) " .setLimited "A // ) B" (some x)))) ∧
    (Duration.read "A // ) B".toList = none ∧
      Line.Gives (Action.line "Valve, (1) " ["Set", quote "A // ) B"]).toList
        (.action (.trimmed "Valve, (1) " .set "A // ) B" none))) ∧
    ∃ a, ofLine { text := "Action Valve (L, 2s)".toList, start := 0, number := 1 } =
      .ok (some (.action a)) ∧ a.qualifier.isTimed ∧ a.duration.isSome := by
  have hread : Duration.read "A // ) B".toList = none := rfl
  obtain ⟨x, hx⟩ : ∃ x, Duration.read " 5s".toList = some x := ⟨_, rfl⟩
  obtain ⟨a, ha, htimed⟩ : ∃ a,
      ofLine { text := "Action Valve (L, 2s)".toList, start := 0, number := 1 } =
        .ok (some (.action a)) ∧ a.qualifier.isTimed := ⟨_, rfl, rfl⟩
  obtain ⟨hlimited, -⟩ := gives_action_of_spelling.1 "Valve, (1) " "sl" "A // ) B" .setLimited
    (by decide) (by decide) (by decide) (by decide)
  obtain ⟨-, hset⟩ := gives_action_of_spelling.1 "Valve, (1) " "Set" "A // ) B" .set
    (by decide) (by decide) (by decide) (by decide)
  obtain ⟨hpositional, hkeyed⟩ := hlimited " 5s" x (by decide) hx
  exact ⟨⟨x, hx, hpositional, hkeyed _ (by decide)⟩, ⟨hread, (hset rfl hread).1⟩, a, ha, htimed,
    gives_action_of_spelling.2 _ a ha htimed⟩

end Directive

end SequentialChart
