import Mathlib

/-!
# The order of doubles

Two doubles are compared by what their words denote: by sign and kind first, then by exponent, then
by significand. All of this is one rank, so the laws of comparing are those of a linear order,
except that `NaN` compares with nothing.

## Main definitions

* `Double.rank` — the place of a number among all.

## Main statements

* `Double.lt_iff`, `Double.le_iff` — numbers compare as their ranks do.
* `Double.le_trans`, `Double.lt_of_lt_of_le`, `Double.not_lt` — what remains of a linear order.
-/

namespace SequentialChart.Double

open Float.Model

/-- The place of a number among all: by sign and kind, then by exponent and significand. -/
def rank : UnpackedFloat → ℤ ×ₗ ℤ ×ₗ ℤ
  | .infinity .negative => toLex (-2, toLex (0, 0))
  | .finite .negative m e _ => toLex (-1, toLex (-e, -m))
  | .zero _ | .notANumber => toLex (0, toLex (0, 0))
  | .finite .positive m e _ => toLex (1, toLex (e, m))
  | .infinity .positive => toLex (2, toLex (0, 0))

/-! ### Ranks -/

section

variable {m n : ℕ} {e f : ℤ} {hm : 0 < m} {hn : 0 < n}

theorem rank_positive_le_iff :
    rank (.finite .positive m e hm) ≤ rank (.finite .positive n f hn) ↔
      e < f ∨ e = f ∧ m ≤ n := by
  simp [rank, Prod.Lex.toLex_le_toLex]

theorem rank_negative_le_iff :
    rank (.finite .negative m e hm) ≤ rank (.finite .negative n f hn) ↔
      f < e ∨ f = e ∧ n ≤ m := by
  simp [rank, Prod.Lex.toLex_le_toLex, eq_comm]

theorem rank_negative_le_zero (s : UnpackedFloat.Sign) :
    rank (.finite .negative m e hm) ≤ rank (.zero s) := by
  simp [rank, Prod.Lex.toLex_le_toLex]

theorem rank_zero_le_positive (s : UnpackedFloat.Sign) :
    rank (.zero s) ≤ rank (.finite .positive m e hm) := by
  simp [rank, Prod.Lex.toLex_le_toLex]

end

theorem rank_le_infinity (u : UnpackedFloat) : rank u ≤ rank (.infinity .positive) := by
  match u with
  | .infinity .positive => exact le_rfl
  | .infinity .negative | .zero _ | .notANumber | .finite .positive .. | .finite .negative .. =>
    simp [rank, Prod.Lex.toLex_le_toLex]

theorem compare_toLex {α β : Type} [LinearOrder α] [LinearOrder β] (a b : α × β) :
    compare (toLex a) (toLex b) = (compare a.1 b.1).then (compare a.2 b.2) := by
  rcases lt_trichotomy a.1 b.1 with h | h | h
  · rw [compare_lt_iff_lt.2 h, compare_lt_iff_lt.2 (Prod.Lex.toLex_lt_toLex.2 (.inl h)),
      Ordering.lt_then]
  · rw [compare_eq_iff_eq.2 h, Ordering.eq_then]
    rcases lt_trichotomy a.2 b.2 with h' | h' | h'
    · rw [compare_lt_iff_lt.2 h', compare_lt_iff_lt.2 (Prod.Lex.toLex_lt_toLex.2 (.inr ⟨h, h'⟩))]
    · rw [compare_eq_iff_eq.2 h', Prod.ext h h', compare_eq_iff_eq.2 rfl]
    · rw [compare_gt_iff_gt.2 h',
        compare_gt_iff_gt.2 (Prod.Lex.toLex_lt_toLex.2 (.inr ⟨h.symm, h'⟩))]
  · rw [compare_gt_iff_gt.2 h, compare_gt_iff_gt.2 (Prod.Lex.toLex_lt_toLex.2 (.inl h)),
      Ordering.gt_then]

/-- Numbers are compared by their ranks. -/
theorem compare_eq_some {a b : UnpackedFloat} (ha : a ≠ .notANumber) (hb : b ≠ .notANumber) :
    a.compare b = some (compare (rank a) (rank b)) := by
  match a, b with
  | .notANumber, _ => exact absurd rfl ha
  | _, .notANumber => exact absurd rfl hb
  | .finite .positive m _ _, .finite .positive n _ _ =>
    have hm : compare (m : ℤ) n = compare m n := by
      rw [← cmp_eq_compare, Nat.strictMono_cast.cmp_map_eq, cmp_eq_compare]
    simp only [rank, compare_toLex, hm]
    rfl
  | .finite .negative m e _, .finite .negative n f _ =>
    have hneg : StrictAnti fun x : ℤ => -x := fun _ _ => neg_lt_neg
    have hm : compare (-m : ℤ) (-n) = (compare m n).swap := by
      rw [← cmp_eq_compare, hneg.cmp_map_eq, Nat.strictMono_cast.cmp_map_eq, cmp_eq_compare,
        Nat.compare_swap]
    have he : compare (-e) (-f) = (compare e f).swap := by
      rw [← cmp_eq_compare, hneg.cmp_map_eq, cmp_eq_compare, Int.compare_swap]
    simp only [rank, compare_toLex, hm, he, ← Ordering.swap_then]
    rfl
  -- everywhere else sign and kind decide
  | .infinity .positive, .infinity .positive | .infinity .positive, .infinity .negative
  | .infinity .negative, .infinity .positive | .infinity .negative, .infinity .negative
  | .infinity .positive, .zero _ | .infinity .negative, .zero _
  | .infinity .positive, .finite .positive .. | .infinity .negative, .finite .positive ..
  | .infinity .positive, .finite .negative .. | .infinity .negative, .finite .negative ..
  | .zero _, .infinity .positive | .zero _, .infinity .negative | .zero _, .zero _
  | .zero _, .finite .positive .. | .zero _, .finite .negative ..
  | .finite .positive .., .infinity .positive | .finite .positive .., .infinity .negative
  | .finite .negative .., .infinity .positive | .finite .negative .., .infinity .negative
  | .finite .positive .., .zero _ | .finite .negative .., .zero _
  | .finite .positive .., .finite .negative .. | .finite .negative .., .finite .positive .. =>
    simp only [rank, compare_toLex]
    rfl

/-! ### Comparing doubles -/

section

variable {x y z : Float}

theorem unpack_eq_notANumber_iff : x.toModel.unpack = .notANumber ↔ x = .nan := by
  rw [← UnpackedFloat.isNaN_iff]
  change x.isNaN ↔ _
  simp

theorem compare_eq_none (h : x = .nan ∨ y = .nan) :
    x.toModel.unpack.compare y.toModel.unpack = none := by
  simp only [← unpack_eq_notANumber_iff] at h
  rcases h with h | h
  · rw [h]
    rfl
  · rw [h]
    match x.toModel.unpack with
    | .notANumber | .zero _ | .infinity .positive | .infinity .negative | .finite .positive ..
    | .finite .negative .. => rfl

theorem compare_unpack (h : x ≠ .nan ∧ y ≠ .nan) :
    x.toModel.unpack.compare y.toModel.unpack =
      some (compare (rank x.toModel.unpack) (rank y.toModel.unpack)) :=
  compare_eq_some (unpack_eq_notANumber_iff.not.2 h.1) (unpack_eq_notANumber_iff.not.2 h.2)

theorem lt_iff : x < y ↔
    (x ≠ .nan ∧ y ≠ .nan) ∧ rank x.toModel.unpack < rank y.toModel.unpack := by
  have hlt : x < y ↔ x.toModel.unpack.compare y.toModel.unpack = some .lt :=
    decide_eq_true_iff.trans beq_iff_eq
  rw [hlt]
  by_cases h : x ≠ .nan ∧ y ≠ .nan
  · rw [compare_unpack h, Option.some_inj, compare_lt_iff_lt]
    exact (and_iff_right h).symm
  · rw [compare_eq_none (by tauto)]
    simp [h]

theorem le_iff : x ≤ y ↔
    (x ≠ .nan ∧ y ≠ .nan) ∧ rank x.toModel.unpack ≤ rank y.toModel.unpack := by
  have hle : x ≤ y ↔ (x.toModel.unpack.compare y.toModel.unpack).any (·.isLE) = true :=
    decide_eq_true_iff
  rw [hle]
  by_cases h : x ≠ .nan ∧ y ≠ .nan
  · rw [compare_unpack h, Option.any_some, Ordering.isLE_iff_ne_gt]
    exact compare_le_iff_le.trans (and_iff_right h).symm
  · rw [compare_eq_none (by tauto)]
    simp [h]

theorem ne_nan_of_lt (h : x < y) : x ≠ .nan ∧ y ≠ .nan := (lt_iff.1 h).1

theorem ne_nan_of_le (h : x ≤ y) : x ≠ .nan ∧ y ≠ .nan := (le_iff.1 h).1

protected theorem le_refl (h : x ≠ .nan) : x ≤ x := le_iff.2 ⟨⟨h, h⟩, le_rfl⟩

protected theorem le_trans (hxy : x ≤ y) (hyz : y ≤ z) : x ≤ z := by
  rw [le_iff] at hxy hyz ⊢
  exact ⟨⟨hxy.1.1, hyz.1.2⟩, hxy.2.trans hyz.2⟩

protected theorem lt_of_lt_of_le (hxy : x < y) (hyz : y ≤ z) : x < z := by
  rw [lt_iff] at hxy ⊢
  rw [le_iff] at hyz
  exact ⟨⟨hxy.1.1, hyz.1.2⟩, hxy.2.trans_le hyz.2⟩

/-- Of two numbers one is less than or equal to the other. -/
protected theorem not_lt (hx : x ≠ .nan) (hy : y ≠ .nan) : ¬ y < x ↔ x ≤ y := by
  rw [lt_iff, le_iff]
  simp [hx, hy]

theorem not_lt_of_le (h : x ≤ y) : ¬ y < x :=
  (Double.not_lt (ne_nan_of_le h).1 (ne_nan_of_le h).2).2 h

/-- What a positive number that is not infinite denotes. -/
theorem exists_unpack_eq_finite (hfinite : x.isFinite) (hpos : 0 < x) :
    ∃ m e h, x.toModel.unpack = .finite .positive m e h := by
  have hzero : (0 : Float).toModel.unpack = .zero .positive := rfl
  have hrank := (lt_iff.1 hpos).2
  rw [hzero] at hrank
  change x.toModel.unpack.isFinite = true at hfinite
  match h : x.toModel.unpack with
  | .finite .positive m e hm => exact ⟨m, e, hm, rfl⟩
  | .notANumber | .zero _ | .infinity _ | .finite .negative .. =>
    simp [h, rank, UnpackedFloat.isFinite, Prod.Lex.toLex_lt_toLex] at hrank hfinite

end

end SequentialChart.Double
