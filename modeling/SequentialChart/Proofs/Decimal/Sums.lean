import Mathlib
import SequentialChart.Proofs.Decimal.Rounding

/-!
# Sums of doubles

Two numbers are added by bringing them to the smaller of their exponents; the sum of the
significands is then exact, and it is rounded once. So a positive number that is added moves
nothing back, however much of it is lost.

## Main statements

* `Double.add_finite` — what the sum of two numbers is before it is stored.
* `Double.le_add` — adding a positive number moves nothing back.
-/

namespace SequentialChart.Double

open Float.Model Float.Model.UnpackedFloat

/-! ### Sums before they are stored -/

theorem add_finite {s s' : Sign} {m n : ℕ} {e f : ℤ} {hm : 0 < m} {hn : 0 < n} :
    UnpackedFloat.add .binary64 (.finite s m e hm) (.finite s' n f hn) =
      UnpackedFloat.normalize .binary64 (s.apply (m * 2 ^ (e - min e f).toNat : ℕ) +
        s'.apply (n * 2 ^ (f - min e f).toNat : ℕ)) (min e f) .positive := by
  have hleft : decreaseExponent m e (min e f) = (m * 2 ^ (e - min e f).toNat, min e f) := by
    simp only [decreaseExponent, Nat.shiftLeft_eq, Prod.mk.injEq, true_and]
    omega
  have hright : decreaseExponent n f (min e f) = (n * 2 ^ (f - min e f).toNat, min e f) := by
    simp only [decreaseExponent, Nat.shiftLeft_eq, Prod.mk.injEq, true_and]
    omega
  simp only [UnpackedFloat.add, hleft, hright]

section

variable {s : Sign} {n : ℕ} {e : ℤ}

theorem normalize_natCast (hn : 0 < n) : UnpackedFloat.normalize .binary64 n e s =
    UnpackedFloat.round .binary64 .positive n e := by
  have hcompare : compare (n : ℤ) 0 = .gt := Int.compare_eq_gt.2 (by omega)
  rw [UnpackedFloat.normalize, hcompare]
  rfl

theorem normalize_neg_natCast (hn : 0 < n) : UnpackedFloat.normalize .binary64 (-n) e s =
    UnpackedFloat.round .binary64 .negative n e := by
  have hcompare : compare (-n : ℤ) 0 = .lt := Int.compare_eq_lt.2 (by omega)
  rw [UnpackedFloat.normalize, hcompare]
  simp

theorem normalize_zero : UnpackedFloat.normalize .binary64 0 e s = .zero s := rfl

end

theorem isCanonical_normalize (n e : ℤ) (s : Sign) :
    IsCanonical (UnpackedFloat.normalize .binary64 n e s) ∧
      UnpackedFloat.normalize .binary64 n e s ≠ .notANumber := by
  rcases Int.eq_nat_or_neg n with ⟨k, rfl | rfl⟩
  all_goals
    rcases Nat.eq_zero_or_pos k with rfl | hk
    · exact ⟨trivial, nofun⟩
  · rw [normalize_natCast hk]
    exact ⟨isCanonical_round hk, round_ne_notANumber hk⟩
  · rw [normalize_neg_natCast hk]
    exact ⟨isCanonical_round hk, round_ne_notANumber hk⟩

section

variable {m n : ℕ} {e f : ℤ} {hm : 0 < m} {hn : 0 < n}

theorem isCanonical_add {s s' : Sign} :
    let sum := UnpackedFloat.add .binary64 (.finite s m e hm) (.finite s' n f hn)
    IsCanonical sum ∧ sum ≠ .notANumber := by
  rw [add_finite]
  exact isCanonical_normalize ..

theorem rank_le_rank_add_positive (hc : IsCanonical (.finite .positive m e hm)) :
    rank (.finite .positive m e hm) ≤
      rank (UnpackedFloat.add .binary64 (.finite .positive m e hm) (.finite .positive n f hn)) := by
  obtain ⟨k, hk⟩ : ∃ k : ℕ, e = min e f + k := ⟨(e - min e f).toNat, by omega⟩
  rw [add_finite]
  generalize min e f = g at *
  subst hk
  rw [show (g + k - g).toNat = k by omega]
  change _ ≤ rank (UnpackedFloat.normalize _ ((m * 2 ^ k : ℕ) + (n * 2 ^ (f - g).toNat : ℕ)) _ _)
  rw [← Nat.cast_add, normalize_natCast (by positivity)]
  exact rank_le_rank_round hc (Nat.le_add_right ..)

theorem rank_le_rank_add_negative (hc : IsCanonical (.finite .negative m e hm)) :
    rank (.finite .negative m e hm) ≤
      rank (UnpackedFloat.add .binary64 (.finite .negative m e hm) (.finite .positive n f hn)) := by
  have hzero : rank (.finite .negative m e hm) ≤ rank (.zero .positive) := rank_negative_le_zero _
  obtain ⟨k, hk⟩ : ∃ k : ℕ, e = min e f + k := ⟨(e - min e f).toNat, by omega⟩
  rw [add_finite]
  generalize min e f = g at *
  subst hk
  rw [show (g + k - g).toNat = k by omega]
  change _ ≤ rank (UnpackedFloat.normalize _ (-(m * 2 ^ k : ℕ) + (n * 2 ^ (f - g).toNat : ℕ)) _ _)
  have hpos : 0 < n * 2 ^ (f - g).toNat := by positivity
  generalize n * 2 ^ (f - g).toNat = p at *
  -- the sign of the sum decides on which side of zero it is rounded
  rcases lt_trichotomy p (m * 2 ^ k) with hlt | heq | hlt
  · obtain ⟨r, hr⟩ := Nat.exists_eq_add_of_lt hlt
    have hsum : -((m * 2 ^ k : ℕ) : ℤ) + p = -((r + 1 : ℕ) : ℤ) := by omega
    rw [hsum, normalize_neg_natCast (by omega)]
    exact rank_le_rank_round_negative hc (by omega) (by omega)
  · rw [heq, neg_add_cancel, normalize_zero]
    exact hzero
  · obtain ⟨r, hr⟩ := Nat.exists_eq_add_of_lt hlt
    have hsum : -((m * 2 ^ k : ℕ) : ℤ) + p = ((r + 1 : ℕ) : ℤ) := by omega
    rw [hsum, normalize_natCast (by omega)]
    exact hzero.trans (rank_zero_le_round (by omega))

/-- Adding a positive number yields a number that can be stored and is no smaller. -/
theorem rank_le_rank_add {u : UnpackedFloat} (hu : u ≠ .notANumber) (hc : IsCanonical u)
    (hc' : IsCanonical (.finite .positive n f hn)) :
    let sum := UnpackedFloat.add .binary64 u (.finite .positive n f hn)
    IsCanonical sum ∧ sum ≠ .notANumber ∧ rank u ≤ rank sum := by
  match u with
  | .notANumber => exact absurd rfl hu
  | .infinity .positive | .infinity .negative => exact ⟨trivial, nofun, le_rfl⟩
  | .zero _ => exact ⟨hc', nofun, rank_zero_le_positive _⟩
  | .finite .positive m e hm =>
    exact ⟨isCanonical_add.1, isCanonical_add.2, rank_le_rank_add_positive hc⟩
  | .finite .negative m e hm =>
    exact ⟨isCanonical_add.1, isCanonical_add.2, rank_le_rank_add_negative hc⟩

end

/-! ### Sums of doubles -/

/-- Adding a positive number moves nothing back. -/
theorem le_add {x y : Float} (hx : x ≠ .nan) (hfinite : y.isFinite) (hpos : 0 < y) :
    x ≤ x + y := by
  obtain ⟨n, f, hn, hy⟩ := exists_unpack_eq_finite hfinite hpos
  have hsum : (x + y).toModel.unpack =
      (Float.Model.pack (UnpackedFloat.add .binary64 x.toModel.unpack y.toModel.unpack)).unpack :=
    rfl
  have hc' := hy ▸ isCanonical_unpack y
  obtain ⟨hc, hne, hle⟩ := rank_le_rank_add (unpack_eq_notANumber_iff.not.2 hx)
    (isCanonical_unpack x) hc'
  rw [hy] at hsum
  have hnumber : x + y ≠ .nan := by
    refine unpack_eq_notANumber_iff.not.1 ?_
    rw [hsum]
    exact unpack_pack_ne_notANumber hc hne
  rw [le_iff, hsum]
  exact ⟨⟨hx, hnumber⟩, rank_le_rank_unpack_pack (fits_unpack x) hc hle⟩

end SequentialChart.Double
