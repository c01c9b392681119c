import Mathlib
import SequentialChart.Proofs.Decimal.Storage

/-!
# Rounding doubles

A number is brought to an exponent at which its significand has 53 bits, or to the least exponent of
all. The bits that are lost round the significand to the nearest one, so rounding keeps a number
on its side of every number that needs no rounding.

## Main definitions

* `Double.exponentOf`, `Double.significandOf` — what a number is rounded to.
* `Double.carried` — the rounded number, whose significand may have become one bit longer.

## Main statements

* `Double.round_eq` — rounding as a choice of exponent and significand.
* `Double.isCanonical_round` — rounded numbers can be stored.
* `Double.rank_le_rank_round`, `Double.rank_le_rank_round_negative` — rounding keeps the order.
-/

namespace SequentialChart.Double

open Float.Model Float.Model.UnpackedFloat

/-! ### Significands -/

theorem mantissa_shiftRight (em : ExtendedMantissa) (k : ℕ) :
    (em >>> k).mantissa = em.mantissa / 2 ^ k := by
  change (k.repeat ExtendedMantissa.shiftRightOne em).mantissa = _
  induction k with
  | zero => simp [Nat.repeat]
  | succ k ih =>
    rw [Nat.repeat, ExtendedMantissa.shiftRightOne, ih, Nat.div_div_eq_div_mul, pow_succ]

/-- Shifting out zeros is exact. -/
theorem shiftRight_mul (n k : ℕ) :
    ExtendedMantissa.ofMantissaAndAccuracy (n * 2 ^ k) .exact >>> k =
      ExtendedMantissa.ofMantissaAndAccuracy n .exact := by
  change k.repeat ExtendedMantissa.shiftRightOne _ = _
  induction k generalizing n with
  | zero => simp [Nat.repeat]
  | succ k ih =>
    have hn : n * 2 ^ (k + 1) = n * 2 * 2 ^ k := by ring
    rw [Nat.repeat, hn, ih]
    simp [ExtendedMantissa.ofMantissaAndAccuracy, ExtendedMantissa.shiftRightOne]

/-- The significand `m` without its last `k` bits, rounded to the nearest. -/
def roundOff (m k : ℕ) : ℕ :=
  (ExtendedMantissa.ofMantissaAndAccuracy m .exact >>> k).roundedMantissa

theorem roundOff_bounds (m k : ℕ) : m / 2 ^ k ≤ roundOff m k ∧ roundOff m k ≤ m / 2 ^ k + 1 := by
  rw [← show (ExtendedMantissa.ofMantissaAndAccuracy m .exact >>> k).mantissa = m / 2 ^ k from
    mantissa_shiftRight _ k]
  unfold roundOff
  rcases ExtendedMantissa.ofMantissaAndAccuracy m .exact >>> k with ⟨n, _ | _, _ | _⟩ <;>
    simp only [ExtendedMantissa.roundedMantissa, ExtendedMantissa.accuracy,
      Accuracy.roundToNearestEven] <;> omega

theorem roundOff_mul (n k : ℕ) : roundOff (n * 2 ^ k) k = n := by
  rw [roundOff, shiftRight_mul]
  rfl

theorem le_roundOff {m n k : ℕ} (h : n * 2 ^ k ≤ m) : n ≤ roundOff m k :=
  ((Nat.le_div_iff_mul_le (by positivity)).2 h).trans (roundOff_bounds m k).1

theorem roundOff_le {m n k : ℕ} (h : m ≤ n * 2 ^ k) : roundOff m k ≤ n := by
  rcases h.eq_or_lt with rfl | h
  · exact (roundOff_mul n k).le
  · exact (roundOff_bounds m k).2.trans ((Nat.div_lt_iff_lt_mul (by positivity)).2 h)

/-! ### Exponents -/

/-- The exponent to which `m * 2 ^ e` is brought. -/
def exponentOf (m : ℕ) (e : ℤ) : ℤ := max (m.log2 + e - 52) (-1074)

theorem targetExponent_totalExponent (m : ℕ) (e : ℤ) :
    Format.binary64.targetExponent (totalExponent m e) = exponentOf m e := by
  change max (_ + 1 + e - 53) (-1074) = max _ _
  congr 1
  ring

theorem log2_mul_two_pow {m : ℕ} (h : 0 < m) (k : ℕ) : (m * 2 ^ k).log2 = m.log2 + k := by
  rw [Nat.log2_eq_iff (by positivity)]
  constructor
  · rw [pow_add]
    exact Nat.mul_le_mul_right _ (Nat.log2_self_le h.ne')
  · rw [Nat.add_right_comm, pow_add]
    exact Nat.mul_lt_mul_of_pos_right Nat.lt_log2_self (by positivity)

/-- The exponent depends on the number only, not on how it is written. -/
theorem exponentOf_mul {m : ℕ} (h : 0 < m) (e : ℤ) (k : ℕ) :
    exponentOf (m * 2 ^ k) (e - k) = exponentOf m e := by
  rw [exponentOf, exponentOf, log2_mul_two_pow h]
  push_cast
  congr 1
  ring

theorem exponentOf_le {m n : ℕ} (hm : 0 < m) (h : m ≤ n) (e : ℤ) :
    exponentOf m e ≤ exponentOf n e := by
  have hlog : m.log2 ≤ n.log2 :=
    (Nat.le_log2 (hm.trans_le h).ne').2 ((Nat.log2_self_le hm.ne').trans h)
  unfold exponentOf
  omega

section

variable {s : Sign} {m k : ℕ} {e : ℤ} {h : 0 < m}

/-- What can be stored has its exponent already. -/
theorem exponentOf_eq (hc : IsCanonical (.finite s m e h)) : exponentOf m e = e := by
  obtain ⟨hm, he, hn⟩ := hc
  have h1 := Nat.le_log2 (k := 52) h.ne'
  have h2 := Nat.log2_lt (k := 53) h.ne'
  unfold exponentOf
  omega

theorem exponentOf_add (hc : IsCanonical (.finite s m (e + k) h)) :
    exponentOf (m * 2 ^ k) e = e + k := by
  rw [← exponentOf_eq hc, ← exponentOf_mul h (e + k) k, add_sub_cancel_right]

end

/-! ### Rounding -/

/-- What is left of the significand of `m * 2 ^ e`. -/
def significandOf (m : ℕ) (e : ℤ) : ℕ :=
  roundOff (m * 2 ^ (e - exponentOf m e).toNat) (exponentOf m e - e).toNat

/-- The number `± m * 2 ^ e`. -/
def scaled (s : Sign) (m : ℕ) (e : ℤ) : UnpackedFloat :=
  if h : m = 0 then .zero s else .finite s m e (Nat.pos_of_ne_zero h)

/-- The number `± m * 2 ^ e` for a significand of at most `2 ^ 53`. -/
def carried (s : Sign) (m : ℕ) (e : ℤ) : UnpackedFloat :=
  if m < 2 ^ 53 then scaled s m e else scaled s (2 ^ 52) (e + 1)

theorem shiftToTargetExponent_eq (m : ℕ) (e : ℤ) :
    shiftToTargetExponent .binary64 m e .exact =
      (ExtendedMantissa.ofMantissaAndAccuracy m .exact >>> (exponentOf m e - e).toNat,
        max e (exponentOf m e)) := by
  unfold shiftToTargetExponent shiftToExponent
  simp only [targetExponent_totalExponent, Prod.mk.injEq, true_and]
  omega

theorem roundWithAccuracy_eq {s : Sign} {m : ℕ} {e : ℤ} (he : e ≤ exponentOf m e) :
    roundWithAccuracy .binary64 s m e .exact =
      carried s (roundOff m (exponentOf m e - e).toNat) (exponentOf m e) := by
  have hle : roundOff m (exponentOf m e - e).toNat ≤ 2 ^ 53 := by
    refine roundOff_le ?_
    rw [← pow_add]
    refine (Nat.lt_log2_self (n := m)).le.trans (Nat.pow_le_pow_right (by decide) ?_)
    unfold exponentOf
    omega
  have hleast : -1074 ≤ exponentOf m e := le_max_right ..
  have hround : roundWithAccuracy .binary64 s m e .exact =
      scaled s (roundOff m (exponentOf m e - e).toNat /
          2 ^ (exponentOf (roundOff m (exponentOf m e - e).toNat) (exponentOf m e) -
            exponentOf m e).toNat)
        (max (exponentOf m e)
          (exponentOf (roundOff m (exponentOf m e - e).toNat) (exponentOf m e))) := by
    simp only [roundWithAccuracy, shiftToTargetExponent_eq, mantissa_shiftRight, max_eq_right he]
    rfl
  rw [hround]
  generalize roundOff m (exponentOf m e - e).toNat = q at *
  generalize exponentOf m e = t at *
  -- the second shift moves a bit only if the first one made the significand longer
  rcases hle.lt_or_eq with hlt | rfl
  · have hlog : q.log2 ≤ 52 := by
      rcases Nat.eq_zero_or_pos q with rfl | hpos
      · decide
      · exact Nat.le_of_lt_succ ((Nat.log2_lt hpos.ne').2 hlt)
    have hexponent : exponentOf q t ≤ t := by
      unfold exponentOf
      omega
    have hnone : (exponentOf q t - t).toNat = 0 := by omega
    rw [hnone, pow_zero, Nat.div_one, max_eq_left hexponent, carried, if_pos hlt]
  · have hexponent : exponentOf (2 ^ 53) t = t + 1 := by
      rw [exponentOf, Nat.log2_two_pow]
      omega
    have hone : (t + 1 - t).toNat = 1 := by omega
    rw [hexponent, hone, max_eq_right (by omega), carried, if_neg (lt_irrefl _)]
    rfl

section

variable {s : Sign} {m n k : ℕ} {e : ℤ}

theorem round_eq (hm : 0 < m) :
    UnpackedFloat.round .binary64 s m e = carried s (significandOf m e) (exponentOf m e) := by
  have hexponent : exponentOf (m * 2 ^ (e - exponentOf m e).toNat)
      (e - (e - exponentOf m e).toNat) = exponentOf m e := exponentOf_mul hm ..
  unfold UnpackedFloat.round decreaseExponent significandOf
  simp only [targetExponent_totalExponent, Nat.shiftLeft_eq]
  rw [roundWithAccuracy_eq (by omega), hexponent]
  congr 2
  omega

theorem two_pow_le_significandOf (hm : 0 < m) (h : exponentOf m e ≠ -1074) :
    2 ^ 52 ≤ significandOf m e := by
  have ht : exponentOf m e = m.log2 + e - 52 := by
    unfold exponentOf at h ⊢
    omega
  refine le_roundOff ?_
  rw [← pow_add]
  calc 2 ^ (52 + (exponentOf m e - e).toNat)
      = 2 ^ (m.log2 + (e - exponentOf m e).toNat) := by
        congr 1
        omega
    _ = 2 ^ m.log2 * 2 ^ (e - exponentOf m e).toNat := pow_add ..
    _ ≤ m * 2 ^ (e - exponentOf m e).toNat :=
        Nat.mul_le_mul_right _ (Nat.log2_self_le hm.ne')

theorem isCanonical_scaled (hm : m < 2 ^ 53) (he : -1074 ≤ e) (h : 2 ^ 52 ≤ m ∨ e = -1074) :
    IsCanonical (scaled s m e) := by
  unfold scaled
  split
  · trivial
  · exact ⟨hm, he, h⟩

theorem isCanonical_round (hm : 0 < m) : IsCanonical (UnpackedFloat.round .binary64 s m e) := by
  have hleast : -1074 ≤ exponentOf m e := le_max_right ..
  have hnormal := two_pow_le_significandOf (e := e) hm
  rw [round_eq hm, carried]
  split
  · exact isCanonical_scaled ‹_› hleast (by tauto)
  · exact isCanonical_scaled (by decide) (by omega) (.inl le_rfl)

theorem round_ne_notANumber (hm : 0 < m) :
    UnpackedFloat.round .binary64 s m e ≠ .notANumber := by
  rw [round_eq hm]
  unfold carried scaled
  split_ifs <;> simp

theorem rank_zero_le_round (hm : 0 < m) :
    rank (.zero .positive) ≤ rank (UnpackedFloat.round .binary64 .positive m e) := by
  rw [round_eq hm]
  unfold carried scaled
  split
  · split
    · exact le_rfl
    · exact rank_zero_le_positive _
  · exact rank_zero_le_positive _

end

/-! ### Rounding keeps the order -/

theorem rank_le_rank_carried {m q : ℕ} {e t : ℤ} {h : 0 < m} (hq : 0 < q)
    (hle : e < t ∨ e = t ∧ m ≤ q) :
    rank (.finite .positive m e h) ≤ rank (carried .positive q t) := by
  unfold carried scaled
  split
  · rwa [dif_neg hq.ne', rank_positive_le_iff]
  · rw [dif_neg (by decide), rank_positive_le_iff]
    omega

theorem rank_le_rank_carried_negative {m q : ℕ} {e t : ℤ} {h : 0 < m}
    (hc : IsCanonical (.finite .negative m e h)) (ht : -1074 ≤ t)
    (hle : t < e ∨ t = e ∧ q ≤ m) :
    rank (.finite .negative m e h) ≤ rank (carried .negative q t) := by
  obtain ⟨hm, -, hn⟩ := hc
  unfold carried scaled
  split
  · split
    · exact rank_negative_le_zero _
    · rwa [rank_negative_le_iff]
  · rw [dif_neg (by decide), rank_negative_le_iff]
    omega

section

variable {m n k : ℕ} {e : ℤ} {h : 0 < m}

/-- What is at least a number that can be stored is rounded to at least that number. -/
theorem rank_le_rank_round (hc : IsCanonical (.finite .positive m (e + k) h))
    (hle : m * 2 ^ k ≤ n) :
    rank (.finite .positive m (e + k) h) ≤
      rank (UnpackedFloat.round .binary64 .positive n e) := by
  have hn : 0 < n := lt_of_lt_of_le (by positivity) hle
  have hexponent : e + k ≤ exponentOf n e :=
    exponentOf_add hc ▸ exponentOf_le (by positivity) hle e
  rw [round_eq hn]
  rcases hexponent.lt_or_eq with hlt | heq
  · have hleast : -1074 ≤ e + k := hc.2.1
    have := two_pow_le_significandOf hn (show exponentOf n e ≠ -1074 by omega)
    exact rank_le_rank_carried (by omega) (.inl hlt)
  · have hsignificand : m ≤ significandOf n e := by
      refine le_roundOff ?_
      rw [← heq]
      simpa using hle
    exact rank_le_rank_carried (by omega) (.inr ⟨heq, hsignificand⟩)

theorem rank_le_rank_round_negative (hc : IsCanonical (.finite .negative m (e + k) h)) (hn : 0 < n)
    (hle : n ≤ m * 2 ^ k) :
    rank (.finite .negative m (e + k) h) ≤
      rank (UnpackedFloat.round .binary64 .negative n e) := by
  have hexponent : exponentOf n e ≤ e + k :=
    exponentOf_add hc ▸ exponentOf_le hn hle e
  rw [round_eq hn]
  refine rank_le_rank_carried_negative hc (le_max_right ..) ?_
  rcases hexponent.lt_or_eq with hlt | heq
  · exact .inl hlt
  · refine .inr ⟨heq, roundOff_le ?_⟩
    rw [heq]
    simpa using hle

end

end SequentialChart.Double
