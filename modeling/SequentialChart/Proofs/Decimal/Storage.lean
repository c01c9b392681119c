import Mathlib
import SequentialChart.Proofs.Decimal.Order

/-!
# Doubles as words

A word is read by its fields. What it denotes has a significand of 53 bits, or the least exponent of
all, and comes back unchanged when it is stored. A number whose exponent is too large is stored as
an infinity, so storing keeps the order.

## Main definitions

* `Double.ofFields` — what the fields of a word denote.
* `Double.IsCanonical`, `Double.Fits` — what the numbers that words denote have in common.

## Main statements

* `Double.isCanonical_unpack`, `Double.fits_unpack` — words denote numbers that can be stored.
* `Double.unpack_pack` — what is stored of a number.
* `Double.rank_le_rank_unpack_pack` — storing a number keeps it above every number that fits.
-/

namespace SequentialChart.Double

open Float.Model Float.Model.UnpackedFloat

/-- The significand has 53 bits, except that it may be shorter at the least exponent. -/
def IsCanonical : UnpackedFloat → Prop
  | .finite _ m e _ => m < 2 ^ 53 ∧ -1074 ≤ e ∧ (2 ^ 52 ≤ m ∨ e = -1074)
  | _ => True

/-- The exponent is not too large for a word. -/
def Fits : UnpackedFloat → Prop
  | .finite _ _ e _ => e ≤ 971
  | _ => True

/-- The number that the fields of a word denote. -/
def ofFields (s : Sign) (e : BitVec 11) (m : BitVec 52) : UnpackedFloat :=
  if e.toNat = 2047 then if m.toNat = 0 then .infinity s else .notANumber
  else if e.toNat = 0 then
    if h : m.toNat = 0 then .zero s else .finite s m.toNat (-1074) (Nat.pos_of_ne_zero h)
  else .finite s (2 ^ 52 + m.toNat) (e.toNat - 1075) (by omega)

/-! ### Reading words -/

theorem toNat_implicit_append (m : BitVec 52) : (1#1 ++ m).toNat = 2 ^ 52 + m.toNat := by
  rw [BitVec.toNat_append, ← Nat.shiftLeft_add_eq_or_of_lt m.isLt]
  rfl

theorem unpack_eq_ofFields (b : BitVec 64) :
    UnpackedFloat.unpack .binary64 b = ofFields (Sign.ofBitVec (@unpackSign .binary64 b))
      (@unpackExponent .binary64 b) (@unpackMantissa .binary64 b) := by
  have hbias : Format.binary64.exponentBias = 1023 := rfl
  have hones : ∀ e : BitVec 11, e = -1#11 ↔ e.toNat = 2047 := fun e => BitVec.toNat_inj.symm
  have hzero : ∀ {n : ℕ} (x : BitVec n), x = 0#n ↔ x.toNat = 0 := fun x => by
    simp [← BitVec.toNat_inj]
  unfold UnpackedFloat.unpack ofFields
  simp only [hones, hzero, hbias, toNat_implicit_append]
  split_ifs with h1 h2 h3 h4
  · rfl
  · rfl
  · rfl
  · simp [h3]
  · rfl

theorem unpack_packComponents (s : Sign) (e : BitVec 11) (m : BitVec 52) :
    UnpackedFloat.unpack .binary64 (packComponents .binary64 s e m) = ofFields s e m := by
  rw [unpack_eq_ofFields, unpackExponent_packComponents, unpackMantissa_packComponents,
    unpackSign_packComponents, Sign.ofBitVec_toBitVec]

theorem isCanonical_ofFields (s : Sign) (e : BitVec 11) (m : BitVec 52) :
    IsCanonical (ofFields s e m) := by
  have hm := m.isLt
  unfold ofFields
  split_ifs with h1 h2 h3 h4
  · trivial
  · trivial
  · trivial
  · exact ⟨by omega, le_rfl, .inr rfl⟩
  · exact ⟨by omega, by omega, .inl (by omega)⟩

theorem fits_ofFields (s : Sign) (e : BitVec 11) (m : BitVec 52) : Fits (ofFields s e m) := by
  have he := e.isLt
  unfold ofFields
  split_ifs with h1 h2 h3 h4
  · trivial
  · trivial
  · trivial
  · exact (by decide : (-1074 : ℤ) ≤ 971)
  · change (e.toNat : ℤ) - 1075 ≤ 971
    omega

theorem isCanonical_unpack (x : Float) : IsCanonical x.toModel.unpack := by
  rw [show x.toModel.unpack = _ from unpack_eq_ofFields _]
  exact isCanonical_ofFields ..

theorem fits_unpack (x : Float) : Fits x.toModel.unpack := by
  rw [show x.toModel.unpack = _ from unpack_eq_ofFields _]
  exact fits_ofFields ..

/-! ### Storing numbers -/

theorem unpack_pack_infinity (s : Sign) :
    (Float.Model.pack (.infinity s)).unpack = .infinity s :=
  unpack_packComponents s (-1#_) 0

theorem unpack_pack_zero (s : Sign) : (Float.Model.pack (.zero s)).unpack = .zero s :=
  unpack_packComponents s 0 0

theorem unpack_pack_notANumber : (Float.Model.pack .notANumber).unpack = .notANumber :=
  unpack_packComponents .positive (-1#_) _

theorem unpack_pack_finite {s : Sign} {m : ℕ} {e : ℤ} {h : 0 < m}
    (hc : IsCanonical (.finite s m e h)) :
    (Float.Model.pack (.finite s m e h)).unpack =
      if e ≤ 971 then .finite s m e h else .infinity s := by
  obtain ⟨hm, he, hn⟩ := hc
  have hbits : Format.binary64.mantissaBits = 53 := rfl
  have hlog : m.log2 + 1 = 53 ↔ 2 ^ 52 ≤ m := by
    have h1 := Nat.le_log2 (k := 52) h.ne'
    have h2 := Nat.log2_lt (k := 53) h.ne'
    omega
  change UnpackedFloat.unpack .binary64 (UnpackedFloat.pack .binary64 _) = _
  obtain ⟨n, hn'⟩ : ∃ n : ℕ, e + 1075 = n := Int.eq_ofNat_of_zero_le (by omega)
  have hbiased : (e + (Format.binary64.exponentBias : ℤ) +
      (Format.binary64.mantissaBitsWithoutImplicit : ℤ)).toNat = n := by
    change (e + 1023 + 52).toNat = n
    omega
  simp only [UnpackedFloat.pack, hbiased, hbits, hlog]
  by_cases hfits : e ≤ 971
  · rw [if_neg (by omega), if_pos hfits]
    by_cases hnormal : 2 ^ 52 ≤ m
    · have hexponent : (BitVec.ofNat 11 n).toNat = n := by
        rw [BitVec.toNat_ofNat]
        omega
      have hfraction : (BitVec.ofNat 52 m).toNat = m - 2 ^ 52 := by
        rw [BitVec.toNat_ofNat]
        omega
      rw [if_pos hnormal, unpack_packComponents, ofFields, if_neg (by omega), if_neg (by omega),
        finite.injEq, hexponent, hfraction]
      exact ⟨rfl, by omega, by omega⟩
    · have hfraction : (BitVec.ofNat 52 m).toNat = m := by
        rw [BitVec.toNat_ofNat]
        omega
      rw [if_neg hnormal, unpack_packComponents, ofFields, if_neg (by simp), if_pos (by simp),
        dif_neg (by omega), finite.injEq, hfraction]
      exact ⟨rfl, rfl, by omega⟩
  · rw [if_pos (by omega), if_neg hfits]
    exact unpack_pack_infinity s

/-- What is stored of a number: itself, or an infinity if its exponent is too large. -/
theorem unpack_pack {u : UnpackedFloat} (hc : IsCanonical u) :
    (Float.Model.pack u).unpack = u ∨ ∃ s m e h, u = .finite s m e h ∧ 971 < e ∧
      (Float.Model.pack u).unpack = .infinity s := by
  match u with
  | .notANumber => exact .inl unpack_pack_notANumber
  | .infinity s => exact .inl (unpack_pack_infinity s)
  | .zero s => exact .inl (unpack_pack_zero s)
  | .finite s m e h =>
    rw [unpack_pack_finite hc]
    by_cases he : e ≤ 971
    · exact .inl (if_pos he)
    · exact .inr ⟨s, m, e, h, rfl, not_le.1 he, if_neg he⟩

theorem unpack_pack_ne_notANumber {u : UnpackedFloat} (hc : IsCanonical u) (hu : u ≠ .notANumber) :
    (Float.Model.pack u).unpack ≠ .notANumber := by
  rcases unpack_pack hc with h | ⟨s, m, e, hm, rfl, he, h⟩
  · rwa [h]
  · rw [h]
    exact nofun

/-- Storing a number keeps it above every number that fits. -/
theorem rank_le_rank_unpack_pack {a u : UnpackedFloat} (ha : Fits a) (hc : IsCanonical u)
    (h : rank a ≤ rank u) : rank a ≤ rank (Float.Model.pack u).unpack := by
  rcases unpack_pack hc with heq | ⟨s, m, e, hm, rfl, he, heq⟩
  · rwa [heq]
  · rw [heq]
    cases s with
    | positive => exact rank_le_infinity a
    | negative =>
      match a with
      | .infinity .negative => exact le_rfl
      | .finite .negative n f hn =>
        have hfits : f ≤ 971 := ha
        have := rank_negative_le_iff.1 h
        omega
      | .notANumber | .zero _ | .infinity .positive | .finite .positive .. =>
        simp [rank, Prod.Lex.toLex_le_toLex] at h

end SequentialChart.Double
