-- SUMMARY: Rounding to floats depends on the exact value alone.
import Mathlib

/-!
# Rounding

Products and quotients of floats are computed in whole numbers, with a round bit and a sticky bit
for what is shifted out, and rounded at the end. What comes out is told by the exact value, a
positive rational: it is `nearest` to it. How the value was put together, as which mantissa, which
exponent and which remainder, does not matter.
-/
namespace Argand.Rounding

open Float.Model Float.Model.UnpackedFloat

/-! ## The nearest whole number -/

/-- The whole number nearest to `v`, and of two that are equally near the even one. -/
def roundEven (v : ℚ) : ℕ :=
  if v - ⌊v⌋₊ < 1 / 2 then ⌊v⌋₊
  else if v - ⌊v⌋₊ = 1 / 2 then ⌊v⌋₊ + ⌊v⌋₊ % 2
  else ⌊v⌋₊ + 1

theorem roundEven_natCast (n : ℕ) : roundEven n = n := by
  simp [roundEven]

theorem floor_le_roundEven (v : ℚ) : ⌊v⌋₊ ≤ roundEven v := by
  unfold roundEven
  split_ifs <;> omega

theorem roundEven_le (v : ℚ) : roundEven v ≤ ⌊v⌋₊ + 1 := by
  unfold roundEven
  split_ifs <;> omega

theorem roundEven_eq_zero {v : ℚ} (h : v < 1 / 2) : roundEven v = 0 := by
  have hfloor : ⌊v⌋₊ = 0 := Nat.floor_eq_zero.2 (by linarith)
  simp only [roundEven, hfloor, Nat.cast_zero, sub_zero, if_pos h]

/-! ## Extended mantissas -/

/-- The round bit and the sticky bit tell where between the mantissa and its successor `v` lies. -/
def Represents (em : ExtendedMantissa) (v : ℚ) : Prop :=
  match em with
  | ⟨m, false, false⟩ => v = m
  | ⟨m, false, true⟩ => (m : ℚ) < v ∧ v < m + 1 / 2
  | ⟨m, true, false⟩ => v = m + 1 / 2
  | ⟨m, true, true⟩ => (m : ℚ) + 1 / 2 < v ∧ v < m + 1

variable {em : ExtendedMantissa} {v : ℚ}

theorem Represents.floor_eq (h : Represents em v) : ⌊v⌋₊ = em.mantissa := by
  obtain ⟨m, r, s⟩ := em
  have hv : (m : ℚ) ≤ v ∧ v < m + 1 := by
    cases r <;> cases s <;> simp only [Represents] at h <;> constructor <;> linarith
  exact (Nat.floor_eq_iff (le_trans (Nat.cast_nonneg m) hv.1)).2 hv

/-- Rounding by the two bits rounds the value. -/
theorem Represents.roundedMantissa_eq (h : Represents em v) :
    em.roundedMantissa = roundEven v := by
  have hfloor := h.floor_eq
  obtain ⟨m, r, s⟩ := em
  simp only [roundEven, hfloor]
  cases r <;> cases s <;> simp only [Represents] at h <;>
    simp only [ExtendedMantissa.roundedMantissa, ExtendedMantissa.accuracy,
      Accuracy.roundToNearestEven]
  · rw [if_pos (by linarith)]
  · rw [if_pos (by linarith)]
  · rw [if_neg (by linarith), if_pos (by linarith)]
  · rw [if_neg (by linarith), if_neg (by linarith)]

/-- A shift by one place halves the value. -/
theorem Represents.shiftRightOne (h : Represents em v) : Represents em.shiftRightOne (v / 2) := by
  obtain ⟨m, r, s⟩ := em
  have hm : (m : ℚ) = 2 * (m / 2 : ℕ) + (m % 2 : ℕ) := by
    exact_mod_cast (Nat.div_add_mod m 2).symm
  rcases Nat.mod_two_eq_zero_or_one m with hbit | hbit <;> cases r <;> cases s <;>
    simp only [Represents, ExtendedMantissa.shiftRightOne, hbit, bne_self_eq_false,
      show (1 != 0) = true from rfl, Bool.or_false, Bool.or_true, Nat.cast_zero, Nat.cast_one]
      at h hm ⊢ <;>
    first | linarith | constructor <;> linarith

theorem Represents.shiftRight (h : Represents em v) (k : ℕ) : Represents (em >>> k) (v / 2 ^ k) := by
  change Represents (k.repeat ExtendedMantissa.shiftRightOne em) _
  induction k with
  | zero => simpa [Nat.repeat] using h
  | succ k ih =>
      rw [Nat.repeat, pow_succ, div_mul_eq_div_div]
      exact ih.shiftRightOne

/-- What a division leaves is told exactly by quotient, round bit and sticky bit. -/
theorem represents_accuracyOfFraction (m : ℕ) {r d : ℕ} (h : r < d) :
    Represents (.ofMantissaAndAccuracy m (accuracyOfFraction r d)) (m + r / d) := by
  have hd : (0 : ℚ) < d := Nat.cast_pos.2 (Nat.zero_lt_of_lt h)
  have hlt : (r : ℚ) / d < 1 := (div_lt_one hd).2 (Nat.cast_lt.2 h)
  unfold accuracyOfFraction
  split
  · next hr => simp [Represents, ExtendedMantissa.ofMantissaAndAccuracy, hr]
  · next hr =>
      have hpos : (0 : ℚ) < r / d := div_pos (Nat.cast_pos.2 (Nat.pos_of_ne_zero hr)) hd
      rcases hc : compare (2 * r) d with _ | _ | _
      · have hhalf : (r : ℚ) / d < 1 / 2 := by
          rw [div_lt_div_iff₀ hd two_pos]
          exact_mod_cast (by rw [Nat.compare_eq_lt] at hc; omega : r * 2 < 1 * d)
        exact ⟨by linarith, by linarith⟩
      · have hhalf : (r : ℚ) / d = 1 / 2 := by
          rw [div_eq_div_iff hd.ne' two_ne_zero]
          exact_mod_cast (by rw [Nat.compare_eq_eq] at hc; omega : r * 2 = 1 * d)
        exact congrArg _ hhalf
      · have hhalf : (1 : ℚ) / 2 < r / d := by
          rw [div_lt_div_iff₀ two_pos hd]
          exact_mod_cast (by rw [Nat.compare_eq_gt] at hc; omega : 1 * d < r * 2)
        exact ⟨by linarith, by linarith⟩

/-! ## The nearest float -/

/-- The exponent of the last place of a float near `v`: fifty-three places from the first one on,
none of them below the smallest. -/
def lastPlace (v : ℚ) : ℤ :=
  max (Int.log 2 v - 52) (-1074)

/-- The float of `n` units of the last place `t`. If rounding up has made a fifty-fourth digit, the
last place moves up by one. -/
def ofSignificand (s : Sign) (n : ℕ) (t : ℤ) : UnpackedFloat :=
  if h : n = 0 then .zero s
  else if n = 2 ^ 53 then .finite s (2 ^ 52) (t + 1) (by decide)
  else .finite s n t (Nat.pos_of_ne_zero h)

/-- The float nearest to `v`, before it is known whether the exponent is too large. -/
def nearest (s : Sign) (v : ℚ) : UnpackedFloat :=
  ofSignificand s (roundEven (v / 2 ^ lastPlace v)) (lastPlace v)

theorem le_lastPlace (v : ℚ) : -1074 ≤ lastPlace v :=
  le_max_right _ _

theorem targetExponent_eq (E : ℤ) : Format.binary64.targetExponent E = max (E - 53) (-1074) := rfl

/-- In units of its last place a value has no more than fifty-three digits. -/
theorem roundEven_lastPlace_le (hv : 0 < v) : roundEven (v / 2 ^ lastPlace v) ≤ 2 ^ 53 := by
  have hscaled : v / 2 ^ lastPlace v < (2 ^ 53 : ℕ) := by
    rw [div_lt_iff₀ (by positivity)]
    calc v < 2 ^ (Int.log 2 v + 1) := by exact_mod_cast Int.lt_zpow_succ_log_self one_lt_two v
      _ ≤ 2 ^ (53 + lastPlace v) :=
        zpow_le_zpow_right₀ one_le_two (by unfold lastPlace; omega)
      _ = (2 ^ 53 : ℕ) * 2 ^ lastPlace v := by rw [zpow_add₀ two_ne_zero]; norm_cast
  have hfloor : ⌊v / 2 ^ lastPlace v⌋₊ < 2 ^ 53 :=
    (Nat.floor_lt (by positivity)).2 hscaled
  exact (roundEven_le _).trans hfloor

/-- The second shift does nothing but to move a fifty-fourth digit into the exponent. -/
theorem shiftToTargetExponent_of_le {n : ℕ} {t : ℤ} (hn : n ≤ 2 ^ 53) (ht : -1074 ≤ t) :
    shiftToTargetExponent .binary64 n t .exact =
      if n = 2 ^ 53 then (⟨2 ^ 52, false, false⟩, t + 1) else (⟨n, false, false⟩, t) := by
  unfold shiftToTargetExponent
  rw [targetExponent_eq]
  split
  · next hcarry =>
      have htarget : max (totalExponent n t - 53) (-1074) = t + 1 := by
        rw [hcarry, totalExponent, Nat.log2_two_pow]
        omega
      rw [htarget, shiftToExponent, show (t + 1 - t).toNat = 1 by omega, hcarry]
      rfl
  · next hcarry =>
      have hlog : n.log2 < 53 := by
        rcases Nat.eq_zero_or_pos n with rfl | hpos
        · decide
        · exact (Nat.log2_lt hpos.ne').2 (lt_of_le_of_ne hn hcarry)
      have hstay : (max (totalExponent n t - 53) (-1074) - t).toNat = 0 := by
        rw [totalExponent]
        omega
      rw [shiftToExponent, hstay, Int.natCast_zero, add_zero]
      rfl

variable {m r d : ℕ} {e : ℤ}

theorem zpow_log2_le (hm : 0 < m) (e : ℤ) : (2 : ℚ) ^ (totalExponent m e - 1) ≤ m * 2 ^ e := by
  have hlog : (2 : ℚ) ^ m.log2 ≤ m := by exact_mod_cast Nat.log2_self_le hm.ne'
  rw [totalExponent, show (m.log2 : ℤ) + 1 + e - 1 = m.log2 + e by omega, zpow_add₀ two_ne_zero,
    zpow_natCast]
  exact mul_le_mul_of_nonneg_right hlog (by positivity)

theorem succ_mul_zpow_le (m : ℕ) (e : ℤ) : ((m : ℚ) + 1) * 2 ^ e ≤ 2 ^ totalExponent m e := by
  have hlog : (m : ℚ) + 1 ≤ 2 ^ (m.log2 + 1) := by exact_mod_cast Nat.lt_log2_self (n := m)
  rw [totalExponent, show (m.log2 : ℤ) + 1 + e = (m.log2 + 1 : ℕ) + e by omega,
    zpow_add₀ two_ne_zero, zpow_natCast]
  exact mul_le_mul_of_nonneg_right hlog (by positivity)

/-- The last place that is computed from the mantissa is that of the value, if the mantissa has
digits enough. -/
theorem targetExponent_eq_lastPlace (hr : r < d) (hpos : 0 < ((m : ℚ) + r / d) * 2 ^ e)
    (he : e ≤ lastPlace (((m : ℚ) + r / d) * 2 ^ e)) :
    Format.binary64.targetExponent (totalExponent m e) =
      lastPlace (((m : ℚ) + r / d) * 2 ^ e) := by
  have hd : (0 : ℚ) < d := Nat.cast_pos.2 (Nat.zero_lt_of_lt hr)
  have hlt : (r : ℚ) / d < 1 := (div_lt_one hd).2 (Nat.cast_lt.2 hr)
  have hfrac : (0 : ℚ) ≤ r / d := div_nonneg (Nat.cast_nonneg r) hd.le
  have h2 : (0 : ℚ) < 2 ^ e := by positivity
  rcases Nat.eq_zero_or_pos m with rfl | hm
  · -- Less than one unit is left, which is possible at the smallest last place only.
    have hlog : Int.log 2 ((((0 : ℕ) : ℚ) + r / d) * 2 ^ e) < e := by
      rw [← Int.lt_zpow_iff_log_lt one_lt_two hpos]
      push_cast
      nlinarith
    rw [targetExponent_eq, totalExponent]
    simp only [lastPlace] at he ⊢
    simp only [Nat.log2_zero]
    omega
  · have hlog : Int.log 2 (((m : ℚ) + r / d) * 2 ^ e) = totalExponent m e - 1 := by
      have hlow : ((2 : ℕ) : ℚ) ^ (totalExponent m e - 1) ≤ ((m : ℚ) + r / d) * 2 ^ e := by
        rw [Nat.cast_ofNat]
        exact (zpow_log2_le hm e).trans (mul_le_mul_of_nonneg_right (by linarith) h2.le)
      have hhigh : ((m : ℚ) + r / d) * 2 ^ e < ((2 : ℕ) : ℚ) ^ totalExponent m e := by
        rw [Nat.cast_ofNat]
        exact (mul_lt_mul_of_pos_right (by linarith) h2).trans_le (succ_mul_zpow_le m e)
      have hle := (Int.zpow_le_iff_le_log one_lt_two hpos).1 hlow
      have hgt := (Int.lt_zpow_iff_log_lt one_lt_two hpos).1 hhigh
      omega
    rw [targetExponent_eq, lastPlace, hlog]
    omega

/-- Rounding gives the float nearest to the value, if the mantissa has digits enough. -/
theorem roundWithAccuracy_eq_nearest (s : Sign) (hr : r < d)
    (hpos : 0 < ((m : ℚ) + r / d) * 2 ^ e) (he : e ≤ lastPlace (((m : ℚ) + r / d) * 2 ^ e)) :
    roundWithAccuracy .binary64 s m e (accuracyOfFraction r d) =
      nearest s (((m : ℚ) + r / d) * 2 ^ e) := by
  have htarget := targetExponent_eq_lastPlace hr hpos he
  have hbound := roundEven_lastPlace_le hpos
  have hmin := le_lastPlace (((m : ℚ) + r / d) * 2 ^ e)
  have hscale : (((m : ℚ) + r / d) * 2 ^ e) / 2 ^ lastPlace (((m : ℚ) + r / d) * 2 ^ e) =
      ((m : ℚ) + r / d) / 2 ^ (lastPlace (((m : ℚ) + r / d) * 2 ^ e) - e).toNat := by
    rw [← zpow_natCast (2 : ℚ) (Int.toNat _), Int.toNat_of_nonneg (by omega),
      zpow_sub₀ two_ne_zero, div_div_eq_mul_div]
  generalize hv : ((m : ℚ) + r / d) * 2 ^ e = v at *
  have hfirst := (represents_accuracyOfFraction m hr).shiftRight (lastPlace v - e).toNat
  have hrounded := hfirst.roundedMantissa_eq
  rw [← hscale] at hrounded
  unfold roundWithAccuracy nearest
  rw [shiftToTargetExponent, htarget, shiftToExponent]
  simp only [hrounded, show e + ((lastPlace v - e).toNat : ℤ) = lastPlace v by omega,
    shiftToTargetExponent_of_le hbound hmin, ofSignificand]
  by_cases hcarry : roundEven (v / 2 ^ lastPlace v) = 2 ^ 53
  · simp only [hcarry, ↓reduceIte]
    rfl
  · simp only [hcarry, ↓reduceIte]

/-- The case without a remainder. -/
theorem roundWithAccuracy_exact (s : Sign) (hpos : 0 < v) (hv : (m : ℚ) * 2 ^ e = v)
    (he : e ≤ lastPlace v) : roundWithAccuracy .binary64 s m e .exact = nearest s v := by
  have hvalue : ((m : ℚ) + (0 : ℕ) / (1 : ℕ)) * 2 ^ e = v := by
    rw [Nat.cast_zero, zero_div, add_zero, hv]
  have hround := roundWithAccuracy_eq_nearest s Nat.zero_lt_one (hvalue.symm ▸ hpos)
    (hvalue.symm ▸ he)
  rwa [hvalue] at hround

end Argand.Rounding
