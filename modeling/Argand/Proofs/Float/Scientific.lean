-- SUMMARY: Decimals are rounded to the nearest float, by whatever way they are computed.
import Argand.Decimal
import Argand.Proofs.Float.Operations

/-!
# From decimals to floats

A decimal with few digits is rounded by one division or one multiplication of two floats that are
exact; the others are rounded in whole numbers, and powers of ten that are too large or too small
are not computed at all. Every way gives the float nearest to the exact value, so decimals of one
value read as one float.
-/
namespace Argand.Rounding

open Float.Model Float.Model.UnpackedFloat

/-! ## The ends of the range -/

theorem nearest_zero (s : Sign) : nearest s 0 = .zero s := by
  rw [nearest, zero_div, ← Nat.cast_zero, roundEven_natCast]
  rfl

/-- A value below half of the smallest float is rounded to zero. -/
theorem nearest_of_small (s : Sign) {v : ℚ} (hpos : 0 < v) (h : v < 2 ^ (-1075 : ℤ)) :
    nearest s v = .zero s := by
  have hlog : Int.log 2 v < -1075 :=
    (Int.lt_zpow_iff_log_lt one_lt_two hpos).1 (by rwa [Nat.cast_ofNat])
  have hplace : lastPlace v = -1074 := max_eq_right (by omega)
  have hhalf : v / 2 ^ (-1074 : ℤ) < 1 / 2 := by
    rw [div_lt_iff₀ (by positivity)]
    calc v < 2 ^ (-1075 : ℤ) := h
      _ = 1 / 2 * 2 ^ (-1074 : ℤ) := by
        rw [show (-1075 : ℤ) = -1 + -1074 by norm_num, zpow_add₀ two_ne_zero, zpow_neg_one, one_div]
  rw [nearest, hplace, roundEven_eq_zero hhalf]
  rfl

/-! ## In whole numbers -/

section

variable {m : ℕ} {e : ℤ}

theorem le_scientific_of_large (hm : 0 < m) (he : 2048 < e) :
    (2 : ℚ) ^ (1024 : ℤ) ≤ m * 10 ^ e := by
  calc (2 : ℚ) ^ (1024 : ℤ) ≤ 2 ^ e := zpow_le_zpow_right₀ one_le_two (by omega)
    _ ≤ 10 ^ e := zpow_le_zpow_left₀ (by omega) two_pos.le (by norm_num)
    _ ≤ m * 10 ^ e := le_mul_of_one_le_left (by positivity) (Nat.one_le_cast.2 hm)

theorem scientific_lt_of_small (he : e < -(2048 + m.log2)) :
    (m : ℚ) * 10 ^ e < 2 ^ (-1075 : ℤ) := by
  have hlog : (m : ℚ) < 2 ^ ((m.log2 : ℤ) + 1) := by exact_mod_cast Nat.lt_log2_self (n := m)
  have hten : (10 : ℚ) ^ e ≤ 2 ^ e := by
    rw [← neg_neg e, zpow_neg, zpow_neg (2 : ℚ)]
    refine inv_anti₀ (by positivity) ?_
    exact zpow_le_zpow_left₀ (by omega) two_pos.le (by norm_num)
  calc (m : ℚ) * 10 ^ e < 2 ^ ((m.log2 : ℤ) + 1) * 2 ^ e :=
        mul_lt_mul hlog hten (by positivity) (by positivity)
    _ = 2 ^ ((m.log2 : ℤ) + 1 + e) := (zpow_add₀ two_ne_zero _ _).symm
    _ ≤ 2 ^ (-1075 : ℤ) := zpow_le_zpow_right₀ one_le_two (by omega)

theorem mul_pow_ten (k : ℕ) (hm : 0 < m <<< 53) (hk : 0 < 10 ^ k) :
    UnpackedFloat.mul .binary64 (.finite .positive (m <<< 53) (-53) hm)
      (.finite .positive (10 ^ k) 0 hk) = nearest .positive (m * 10 ^ k) := by
  have hdigits : 2 ^ 52 ≤ m <<< 53 * 10 ^ k := by
    rw [Nat.shiftLeft_eq] at hm ⊢
    exact le_trans (by omega : 2 ^ 52 ≤ m * 2 ^ 53) (Nat.le_mul_of_pos_right _ hk)
  have hvalue : ((m <<< 53 : ℕ) : ℚ) * 2 ^ (-53 : ℤ) * ((10 ^ k : ℕ) * 2 ^ (0 : ℤ)) = m * 10 ^ k := by
    rw [Nat.shiftLeft_eq, zpow_neg, zpow_zero]
    push_cast
    field_simp
  rw [mul_eq_nearest _ _ hdigits, hvalue, show Sign.positive * .positive = .positive from rfl]

theorem div_pow_ten (k : ℕ) (hm : 0 < m) (hk : 0 < 10 ^ k) :
    UnpackedFloat.div .binary64 (.finite .positive m 0 hm) (.finite .positive (10 ^ k) 0 hk) =
      nearest .positive (m / 10 ^ k) := by
  rw [div_eq_nearest, zpow_zero, mul_one, mul_one, show Sign.positive / .positive = .positive from rfl,
    Nat.cast_pow, Nat.cast_ofNat]

/-- The general way rounds the exact value. -/
theorem ofScientific_eq_nearest (m : ℕ) (e : ℤ) :
    Float.Model.ofScientific m e = Float.Model.pack (nearest .positive (m * 10 ^ e)) := by
  unfold Float.Model.ofScientific UnpackedFloat.ofScientific
  split
  · next hm => rw [hm, Nat.cast_zero, zero_mul, nearest_zero]
  next hm =>
  have hpos : 0 < m := Nat.pos_of_ne_zero hm
  split
  · next hlarge => exact (pack_nearest_of_large .positive (le_scientific_of_large hpos hlarge)).symm
  split
  · next hsmall => rw [nearest_of_small .positive (by positivity) (scientific_lt_of_small hsmall)]
  split
  · next hnonneg =>
      obtain ⟨k, rfl⟩ := Int.eq_ofNat_of_zero_le hnonneg
      rw [zpow_natCast]
      exact congrArg _ (mul_pow_ten k _ _)
  · next hneg =>
      obtain ⟨k, rfl⟩ : ∃ k : ℕ, e = -k := ⟨(-e).toNat, by omega⟩
      rw [zpow_neg, zpow_natCast, ← div_eq_mul_inv, ← div_pow_ten k hpos (Nat.pow_pos (by decide))]
      simp only [neg_neg, Int.toNat_natCast]

end

/-! ## In floats -/

/-- The float is positive and has exactly the value `v`. -/
def IsExactly (x : Float) (v : ℚ) : Prop :=
  ∃ m q, ∃ h : Fits m q, x.toModel.unpack = .finite .positive m q h.pos ∧ m * 2 ^ q = v

/-- A float from one on uses all its digits. -/
theorem IsExactly.full {x : Float} {v : ℚ} (h : IsExactly x v) (hv : 1 ≤ v) :
    ∃ m q, ∃ hm : 0 < m, 2 ^ 52 ≤ m ∧ x.toModel.unpack = .finite .positive m q hm ∧ m * 2 ^ q = v := by
  obtain ⟨m, q, hfits, hx, rfl⟩ := h
  refine ⟨m, q, hfits.pos, ?_, hx, rfl⟩
  rcases hfits.full with hfull | rfl
  · exact hfull
  · have hlt : (m : ℚ) * 2 ^ (-1074 : ℤ) < 1 :=
      calc (m : ℚ) * 2 ^ (-1074 : ℤ) < 2 ^ (53 : ℤ) * 2 ^ (-1074 : ℤ) :=
            mul_lt_mul_of_pos_right (by exact_mod_cast hfits.lt) (by positivity)
        _ = 2 ^ (53 + -1074 : ℤ) := (zpow_add₀ two_ne_zero _ _).symm
        _ ≤ 1 := zpow_le_one_of_nonpos₀ one_le_two (by norm_num)
    exact absurd hv (not_le.2 hlt)

/-- Whole numbers with fifty-three binary digits are floats. -/
theorem isExactly_toFloat {m : ℕ} (hm : 0 < m) (h : m < 2 ^ 53) :
    IsExactly m.toUInt64.toFloat m := by
  have hlog : m.log2 < 53 := (Nat.log2_lt hm.ne').2 h
  -- The mantissa is shifted up until all digits are used.
  obtain ⟨k, hk⟩ : ∃ k, k = 52 - m.log2 := ⟨_, rfl⟩
  have hlow : 2 ^ 52 ≤ m * 2 ^ k := by
    calc 2 ^ 52 = 2 ^ m.log2 * 2 ^ k := by rw [← Nat.pow_add]; congr 1; omega
      _ ≤ m * 2 ^ k := Nat.mul_le_mul_right _ (Nat.log2_self_le hm.ne')
  have hhigh : m * 2 ^ k < 2 ^ 53 := by
    calc m * 2 ^ k < 2 ^ (m.log2 + 1) * 2 ^ k :=
          Nat.mul_lt_mul_of_pos_right Nat.lt_log2_self (Nat.two_pow_pos _)
      _ = 2 ^ 53 := by rw [← Nat.pow_add]; congr 1; omega
  have hfits : Fits (m * 2 ^ k) (-k) := ⟨by omega, hhigh, by omega, .inl hlow, by omega⟩
  have hvalue : ((m * 2 ^ k : ℕ) : ℚ) * 2 ^ (-k : ℤ) = m := by
    rw [zpow_neg, zpow_natCast]
    push_cast
    field_simp
  refine ⟨_, _, hfits, ?_, hvalue⟩
  have hround : UnpackedFloat.ofNat .binary64 m = .finite .positive (m * 2 ^ k) (-k) hfits.pos := by
    have hcompare : compare (m : ℤ) 0 = .gt := by
      rw [Int.compare_eq_gt]
      omega
    rw [← nearest_of_fits _ hfits, hvalue, UnpackedFloat.ofNat, UnpackedFloat.ofInt,
      UnpackedFloat.normalize, hcompare]
    exact (round_eq_nearest .positive hm 0).trans (by rw [zpow_zero, mul_one])
  have hsmall : m.toUInt64.toNat = m := by
    rw [Nat.toUInt64_eq, UInt64.toNat_ofNat']
    omega
  change (Float.Model.pack (UnpackedFloat.ofNat .binary64 m.toUInt64.toNat)).unpack = _
  rw [hsmall, hround]
  exact unpack_pack_of_fits .positive hfits

/-- Is the float positive, with exactly the value `n`? -/
def isWhole (n : ℕ) (x : Float) : Bool :=
  match x.toModel.unpack with
  | .finite .positive m q _ => m * 2 ^ q.toNat == n * 2 ^ (-q).toNat
  | _ => false

theorem isExactly_of_isWhole {n : ℕ} {x : Float} (h : isWhole n x = true) : IsExactly x n := by
  unfold isWhole at h
  split at h
  · next m q hm hx =>
      refine ⟨m, q, fits_of_unpack hx, hx, ?_⟩
      have hvalue : (m : ℚ) * 2 ^ (q.toNat : ℤ) = n * 2 ^ ((-q).toNat : ℤ) := by
        exact_mod_cast beq_iff_eq.1 h
      have hq : q = q.toNat - (-q).toNat := by omega
      rw [hq, zpow_sub₀ two_ne_zero, ← mul_div_assoc, hvalue, mul_div_cancel_right₀ _ (by positivity)]
  · contradiction

theorem isWhole_powersOfTen : ∀ k : Fin Float.exactlyRepresentablePowersOfTen.size,
    isWhole (10 ^ k.val) (Float.exactlyRepresentablePowersOfTen[k]) = true := by
  decide

variable {x y : Float} {v w : ℚ}

theorem mul_eq_ofModel (hx : IsExactly x v) (hv : 1 ≤ v) (hy : IsExactly y w) (hw : 1 ≤ w) :
    x * y = .ofModel (.pack (nearest .positive (v * w))) := by
  obtain ⟨m₁, q₁, h₁, hfull₁, hux, rfl⟩ := hx.full hv
  obtain ⟨m₂, q₂, h₂, hfull₂, huy, rfl⟩ := hy.full hw
  change Float.ofModel (.pack (UnpackedFloat.mul .binary64 x.toModel.unpack y.toModel.unpack)) = _
  rw [hux, huy, mul_eq_nearest _ _ (by nlinarith), show Sign.positive * .positive = .positive from rfl]

theorem div_eq_ofModel (hx : IsExactly x v) (hy : IsExactly y w) :
    x / y = .ofModel (.pack (nearest .positive (v / w))) := by
  obtain ⟨m₁, q₁, h₁, hux, rfl⟩ := hx
  obtain ⟨m₂, q₂, h₂, huy, rfl⟩ := hy
  change Float.ofModel (.pack (UnpackedFloat.div .binary64 x.toModel.unpack y.toModel.unpack)) = _
  rw [hux, huy, div_eq_nearest, show Sign.positive / .positive = .positive from rfl]

theorem unpack_toFloat_zero : (0 : ℕ).toUInt64.toFloat.toModel.unpack = .zero .positive := rfl

/-! ## Decimals -/

/-- The short way gives the float nearest to the exact value. -/
theorem short_eq_nearest {m k : ℕ} (h : m < 2 ^ 53) {x : Float} (hx : IsExactly x (10 ^ k : ℕ)) :
    m.toUInt64.toFloat * x = .ofModel (.pack (nearest .positive (m * 10 ^ (k : ℤ)))) ∧
      m.toUInt64.toFloat / x = .ofModel (.pack (nearest .positive (m * 10 ^ (-k : ℤ)))) := by
  have hten : ((10 ^ k : ℕ) : ℚ) = 10 ^ (k : ℤ) := by norm_cast
  have hone : (1 : ℚ) ≤ (10 ^ k : ℕ) := by exact_mod_cast Nat.pow_pos (by decide)
  rcases Nat.eq_zero_or_pos m with rfl | hm
  · obtain ⟨m', q, hfits, hux, -⟩ := hx
    rw [Nat.cast_zero, zero_mul, zero_mul, nearest_zero]
    constructor
    · change Float.ofModel (.pack (UnpackedFloat.mul .binary64 _ x.toModel.unpack)) = _
      rw [hux, unpack_toFloat_zero]
      rfl
    · change Float.ofModel (.pack (UnpackedFloat.div .binary64 _ x.toModel.unpack)) = _
      rw [hux, unpack_toFloat_zero]
      rfl
  · have hexact := isExactly_toFloat hm h
    constructor
    · rw [mul_eq_ofModel hexact (Nat.one_le_cast.2 hm) hx hone, hten]
    · rw [div_eq_ofModel hexact hx, hten, zpow_neg, div_eq_mul_inv]

theorem ofScientific_float (m : ℕ) (s : Bool) (k : ℕ) :
    Float.ofScientific m s k =
      .ofModel (.pack (nearest .positive (m * 10 ^ (if s then -(k : ℤ) else k)))) := by
  unfold Float.ofScientific
  split
  · next h =>
      have hten := isExactly_of_isWhole (isWhole_powersOfTen ⟨k, Nat.lt_succ_of_le h.2⟩)
      have hshort := short_eq_nearest h.1 hten
      cases s with
      | false => exact hshort.1
      | true => exact hshort.2
  · cases s with
    | false => exact congrArg _ (ofScientific_eq_nearest m k)
    | true => exact congrArg _ ((ofScientific_eq_nearest m _).trans (by rw [Int.negOfNat_eq]; rfl))

end Argand.Rounding

namespace Argand.Decimal

open Rounding

/-- The exact value. -/
def value (d : Decimal) : ℚ :=
  d.digits * 10 ^ d.exponent

/-- A decimal reads as the float nearest to its value. -/
theorem toFloat_eq_nearest (d : Decimal) :
    d.toFloat = .ofModel (.pack (nearest .positive d.value)) := by
  have hexponent : (if decide (d.exponent < 0) then -(d.exponent.natAbs : ℤ) else d.exponent.natAbs) =
      d.exponent := by
    simp only [decide_eq_true_eq]
    split <;> omega
  rw [toFloat, ofScientific_float, hexponent, value]

/-- Reading depends on the value alone. -/
theorem toFloat_congr {d d' : Decimal} (h : d.value = d'.value) : d.toFloat = d'.toFloat := by
  rw [toFloat_eq_nearest, toFloat_eq_nearest, h]

open Float.Model Float.Model.UnpackedFloat in
/-- The decimal that has the value of a float reads as that float. -/
theorem toFloat_of_value {d : Decimal} {x : Float} {m : ℕ} {q : ℤ} {hm : 0 < m}
    (hx : x.toModel.unpack = .finite .positive m q hm) (h : d.value = m * 2 ^ q) : d.toFloat = x := by
  rw [toFloat_eq_nearest, h, nearest_of_fits .positive (fits_of_unpack hx), ← hx, pack_unpack]

end Argand.Decimal
