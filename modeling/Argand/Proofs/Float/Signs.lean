-- SUMMARY: Signs and zeros of floats: magnitudes, negation, adding a zero, and comparing with zero.
import Argand.Proofs.Float.Operations

/-!
# Signs and zeros

There are two zeros, which are equal. A finite float that is no zero is its magnitude with its sign,
and adding a zero of either sign leaves it as it is. A float below or above zero has a sign
(`HasSign`), which its sign bit shows; negating it and subtracting it from zero are the same, while
the difference of zero and a zero has no minus sign (`IsZero.zero_sub`).
-/
namespace Argand.Rounding

open Float.Model Float.Model.UnpackedFloat

variable {x y : Float} {s : Sign} {m : ℕ} {q : ℤ} {hm : 0 < m}

theorem eq_of_unpack_eq (h : x.toModel.unpack = y.toModel.unpack) : x = y := by
  have hmodel := congrArg Float.Model.pack h
  rw [pack_unpack, pack_unpack] at hmodel
  exact congrArg Float.ofModel hmodel

/-! ## Zeros -/

/-- The float is one of the two zeros. -/
def IsZero (x : Float) : Prop :=
  ∃ s, x.toModel.unpack = .zero s

theorem unpack_pack_zero (s : Sign) : (Float.Model.pack (.zero s)).unpack = .zero s := by
  cases s <;> rfl

theorem isZero_zero : IsZero 0 :=
  ⟨.positive, by rfl⟩

theorem IsZero.neg (h : IsZero x) : IsZero (-x) := by
  obtain ⟨s, hx⟩ := h
  refine ⟨-s, ?_⟩
  change (Float.Model.pack x.toModel.unpack.neg).unpack = _
  rw [hx]
  exact unpack_pack_zero (-s)

theorem IsZero.beq (hx : IsZero x) (hy : IsZero y) : (x == y) = true := by
  obtain ⟨s, hx⟩ := hx
  obtain ⟨t, hy⟩ := hy
  change x.toModel.unpack.beq y.toModel.unpack = true
  rw [hx, hy]
  rfl

theorem IsZero.eq_zero_or (h : IsZero x) : x = 0 ∨ x = -0 := by
  obtain ⟨s, hx⟩ := h
  cases s with
  | positive => exact .inl (eq_of_unpack_eq hx)
  | negative => exact .inr (eq_of_unpack_eq hx)

/-- Zero less a zero is the zero without minus sign, whatever sign the other has. -/
theorem IsZero.zero_sub (h : IsZero x) : 0 - x = 0 := by
  rcases h.eq_zero_or with rfl | rfl <;> rfl

/-- A finite float is a zero, or it has a sign, a mantissa and an exponent. -/
theorem finite_cases (h : x.isFinite = true) :
    IsZero x ∨ ∃ s m q, ∃ hm : 0 < m, x.toModel.unpack = .finite s m q hm := by
  change x.toModel.unpack.isFinite = true at h
  match hx : x.toModel.unpack with
  | .zero s => exact .inl ⟨s, hx⟩
  | .finite s m q hm => exact .inr ⟨s, m, q, hm, rfl⟩
  | .infinity s => rw [hx] at h; cases h
  | .notANumber => rw [hx] at h; cases h

theorem beq_zero_of_finite (hx : x.toModel.unpack = .finite s m q hm) : (x == 0) = false := by
  obtain ⟨t, hzero⟩ := isZero_zero
  change x.toModel.unpack.beq (0 : Float).toModel.unpack = false
  rw [hx, hzero]
  cases s <;> rfl

/-- A float with a mantissa equals itself. -/
theorem beq_self_of_finite (hx : x.toModel.unpack = .finite s m q hm) : (x == x) = true := by
  rw [Float.beq_self_iff]
  rintro rfl
  cases hx

/-! ## Sums with a zero -/

theorem add_of_isZero (hx : x.toModel.unpack = .finite s m q hm) (hy : IsZero y) : x + y = x := by
  obtain ⟨t, hy⟩ := hy
  change Float.ofModel (.pack (UnpackedFloat.add .binary64 x.toModel.unpack y.toModel.unpack)) = x
  have hadd : UnpackedFloat.add .binary64 (.finite s m q hm) (.zero t) = .finite s m q hm := rfl
  rw [hy, hx, hadd, ← hx, pack_unpack]

theorem add_isZero_left (hx : IsZero x) (hy : y.toModel.unpack = .finite s m q hm) : x + y = y := by
  obtain ⟨t, hx⟩ := hx
  change Float.ofModel (.pack (UnpackedFloat.add .binary64 x.toModel.unpack y.toModel.unpack)) = y
  have hadd : UnpackedFloat.add .binary64 (.zero t) (.finite s m q hm) = .finite s m q hm := rfl
  rw [hx, hy, hadd, ← hy, pack_unpack]

/-! ## Positive and negative floats -/

/-- The float is infinite or a finite one other than the zeros, with this sign. -/
def HasSign (s : Sign) (x : Float) : Prop :=
  x.toModel.unpack = .infinity s ∨ ∃ m q, ∃ hm : 0 < m, x.toModel.unpack = .finite s m q hm

theorem unpack_cases (x : Float) :
    x.toModel.unpack = .notANumber ∨ IsZero x ∨ ∃ s, HasSign s x := by
  cases hx : x.toModel.unpack with
  | notANumber => exact .inl rfl
  | zero s => exact .inr (.inl ⟨s, hx⟩)
  | infinity s => exact .inr (.inr ⟨s, .inl hx⟩)
  | finite s m q hm => exact .inr (.inr ⟨s, .inr ⟨m, q, hm, hx⟩⟩)

theorem HasSign.compare_zero (h : HasSign s x) :
    x.toModel.unpack.compare (0 : Float).toModel.unpack =
      some (match s with | .negative => .lt | .positive => .gt) := by
  change x.toModel.unpack.compare (.zero .positive) = _
  obtain hx | ⟨m, q, hm, hx⟩ := h <;> simp only [hx] <;> cases s <;> rfl

theorem HasSign.zero_compare (h : HasSign s x) :
    (0 : Float).toModel.unpack.compare x.toModel.unpack =
      some (match s with | .negative => .gt | .positive => .lt) := by
  change UnpackedFloat.compare (.zero .positive) x.toModel.unpack = _
  obtain hx | ⟨m, q, hm, hx⟩ := h <;> simp only [hx] <;> cases s <;> rfl

/-- Only the zeros equal zero. -/
theorem isZero_of_beq_zero (h : (x == 0) = true) : IsZero x := by
  replace h : x.toModel.unpack.compare (0 : Float).toModel.unpack = some .eq := eq_of_beq h
  rcases unpack_cases x with hx | hx | ⟨s, hx⟩
  · rw [hx] at h
    cases h
  · exact hx
  · rw [hx.compare_zero] at h
    cases s <;> cases h

theorem hasSign_of_lt_zero (h : x < 0) : HasSign .negative x := by
  replace h : x.toModel.unpack.compare (0 : Float).toModel.unpack = some .lt :=
    eq_of_beq (of_decide_eq_true h)
  rcases unpack_cases x with hx | ⟨s, hx⟩ | ⟨s, hx⟩
  · rw [hx] at h
    cases h
  · rw [hx] at h
    cases h
  · rw [hx.compare_zero] at h
    cases s with
    | negative => exact hx
    | positive => cases h

theorem hasSign_of_zero_lt (h : 0 < x) : HasSign .positive x := by
  replace h : (0 : Float).toModel.unpack.compare x.toModel.unpack = some .lt :=
    eq_of_beq (of_decide_eq_true h)
  rcases unpack_cases x with hx | ⟨s, hx⟩ | ⟨s, hx⟩
  · rw [hx] at h
    cases h
  · rw [hx] at h
    cases h
  · rw [hx.zero_compare] at h
    cases s with
    | negative => cases h
    | positive => exact hx

theorem HasSign.isNaN (h : HasSign s x) : x.isNaN = false := by
  change x.toModel.unpack.isNaN = false
  obtain hx | ⟨m, q, hm, hx⟩ := h <;> rw [hx] <;> rfl

theorem HasSign.neg (h : HasSign s x) : HasSign (-s) (-x) := by
  have hunpack : (-x).toModel.unpack = (Float.Model.pack x.toModel.unpack.neg).unpack := rfl
  obtain hx | ⟨m, q, hm, hx⟩ := h
  · refine .inl ?_
    rw [hunpack, hx]
    cases s <;> rfl
  · refine .inr ⟨m, q, hm, ?_⟩
    rw [hunpack, hx]
    exact unpack_pack_of_fits (-s) (fits_of_unpack hx)

/-- Subtracting from zero is negating, but for the zeros. -/
theorem HasSign.zero_sub (h : HasSign s x) : 0 - x = -x := by
  change Float.ofModel (.pack (UnpackedFloat.sub .binary64 (.zero .positive) x.toModel.unpack)) =
    Float.ofModel (.pack x.toModel.unpack.neg)
  obtain hx | ⟨m, q, hm, hx⟩ := h <;> rw [hx] <;> rfl

/-! ## The sign bit -/

/-- A set sign bit is the minus sign. -/
theorem unpackSign_eq_negative_iff (b : BitVec 64) :
    Sign.ofBitVec (@unpackSign .binary64 b) = .negative ↔ 2 ^ 63 ≤ b.toNat := by
  have hbit : (@unpackSign .binary64 b).toNat = b.toNat / 2 ^ 63 := by
    change (b.extractLsb 63 63).toNat = _
    rw [BitVec.extractLsb_toNat, Nat.shiftRight_eq_div_pow]
    have := b.isLt
    omega
  have hzero : @unpackSign .binary64 b = 0#1 ↔ b.toNat / 2 ^ 63 = 0 := by
    rw [← hbit, ← BitVec.toNat_inj, BitVec.toNat_zero]
  rw [Sign.ofBitVec]
  simp only [hzero]
  split
  · simp only [reduceCtorEq, false_iff]
    omega
  · simp only [true_iff]
    omega

/-- The sign bit shows the sign. -/
theorem HasSign.ofBitVec_unpackSign (h : HasSign s x) :
    Sign.ofBitVec (@unpackSign .binary64 x.toModel.toBits.toBitVec) = s := by
  unfold HasSign Float.Model.unpack at h
  rw [← @packComponents_unpackSign_unpackExponent_unpackMantissa .binary64
    x.toModel.toBits.toBitVec, unpack_packComponents] at h
  generalize @unpackMantissa .binary64 x.toModel.toBits.toBitVec = M at h
  generalize @unpackExponent .binary64 x.toModel.toBits.toBitVec = E at h
  rcases h with h | ⟨m, q, hm, h⟩ <;> split_ifs at h <;> injection h

/-! ## Magnitudes -/

theorem unpack_abs (hx : x.toModel.unpack = .finite s m q hm) :
    x.abs.toModel.unpack = .finite .positive m q hm := by
  change (Float.Model.pack x.toModel.unpack.abs).unpack = _
  rw [hx]
  exact unpack_pack_of_fits .positive (fits_of_unpack hx)

/-- A positive float is its magnitude. -/
theorem abs_eq_self (hx : x.toModel.unpack = .finite .positive m q hm) : x.abs = x :=
  eq_of_unpack_eq ((unpack_abs hx).trans hx.symm)

/-- A negative float is its magnitude negated. -/
theorem neg_abs_eq_self (hx : x.toModel.unpack = .finite .negative m q hm) : -x.abs = x := by
  change Float.ofModel (.pack x.abs.toModel.unpack.neg) = x
  rw [unpack_abs hx, UnpackedFloat.neg, show -Sign.positive = .negative from rfl, ← hx, pack_unpack]

end Argand.Rounding
