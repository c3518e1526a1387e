-- SUMMARY: Packed floats, and products and quotients as rounded values.
import Argand.Proofs.Float.Rounding

/-!
# Operations on floats

What a float unpacks to has either all fifty-three digits or the smallest exponent. Such numbers
survive packing, and each is the one nearest to its own value. Products and quotients are the floats
nearest to the exact product and quotient.
-/
namespace Argand.Rounding

open Float.Model Float.Model.UnpackedFloat

/-! ## Packing -/

/-- The mantissas and exponents that floats have: all digits are used, unless the exponent is the
smallest there is. -/
structure Fits (m : ℕ) (q : ℤ) : Prop where
  pos : 0 < m
  lt : m < 2 ^ 53
  le : -1074 ≤ q
  full : 2 ^ 52 ≤ m ∨ q = -1074
  inRange : q ≤ 971

variable {m : ℕ} {q : ℤ}

theorem toNat_one_append {w : ℕ} (b : BitVec w) : (1#1 ++ b).toNat = 2 ^ w + b.toNat := by
  rw [BitVec.toNat_append, ← Nat.shiftLeft_add_eq_or_of_lt b.isLt, BitVec.toNat_ofNat,
    Nat.shiftLeft_eq, Nat.one_mod_eq_one.2 (by decide), Nat.one_mul]

/-- The float with the given sign, exponent field and mantissa field. -/
theorem unpack_packComponents (s : Sign) (E : BitVec 11) (M : BitVec 52) :
    UnpackedFloat.unpack .binary64 (packComponents .binary64 s E M) =
      if E.toNat = 2047 then if M.toNat = 0 then .infinity s else .notANumber
      else if E.toNat = 0 then
        if h : M.toNat = 0 then .zero s else .finite s M.toNat (-1074) (Nat.pos_of_ne_zero h)
      else .finite s (2 ^ 52 + M.toNat) (E.toNat - 1075) (by omega) := by
  have hmax : E = -1#11 ↔ E.toNat = 2047 := BitVec.toNat_inj.symm
  have hzero : E = 0#11 ↔ E.toNat = 0 := BitVec.toNat_inj.symm
  have hnone : M = 0#52 ↔ M.toNat = 0 := BitVec.toNat_inj.symm
  have hbias : ((Format.binary64.exponentBias : ℤ) + Format.binary64.mantissaBitsWithoutImplicit) =
      1075 := rfl
  unfold UnpackedFloat.unpack
  simp only [unpackExponent_packComponents, unpackSign_packComponents,
    unpackMantissa_packComponents, Sign.ofBitVec_toBitVec, toNat_one_append, hmax, hzero, hnone,
    hbias]
  split
  · rfl
  · split
    · next h => simp only [h, Int.natCast_zero, Int.reduceSub, Int.reduceAdd]
    · rfl

theorem pack_finite (s : Sign) (hm : 0 < m) :
    UnpackedFloat.pack .binary64 (.finite s m q hm) =
      if 2048 ≤ (q + 1023 + 52).toNat + 1 then packedInfinity .binary64 s
      else if m.log2 + 1 = 53 then
        packComponents .binary64 s (.ofNat 11 (q + 1023 + 52).toNat) (.ofNat 52 m)
      else packComponents .binary64 s (0#11) (.ofNat 52 m) := rfl

/-- What a finite float unpacks to fits. -/
theorem fits_of_unpack {x : Float.Model} {s : Sign} {hm : 0 < m}
    (h : x.unpack = .finite s m q hm) : Fits m q := by
  unfold Float.Model.unpack at h
  rw [← @packComponents_unpackSign_unpackExponent_unpackMantissa .binary64 x.toBits.toBitVec,
    unpack_packComponents] at h
  generalize @unpackMantissa .binary64 x.toBits.toBitVec = M at h
  generalize @unpackExponent .binary64 x.toBits.toBitVec = E at h
  have hmant : M.toNat < 2 ^ 52 := M.isLt
  have hexp : E.toNat < 2 ^ 11 := E.isLt
  split_ifs at h with hmax hnone hzero hnone <;> injection h with _ hmantissa hexponent
  · exact ⟨hm, by omega, by omega, .inr hexponent.symm, by omega⟩
  · exact ⟨hm, by omega, by omega, .inl (by omega), by omega⟩

/-- Packing keeps what fits. -/
theorem unpack_pack_of_fits (s : Sign) (h : Fits m q) :
    (Float.Model.pack (.finite s m q h.pos)).unpack = .finite s m q h.pos := by
  obtain ⟨hpos, hlt, hle, hfull, hrange⟩ := h
  change UnpackedFloat.unpack .binary64 (UnpackedFloat.pack .binary64 _) = _
  rw [pack_finite, if_neg (by omega)]
  split
  · next hbits =>
      have hlow : 2 ^ 52 ≤ m := (Nat.le_log2 hpos.ne').1 (by omega)
      rw [unpack_packComponents, if_neg (by rw [BitVec.toNat_ofNat]; omega),
        if_neg (by rw [BitVec.toNat_ofNat]; omega)]
      simp only [BitVec.toNat_ofNat]
      congr 1 <;> omega
  · next hbits =>
      have hlog : m.log2 < 52 := by
        have := (Nat.log2_lt hpos.ne').2 hlt
        omega
      have hhigh : m < 2 ^ 52 := (Nat.log2_lt hpos.ne').1 hlog
      rw [unpack_packComponents, if_neg (by decide), if_pos BitVec.toNat_zero,
        dif_neg (by rw [BitVec.toNat_ofNat]; omega)]
      simp only [BitVec.toNat_ofNat]
      congr 1 <;> omega

theorem pack_unpack (x : Float.Model) : Float.Model.pack x.unpack = x := by
  obtain ⟨bits, hvalid⟩ := x
  simp only [Float.Model.pack, Float.Model.unpack, pack_unpack_of_valid hvalid]

theorem pack_of_large (s : Sign) (hm : 0 < m) (hq : 972 ≤ q) :
    Float.Model.pack (.finite s m q hm) = Float.Model.pack (.infinity s) := by
  have hbits : UnpackedFloat.pack .binary64 (.finite s m q hm) =
      UnpackedFloat.pack .binary64 (.infinity s) := by
    rw [pack_finite, if_pos (by omega)]
    rfl
  simp only [Float.Model.pack, hbits]

/-- A value from `2 ^ 1024` on is packed as infinity. -/
theorem pack_nearest_of_large (s : Sign) {v : ℚ} (h : 2 ^ (1024 : ℤ) ≤ v) :
    Float.Model.pack (nearest s v) = Float.Model.pack (.infinity s) := by
  have hpos : 0 < v := lt_of_lt_of_le (by positivity) h
  have hlog : 1024 ≤ Int.log 2 v :=
    (Int.zpow_le_iff_le_log one_lt_two hpos).1 (by rwa [Nat.cast_ofNat])
  have hplace : lastPlace v = Int.log 2 v - 52 := max_eq_left (by omega)
  have hone : 1 ≤ v / 2 ^ lastPlace v := by
    rw [one_le_div (by positivity)]
    calc (2 : ℚ) ^ lastPlace v ≤ 2 ^ Int.log 2 v := zpow_le_zpow_right₀ one_le_two (by omega)
      _ ≤ v := by exact_mod_cast Int.zpow_log_le_self one_lt_two hpos
  have hn : roundEven (v / 2 ^ lastPlace v) ≠ 0 :=
    Nat.pos_iff_ne_zero.1 ((Nat.floor_pos.2 hone).trans_le (floor_le_roundEven _))
  unfold nearest ofSignificand
  rw [dif_neg hn]
  split
  · exact pack_of_large s _ (by omega)
  · exact pack_of_large s _ (by omega)

/-! ## Values of floats -/

/-- What fits is nearest to its own value. -/
theorem nearest_of_fits (s : Sign) (h : Fits m q) :
    nearest s (m * 2 ^ q) = .finite s m q h.pos := by
  have hpos : (0 : ℚ) < m * 2 ^ q := mul_pos (Nat.cast_pos.2 h.pos) (by positivity)
  have hplace : lastPlace (m * 2 ^ q) = q := by
    have hhigh : Int.log 2 ((m : ℚ) * 2 ^ q) < 53 + q := by
      rw [← Int.lt_zpow_iff_log_lt one_lt_two hpos, Nat.cast_ofNat, zpow_add₀ two_ne_zero]
      exact mul_lt_mul_of_pos_right (by exact_mod_cast h.lt) (by positivity)
    have hlow : 2 ^ 52 ≤ m → 52 + q ≤ Int.log 2 ((m : ℚ) * 2 ^ q) := by
      intro hfull
      rw [← Int.zpow_le_iff_le_log one_lt_two hpos, Nat.cast_ofNat, zpow_add₀ two_ne_zero]
      exact mul_le_mul_of_nonneg_right (by exact_mod_cast hfull) (by positivity)
    have := h.le
    unfold lastPlace
    rcases h.full with hfull | hsmallest
    · have := hlow hfull
      omega
    · omega
  unfold nearest ofSignificand
  rw [hplace, mul_div_cancel_right₀ _ (by positivity), roundEven_natCast]
  rw [dif_neg h.pos.ne', if_neg h.lt.ne]

variable {m₁ m₂ : ℕ} {e₁ e₂ : ℤ} {h₁ : 0 < m₁} {h₂ : 0 < m₂}

/-- A product of numbers with digits enough is the float nearest to the exact product. -/
theorem mul_eq_nearest (s₁ s₂ : Sign) (hdigits : 2 ^ 52 ≤ m₁ * m₂) :
    UnpackedFloat.mul .binary64 (.finite s₁ m₁ e₁ h₁) (.finite s₂ m₂ e₂ h₂) =
      nearest (s₁ * s₂) (m₁ * 2 ^ e₁ * (m₂ * 2 ^ e₂)) := by
  have hpos : (0 : ℚ) < m₁ * 2 ^ e₁ * (m₂ * 2 ^ e₂) := by positivity
  have hvalue : ((m₁ * m₂ : ℕ) : ℚ) * 2 ^ (e₁ + e₂) = m₁ * 2 ^ e₁ * (m₂ * 2 ^ e₂) := by
    rw [zpow_add₀ two_ne_zero, Nat.cast_mul]
    ring
  refine roundWithAccuracy_exact (s₁ * s₂) hpos hvalue (le_max_of_le_left (le_sub_iff_add_le.2 ?_))
  rw [← Int.zpow_le_iff_le_log one_lt_two hpos, ← hvalue, Nat.cast_ofNat, add_comm,
    zpow_add₀ two_ne_zero]
  exact mul_le_mul_of_nonneg_right (by exact_mod_cast hdigits) (by positivity)

theorem cast_shiftLeft_mul_zpow (m k : ℕ) (e : ℤ) :
    ((m <<< k : ℕ) : ℚ) * 2 ^ e = m * 2 ^ (k + e) := by
  rw [Nat.shiftLeft_eq, Nat.cast_mul, Nat.cast_pow, Nat.cast_ofNat, ← zpow_natCast, mul_assoc,
    ← zpow_add₀ two_ne_zero]

/-- A whole number of units, of whatever size, is rounded to the float nearest to it. -/
theorem round_eq_nearest (s : Sign) (hm : 0 < m) (e : ℤ) :
    UnpackedFloat.round .binary64 s m e = nearest s (m * 2 ^ e) := by
  have hpos : (0 : ℚ) < m * 2 ^ e := by positivity
  have hlog : totalExponent m e - 1 ≤ Int.log 2 ((m : ℚ) * 2 ^ e) := by
    rw [← Int.zpow_le_iff_le_log one_lt_two hpos, Nat.cast_ofNat]
    exact zpow_log2_le hm e
  unfold UnpackedFloat.round decreaseExponent
  rw [targetExponent_eq]
  refine roundWithAccuracy_exact s hpos ?_ ?_
  · rw [cast_shiftLeft_mul_zpow]
    congr 2
    omega
  · unfold lastPlace
    omega

/-- A quotient is the float nearest to the exact quotient. -/
theorem div_eq_nearest (s₁ s₂ : Sign) :
    UnpackedFloat.div .binary64 (.finite s₁ m₁ e₁ h₁) (.finite s₂ m₂ e₂ h₂) =
      nearest (s₁ / s₂) (m₁ * 2 ^ e₁ / (m₂ * 2 ^ e₂)) := by
  have hpos : (0 : ℚ) < m₁ * 2 ^ e₁ / (m₂ * 2 ^ e₂) := by positivity
  have hdivisor : (m₂ : ℚ) * 2 ^ e₂ ≤ 2 ^ totalExponent m₂ e₂ :=
    (mul_le_mul_of_nonneg_right (by linarith) (by positivity)).trans (succ_mul_zpow_le m₂ e₂)
  -- The dividend is shifted far enough for the quotient to reach the last place.
  have hlog : totalExponent m₁ e₁ - totalExponent m₂ e₂ - 1 ≤
      Int.log 2 ((m₁ : ℚ) * 2 ^ e₁ / (m₂ * 2 ^ e₂)) := by
    rw [← Int.zpow_le_iff_le_log one_lt_two hpos, Nat.cast_ofNat, le_div_iff₀ (by positivity)]
    calc (2 : ℚ) ^ (totalExponent m₁ e₁ - totalExponent m₂ e₂ - 1) * (m₂ * 2 ^ e₂)
        ≤ 2 ^ (totalExponent m₁ e₁ - totalExponent m₂ e₂ - 1) * 2 ^ totalExponent m₂ e₂ :=
          mul_le_mul_of_nonneg_left hdivisor (by positivity)
      _ = 2 ^ (totalExponent m₁ e₁ - 1) := by
          rw [← zpow_add₀ two_ne_zero]
          congr 1
          omega
      _ ≤ m₁ * 2 ^ e₁ := zpow_log2_le h₁ e₁
  simp only [UnpackedFloat.div, divCore]
  generalize ht : min (e₁ - e₂) (Format.binary64.targetExponent
    (totalExponent m₁ e₁ - totalExponent m₂ e₂)) = t
  rw [targetExponent_eq] at ht
  have hvalue : (((m₁ <<< (e₁ - e₂ - t).toNat / m₂ : ℕ) : ℚ) +
      ((m₁ <<< (e₁ - e₂ - t).toNat % m₂ : ℕ) : ℚ) / m₂) * 2 ^ t = m₁ * 2 ^ e₁ / (m₂ * 2 ^ e₂) := by
    have hm₂ : (m₂ : ℚ) ≠ 0 := Nat.cast_ne_zero.2 h₂.ne'
    have hdivmod := congrArg (Nat.cast (R := ℚ))
      (Nat.div_add_mod (m₁ <<< (e₁ - e₂ - t).toNat) m₂)
    have hshift : ((m₁ <<< (e₁ - e₂ - t).toNat : ℕ) : ℚ) * 2 ^ t * 2 ^ e₂ = m₁ * 2 ^ e₁ := by
      rw [cast_shiftLeft_mul_zpow, mul_assoc, ← zpow_add₀ two_ne_zero]
      congr 2
      omega
    rw [eq_div_iff (by positivity), ← hshift, ← hdivmod]
    push_cast
    field_simp
  rw [← hvalue] at hpos hlog ⊢
  refine roundWithAccuracy_eq_nearest (s₁ / s₂) (Nat.mod_lt _ h₂) hpos ?_
  unfold lastPlace
  omega

end Argand.Rounding
