-- SUMMARY: On the negative real axis the argument has the sign of the zero imaginary part.
import Argand.Proofs.Calc.Brackets

/-!
# The branch cut of the argument

On the negative real axis the argument is half a turn, and its sign is that of the zero imaginary
part, although both zeros are equal (`Complex.arg_of_zero`, `Complex.arg_of_neg_zero`). Negating a
number negates this zero, while the difference of zero and a number has no minus sign there. So a
positive expression that is negated and one that is subtracted from zero can lie on different sides
of the cut (`arg_on_cut`).
-/
namespace Argand

open Float.Model.UnpackedFloat Rounding

variable {x y : Float} {s : Sign} {z w : Complex}

/-! ## Angles of real numbers -/

theorem Angle.isNegative_iff (h : HasSign s x) : Angle.isNegative x = true ↔ s = .negative := by
  rw [← h.ofBitVec_unpackSign, unpackSign_eq_negative_iff, isNegative, decide_eq_true_eq]
  exact UInt64.le_iff_toNat_le

theorem Angle.ofPoint_of_negative (hx : HasSign .negative x) (hy : IsZero y) :
    Angle.ofPoint y x = if Angle.isNegative y then -Angle.pi else Angle.pi := by
  have hzero : (y == 0) = true := hy.beq isZero_zero
  have hnegative : Angle.isNegative x = true := (Angle.isNegative_iff hx).mpr rfl
  rw [ofPoint, if_pos hzero, onAxis, hx.isNaN, hnegative]
  rfl

namespace Complex

/-- Without minus sign on the zero, the argument is half a turn. -/
theorem arg_of_zero (hre : HasSign .negative z.re) (him : z.im = 0) :
    z.arg = .ofReal Angle.pi := by
  rw [arg, him, Angle.ofPoint_of_negative hre isZero_zero]
  rfl

/-- With a minus sign on the zero, the argument is half a turn backwards. -/
theorem arg_of_neg_zero (hre : HasSign .negative z.re) (him : z.im = -0) :
    z.arg = .ofReal (-Angle.pi) := by
  rw [arg, him, Angle.ofPoint_of_negative hre isZero_zero.neg]
  rfl

/-- Negating a positive number turns the sign of its zero. -/
theorem arg_neg (hre : HasSign .positive z.re) (him : IsZero z.im) :
    z.im = 0 ∧ (-z).arg = .ofReal (-Angle.pi) ∨ z.im = -0 ∧ (-z).arg = .ofReal Angle.pi := by
  have hneg : HasSign .negative (-z).re := hre.neg
  rcases him.eq_zero_or with him | him
  · exact .inl ⟨him, arg_of_neg_zero hneg (congrArg (- ·) him)⟩
  · exact .inr ⟨him, arg_of_zero hneg (congrArg (- ·) him)⟩

/-- Subtracting a positive number from zero gives a zero without minus sign. -/
theorem arg_zero_sub (hre : HasSign .positive z.re) (him : IsZero z.im) :
    (zero - z).arg = .ofReal Angle.pi := by
  have hsub : HasSign .negative (zero - z).re := by
    change HasSign .negative (0 - z.re)
    rw [hre.zero_sub]
    exact hre.neg
  exact arg_of_zero hsub him.zero_sub

end Complex

namespace Calc

variable {env : Bindings} {e : String}

/-! ## Lines -/

theorem evaluate_arg_neg (h : IsExpression env (Text.utf8Bytes e) w) :
    evaluate env ("arg(-(" ++ e ++ "))") = (.ok (-w).arg, env) := by
  have hbytes : Text.utf8Bytes ("arg(-(" ++ e ++ "))") =
      0x61 :: 0x72 :: 0x67 :: 0x28 :: (0x2D :: 0x28 :: (Text.utf8Bytes e ++ [0x29]) ++ [0x29]) := by
    simp only [Text.utf8Bytes_append, List.append_assoc, List.cons_append]
    rfl
  exact IsExpression.evaluate (hbytes ▸ h.neg.arg)

theorem evaluate_arg_zero_sub (h : IsExpression env (Text.utf8Bytes e) w) :
    evaluate env ("arg(0 - (" ++ e ++ "))") = (.ok (.zero - w).arg, env) := by
  have hbytes : Text.utf8Bytes ("arg(0 - (" ++ e ++ "))") = 0x61 :: 0x72 :: 0x67 :: 0x28 ::
      (0x30 :: 0x20 :: 0x2D :: 0x20 :: 0x28 :: (Text.utf8Bytes e ++ [0x29]) ++ [0x29]) := by
    simp only [Text.utf8Bytes_append, List.append_assoc, List.cons_append]
    rfl
  exact IsExpression.evaluate (hbytes ▸ h.zero_sub.arg)

/-- The literal `1` has a zero without minus sign. -/
theorem isExpression_one (env : Bindings) : IsExpression env (Text.utf8Bytes "1") .one := by
  have hvalue : Decimal.toFloat ⟨1, 0⟩ = 1 := by rfl
  have htokens : tokenize [0x31] =
      .ok ([⟨.number, .number (.ofReal (Decimal.toFloat ⟨1, 0⟩)), some ⟨0, 1⟩⟩] ++ [endToken 1]) :=
    rfl
  rw [hvalue] at htokens
  exact ⟨_, htokens, .expr (.term (.factor (.inner (.operand rfl))))⟩

/-- A number below zero on the real axis has half a turn as its argument, with the sign of its zero
imaginary part. For an expression with a positive real value, its value subtracted from zero has
half a turn without minus sign, and its value negated has it with minus sign exactly if the zero of
the value has none. -/
theorem arg_on_cut (env : Bindings) :
    (∀ z : Complex, z.re < 0 → (z.im == 0) = true →
      z.im = 0 ∧ z.arg = .ofReal Angle.pi ∨ z.im = -0 ∧ z.arg = .ofReal (-Angle.pi)) ∧
    ∀ (e : String) (w : Complex), (evaluate env e).1 = .ok w → lineTarget? e = none → 0 < w.re →
      (w.im == 0) = true →
      evaluate env ("arg(0 - (" ++ e ++ "))") = (.ok (.ofReal Angle.pi), env) ∧
        (w.im = 0 ∧ evaluate env ("arg(-(" ++ e ++ "))") = (.ok (.ofReal (-Angle.pi)), env) ∨
          w.im = -0 ∧ evaluate env ("arg(-(" ++ e ++ "))") = (.ok (.ofReal Angle.pi), env)) := by
  constructor
  · intro z hre him
    have hsign := hasSign_of_lt_zero hre
    rcases (isZero_of_beq_zero him).eq_zero_or with him | him
    · exact .inl ⟨him, Complex.arg_of_zero hsign him⟩
    · exact .inr ⟨him, Complex.arg_of_neg_zero hsign him⟩
  · intro e w hvalue htarget hre him
    have hexpression := isExpression_of_evaluate hvalue htarget
    have hsign := hasSign_of_zero_lt hre
    have hzero := isZero_of_beq_zero him
    rw [evaluate_arg_zero_sub hexpression, evaluate_arg_neg hexpression,
      Complex.arg_zero_sub hsign hzero]
    refine ⟨rfl, (Complex.arg_neg hsign hzero).imp ?_ ?_⟩
    · rintro ⟨hw, harg⟩
      exact ⟨hw, by rw [harg]⟩
    · rintro ⟨hw, harg⟩
      exact ⟨hw, by rw [harg]⟩

/-- At `-1` with a zero with minus sign, and for the literal `1`. -/
theorem arg_on_cut_one :
    ((-1 : Float) < 0 ∧ ((-0 : Float) == 0) = true ∧
      (⟨-1, -0⟩ : Complex).arg = .ofReal (-Angle.pi)) ∧
    ((evaluate .empty "1").1 = .ok .one ∧ lineTarget? "1" = none ∧ 0 < Complex.one.re ∧
      (Complex.one.im == 0) = true ∧
      evaluate .empty "arg(0 - (1))" = (.ok (.ofReal Angle.pi), .empty) ∧
      evaluate .empty "arg(-(1))" = (.ok (.ofReal (-Angle.pi)), .empty)) := by
  have hbelow : (-1 : Float) < 0 := by decide
  have hequal : ((-0 : Float) == 0) = true := by decide
  have hvalue : (evaluate .empty "1").1 = .ok .one := by rw [(isExpression_one .empty).evaluate]
  have htarget : lineTarget? "1" = none := rfl
  have hpositive : 0 < Complex.one.re := by decide
  have hzero : (Complex.one.im == 0) = true := by decide
  obtain ⟨hz, hlines⟩ := arg_on_cut .empty
  obtain ⟨hsub, hneg⟩ := hlines "1" .one hvalue htarget hpositive hzero
  refine ⟨⟨hbelow, hequal, ?_⟩, hvalue, htarget, hpositive, hzero, hsub, ?_⟩
  · rcases hz ⟨-1, -0⟩ hbelow hequal with ⟨him, -⟩ | ⟨-, harg⟩
    · exact absurd him (by decide)
    · exact harg
  · rcases hneg with ⟨-, hline⟩ | ⟨him, -⟩
    · exact hline
    · exact absurd him (by decide)

/-- One negated lies on the other side of the cut than one subtracted from zero, and its argument is
half a turn backwards. -/
theorem arg_neg_one_ne :
    Complex.one.neg.re < 0 ∧ (Complex.one.neg.im == 0) = true ∧
      evaluate .empty "arg(-(1))" = (.ok (.ofReal (-Angle.pi)), .empty) ∧
      evaluate .empty "arg(0 - (1))" = (.ok (.ofReal Angle.pi), .empty) ∧
      (-Angle.pi == Angle.pi) = false := by
  have hsign : HasSign .positive Complex.one.re := hasSign_of_zero_lt (by decide)
  have hbelow : HasSign .negative (-Complex.one).re := hsign.neg
  have hneg := evaluate_arg_neg (isExpression_one .empty)
  have hsub := evaluate_arg_zero_sub (isExpression_one .empty)
  rw [Complex.arg_of_neg_zero hbelow rfl] at hneg
  rw [Complex.arg_zero_sub hsign isZero_zero] at hsub
  exact ⟨by decide, by decide, hneg, hsub, by decide⟩

end Calc
end Argand
