-- SUMMARY: Magnitude and argument of complex numbers.
import Argand.Complex

/-!
# Polar form

The magnitude is the length of the hypotenuse, computed without overflow and with one correction of
the rounded square root, so its error stays below one unit in the last place. The argument is the
angle from the positive real axis, and on the real axis the sign of the zero imaginary part tells
from which side the cut is reached.
-/
namespace Argand

namespace Hypotenuse

/-- The float `2 ^ e`, for exponents of normal floats. -/
def powerOfTwo (e : Int) : Float :=
  Float.ofBits ((e + 1023).toNat <<< 52).toUInt64

/-- The hypotenuse for legs `0 ≤ b ≤ a` whose squares neither overflow nor vanish. The rounded
square root `h` is corrected by the error of `h * h`, which is computed from the difference between
`h` and one of the legs. -/
def corrected (a b : Float) : Float :=
  let h := (a * a + b * b).sqrt
  if h ≤ 2 * b then
    let d := h - b
    h - (a * (2 * d - a) + (d - 2 * (a - b)) * d) / (2 * h)
  else
    let d := h - a
    h - (2 * d * (a - 2 * b) + ((4 * d - b) * b + d * d)) / (2 * h)

/-- The hypotenuse for legs `0 ≤ b ≤ a`. A leg too small to count is added; very large and very
small legs are scaled by a power of two, which is exact. -/
def ofOrdered (a b : Float) : Float :=
  if powerOfTwo 511 < a then
    if b ≤ a * powerOfTwo (-54) then a + b
    else corrected (a * powerOfTwo (-600)) (b * powerOfTwo (-600)) / powerOfTwo (-600)
  else if b < powerOfTwo (-459) then
    if b / powerOfTwo (-54) ≤ a then a + b
    else corrected (a / powerOfTwo (-600)) (b / powerOfTwo (-600)) * powerOfTwo (-600)
  else if b ≤ a * powerOfTwo (-54) then a + b
  else corrected a b

/-- The length of the hypotenuse over legs of any sign. An infinite leg wins over one that is
not a number. -/
def length (x y : Float) : Float :=
  if x.isInf || y.isInf then powerOfTwo 1023 * 2
  else if x.isNaN || y.isNaN then x + y
  else if x.abs < y.abs then ofOrdered y.abs x.abs
  else ofOrdered x.abs y.abs

end Hypotenuse

namespace Angle

/-- The float nearest to the ratio of the circumference to the diameter. -/
def pi : Float := Float.ofBits 0x400921FB54442D18

/-- Is the sign bit set? -/
def isNegative (x : Float) : Bool :=
  decide (x.toBits ≥ 0x8000000000000000)

/-- The angle of the point `(x, y)` with `y` a zero: zero to the right of the origin and half a
turn to the left, with the sign of `y`. -/
def onAxis (y x : Float) : Float :=
  if x.isNaN then x
  else if !isNegative x then y
  else if isNegative y then -pi
  else pi

/-- The angle of the point `(x, y)` in radians. -/
def ofPoint (y x : Float) : Float :=
  if y == 0 then onAxis y x else Float.atan2 y x

end Angle

namespace Complex

/-- The magnitude. -/
def abs (z : Complex) : Complex :=
  ofReal (Hypotenuse.length z.re z.im)

/-- The principal argument in radians. -/
def arg (z : Complex) : Complex :=
  ofReal (Angle.ofPoint z.im z.re)

end Complex
end Argand
