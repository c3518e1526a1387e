-- SUMMARY: Complex numbers with float components and their arithmetic.

/-!
# Complex numbers

A complex number is a pair of floats. Every operation is componentwise float arithmetic in a fixed
order, so results agree to the last bit. Division by zero is no error: it divides through and gives
infinities or not-a-number. Magnitude, squared magnitude and argument are complex numbers with zero
imaginary part.
-/
namespace Argand

structure Complex where
  re : Float
  im : Float
deriving Inhabited

namespace Complex

/-! ## Constants -/

/-- The complex number on the real axis. -/
def ofReal (x : Float) : Complex := ⟨x, 0⟩

/-- The complex number on the imaginary axis. -/
def ofImaginary (y : Float) : Complex := ⟨0, y⟩

def zero : Complex := ⟨0, 0⟩

def one : Complex := ofReal 1

/-- The imaginary unit. -/
def i : Complex := ofImaginary 1

/-! ## Arithmetic -/

def add (z w : Complex) : Complex :=
  ⟨z.re + w.re, z.im + w.im⟩

def sub (z w : Complex) : Complex :=
  ⟨z.re - w.re, z.im - w.im⟩

def mul (z w : Complex) : Complex :=
  ⟨z.re * w.re - z.im * w.im, z.re * w.im + z.im * w.re⟩

def neg (z : Complex) : Complex :=
  ⟨-z.re, -z.im⟩

/-- The reflection in the real axis. -/
def conj (z : Complex) : Complex :=
  ⟨z.re, -z.im⟩

/-- The squared magnitude as a float. -/
def normSq (z : Complex) : Float :=
  z.re * z.re + z.im * z.im

/-- Multiply by the conjugate of the divisor, then divide both components by its squared
magnitude, also if that is zero. -/
def div (z w : Complex) : Complex :=
  let n := z.mul w.conj
  ⟨n.re / w.normSq, n.im / w.normSq⟩

/-- The squared magnitude. -/
def norm (z : Complex) : Complex :=
  ofReal z.normSq

instance : Add Complex := ⟨add⟩

instance : Sub Complex := ⟨sub⟩

instance : Mul Complex := ⟨mul⟩

instance : Div Complex := ⟨div⟩

instance : Neg Complex := ⟨neg⟩

/-- Equality of floats in both components: the zeros are equal, and not-a-number equals nothing. -/
instance : BEq Complex := ⟨fun z w => z.re == w.re && z.im == w.im⟩

end Complex
end Argand
