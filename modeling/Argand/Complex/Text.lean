-- SUMMARY: The canonical text of complex numbers.
import Argand.Complex
import Argand.Decimal.Shortest

/-!
# Canonical text

`0`, `2i`, `1` or `1 + 2i`: a component that equals zero is left out, and the joiner is always a
plus sign, so a negative imaginary part shows its own sign after it.
-/
namespace Argand.Complex

/-- The canonical text. -/
def text (z : Complex) : String :=
  match z.re == 0, z.im == 0 with
  | true, true => "0"
  | true, false => Decimal.ofFloat z.im ++ "i"
  | false, true => Decimal.ofFloat z.re
  | false, false => Decimal.ofFloat z.re ++ " + " ++ Decimal.ofFloat z.im ++ "i"

end Argand.Complex
