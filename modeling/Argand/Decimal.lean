-- SUMMARY: Decimal numbers: reading, positional writing, and rounding to floats.

/-!
# Decimals

A decimal is a natural number of units of a power of ten. Numerals such as `2.5e-1` are read into
decimals exactly; rounding to a float is a separate step, done once. Writing never uses an
exponent: zeros are put in until the point is where it belongs.
-/
namespace Argand

/-- The number `digits * 10 ^ exponent`. -/
structure Decimal where
  digits : Nat
  exponent : Int
deriving DecidableEq

namespace Decimal

/-! ## Reading -/

def isDigit (c : Char) : Bool :=
  '0' ≤ c && c ≤ '9'

def digitValue (c : Char) : Nat :=
  c.toNat - 48

/-- The natural number that a list of digits stands for. -/
def ofDigits (cs : List Char) : Nat :=
  cs.foldl (fun n c => 10 * n + digitValue c) 0

/-- The exponent written after the letter: an optional sign and at least one digit. -/
def readExponent? : List Char → Option Int
  | '+' :: cs => magnitude? cs
  | '-' :: cs => (magnitude? cs).map (- ·)
  | cs => magnitude? cs
where
  magnitude? (cs : List Char) : Option Int :=
    if cs.isEmpty || !cs.all isDigit then none else some (ofDigits cs)

/-- The decimal with the given digits before and after the point, times the power of ten in what
is left of the numeral. -/
def readScale? (whole fraction : List Char) : List Char → Option Decimal
  | [] => some ⟨ofDigits (whole ++ fraction), -fraction.length⟩
  | c :: cs =>
    if c = 'e' ∨ c = 'E' then
      (readExponent? cs).map fun e => ⟨ofDigits (whole ++ fraction), e - fraction.length⟩
    else none

/-- Read a numeral: digits, perhaps a point and digits, perhaps an exponent. -/
def read? (cs : List Char) : Option Decimal :=
  let whole := cs.takeWhile isDigit
  if whole.isEmpty then none
  else match cs.dropWhile isDigit with
    | '.' :: rest =>
      let fraction := rest.takeWhile isDigit
      if fraction.isEmpty then none else readScale? whole fraction (rest.dropWhile isDigit)
    | rest => readScale? whole [] rest

/-! ## Rounding -/

/-- The float nearest to the decimal, the one with the even significand if two are. -/
def toFloat (d : Decimal) : Float :=
  Float.ofScientific d.digits (decide (d.exponent < 0)) d.exponent.natAbs

/-! ## Writing -/

/-- Put a point before the last `places` digits, with zeros in front so that one digit at least
stands before the point. -/
def pointed (places : Nat) (ds : List Char) : List Char :=
  let padded := List.replicate (places + 1 - ds.length) '0' ++ ds
  padded.take (padded.length - places) ++ '.' :: padded.drop (padded.length - places)

/-- Positional form, with a point only if there are places after it. -/
def text (d : Decimal) : List Char :=
  match d.exponent with
  | .ofNat zeros => Nat.toDigits 10 d.digits ++ List.replicate zeros '0'
  | .negSucc n => pointed (n + 1) (Nat.toDigits 10 d.digits)

end Decimal
end Argand
