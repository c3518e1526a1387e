-- SUMMARY: The shortest decimal that reads back as a given float, and the text of floats.
import Argand.Decimal

/-!
# Shortest decimals

A float is written with the fewest digits that read back as that float; where several numerals of
that length do, the one nearest to the float is taken, and of two that are equally near the larger.
Whether a numeral reads back is decided by the reader itself.

Every finite float is a whole number of units of `10 ^ (-1074)`, so the search runs on natural
numbers and is exact.
-/
namespace Argand.Decimal

/-- The float `m * 2 ^ q` in units of `10 ^ (-1074)`, for `q` at least -1074. -/
def units (m : Nat) (q : Int) : Nat :=
  m * Nat.pow 2 (q + 1074).toNat * Nat.pow 5 1074

/-- Divide by ten as long as that leaves no remainder, at most `fuel` times. -/
def stripZeros : Nat → Decimal → Decimal
  | 0, d => d
  | fuel + 1, d =>
    if d.digits ≠ 0 ∧ d.digits % 10 = 0 then stripZeros fuel ⟨d.digits / 10, d.exponent + 1⟩
    else d

/-- The two neighbours of `u` units among the decimals that leave out its last `dropped` digits,
the nearer one first. -/
def neighbours (u dropped : Nat) : List Decimal :=
  let grid := Nat.pow 10 dropped
  let below : Decimal := ⟨u / grid, dropped - 1074⟩
  let above : Decimal := ⟨u / grid + 1, dropped - 1074⟩
  if 2 * (u % grid) < grid then [below, above] else [above, below]

/-- Does the decimal read back as `x`, to the last bit? -/
def readsBack (x : Float) (d : Decimal) : Bool :=
  d.toFloat.toBits == x.toBits

/-- The shortest decimal among those with up to 17 digits that reads back as `x`, which is `u`
units. The exact decimal stands in where there is none. -/
def shortestOfUnits (x : Float) (u : Nat) : Decimal :=
  let size := (Nat.toDigits 10 u).length
  match (List.range' 1 17).findSome? fun n => (neighbours u (size - n)).find? (readsBack x) with
  | some d => stripZeros 20 d
  | none => ⟨u, -1074⟩

/-! ## Text of floats -/

open Float.Model.UnpackedFloat in
def signText : Sign → String
  | .negative => "-"
  | .positive => ""

/-- A float in positional form: the shortest digits that read back. -/
def ofFloat (x : Float) : String :=
  match x.toModel.unpack with
  | .notANumber => "NaN"
  | .infinity s => signText s ++ "inf"
  | .zero s => signText s ++ "0"
  | .finite s m q _ => signText s ++ String.ofList (shortestOfUnits x.abs (units m q)).text

end Argand.Decimal
