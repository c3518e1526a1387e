-- SUMMARY: Bytes and code points as lower-case hexadecimal digits.

/-!
# Hexadecimal text

Two digits for a byte; for a number, as many as it needs.
-/
namespace Argand.Text

def hexDigit (n : Nat) : Char :=
  if n < 10 then Char.ofNat (48 + n) else Char.ofNat (87 + n)

/-- Two digits, the high one first. -/
def hexOfByte (b : UInt8) : List Char :=
  [hexDigit (b.toNat / 16), hexDigit (b.toNat % 16)]

def hexOfBytes (bs : List UInt8) : String :=
  String.ofList (bs.flatMap hexOfByte)

/-- As many digits as the number needs. -/
def hexOfNat (n : Nat) : List Char :=
  Nat.toDigits 16 n

theorem hexOfByte_length (b : UInt8) : (hexOfByte b).length = 2 := rfl

end Argand.Text
