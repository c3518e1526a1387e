-- SUMMARY: Reading bytes as UTF-8 text, and the bytes of a text.

/-!
# UTF-8

`utf8Bytes` gives the bytes of a text and `ofUtf8?` reads them back. The reader accepts only the
shortest form of each character, so no two byte strings stand for the same text.
-/
namespace Argand.Text

/-- The bytes of a text. -/
def utf8Bytes (s : String) : List UInt8 :=
  s.toList.flatMap String.utf8EncodeChar

/-! ## Reading -/

/-- The six bits that a continuation byte carries. -/
def continuation? (b : UInt8) : Option Nat :=
  if 0x80 ≤ b.toNat ∧ b.toNat < 0xC0 then some (b.toNat - 0x80) else none

/-- The character with code point `n`, if `n` is at least `least` and is one. -/
def charFrom? (least n : Nat) : Option Char :=
  if n < least then none else if n.isValidChar then some (Char.ofNat n) else none

/-- Read bytes as characters. The lead byte tells how many bytes a character has, and a character
that would fit in fewer is refused. -/
def charsOfUtf8? : List UInt8 → Option (List Char)
  | [] => some []
  | a :: r =>
    if a.toNat < 0x80 then (charsOfUtf8? r).map (Char.ofNat a.toNat :: ·)
    else match r with
      | [] => none
      | b :: r =>
        if a.toNat < 0xC0 then none
        else if a.toNat < 0xE0 then do
          let c ← charFrom? 0x80 ((a.toNat - 0xC0) * 0x40 + (← continuation? b))
          (charsOfUtf8? r).map (c :: ·)
        else match r with
          | [] => none
          | b' :: r =>
            if a.toNat < 0xF0 then do
              let high := (a.toNat - 0xE0) * 0x40 + (← continuation? b)
              let c ← charFrom? 0x800 (high * 0x40 + (← continuation? b'))
              (charsOfUtf8? r).map (c :: ·)
            else match r with
              | [] => none
              | b'' :: r =>
                if a.toNat < 0xF8 then do
                  let high := (a.toNat - 0xF0) * 0x40 + (← continuation? b)
                  let high := high * 0x40 + (← continuation? b')
                  let c ← charFrom? 0x10000 (high * 0x40 + (← continuation? b''))
                  (charsOfUtf8? r).map (c :: ·)
                else none

/-- The text that the bytes stand for, if they are well formed. -/
def ofUtf8? (bs : List UInt8) : Option String :=
  (charsOfUtf8? bs).map String.ofList

/-- Bytes below 128 always read as text. -/
theorem charsOfUtf8?_ascii {bs : List UInt8} (h : ∀ b ∈ bs, b.toNat < 0x80) :
    charsOfUtf8? bs = some (bs.map fun b => Char.ofNat b.toNat) := by
  induction bs with
  | nil => rfl
  | cons b bs ih =>
    have hb : b.toNat < 0x80 := h b (by simp)
    have hbs := ih fun c hc => h c (by simp [hc])
    unfold charsOfUtf8?
    simp [hb, hbs]

end Argand.Text
