-- SUMMARY: A place in a byte string from which rules are scanned, with pushback and counts.
import Argand.Rules
import Argand.Span
import Argand.Text.Hex
import Argand.Text.Utf8
import Argand.Text.Quoted

/-!
# Cursors

A cursor stands between the bytes that have been consumed and those ahead. The bytes ahead are
those that were pushed back, the next one first, followed by those never read. A scan reads as far
as the rules need to look and pushes back what lies beyond the longest match; when there is no
match it keeps everything it has read, and that is a lexical error at the place where it began.
-/
namespace Argand

/-! ## Lexical errors -/

/-- The text that no rule matches, or that has no value, and where it begins. -/
structure LexError where
  offset : Nat
  text : String
deriving DecidableEq

def LexError.message (e : LexError) : String :=
  "unexpected " ++ Text.quoted e.text ++ " at offset " ++ toString e.offset

/-- Bytes as they are named in errors: a first byte below 128 by its character, others all by their
numbers. -/
def LexError.nameOf : List UInt8 → String
  | [] => "0x"
  | b :: bs =>
    if b.toNat < 128 then String.singleton (Char.ofNat b.toNat)
    else "0x" ++ Text.hexOfBytes (b :: bs)

/-! ## Cursors -/

/-- How often bytes were pushed back, how many bytes were read for the first time, and how many
scans were begun. -/
structure ScanCounts where
  unreads : Nat
  chars : Nat
  scans : Nat
deriving DecidableEq

structure Cursor where
  /-- Bytes pushed back, the next one first. -/
  pushed : List UInt8
  /-- Bytes never read. -/
  source : List UInt8
  /-- Bytes taken by the scan under way, the latest first. -/
  taken : List UInt8
  /-- Where those bytes stand. -/
  span : Span
  counts : ScanCounts

namespace Cursor

/-- The cursor before the first byte. -/
def ofBytes (bs : List UInt8) : Cursor :=
  ⟨[], bs, [], ⟨0, 0⟩, ⟨0, 0, 0⟩⟩

/-- The bytes ahead. -/
def ahead (c : Cursor) : List UInt8 :=
  c.pushed ++ c.source

/-- Begin a scan where the last one ended. -/
def begin (c : Cursor) : Cursor :=
  { c with
    taken := []
    span := ⟨c.span.stop, c.span.stop⟩
    counts := { c.counts with scans := c.counts.scans + 1 } }

/-- Take the next byte, from those pushed back if there are any. -/
def readByte (c : Cursor) : Cursor :=
  match c.pushed, c.source with
  | b :: pushed, _ =>
    { c with pushed, taken := b :: c.taken, span := ⟨c.span.start, c.span.stop + 1⟩ }
  | [], b :: source =>
    { c with
      source, taken := b :: c.taken, span := ⟨c.span.start, c.span.stop + 1⟩
      counts := { c.counts with chars := c.counts.chars + 1 } }
  | [], [] => c

/-- Push the byte taken last back. -/
def unreadByte (c : Cursor) : Cursor :=
  match c.taken with
  | b :: taken =>
    { c with
      pushed := b :: c.pushed, taken, span := ⟨c.span.start, c.span.stop - 1⟩
      counts := { c.counts with unreads := c.counts.unreads + 1 } }
  | [] => c

/-- The bytes taken, in the order in which they stand. -/
def lexeme (c : Cursor) : List UInt8 :=
  c.taken.reverse

variable {ρ : Type}

/-- Settle a scan that has read all it needs: keep the longest match and push the rest back, or
report what was read as an error, or report the end. -/
def settle (longest : Option (Nat × ρ)) (c : Cursor) : Except LexError (Option ρ) × Cursor :=
  match longest with
  | some (n, r) => (.ok (some r), Nat.repeat unreadByte (c.taken.length - n) c)
  | none =>
    if c.taken.isEmpty then (.ok none, c)
    else (.error ⟨c.span.start, LexError.nameOf c.lexeme⟩, c)

/-- One scan: the rule that matches the longest prefix of the bytes ahead, nothing at their end. -/
def scan (rules : Rules ρ) (c : Cursor) : Except LexError (Option ρ) × Cursor :=
  let sighting := rules.look c.ahead
  settle sighting.longest (Nat.repeat readByte sighting.bytesRead c.begin)

/-! ## Small laws -/

theorem ahead_begin (c : Cursor) : c.begin.ahead = c.ahead := rfl

/-- Reading moves the first byte ahead to the bytes taken. -/
theorem ahead_readByte (c : Cursor) : c.readByte.ahead = c.ahead.tail := by
  unfold readByte ahead
  split <;> simp_all

/-- Pushing back undoes reading, as far as the bytes are concerned. -/
theorem ahead_unreadByte {c : Cursor} {b : UInt8} {bs : List UInt8} (h : c.taken = b :: bs) :
    c.unreadByte.ahead = b :: c.ahead ∧ c.unreadByte.taken = bs := by
  simp [unreadByte, ahead, h]

end Cursor
end Argand
