-- SUMMARY: Patterns over bytes, what they match, and their derivatives.

/-!
# Patterns

A pattern denotes a set of byte strings. `Pattern.Matches` says which; `nullable`, `isVoid` and
`deriv` decide it one byte at a time: a pattern matches `b :: w` when its derivative by `b`
matches `w`, it matches the empty string when it is nullable, and it matches nothing when it is
void. Derivatives are built with constructors that drop void and empty parts, so that a pattern
which repeats a class comes back to itself.
-/
namespace Argand

/-! ## Sets of bytes -/

/-- A set of bytes as a list of ranges, both ends included. -/
structure ByteSet where
  ranges : List (UInt8 × UInt8)
deriving DecidableEq

namespace ByteSet

def contains (s : ByteSet) (b : UInt8) : Bool :=
  s.ranges.any fun r => r.1 ≤ b && b ≤ r.2

/-- Has the set no member? -/
def isVoid (s : ByteSet) : Bool :=
  s.ranges.all fun r => r.2 < r.1

def single (b : UInt8) : ByteSet := ⟨[(b, b)]⟩

/-- The bytes between two characters below 128. -/
def between (lo hi : Char) : ByteSet := ⟨[(lo.toNat.toUInt8, hi.toNat.toUInt8)]⟩

/-- The bytes of some characters below 128. -/
def oneOf (cs : List Char) : ByteSet := ⟨cs.map fun c => (c.toNat.toUInt8, c.toNat.toUInt8)⟩

def union (s t : ByteSet) : ByteSet := ⟨s.ranges ++ t.ranges⟩

instance : Union ByteSet := ⟨union⟩

end ByteSet

/-! ## Patterns and what they match -/

inductive Pattern where
  /-- Matches nothing. -/
  | void
  /-- Matches the empty string. -/
  | empty
  /-- Matches one byte of a set. -/
  | byte (s : ByteSet)
  /-- Matches a match of `p` followed by a match of `q`. -/
  | seq (p q : Pattern)
  /-- Matches what `p` or `q` matches. -/
  | alt (p q : Pattern)
  /-- Matches any number of matches of `p` in a row. -/
  | star (p : Pattern)
deriving DecidableEq

namespace Pattern

/-- The byte strings that a pattern stands for. -/
inductive Matches : Pattern → List UInt8 → Prop where
  | empty : Matches empty []
  | byte {s : ByteSet} {b : UInt8} : s.contains b = true → Matches (byte s) [b]
  | seq {p q : Pattern} {u v : List UInt8} : Matches p u → Matches q v → Matches (seq p q) (u ++ v)
  | altLeft {p q : Pattern} {u : List UInt8} : Matches p u → Matches (alt p q) u
  | altRight {p q : Pattern} {u : List UInt8} : Matches q u → Matches (alt p q) u
  | starNil {p : Pattern} : Matches (star p) []
  | starCons {p : Pattern} {u v : List UInt8} :
      Matches p u → Matches (star p) v → Matches (star p) (u ++ v)

/-! ## Building patterns -/

/-- One or more matches in a row. -/
def plus (p : Pattern) : Pattern := seq p (star p)

/-- A match or nothing. -/
def opt (p : Pattern) : Pattern := alt p empty

/-- All of the patterns, one after the other. -/
def all : List Pattern → Pattern
  | [] => empty
  | [p] => p
  | p :: ps => seq p (all ps)

/-- Exactly these bytes. -/
def bytes (bs : List UInt8) : Pattern := all (bs.map fun b => byte (.single b))

/-- Exactly these characters, as UTF-8. -/
def literal (cs : List Char) : Pattern := bytes (cs.flatMap String.utf8EncodeChar)

/-! ## Derivatives -/

/-- Does the pattern match the empty string? -/
def nullable : Pattern → Bool
  | void => false
  | empty => true
  | byte _ => false
  | seq p q => p.nullable && q.nullable
  | alt p q => p.nullable || q.nullable
  | star _ => true

/-- Does the pattern match nothing at all? -/
def isVoid : Pattern → Bool
  | void => true
  | empty => false
  | byte s => s.isVoid
  | seq p q => p.isVoid || q.isVoid
  | alt p q => p.isVoid && q.isVoid
  | star _ => false

/-- Sequence, with void and empty parts dropped. -/
def cat : Pattern → Pattern → Pattern
  | void, _ => void
  | _, void => void
  | empty, q => q
  | p, empty => p
  | p, q => seq p q

/-- Alternative, with void and repeated parts dropped. -/
def either : Pattern → Pattern → Pattern
  | void, q => q
  | p, void => p
  | p, q => if p = q then p else alt p q

/-- What may follow the byte `b` in a match. -/
def deriv (b : UInt8) : Pattern → Pattern
  | void => void
  | empty => void
  | byte s => if s.contains b then empty else void
  | seq p q =>
    if p.nullable then either (cat (p.deriv b) q) (q.deriv b) else cat (p.deriv b) q
  | alt p q => either (p.deriv b) (q.deriv b)
  | star p => cat (p.deriv b) (star p)

/-- Does the pattern match the whole byte string? -/
def accepts (p : Pattern) (bs : List UInt8) : Bool :=
  (bs.foldl (fun q b => q.deriv b) p).nullable

end Pattern
end Argand
