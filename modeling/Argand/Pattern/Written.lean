-- SUMMARY: Reading patterns from their written form.
import Argand.Pattern

/-!
# Written patterns

The usual written form: characters stand for themselves, brackets hold a class of bytes, a bar
separates alternatives, parentheses group, and `*`, `+`, `?` repeat what stands before them. A
backslash takes the special meaning from the character after it; `\n`, `\r`, `\t` are control
characters and `\xNN` is the byte with that hexadecimal number. Reading keeps a stack of the groups
that are open.
-/
namespace Argand.Pattern.Written

/-! ## Signs -/

/-- What a pattern is written with, once escapes and classes are resolved. -/
inductive Sign where
  | atom (p : Pattern)
  | opening
  | closing
  | bar
  | star
  | plus
  | opt

def hexValue? (c : Char) : Option Nat :=
  if '0' ≤ c ∧ c ≤ '9' then some (c.toNat - 48)
  else if 'a' ≤ c ∧ c ≤ 'f' then some (c.toNat - 87)
  else if 'A' ≤ c ∧ c ≤ 'F' then some (c.toNat - 55)
  else none

/-- The byte that an escape stands for, and what follows it. -/
def escaped? : List Char → Option (UInt8 × List Char)
  | 'n' :: cs => some (10, cs)
  | 'r' :: cs => some (13, cs)
  | 't' :: cs => some (9, cs)
  | 'x' :: h :: l :: cs => do
    let high ← hexValue? h
    let low ← hexValue? l
    return ((high * 16 + low).toUInt8, cs)
  | c :: cs => if c.toNat < 128 ∧ !c.isAlphanum then some (c.toNat.toUInt8, cs) else none
  | [] => none

/-- One byte of a class, and what follows it. -/
def member? : List Char → Option (UInt8 × List Char)
  | '\\' :: cs => escaped? cs
  | c :: cs => if c.toNat < 128 ∧ c ≠ '[' then some (c.toNat.toUInt8, cs) else none
  | [] => none

/-- The ranges up to the bracket that closes the class, and what follows it. -/
def class? : Nat → List (UInt8 × UInt8) → List Char → Option (ByteSet × List Char)
  | _, rs, ']' :: cs => if rs.isEmpty then none else some (⟨rs.reverse⟩, cs)
  | 0, _, _ => none
  | fuel + 1, rs, cs => do
    let (lo, cs) ← member? cs
    match cs with
    | '-' :: ']' :: cs => class? fuel ((0x2D, 0x2D) :: (lo, lo) :: rs) (']' :: cs)
    | '-' :: cs =>
      let (hi, cs) ← member? cs
      if hi < lo then none else class? fuel ((lo, hi) :: rs) cs
    | cs => class? fuel ((lo, lo) :: rs) cs

/-- The signs of a written pattern. Each takes at least one character, so the length of the text is
fuel enough. -/
def signs? : Nat → List Char → Option (List Sign)
  | _, [] => some []
  | 0, _ :: _ => none
  | fuel + 1, c :: cs =>
    match c with
    | '(' => (signs? fuel cs).map (.opening :: ·)
    | ')' => (signs? fuel cs).map (.closing :: ·)
    | '|' => (signs? fuel cs).map (.bar :: ·)
    | '*' => (signs? fuel cs).map (.star :: ·)
    | '+' => (signs? fuel cs).map (.plus :: ·)
    | '?' => (signs? fuel cs).map (.opt :: ·)
    | '[' => do
      let (s, cs) ← class? cs.length [] cs
      (signs? fuel cs).map (.atom (.byte s) :: ·)
    | '\\' => do
      let (b, cs) ← escaped? cs
      (signs? fuel cs).map (.atom (.byte (.single b)) :: ·)
    | c => (signs? fuel cs).map (.atom (.literal [c]) :: ·)

/-! ## Groups -/

/-- A group under way: the alternatives before the last bar, the sequence after it without its last
part, and that part, to which a repetition sign applies. -/
structure Group where
  earlier : Pattern
  before : Pattern
  last : Option Pattern

namespace Group

def new : Group := ⟨.void, .empty, none⟩

def sequence (g : Group) : Pattern :=
  cat g.before (g.last.getD .empty)

/-- The pattern of the whole group. -/
def close (g : Group) : Pattern :=
  either g.earlier g.sequence

def push (g : Group) (p : Pattern) : Group :=
  { g with before := g.sequence, last := some p }

/-- Repeat the last part, if there is one. -/
def onLast? (g : Group) (f : Pattern → Pattern) : Option Group :=
  g.last.map fun p => { g with last := some (f p) }

end Group

/-- Put the signs together. The groups around the one under way are those that are still open. -/
def assemble? : List Group → Group → List Sign → Option Pattern
  | [], g, [] => some g.close
  | _ :: _, _, [] => none
  | around, g, .atom p :: rest => assemble? around (g.push p) rest
  | around, g, .opening :: rest => assemble? (g :: around) .new rest
  | [], _, .closing :: _ => none
  | outer :: around, g, .closing :: rest => assemble? around (outer.push g.close) rest
  | around, g, .bar :: rest => assemble? around ⟨g.close, .empty, none⟩ rest
  | around, g, .star :: rest => do assemble? around (← g.onLast? .star) rest
  | around, g, .plus :: rest => do assemble? around (← g.onLast? .plus) rest
  | around, g, .opt :: rest => do assemble? around (← g.onLast? .opt) rest

end Written

/-- Read a written pattern. -/
def ofWritten? (s : String) : Option Pattern := do
  let signs ← Written.signs? s.length s.toList
  Written.assemble? [] .new signs

end Argand.Pattern
