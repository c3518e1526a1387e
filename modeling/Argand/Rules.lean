-- SUMMARY: Ordered rules, and the longest prefix of the bytes ahead that one of them matches.
import Argand.Pattern

/-!
# Ordered rules

Rules are patterns in order of priority. Looking at the bytes ahead finds the longest prefix that
some rule matches, and of the rules that match it the first one in order. All rules are followed
at once, as their derivatives by the bytes seen.

A match is noticed when the byte after it is read, or the end of the bytes. Looking goes on until
no rule can match any more: a byte that leaves no rule alive ends it, except that right after a
match one more byte is always read.
-/
namespace Argand

/-- Patterns in order of priority, each with the rule it belongs to. -/
structure Rules (ρ : Type) where
  alternatives : List (ρ × Pattern)

/-- What looking at the bytes ahead has shown: how many bytes were read, and the length and the
rule of the longest match. -/
structure Sighting (ρ : Type) where
  bytesRead : Nat
  longest : Option (Nat × ρ)

namespace Rules

variable {ρ : Type}

/-- The rules that can still match after the byte `b`, as what they then match. -/
def step (rules : Rules ρ) (b : UInt8) : Rules ρ :=
  ⟨(rules.alternatives.map fun a => (a.1, a.2.deriv b)).filter fun a => !a.2.isVoid⟩

/-- Can no rule match any more? -/
def isDead (rules : Rules ρ) : Bool :=
  rules.alternatives.isEmpty

/-- The first rule that matches the bytes read so far. -/
def winner? (rules : Rules ρ) : Option ρ :=
  (rules.alternatives.find? fun a => a.2.nullable).map (·.1)

/-- Look at the bytes ahead when `n` bytes have been read, `best` being the longest match noticed.
-/
def lookFrom (rules : Rules ρ) (n : Nat) (best : Option (Nat × ρ)) : List UInt8 → Sighting ρ
  | [] =>
    match rules.winner? with
    | some r => ⟨n, some (n, r)⟩
    | none => ⟨n, best⟩
  | b :: bs =>
    match rules.winner? with
    | some r => lookFrom (rules.step b) (n + 1) (some (n, r)) bs
    | none =>
      if (rules.step b).isDead then ⟨n + 1, best⟩
      else lookFrom (rules.step b) (n + 1) best bs

/-- Look at the bytes ahead. -/
def look (rules : Rules ρ) (bs : List UInt8) : Sighting ρ :=
  rules.lookFrom 0 none bs

/-! ## What is matched -/

/-- Some pattern of the rules matches the bytes. -/
def MatchedBy (rules : Rules ρ) (bs : List UInt8) : Prop :=
  ∃ a ∈ rules.alternatives, a.2.Matches bs

/-- The first rule in order whose pattern matches the bytes is `r`. -/
def FirstMatch (rules : Rules ρ) (bs : List UInt8) (r : ρ) : Prop :=
  ∃ before p after, rules.alternatives = before ++ (r, p) :: after ∧ p.Matches bs ∧
    ∀ a ∈ before, ¬ a.2.Matches bs

end Rules
end Argand
