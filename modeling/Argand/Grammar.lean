-- SUMMARY: Context-free grammars over numbered symbols, and derivations.

/-!
# Grammars

Symbols are numbers: nonterminals first, the start symbol being 0, then terminals. A production is
listed with the number it claims to have; whether the list keeps to its numbers is for the table
builder to say. `Derives` is the derivation relation of the grammar, against which all sets and
tables are measured.
-/
namespace Argand

/-- A production `lhs -> rhs` with the number under which it is listed. -/
structure Production where
  id : Nat
  lhs : Nat
  rhs : List Nat
deriving DecidableEq

/-- The production as one list, its left-hand side in front. -/
def Production.symbols (p : Production) : List Nat :=
  p.lhs :: p.rhs

structure Grammar where
  /-- Symbols below this number are nonterminals. -/
  nonterminals : Nat
  /-- The number of terminals, which follow the nonterminals. -/
  terminals : Nat
  /-- The terminal that ends the input. -/
  endMark : Nat
  productions : List Production
  /-- The names of the symbols, in order. -/
  labels : List String

namespace Grammar

def symbolCount (g : Grammar) : Nat :=
  g.nonterminals + g.terminals

def symbols (g : Grammar) : List Nat :=
  List.range g.symbolCount

def terminalSymbols (g : Grammar) : List Nat :=
  List.range' g.nonterminals g.terminals

def isNonterminal (g : Grammar) (X : Nat) : Bool :=
  decide (X < g.nonterminals)

def label (g : Grammar) (X : Nat) : String :=
  g.labels.getD X ""

/-- Is the symbol part of some production? -/
def occurs (g : Grammar) (X : Nat) : Bool :=
  g.productions.any fun p => p.symbols.contains X

/-- The label of a symbol that some production uses, or of the end mark; other symbols have none.
-/
def usedLabel (g : Grammar) (X : Nat) : String :=
  if X = g.endMark || g.occurs X then g.label X else ""

/-! ## Derivations -/

/-- Expand one nonterminal, at any place. -/
inductive Step (g : Grammar) : List Nat → List Nat → Prop where
  | expand {p : Production} (u v : List Nat) :
      p ∈ g.productions → Step g (u ++ p.lhs :: v) (u ++ p.rhs ++ v)

/-- Expand any number of times. -/
inductive Derives (g : Grammar) : List Nat → List Nat → Prop where
  | refl (u : List Nat) : Derives g u u
  | step {u v w : List Nat} : Derives g u v → Step g v w → Derives g u w

end Grammar
end Argand
