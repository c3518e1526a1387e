-- SUMMARY: Nullable symbols, and the terminals that can begin or follow what a symbol stands for.
import Argand.Grammar
import Argand.Saturation

/-!
# Nullability, FIRST and FOLLOW

A symbol is nullable when it derives the empty string. FIRST of a symbol are the terminals with
which something it derives can begin; FOLLOW of a nonterminal are the terminals that can stand
right after it in something that a nonterminal derives, and the end mark where the start symbol
derives something that it ends. Each of the three is a saturation: what is found follows from
productions and from what was found before. FIRST and FOLLOW are found terminal by terminal, since
terminals do not mix.
-/
namespace Argand.Grammar

/-! ## Nullability -/

/-- The nullable symbols: those with a production whose right-hand side is nullable throughout. -/
def nullables (g : Grammar) : List Nat :=
  saturate g.symbols fun found X =>
    g.productions.any fun p => p.lhs == X && p.rhs.all found.contains

/-! ## FIRST -/

/-- Can the sequence begin with `t`, given which symbols are nullable and which can begin with
`t`? -/
def beginsWith (nullable begins : Nat → Bool) : List Nat → Bool
  | [] => false
  | X :: rest => begins X || (nullable X && beginsWith nullable begins rest)

/-- The symbols that can begin with the terminal `t`: the terminal itself, and those with a
production whose right-hand side can. -/
def beginners (g : Grammar) (nullable : Nat → Bool) (t : Nat) : List Nat :=
  saturate g.symbols fun found X =>
    X == t || g.productions.any fun p => p.lhs == X && beginsWith nullable found.contains p.rhs

/-! ## FOLLOW -/

/-- Does `B` occur in the sequence so that `t` can come right after it? Past its end comes what can
come after the sequence. -/
def followedBy (nullable begins : Nat → Bool) (B : Nat) (after : Bool) : List Nat → Bool
  | [] => false
  | X :: rest =>
    (X == B && (beginsWith nullable begins rest || (rest.all nullable && after))) ||
      followedBy nullable begins B after rest

/-- The symbols that can be in a FOLLOW set: the terminals, and the end mark where it is none. -/
def lookaheads (g : Grammar) : List Nat :=
  if g.terminalSymbols.contains g.endMark then g.terminalSymbols
  else g.symbols.filter (fun X => X == g.endMark || !g.isNonterminal X) ++
    (if g.endMark < g.symbolCount then [] else [g.endMark])

/-- The nonterminals that `t` can follow: the start symbol if it is the end mark, and those that
occur in a right-hand side so that `t` can come after them. -/
def preceders (g : Grammar) (nullable begins : Nat → Bool) (t : Nat) : List Nat :=
  saturate (List.range g.nonterminals) fun found B =>
    (B == 0 && t == g.endMark) || g.productions.any fun p =>
      followedBy nullable begins B (found.contains p.lhs) p.rhs

/-! ## The sets together -/

/-- What a grammar allows next: nullability and FIRST by symbol, FOLLOW by nonterminal. Sets are
ascending. -/
structure Lookahead where
  nullable : List Bool
  first : List (List Nat)
  follow : List (List Nat)

/-- Sets by terminal turned round: the terminals whose set holds `X`. -/
def holding (sets : List (Nat × List Nat)) (X : Nat) : List Nat :=
  (sets.filter fun s => s.2.contains X).map (·.1)

def lookahead (g : Grammar) : Lookahead :=
  let empties := g.nullables
  let nullable := empties.contains
  let begun := g.terminalSymbols.map fun t => (t, g.beginners nullable t)
  let preceding := g.lookaheads.map fun t =>
    (t, g.preceders nullable ((begun.lookup t).getD []).contains t)
  { nullable := g.symbols.map nullable
    first := g.symbols.map (holding begun)
    follow := (List.range g.nonterminals).map (holding preceding) }

/-- The FOLLOW set of a nonterminal. -/
def Lookahead.followOf (l : Lookahead) (A : Nat) : List Nat :=
  l.follow.getD A []

end Argand.Grammar
