-- SUMMARY: Items, their closure, and the automaton of item sets.
import Argand.Grammar
import Argand.Saturation

/-!
# The automaton of item sets

An item is a production with a dot that marks how much of it has been recognised. A set of items
is closed when it holds the initial items of every nonterminal right after a dot. The automaton
has a state for every closed set that can be reached from the start by moving dots over symbols;
states are numbered in the order in which they are discovered, symbol by symbol.
-/
namespace Argand

/-! ## Items -/

/-- A production and a place in it; place 0 is before the left-hand side, place 1 before the
right-hand side. -/
structure Item where
  production : Nat
  dot : Nat
deriving DecidableEq

namespace Item

/-- Items are ordered by production, then by dot. -/
def before (a b : Item) : Bool :=
  a.production < b.production || (a.production == b.production && a.dot < b.dot)

/-- The item with the dot one symbol further. -/
def advance (a : Item) : Item :=
  ⟨a.production, a.dot + 1⟩

end Item

/-- Insert an item into an ascending list, unless it is there. -/
def insertItem (a : Item) : List Item → List Item
  | [] => [a]
  | b :: bs =>
    if a = b then b :: bs
    else if a.before b then a :: b :: bs
    else b :: insertItem a bs

/-- The items of a list, ascending and each once. -/
def sortItems (items : List Item) : List Item :=
  items.foldr insertItem []

namespace Grammar

/-- The symbol right after the dot. -/
def next? (g : Grammar) (a : Item) : Option Nat :=
  g.productions[a.production]?.bind fun p => p.symbols[a.dot]?

/-- Is the dot at the end of the production? -/
def isComplete (g : Grammar) (a : Item) : Bool :=
  match g.productions[a.production]? with
  | some p => a.dot == p.symbols.length
  | none => false

/-! ## Closure -/

/-- The nonterminals whose initial items belong to the closure: those right after a dot, and those
with which a production of such a nonterminal begins. -/
def opened (g : Grammar) (items : List Item) : List Nat :=
  saturate (List.range g.nonterminals) fun found B =>
    items.any (fun a => g.next? a == some B) ||
      g.productions.any fun p => found.contains p.lhs && p.rhs.head? == some B

/-- The items with the dot before the right-hand side, for the productions of some nonterminals. -/
def initialItems (g : Grammar) (nonterminals : List Nat) : List Item :=
  (g.productions.zipIdx.filter fun p => nonterminals.contains p.1.lhs).map fun p => ⟨p.2, 1⟩

/-- The least closed set that holds the items, ascending. -/
def closure (g : Grammar) (items : List Item) : List Item :=
  sortItems (items ++ g.initialItems (g.opened items))

/-- Move the dot over `X` in every item that allows it, and close. -/
def goto (g : Grammar) (items : List Item) (X : Nat) : List Item :=
  match (items.filter fun a => g.next? a == some X).map Item.advance with
  | [] => []
  | moved => g.closure moved

end Grammar

/-! ## The automaton -/

/-- Item sets by state, and the moves of each state by symbol. -/
structure Automaton where
  states : List (List Item)
  moves : List (List (Nat × Nat))

namespace Automaton

/-- The state reached from `s` over `X`. -/
def move? (a : Automaton) (s X : Nat) : Option Nat :=
  (a.moves.getD s []).lookup X

/-- The state reached from `s` over a string of symbols. -/
def walk? (a : Automaton) (s : Nat) : List Nat → Option Nat
  | [] => some s
  | X :: rest => (a.move? s X).bind fun t => walk? a t rest

/-- The number of an item set among those known, which is put at their end if it is new. -/
def number (items : List Item) (states : List (List Item)) : Nat × List (List Item) :=
  match states.idxOf? items with
  | some s => (s, states)
  | none => (states.length, states ++ [items])

end Automaton

namespace Grammar

/-- The moves of an item set over some symbols, and the states known after them. -/
def movesFrom (g : Grammar) (items : List Item) :
    List Nat → List (List Item) → List (Nat × Nat) × List (List Item)
  | [], states => ([], states)
  | X :: rest, states =>
    match g.goto items X with
    | [] => movesFrom g items rest states
    | target =>
      let (s, states) := Automaton.number target states
      let (moves, states) := movesFrom g items rest states
      ((X, s) :: moves, states)

/-- Give moves to the states that have none yet, in order, until every state has them. -/
def explore (g : Grammar) : Nat → Automaton → Automaton
  | 0, a => a
  | fuel + 1, a =>
    match a.states[a.moves.length]? with
    | none => a
    | some items =>
      let (moves, states) := g.movesFrom items g.symbols a.states
      explore g fuel ⟨states, a.moves ++ [moves]⟩

/-- The number of items of the grammar, the dot at place 1 or later. -/
def itemCount (g : Grammar) : Nat :=
  (g.productions.flatMap Production.symbols).length

/-- The automaton of the grammar. Every state is a set of items, so the number of such sets bounds
the number of states. -/
def automaton (g : Grammar) : Automaton :=
  g.explore (Nat.pow 2 g.itemCount + 1) ⟨[g.closure [⟨0, 1⟩]], []⟩

end Grammar
end Argand
