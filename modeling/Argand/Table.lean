-- SUMMARY: Building parse tables from grammars, and the errors that stop it.
import Argand.Automaton
import Argand.Grammar.Lookahead

/-!
# Parse tables

A table says what to do in a state on a symbol. Shifts and gotos are the moves of the automaton; a
completed production is reduced on the symbols that can follow its left-hand side, and the
completed start production accepts on the end mark. Building fails on the first production that is
not where or what it should be, and on the first cell, row by row, that would hold more than one
act.
-/
namespace Argand

/-! ## Acts and errors -/

/-- What a parser does in a state on a symbol. -/
inductive Act where
  | accept
  | shift (state : Nat)
  | reduce (production : Nat)
  | goto (state : Nat)
deriving DecidableEq

/-- An act as it stands in messages. -/
def Act.text : Act → String
  | .accept => "Accept"
  | .shift s => "Shift(" ++ toString s ++ ")"
  | .reduce p => "Reduce(" ++ toString p ++ ")"
  | .goto s => "Goto(" ++ toString s ++ ")"

/-- What can be wrong with rules, productions or tables, or with a reduction that does not keep to
its production. -/
inductive TableError where
  /-- A pattern cannot be read. -/
  | pattern (reason : String)
  /-- The production listed at this place is not what it should be. -/
  | production (index : Nat) (reason : String)
  /-- A cell would hold several acts. -/
  | conflict (state : Nat) (label : String) (acts : String)
  /-- More tokens or states are to be removed than there are. -/
  | underflow
  /-- There is no goto on a symbol. -/
  | missingGoto (state : Nat) (label : String)
  /-- The reductions on one token do not come to an end. -/
  | endless
deriving DecidableEq

def TableError.message : TableError → String
  | .pattern reason => "lexer rules do not compile: " ++ reason
  | .production index reason => "production " ++ toString index ++ " is malformed: " ++ reason
  | .conflict state label acts =>
    "grammar is not SLR(1): state " ++ toString state ++ " on " ++ label ++ " has actions " ++ acts
  | .underflow => "token stack underflow"
  | .missingGoto state label => "no goto on " ++ label ++ " from state " ++ toString state
  | .endless => "reductions do not come to an end"

/-! ## Cells -/

namespace Grammar

/-- The productions other than the start production that are complete in an item set and can be
followed by `X`, ascending. -/
def reductions (g : Grammar) (l : Lookahead) (items : List Item) (X : Nat) : List Nat :=
  items.filterMap fun a =>
    if g.isComplete a && a.production != 0 then
      (g.productions[a.production]?).bind fun p =>
        if (l.followOf p.lhs).contains X then some a.production else none
    else none

/-- All acts of a state on `X`: accept, shift, reductions, goto. -/
def acts (g : Grammar) (l : Lookahead) (items : List Item) (moves : List (Nat × Nat)) (X : Nat) :
    List Act :=
  (if X == g.endMark && items.any (fun a => g.isComplete a && a.production == 0) then [.accept]
    else []) ++
  (if g.isNonterminal X then [] else (moves.lookup X).toList.map .shift) ++
  (g.reductions l items X).map .reduce ++
  (if g.isNonterminal X then (moves.lookup X).toList.map .goto else [])

/-- The acts of every state on every symbol. -/
def cells (g : Grammar) (a : Automaton) (l : Lookahead) : List (List (List Act)) :=
  List.zipWith (fun items moves => g.symbols.map (g.acts l items moves)) a.states a.moves

/-! ## Checks -/

/-- What is wrong with a production at a place of the list. -/
def defect? (g : Grammar) (index : Nat) (p : Production) : Option TableError :=
  if p.id ≠ index then some (.production index "listed out of order")
  else if g.isNonterminal p.lhs then none
  else some (.production index "left-hand side is a terminal")

/-- Does the list begin with a production from the start symbol to a single symbol? -/
def hasStart (g : Grammar) : Bool :=
  match g.productions with
  | p :: _ => p.lhs == 0 && p.rhs.length == 1
  | [] => false

/-- The first thing that is wrong with the list of productions. -/
def malformed? (g : Grammar) : Option TableError :=
  match g.productions.zipIdx.findSome? fun p => g.defect? p.2 p.1 with
  | some e => some e
  | none => if g.hasStart then none else some (.production 0 "must be Start -> S")

/-- The only act of a cell, if it has one. Several acts are a conflict. -/
def onlyAct (g : Grammar) (state X : Nat) : List Act → Except TableError (Option Act)
  | [] => .ok none
  | [act] => .ok (some act)
  | acts =>
    .error (.conflict state (g.usedLabel X) (String.join (acts.map fun act => act.text ++ " ")))

end Grammar

/-! ## Tables -/

/-- The act of every state on every symbol; none is an error. -/
structure Table where
  rows : List (List (Option Act))

namespace Table

/-- What to do in a state on a symbol. -/
def lookup (t : Table) (state X : Nat) : Option Act :=
  (t.rows.getD state []).getD X none

/-- The number of states. -/
def size (t : Table) : Nat :=
  t.rows.length

/-- The table of cells that hold one act at most. -/
def ofCells (g : Grammar) (cells : List (List (List Act))) : Except TableError Table := do
  let rows ← cells.zipIdx.mapM fun row =>
    row.1.zipIdx.mapM fun cell => g.onlyAct row.2 cell.2 cell.1
  return ⟨rows⟩

/-- The table of a grammar. -/
def build (g : Grammar) : Except TableError Table :=
  match g.malformed? with
  | some e => .error e
  | none => ofCells g (g.cells g.automaton g.lookahead)

end Table
end Argand
