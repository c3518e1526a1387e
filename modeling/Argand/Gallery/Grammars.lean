-- SUMMARY: Small grammars that a table can or cannot be built for.
import Argand.Grammar

/-!
# Small grammars

Grammars with one point each: left recursion, ambiguity, productions out of order, empty
productions, conflicts of both kinds, symbols that nothing uses, start symbols that occur again, and
a symbol that never comes to an end.
-/
namespace Argand.Gallery

/-- A grammar from the names of its symbols, which hold no blanks. Productions are numbered in
order. -/
def grammarOf (nonterminals terminals : List String) (productions : List (String × List String)) :
    Grammar :=
  let labels := nonterminals ++ terminals
  let number (s : String) : Nat := labels.idxOf s
  { nonterminals := nonterminals.length
    terminals := terminals.length
    endMark := labels.length - 1
    productions := productions.zipIdx.map fun p => ⟨p.2, number p.1.1, p.1.2.map number⟩
    labels := labels }

def sum : Grammar :=
  grammarOf ["Start", "Sum"] ["plus", "num", "end"]
    [("Start", ["Sum"]), ("Sum", ["Sum", "plus", "num"]), ("Sum", ["num"])]

def ambiguous : Grammar :=
  grammarOf ["Start", "E"] ["plus", "num", "end"]
    [("Start", ["E"]), ("E", ["E", "plus", "E"]), ("E", ["num"])]

/-- Two productions stand in each other's place. -/
def disorder : Grammar :=
  let g := grammarOf ["Start", "E"] ["plus", "num", "end"]
    [("Start", ["E"]), ("E", ["E", "plus", "num"]), ("E", ["num"])]
  { g with
    productions := g.productions.map fun p =>
      { p with id := if p.id = 1 then 2 else if p.id = 2 then 1 else p.id } }

def terminalLhs : Grammar :=
  grammarOf ["Start", "E"] ["plus", "num", "end"]
    [("Start", ["E"]), ("E", ["num"]), ("num", ["plus"])]

def noStart : Grammar :=
  grammarOf ["Start", "E"] ["plus", "num", "end"]
    [("E", ["num"]), ("Start", ["E"])]

def longStart : Grammar :=
  grammarOf ["Start", "E"] ["plus", "num", "end"]
    [("Start", ["E", "E"]), ("E", ["num"])]

def empty : Grammar :=
  grammarOf ["Start", "E"] ["plus", "num", "end"] []

def list : Grammar :=
  grammarOf ["Start", "List", "Item"] ["open", "close", "atom", "end"]
    [("Start", ["List"]), ("List", []), ("List", ["List", "Item"]), ("Item", ["atom"]),
      ("Item", ["open", "List", "close"])]

def reduceReduce : Grammar :=
  grammarOf ["Start", "S", "A", "B"] ["a", "end"]
    [("Start", ["S"]), ("S", ["A"]), ("S", ["B"]), ("A", ["a"]), ("B", ["a"])]

/-- Unambiguous, but FOLLOW is too coarse for it. -/
def notSlr : Grammar :=
  grammarOf ["Start", "S", "L", "R"] ["eq", "star", "id", "end"]
    [("Start", ["S"]), ("S", ["L", "eq", "R"]), ("S", ["R"]), ("L", ["star", "R"]), ("L", ["id"]),
      ("R", ["L"])]

def nullable : Grammar :=
  grammarOf ["Start", "S", "A", "B", "C"] ["a", "b", "c", "end"]
    [("Start", ["S"]), ("S", ["A", "B", "C"]), ("A", []), ("A", ["a"]), ("B", []), ("B", ["b"]),
      ("C", []), ("C", ["c"])]

def unused : Grammar :=
  grammarOf ["Start", "E", "Unused"] ["x", "ghost", "end"]
    [("Start", ["E"]), ("E", ["x", "E"]), ("E", ["x"])]

def startInRhs : Grammar :=
  grammarOf ["Start", "E"] ["open", "close", "x", "end"]
    [("Start", ["E"]), ("E", ["open", "Start", "close"]), ("E", ["x"])]

def stmt : Grammar :=
  grammarOf ["Start", "Stmt", "Expr", "Tail", "Args"]
    ["if", "then", "else", "id", "comma", "open", "close", "end"]
    [("Start", ["Stmt"]), ("Stmt", ["if", "Expr", "then", "Stmt", "else", "Stmt"]),
      ("Stmt", ["Expr"]), ("Expr", ["id", "Tail"]), ("Tail", []),
      ("Tail", ["open", "Args", "close"]), ("Args", ["Expr"]), ("Args", ["Args", "comma", "Expr"])]

/-- It has a table, but no string of terminals comes from `A`. -/
def barren : Grammar :=
  grammarOf ["Start", "S", "A", "B"] ["t", "a", "end"]
    [("Start", ["S"]), ("S", ["B", "t"]), ("S", ["a", "A"]), ("A", ["B", "A"]), ("B", [])]

/-- It has a table, and all its nonterminals derive strings of terminals. The table has no reduction
for the `Start` behind a `Mark`. -/
def startBehind : Grammar :=
  grammarOf ["Start", "List", "Mark"] ["stop", "end"]
    [("Start", ["List"]), ("List", []), ("List", ["List", "Mark", "Start", "stop"]), ("Mark", [])]

/-- The grammars by name, without `barren` and `startBehind`, over which a parser need not come to
an end. -/
def grammars : List (String × Grammar) :=
  [("sum", sum), ("ambiguous", ambiguous), ("disorder", disorder), ("terminal_lhs", terminalLhs),
    ("no_start", noStart), ("long_start", longStart), ("empty", empty), ("list", list),
    ("reduce_reduce", reduceReduce), ("not_slr", notSlr), ("nullable", nullable),
    ("unused", unused), ("start_in_rhs", startInRhs), ("stmt", stmt)]

end Argand.Gallery
