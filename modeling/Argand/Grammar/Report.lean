-- SUMMARY: Grammars, item sets and lookahead sets as lines of text.
import Argand.Table

/-!
# Reports

A report shows what a table is built from: the productions, the item sets of the automaton with a
dot in every item, and the FIRST and FOLLOW sets. A report is a list of lines.
-/
namespace Argand.Grammar

/-- The names, each behind a blank. -/
def spaced (names : List String) : String :=
  String.join (names.map (" " ++ ·))

/-- The number of productions, a blank line, and a line for each. -/
def reportProductions (g : Grammar) (name : Nat → String) : List String :=
  ("PS," ++ toString g.productions.length) :: "" :: g.productions.zipIdx.map fun p =>
    "P," ++ toString p.2 ++ "," ++ name p.1.lhs ++ " ->" ++ spaced (p.1.rhs.map name)

/-- The right-hand side from place `i` on, with a dot at place `dot`. -/
def dotted (name : Nat → String) (dot : Nat) : Nat → List Nat → List String
  | i, [] => if i = dot then ["."] else []
  | i, X :: rest => (if i = dot then ["."] else []) ++ name X :: dotted name dot (i + 1) rest

/-- The line of an item in a state. -/
def reportItem (g : Grammar) (name : Nat → String) (state : Nat) (a : Item) : String :=
  match g.productions[a.production]? with
  | some p =>
    "C," ++ toString state ++ "," ++ name p.lhs ++ " ->" ++ spaced (dotted name a.dot 1 p.rhs)
  | none => ""

/-- The number of states, a blank line, and the items of each state with a blank line after them.
-/
def reportStates (g : Grammar) (a : Automaton) (name : Nat → String) : List String :=
  ("CS," ++ toString a.states.length) :: "" :: a.states.zipIdx.flatMap fun s =>
    s.1.map (g.reportItem name s.2) ++ [""]

/-- The members of a set between braces. -/
def reportSet (kind : String) (name : Nat → String) (X : Nat) (members : List String) : String :=
  kind ++ "," ++ name X ++ ",\x7b" ++ ", ".intercalate members ++ "\x7d"

/-- The FIRST sets, in front the empty string where a symbol is nullable. -/
def reportFirst (l : Lookahead) (name : Nat → String) : List String :=
  (l.first.zip l.nullable).zipIdx.map fun s =>
    reportSet "FIRST" name s.2 ((if s.1.2 then ["`empty'"] else []) ++ s.1.1.map name)

/-- The FOLLOW sets. -/
def reportFollow (l : Lookahead) (name : Nat → String) : List String :=
  l.follow.zipIdx.map fun s => reportSet "FOLLOW" name s.2 (s.1.map name)

/-- Everything a table is built from. Symbols that no production uses have no name here. -/
def report (g : Grammar) : List String :=
  let l := g.lookahead
  g.reportProductions g.usedLabel ++ "" :: g.reportStates g.automaton g.usedLabel ++
    reportFirst l g.usedLabel ++ "" :: reportFollow l g.usedLabel

end Argand.Grammar
