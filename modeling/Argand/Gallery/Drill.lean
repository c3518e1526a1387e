-- SUMMARY: A parser that builds bracketed trees and can be told to misbehave.
import Argand.Parser

/-!
# Drills

A drill parses with any grammar and builds the bracketed tree of the sentence. Its hook notes
every reduction; it can be told to fail at one of them, to remove more tokens than the production
has, and to remove them one by one.
-/
namespace Argand.Gallery

/-- A symbol with the tree that it stands for. -/
structure Node where
  symbol : Nat
  tree : String
  span : Option Span

/-- How the hook behaves. Reductions are counted from 0 in every sentence. -/
structure Conduct where
  /-- The reduction that fails. -/
  failAt : Option Nat
  /-- How many tokens are removed beyond those of the right-hand side. -/
  extra : Nat
  /-- The first reduction that removes them. -/
  extraAt : Nat
  oneByOne : Bool

/-- A reduction: its production, the height of the token stack, and the lookahead. -/
structure DrillEntry where
  production : Nat
  height : Nat
  lookahead : Nat

/-- Remove tokens one by one, as long as there are any. -/
def popEach (n : Nat) (stack : Stack Node) : Option (List Node × Stack Node) × Stack Node :=
  if n ≤ stack.length then (some ((stack.take n).reverse, stack.drop n), stack.drop n)
  else (none, [])

/-- Remove tokens as the conduct says, with the stack that is left if there are too few. -/
def Conduct.pop (conduct : Conduct) (n : Nat) (stack : Stack Node) :
    Option (List Node × Stack Node) × Stack Node :=
  if conduct.oneByOne then popEach n stack
  else (stack.popN n, stack)

/-- The tree of a production over the trees of its children. -/
def bracket (production : Nat) (children : List Node) : String :=
  "(" ++ toString production ++ String.join (children.map fun c => " " ++ c.tree) ++ ")"

/-- Note the reduction, then carry it out as the conduct says. The context holds the reductions of
the sentence, the latest first; what the hook reports is the number of the reduction that fails. -/
def drillReduce (g : Grammar) (conduct : Conduct) (n : Nat) (lookahead : Node) (stack : Stack Node)
    (noted : List DrillEntry) : Except (Fault Nat) Unit × Stack Node × List DrillEntry :=
  let k := noted.length
  let noted := ⟨n, stack.length, lookahead.symbol⟩ :: noted
  if conduct.failAt = some k then (.error (.hook k), stack, noted)
  else match g.productions[n]? with
    | none => (.error (.table .underflow), stack, noted)
    | some p =>
      let count := p.rhs.length + (if conduct.extraAt ≤ k then conduct.extra else 0)
      match conduct.pop count stack with
      | (none, stack) => (.error (.table .underflow), stack, noted)
      | (some (children, stack), _) =>
        (.ok (), ⟨p.lhs, bracket n children, Span.hull (children.map Node.span)⟩ :: stack, noted)

/-- The parser of a drill. -/
def drillParser (g : Grammar) (table : Table) (conduct : Conduct) :
    Parser Node (List DrillEntry) Nat where
  grammar := g
  table := table
  kind := Node.symbol
  span := Node.span
  reduce := drillReduce g conduct

/-- One sentence: what it gives, its reductions in order, and the progress after it. -/
def drillNext (P : Parser Node (List DrillEntry) Nat) (p : Progress Node (List DrillEntry)) :
    Except (Fault Nat) (Option Node) × List DrillEntry × Progress Node (List DrillEntry) :=
  let (result, p) := P.next { p with context := [] }
  (result, p.context.reverse, p)

end Argand.Gallery
