-- SUMMARY: The parser that builds derivation trees.
import Argand.Parser
import Argand.Tree

/-!
# Building derivation trees

A tree parser works for any grammar. The lexer delivers the tokens of a sentence as leaves, and the
hook puts the trees of a right-hand side under one node, which it also notes.
-/
namespace Argand

variable {α : Type}

/-- The parser whose hook builds the derivation tree. The context lists the nodes built so far. -/
def treeParser (g : Grammar) (table : Table) (kind : α → Nat)
    (span : Tree α → Option Span) : Parser (Tree α) (List (Tree α)) Empty where
  grammar := g
  table := table
  kind := Tree.root kind
  span := span
  reduce := fun n _ stack built =>
    match g.productions[n]? with
    | none => (.error (.table .underflow), stack, built)
    | some p =>
      match stack.popN p.rhs.length with
      | none => (.error (.table .underflow), stack, built)
      | some (children, stack) => (.ok (), .node p children :: stack, built ++ [.node p children])

@[simp] theorem treeParser_grammar (g : Grammar) (table : Table) (kind : α → Nat)
    (span : Tree α → Option Span) : (treeParser g table kind span).grammar = g := rfl

@[simp] theorem treeParser_kind (g : Grammar) (table : Table) (kind : α → Nat)
    (span : Tree α → Option Span) : (treeParser g table kind span).kind = Tree.root kind := rfl

end Argand
