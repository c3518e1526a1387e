-- SUMMARY: The errors of the calculator, their kinds and messages.
import Argand.Calc.Bindings
import Argand.Parser

/-!
# Errors

A line without value has a lexical, a syntax or a semantic error. An error of the grammar would be
a fault of the tables, never of the line.
-/
namespace Argand.Calc

inductive Error where
  | lexical (e : LexError)
  /-- The label of a token that cannot stand where it is, and its offset. -/
  | syntactic (found : String) (offset : Nat)
  | semantic (e : SemanticError)
  | grammar (e : TableError)
deriving DecidableEq

namespace Error

def kind : Error → String
  | lexical _ => "lexical error"
  | syntactic _ _ => "syntax error"
  | semantic _ => "semantic error"
  | grammar _ => "grammar error"

def message : Error → String
  | lexical e => e.message
  | syntactic found offset => "unexpected " ++ found ++ " at offset " ++ toString offset
  | semantic e => e.message
  | grammar e => e.message

/-- A syntax error names the token and where it begins, the start of the line if that is unknown.
-/
def ofSyntax (e : SyntaxError) : Error :=
  syntactic e.label ((e.span.map Span.start).getD 0)

def ofFault : Fault SemanticError → Error
  | .lexical e => lexical e
  | .syntactic e => ofSyntax e
  | .table e => grammar e
  | .hook e => semantic e

end Error
end Argand.Calc
