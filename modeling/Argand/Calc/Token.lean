-- SUMMARY: Tokens of the calculator and the values they carry.
import Argand.Calc.Symbol
import Argand.Complex
import Argand.Span

/-!
# Tokens

A token is a symbol with a value and a place in the line. Literals have their value from the lexer;
a nonterminal has the value of what it was built from.
-/
namespace Argand.Calc

/-- What a token carries. -/
inductive Value where
  /-- Operators, parentheses, keywords and the end carry nothing. -/
  | absent
  /-- Literals and nonterminals carry a number. -/
  | number (z : Complex)
  /-- Identifiers carry their name. -/
  | name (s : String)

structure Token where
  kind : Symbol
  value : Value
  span : Option Span

namespace Token

def number? (t : Token) : Option Complex :=
  match t.value with
  | .number z => some z
  | _ => none

def name? (t : Token) : Option String :=
  match t.value with
  | .name s => some s
  | _ => none

end Token
end Argand.Calc
