-- SUMMARY: The value of a line by recursive descent over its tokens.
import Argand.Calc.Bindings
import Argand.Calc.Token
import Argand.Complex.Polar

/-!
# Recursive descent

The value of a line can be read off its tokens without tables: an expression is a left fold of plus
and minus over its terms, a term a left fold of times and over on its factors, a sign applies to one
inner factor, and functions apply to a bracketed expression. Each function below reads a piece of
its kind from the front of the tokens and gives its value with the tokens that are left, or nothing
if there is no such piece. Names have the values that they are bound to.
-/
namespace Argand.Calc

/-! ## Assignments -/

/-- Do the tokens begin with an identifier and an equals sign? -/
def isAssignment : List Token → Bool
  | x :: e :: _ => x.kind == .ident && e.kind == .equals
  | _ => false

/-- The name that a line assigns to. -/
def target? (ts : List Token) : Option String :=
  if isAssignment ts then ts.head?.bind Token.name? else none

/-- The tokens of the value of a line: those behind the equals sign of an assignment, all tokens of
another line. -/
def body (ts : List Token) : List Token :=
  if isAssignment ts then ts.drop 2 else ts

/-- A descent over tokens, under some bindings. -/
structure Descent where
  bindings : Bindings

namespace Descent

/-! ## Operators and functions -/

def additive? : Symbol → Option (Complex → Complex → Complex)
  | .plus => some (· + ·)
  | .minus => some (· - ·)
  | _ => none

def multiplicative? : Symbol → Option (Complex → Complex → Complex)
  | .asterisk => some (· * ·)
  | .slash => some (· / ·)
  | _ => none

def sign? : Symbol → Option (Complex → Complex)
  | .plus => some id
  | .minus => some (- ·)
  | _ => none

def function? : Symbol → Option (Complex → Complex)
  | .abs => some Complex.abs
  | .arg => some Complex.arg
  | .norm => some Complex.norm
  | .conj => some Complex.conj
  | _ => none

/-- The value of a literal, or of a name under some bindings. -/
def operand? (env : Bindings) (t : Token) : Option Complex :=
  match t.kind with
  | .number | .imaginary => t.number?
  | .ident => t.name?.bind env.get?
  | _ => none

/-! ## Pieces of a line -/

mutual

/-- A term and the sums that follow it. -/
def expr (d : Descent) (ts : List Token) : Option (Complex × List Token) := do
  let (x, ts) ← d |>.term ts
  d |>.sums x ts
partial_fixpoint

/-- Add further terms to `x`, or subtract them, from left to right. -/
def sums (d : Descent) (x : Complex) (ts : List Token) : Option (Complex × List Token) :=
  match ts with
  | [] => some (x, [])
  | t :: rest =>
    match additive? t.kind with
    | none => some (x, t :: rest)
    | some op => do
      let (y, rest) ← d |>.term rest
      d |>.sums (op x y) rest
partial_fixpoint

/-- A factor and the products that follow it. -/
def term (d : Descent) (ts : List Token) : Option (Complex × List Token) := do
  let (x, ts) ← d |>.factor ts
  d |>.products x ts
partial_fixpoint

/-- Multiply `x` by further factors, or divide it, from left to right. -/
def products (d : Descent) (x : Complex) (ts : List Token) : Option (Complex × List Token) :=
  match ts with
  | [] => some (x, [])
  | t :: rest =>
    match multiplicative? t.kind with
    | none => some (x, t :: rest)
    | some op => do
      let (y, rest) ← d |>.factor rest
      d |>.products (op x y) rest
partial_fixpoint

/-- An inner factor with a sign or without. -/
def factor (d : Descent) (ts : List Token) : Option (Complex × List Token) :=
  match ts with
  | [] => none
  | t :: rest =>
    match sign? t.kind with
    | none => d |>.inner (t :: rest)
    | some f => do
      let (x, rest) ← d |>.inner rest
      return (f x, rest)
partial_fixpoint

/-- A function of a bracketed expression, a bracketed expression, or an operand. -/
def inner (d : Descent) (ts : List Token) : Option (Complex × List Token) :=
  match ts with
  | [] => none
  | t :: rest =>
    match function? t.kind with
    | some f => do
      let (x, rest) ← d |>.bracketed rest
      return (f x, rest)
    | none =>
      if t.kind = .lparen then d |>.bracketed (t :: rest)
      else (operand? d.bindings t).map (·, rest)
partial_fixpoint

/-- An expression between parentheses. -/
def bracketed (d : Descent) (ts : List Token) : Option (Complex × List Token) :=
  match ts with
  | [] => none
  | t :: rest =>
    if t.kind = .lparen then do
      let (x, rest) ← d |>.expr rest
      match rest with
      | [] => none
      | t :: rest => if t.kind = .rparen then some (x, rest) else none
    else none
partial_fixpoint

end

/-- The value of a line: its value is one expression and nothing more. -/
def line (d : Descent) (ts : List Token) : Option Complex :=
  match d.expr (body ts) with
  | some (x, []) => some x
  | _ => none

end Descent
end Argand.Calc
