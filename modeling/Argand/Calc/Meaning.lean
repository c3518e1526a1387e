-- SUMMARY: The value of each phrase, computed from the values of its parts.
import Argand.Calc.Bindings
import Argand.Calc.Phrase
import Argand.Calc.Token
import Argand.Complex.Polar

/-!
# Meaning

The value of a phrase is computed from its parts, which are given in the order of its right-hand
side. Only two phrases look at the bindings: a name reads its value, and an assignment binds its
value after that value is known.
-/
namespace Argand.Calc

/-- The number at a place of the parts. -/
def numberAt (f : Phrase) (parts : List Token) (i : Nat) : Except SemanticError Complex :=
  match parts[i]?.bind Token.number? with
  | some z => .ok z
  | none => .error (.operand f.label i)

/-- The name at a place of the parts. -/
def nameAt (f : Phrase) (parts : List Token) (i : Nat) : Except SemanticError String :=
  match parts[i]?.bind Token.name? with
  | some s => .ok s
  | none => .error (.operand f.label i)

/-- Bind the name at place 0 to the number at place 2. The number is looked for first. -/
def assignment (f : Phrase) (parts : List Token) (env : Bindings) :
    Except SemanticError Complex × Bindings :=
  match numberAt f parts 2, nameAt f parts 0 with
  | .error e, _ => (.error e, env)
  | .ok _, .error e => (.error e, env)
  | .ok z, .ok s => (.ok z, env.set s z)

/-- The value of a phrase that binds nothing. -/
def valueOf (f : Phrase) (parts : List Token) (env : Bindings) : Except SemanticError Complex :=
  let n := numberAt f parts
  match f with
  | .add => do return (← n 0) + (← n 2)
  | .sub => do return (← n 0) - (← n 2)
  | .mul => do return (← n 0) * (← n 2)
  | .div => do return (← n 0) / (← n 2)
  | .plus | .paren => n 1
  | .neg => do return -(← n 1)
  | .abs => do return (← n 2).abs
  | .arg => do return (← n 2).arg
  | .norm => do return (← n 2).norm
  | .conj => do return (← n 2).conj
  | .assign => n 2
  | .name => do env.lookup (← nameAt f parts 0)
  | .start | .eval | .exprTerm | .termFactor | .factorInner | .innerUnit | .number | .imaginary =>
    n 0

/-- The value of a phrase, and the bindings after it. -/
def apply (f : Phrase) (parts : List Token) (env : Bindings) :
    Except SemanticError Complex × Bindings :=
  match f with
  | .assign => assignment f parts env
  | _ => (valueOf f parts env, env)

end Argand.Calc
