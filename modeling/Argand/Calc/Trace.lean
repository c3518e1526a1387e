-- SUMMARY: A record of the reductions made while one line is read.
import Argand.Calc.Reader

/-!
# Traces

A traced parse evaluates as usual and notes every reduction: the phrase, the height of the token
stack before and after, the lookahead, and the token pushed or the error. After a reduction that
fails the height is what the reduction has left.
-/
namespace Argand.Calc

/-- One reduction. -/
structure TraceEntry where
  phrase : Phrase
  before : Nat
  after : Nat
  lookahead : Symbol
  result : Except Error Token

/-- The bindings, and the reductions noted so far, the latest first. -/
structure Traced where
  bindings : Bindings
  entries : List TraceEntry

/-- What a reduction has pushed, or why it has failed. -/
def reductionResult (result : Except (Fault SemanticError) Unit) (stack : Stack Token) :
    Except Error Token :=
  match result, stack with
  | .ok (), t :: _ => .ok t
  | .ok (), [] => .error (.grammar .underflow)
  | .error e, _ => .error (.ofFault e)

/-- Reduce and note it. -/
def reduceTraced (n : Nat) (lookahead : Token) (stack : Stack Token) (c : Traced) :
    Except (Fault SemanticError) Unit × Stack Token × Traced :=
  let (result, rest, env) := reduce n lookahead stack c.bindings
  let entries := match Phrase.ofIndex? n with
    | some f =>
      ⟨f, stack.length, rest.length, lookahead.kind, reductionResult result rest⟩ :: c.entries
    | none => c.entries
  (result, rest, ⟨env, entries⟩)

/-- The parser that notes its reductions. -/
def tracingParser (table : Table) : Parser Token Traced SemanticError where
  grammar := grammar
  table := table
  kind := fun t => t.kind.index
  span := Token.span
  reduce := reduceTraced

/-- Read one line with what building the table has given. -/
def traceWith (bs : List UInt8) (env : Bindings) :
    Except TableError Table → List TraceEntry × Except Error (Option Token) × Bindings
  | .error e => ([], .error (.grammar e), env)
  | .ok table =>
    let (result, p) :=
      (tracingParser table).next (.start ((deliveries bs).map (·.1)) ⟨env, []⟩)
    (p.context.entries.reverse, result.mapError Error.ofFault, p.context.bindings)

/-- Read one line: its reductions in order, its token, and the bindings after it. -/
def trace (bs : List UInt8) (env : Bindings) :
    List TraceEntry × Except Error (Option Token) × Bindings :=
  traceWith bs env table?

end Argand.Calc
