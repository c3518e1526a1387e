-- SUMMARY: Parsing and evaluating the lines of bytes with the calculator's table.
import Argand.Calc.Error
import Argand.Calc.Lexis
import Argand.Calc.Meaning

/-!
# Readers

A reduction takes the parts of a phrase from the token stack, evaluates the phrase, and puts back
one token with its value and the span of its parts. A reader goes through the deliveries of the
lexer sentence by sentence, also after errors.
-/
namespace Argand.Calc

/-- The token for a phrase that has a value. -/
def phraseToken (f : Phrase) (parts : List Token) (z : Complex) : Token :=
  ⟨f.lhs, .number z, Span.hull (parts.map Token.span)⟩

/-- Reduce by a phrase. -/
def reducePhrase (f : Phrase) (stack : Stack Token) (env : Bindings) :
    Except (Fault SemanticError) Unit × Stack Token × Bindings :=
  match stack.popN f.rhs.length with
  | none => (.error (.table .underflow), stack, env)
  | some (parts, stack) =>
    match apply f parts env with
    | (.error e, env) => (.error (.hook e), stack, env)
    | (.ok z, env) => (.ok (), phraseToken f parts z :: stack, env)

/-- Reduce by the phrase with a number. -/
def reduce (n : Nat) (_lookahead : Token) (stack : Stack Token) (env : Bindings) :
    Except (Fault SemanticError) Unit × Stack Token × Bindings :=
  match Phrase.ofIndex? n with
  | some f => reducePhrase f stack env
  | none => (.error (.table .underflow), stack, env)

/-- The table of the calculator. -/
def table? : Except TableError Table :=
  Table.build grammar

/-- The parser that evaluates while it reduces. -/
def parser (table : Table) : Parser Token Bindings SemanticError where
  grammar := grammar
  table := table
  kind := fun t => t.kind.index
  span := Token.span
  reduce := reduce

/-! ## Reading sentence by sentence -/

/-- A place in what the lexer delivers, with the bindings so far. The counts of the lexer are those
after the last delivery taken. -/
structure Reader where
  progress : Progress Token Bindings
  /-- The counts after each delivery to come. -/
  scans : List ScanCounts
  scanCounts : ScanCounts

namespace Reader

def ofBytes (bs : List UInt8) (env : Bindings) : Reader :=
  let delivered := deliveries bs
  ⟨.start (delivered.map (·.1)) env, delivered.map (·.2), ⟨0, 0, 0⟩⟩

/-- The bindings so far. -/
def bindings (r : Reader) : Bindings :=
  r.progress.context

/-- Move on to the place that the parser has reached. -/
def moveTo (r : Reader) (p : Progress Token Bindings) : Reader :=
  let taken := r.scans.length - p.input.length
  ⟨p, r.scans.drop taken, (r.scans.take taken).getLastD r.scanCounts⟩

/-- Read and evaluate one line with what building the table has given. -/
def nextWith (r : Reader) : Except TableError Table → Except Error (Option Token) × Reader
  | .error e => (.error (.grammar e), r)
  | .ok table =>
    let (result, p) := (parser table).next r.progress
    (result.mapError Error.ofFault, r.moveTo p)

/-- Read and evaluate one line: its token, or nothing if nothing comes. -/
def next (r : Reader) : Except Error (Option Token) × Reader :=
  r.nextWith table?

end Reader
end Argand.Calc
