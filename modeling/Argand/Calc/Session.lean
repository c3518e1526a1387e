-- SUMMARY: Evaluating single lines, and sessions that share bindings between lines.
import Argand.Calc.Reader

/-!
# Sessions

A line is evaluated under the bindings left by the lines before it. A line that has no value
changes no binding.
-/
namespace Argand.Calc

/-- The value of what reading a line has given. A line of `length` bytes on which nothing comes
ends too early, at its end. -/
def lineValue (length : Nat) : Except Error (Option Token) → Except Error Complex
  | .error e => .error e
  | .ok none => .error (.syntactic "end" length)
  | .ok (some t) =>
    match t.number? with
    | some z => .ok z
    | none => .error (.semantic (.operand Phrase.start.label 0))

/-- Evaluate the bytes of a line. -/
def evaluateBytes (env : Bindings) (bs : List UInt8) : Except Error Complex × Bindings :=
  let read := (Reader.ofBytes bs env).next
  (lineValue bs.length read.1, read.2.bindings)

/-- Evaluate a line. -/
def evaluate (env : Bindings) (line : String) : Except Error Complex × Bindings :=
  evaluateBytes env (Text.utf8Bytes line)

/-- Lines evaluated one after the other, sharing their bindings. -/
structure Session where
  bindings : Bindings

namespace Session

def new : Session := ⟨.empty⟩

def evaluate (s : Session) (line : String) : Except Error Complex × Session :=
  let evaluated := Calc.evaluate s.bindings line
  (evaluated.1, ⟨evaluated.2⟩)

end Session
end Argand.Calc
