-- SUMMARY: The program: arguments, standard input and files.
import Argand.CommandLine

/-!
# The program

Reads what the request needs, prints the output and returns the exit code. Everything else is in
`Argand.CommandLine`.
-/
namespace Argand.Program

/-- The bytes of a file, nothing if it cannot be read. -/
def readFile? (path : String) : IO (Option (List UInt8)) := do
  try
    return some (← IO.FS.readBinFile path).toList
  catch _ =>
    return none

/-- The bytes of a stream up to its end, after those already read. -/
partial def readToEnd (stream : IO.FS.Stream) (read : ByteArray) : IO (List UInt8) := do
  let chunk ← stream.read 65536
  if chunk.isEmpty then return read.toList
  else readToEnd stream (read ++ chunk)

end Argand.Program

open Argand in
def main (arguments : List String) : IO UInt32 := do
  let request := CommandLine.request? arguments
  let input ← match request with
    | some .standardInput => Program.readToEnd (← IO.getStdin) .empty
    | _ => pure []
  let contents ← match request with
    | some (.file path) => Program.readFile? path
    | _ => pure none
  let outcome := CommandLine.run arguments input fun _ => contents
  (← IO.getStdout).putStr outcome.output
  return outcome.code.toUInt32
