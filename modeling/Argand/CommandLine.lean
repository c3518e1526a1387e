-- SUMMARY: Command lines of the calculator and what they print.
import Argand.Calc.Session
import Argand.Complex.Text
import Argand.Grammar.Report
import Argand.Text.Lines

/-!
# The command line

Lines to evaluate come from options, from a file or from standard input, and share one session.
Each line that is not blank prints one line: its value, or the kind of its error in brackets and
the message. Arguments are read from left to right, and the first one that is wrong, or that asks
for help or the version, decides.
-/
namespace Argand.CommandLine

open Calc

/-! ## Arguments -/

/-- What a command line asks for. -/
inductive Request where
  | evaluate (lines : List String)
  | file (path : String)
  | standardInput
  | grammar
  | help
  | version
deriving DecidableEq

/-- The options read so far. -/
structure Options where
  exprs : List String
  input : Option String
  grammar : Bool

/-- The options that take a value. -/
inductive ValueOption where
  | expr
  | input

/-- Put a value to its option. A path is not empty and is given once. -/
def Options.withValue? (o : Options) (v : String) : ValueOption → Option Options
  | .expr => some { o with exprs := o.exprs ++ [v] }
  | .input => if v.isEmpty || o.input.isSome then none else some { o with input := some v }

/-- Ask for the grammar, once. -/
def Options.withGrammar? (o : Options) : Option Options :=
  if o.grammar then none else some { o with grammar := true }

/-- What the options ask for together. -/
def Options.request? (o : Options) : Option Request :=
  if o.input.isSome && !o.exprs.isEmpty then none
  else if o.grammar then some .grammar
  else if !o.exprs.isEmpty then some (.evaluate o.exprs)
  else match o.input with
    | some path => some (.file path)
    | none => some .standardInput

/-- What an argument means. -/
inductive Argument where
  /-- An option with a value, which may be the next argument. -/
  | value (option : ValueOption) (attached : Option String)
  | grammar
  | help
  | version
  /-- The end of the options. -/
  | separator
  | wrong

/-- A long option, with what follows the first equals sign. -/
def longArgument (cs : List Char) : Argument :=
  let name := String.ofList (cs.takeWhile (· != '='))
  let attached := match cs.dropWhile (· != '=') with
    | [] => none
    | _ :: v => some (String.ofList v)
  match name, attached with
  | "expr", v => .value .expr v
  | "input", v => .value .input v
  | "grammar", none => .grammar
  | "help", none => .help
  | "version", none => .version
  | _, _ => .wrong

/-- The value attached to a letter. An equals sign before it is dropped. -/
def attachedValue : List Char → Option String
  | [] => none
  | '=' :: cs => some (String.ofList cs)
  | cs => some (String.ofList cs)

/-- An option given by its letter. -/
def shortArgument : List Char → Argument
  | 'e' :: cs => .value .expr (attachedValue cs)
  | 'i' :: cs => .value .input (attachedValue cs)
  | 'h' :: _ => .help
  | 'V' :: _ => .version
  | _ => .wrong

/-- Only options are arguments of their own. -/
def argument (s : String) : Argument :=
  match s.toList with
  | ['-', '-'] => .separator
  | '-' :: '-' :: cs => longArgument cs
  | '-' :: cs => shortArgument cs
  | _ => .wrong

/-- Does the argument look like an option, so that it is no value? -/
def looksLikeOption (s : String) : Bool :=
  match s.toList with
  | '-' :: _ :: _ => true
  | _ => false

/-- Read the arguments after some options. Nothing is returned for wrong usage. -/
def readArguments : List String → Options → Option Request
  | [], o => o.request?
  | a :: rest, o =>
    match argument a with
    | .help => some .help
    | .version => some .version
    | .wrong => none
    | .separator => if rest.isEmpty then o.request? else none
    | .grammar => (o.withGrammar?).bind (readArguments rest)
    | .value option (some v) => (o.withValue? v option).bind (readArguments rest)
    | .value option none =>
      match rest with
      | [] => none
      | v :: rest =>
        if looksLikeOption v then none
        else (o.withValue? v option).bind (readArguments rest)

/-- What the arguments ask for; nothing for wrong usage. -/
def request? (arguments : List String) : Option Request :=
  readArguments arguments ⟨[], none, false⟩

/-! ## Evaluation -/

/-- What a program leaves behind. -/
structure Outcome where
  code : Nat
  output : String
deriving DecidableEq

/-- The line that is printed for a result. -/
def resultLine : Except Error Complex → String
  | .ok z => z.text
  | .error e => "[" ++ e.kind ++ "] " ++ e.message

/-- Evaluate a line without the blanks at its end. A blank line is skipped. -/
def evaluateTrimmed (s : Session) (line : String) : List String × Session :=
  let line := Text.trimEnd line
  if line.isEmpty then ([], s)
  else
    let (result, s) := s.evaluate line
    ([resultLine result], s)

/-- The lines printed for some lines. -/
def outputOfLines : Session → List String → List String
  | _, [] => []
  | s, line :: rest =>
    let (printed, s) := evaluateTrimmed s line
    printed ++ outputOfLines s rest

/-- The lines of some bytes up to the first that is not text, and whether there is one. -/
def readableLines : List (List UInt8) → List String × Bool
  | [] => ([], false)
  | bs :: rest =>
    match Text.ofUtf8? bs with
    | none => ([], true)
    | some line =>
      let (lines, unreadable) := readableLines rest
      (line :: lines, unreadable)

/-- Lines of output, each with its line feed. -/
def joinLines (lines : List String) : String :=
  String.join (lines.map (· ++ "\n"))

/-- Evaluate the lines of some bytes. A line that is not text ends the program with an error. -/
def evaluateInput (bs : List UInt8) : Outcome :=
  let (lines, unreadable) := readableLines (Text.lines bs)
  ⟨if unreadable then 1 else 0, joinLines (outputOfLines .new lines)⟩

/-! ## Programs -/

def versionText : String := "cxcalc 0.1.0\n"

def helpText : String := joinLines [
  "Interactive complex-number calculator built on cxcalc-rt",
  "",
  "Usage: cxcalc [OPTIONS]",
  "",
  "Options:",
  "  -e, --expr <LINE>   Line to evaluate (repeatable, evaluated in order)",
  "  -i, --input <PATH>  Input file with one line per evaluation",
  "      --grammar       Print productions, item sets and FIRST/FOLLOW sets, then exit",
  "  -h, --help          Print help",
  "  -V, --version       Print version"]

/-- What a request leads to, given the bytes of standard input and of the file that is named, if it
can be read. -/
def Request.outcome (input : List UInt8) (file : String → Option (List UInt8)) : Request → Outcome
  | .evaluate lines => ⟨0, joinLines (outputOfLines .new lines)⟩
  | .file path =>
    match file path with
    | some bs => evaluateInput bs
    | none => ⟨1, ""⟩
  | .standardInput => evaluateInput input
  | .grammar => ⟨0, joinLines Calc.grammar.report⟩
  | .help => ⟨0, helpText⟩
  | .version => ⟨0, versionText⟩

/-- What a command line leads to. Wrong usage has its own exit code. -/
def run (arguments : List String) (input : List UInt8) (file : String → Option (List UInt8)) :
    Outcome :=
  match request? arguments with
  | some r => r.outcome input file
  | none => ⟨2, ""⟩

end Argand.CommandLine
