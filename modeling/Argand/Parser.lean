-- SUMMARY: The shift-reduce parser: one step, runs, and sentences read from a stream of deliveries.
import Argand.Lexer
import Argand.Table

/-!
# Shift-reduce parsing

A parser follows a table with two stacks, one of states and one of tokens, and a lookahead token.
A shift moves the lookahead to the stack and fetches the next one; a reduction hands the token
stack to a hook, which replaces the tokens of a right-hand side by one for the left-hand side, and
then moves the state stack along. Each call reads one sentence from the deliveries of a lexer, and
the next call goes on with what is left of them.

Nothing in a table keeps reductions from going on for ever on one lookahead. A run is therefore
defined as a fixpoint: it steps until the sentence has ended, and a run without end has no result.
-/
namespace Argand

/-! ## Errors -/

/-- A token that no sentence has at its place: its label and where it stands. -/
structure SyntaxError where
  label : String
  span : Option Span
deriving DecidableEq

def SyntaxError.message (e : SyntaxError) : String :=
  "unexpected token " ++ e.label ++ " at " ++ Span.text e.span

/-- Why a sentence has no value: a lexical error, a syntax error, a fault of the table or of a
reduction, or what the hook itself reports. -/
inductive Fault (ε : Type) where
  | lexical (e : LexError)
  | syntactic (e : SyntaxError)
  | table (e : TableError)
  | hook (e : ε)

/-! ## Parsers -/

/-- The token stack, its top first. -/
abbrev Stack (τ : Type) := List τ

/-- Remove the top `n` tokens, which come out bottom first. -/
def Stack.popN {τ : Type} (n : Nat) (stack : Stack τ) : Option (List τ × Stack τ) :=
  if n ≤ stack.length then some ((stack.take n).reverse, stack.drop n) else none

/-- A grammar with its table, the view of tokens, and the hook that is called for each reduction
with the production, the lookahead, the token stack and a context. What the hook does to stack and
context counts also when it fails. -/
structure Parser (τ σ ε : Type) where
  grammar : Grammar
  table : Table
  /-- The symbol that a token stands for. -/
  kind : τ → Nat
  span : τ → Option Span
  reduce : Nat → τ → Stack τ → σ → Except (Fault ε) Unit × Stack τ × σ

/-- How many tokens were fetched, how many were shifted, and how many reductions were made. -/
structure ParseCounts where
  tokens : Nat
  shifts : Nat
  reductions : Nat
deriving DecidableEq

/-- What outlives a sentence: the deliveries to come, the context of the hook, and the counts.
Where the deliveries end, nothing comes. -/
structure Progress (τ σ : Type) where
  input : List (Delivery τ)
  context : σ
  counts : ParseCounts

/-- A sentence under way: the state stack with its top first, the token stack and the lookahead. -/
structure Config (τ σ : Type) where
  states : List Nat
  tokens : Stack τ
  lookahead : τ
  progress : Progress τ σ

/-- What a step leads to: a further configuration, or the end of the sentence. -/
inductive StepResult (τ σ ε : Type) where
  | running (c : Config τ σ)
  | finished (result : Except (Fault ε) τ) (p : Progress τ σ)

namespace Progress

variable {τ σ : Type}

def start (input : List (Delivery τ)) (context : σ) : Progress τ σ :=
  ⟨input, context, ⟨0, 0, 0⟩⟩

/-- Take the next delivery. Only tokens are counted. -/
def fetch (p : Progress τ σ) : Delivery τ × Progress τ σ :=
  match p.input with
  | [] => (.nothing, p)
  | .token t :: input =>
    (.token t, { p with input, counts := { p.counts with tokens := p.counts.tokens + 1 } })
  | d :: input => (d, { p with input })

def countShift (p : Progress τ σ) : Progress τ σ :=
  { p with counts := { p.counts with shifts := p.counts.shifts + 1 } }

def countReduction (p : Progress τ σ) : Progress τ σ :=
  { p with counts := { p.counts with reductions := p.counts.reductions + 1 } }

end Progress

namespace Parser

variable {τ σ ε : Type}

def syntaxError (P : Parser τ σ ε) (t : τ) : Fault ε :=
  .syntactic ⟨P.grammar.label (P.kind t), P.span t⟩

/-- The state on top of the state stack. -/
def top (states : List Nat) : Nat :=
  states.headD 0

/-! ## Steps -/

/-- Shift the lookahead and fetch the next one. The shift counts once a token has come. Where
nothing comes, the token just shifted is the unexpected one. -/
def shift (P : Parser τ σ ε) (s : Nat) (c : Config τ σ) : StepResult τ σ ε :=
  match c.progress.fetch with
  | (.failed e, p) => .finished (.error (.lexical e)) p
  | (.nothing, p) => .finished (.error (P.syntaxError c.lookahead)) p
  | (.token t, p) => .running ⟨s :: c.states, c.lookahead :: c.tokens, t, p.countShift⟩

/-- Remove the states of the right-hand side and move on over the left-hand side. -/
def gotoAfter (P : Parser τ σ ε) (production : Production) (states : List Nat) :
    Except TableError (List Nat) :=
  if states.length < production.rhs.length + 1 then .error .underflow
  else
    let states := states.drop production.rhs.length
    match P.table.lookup (top states) production.lhs with
    | some (.goto s) => .ok (s :: states)
    | _ => .error (.missingGoto (top states) (P.grammar.label production.lhs))

/-- Call the hook, then move the state stack along. -/
def reduceBy (P : Parser τ σ ε) (n : Nat) (c : Config τ σ) : StepResult τ σ ε :=
  match P.reduce n c.lookahead c.tokens c.progress.context with
  | (.error e, _, context) => .finished (.error e) { c.progress with context }
  | (.ok (), tokens, context) =>
    let progress := { c.progress with context }
    match P.grammar.productions[n]? with
    | none => .finished (.error (.table .underflow)) progress
    | some production =>
      match P.gotoAfter production c.states with
      | .error e => .finished (.error (.table e)) progress
      | .ok states => .running ⟨states, tokens, c.lookahead, progress.countReduction⟩

/-- The top token is the value of the sentence. -/
def accept (c : Config τ σ) : StepResult τ σ ε :=
  match c.tokens with
  | t :: _ => .finished (.ok t) c.progress
  | [] => .finished (.error (.table .underflow)) c.progress

/-- One step, as the table says. -/
def step (P : Parser τ σ ε) (c : Config τ σ) : StepResult τ σ ε :=
  match P.table.lookup (top c.states) (P.kind c.lookahead) with
  | some (.shift s) => P.shift s c
  | some (.reduce n) => P.reduceBy n c
  | some .accept => accept c
  | none => .finished (.error (P.syntaxError c.lookahead)) c.progress
  | some (.goto _) =>
    .finished (.error (.table (.missingGoto (top c.states) (P.grammar.label (P.kind c.lookahead)))))
      c.progress

/-- Step until the sentence has ended; a run without end has no result. -/
def run (P : Parser τ σ ε) (c : Config τ σ) : Option (Except (Fault ε) τ × Progress τ σ) :=
  match P.step c with
  | .finished result p => some (result, p)
  | .running c => P |>.run c
partial_fixpoint

/-! ## Sentences -/

/-- The configuration at the beginning of a sentence with its first token. -/
def initial (t : τ) (p : Progress τ σ) : Config τ σ :=
  ⟨[0], [], t, p⟩

/-- Read one sentence: its token, or nothing if nothing comes. A sentence that is never finished is
an endless one. -/
def next (P : Parser τ σ ε) (p : Progress τ σ) :
    Except (Fault ε) (Option τ) × Progress τ σ :=
  match p.fetch with
  | (.failed e, p) => (.error (.lexical e), p)
  | (.nothing, p) => (.ok none, p)
  | (.token t, p) =>
    match P.run (initial t p) with
    | some (result, p) => (result.map some, p)
    | none => (.error (.table .endless), p)

end Parser
end Argand
