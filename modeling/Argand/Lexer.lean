-- SUMMARY: Lexers: rules with actions that turn lexemes into tokens.
import Argand.Cursor

/-!
# Lexers

A lexer scans lexeme after lexeme and hands each to an action, which yields any number of tokens,
none for what is to be skipped. Tokens are delivered one at a time. When the bytes are used up the
closing action is called once; after its tokens nothing more comes. An error leaves the lexer where
the scan has ended, and the next call goes on from there.
-/
namespace Argand

/-- A matched piece of the input and where it stands. -/
structure Lexeme where
  bytes : List UInt8
  span : Span

/-- The lexeme as text; its bytes in hexadecimal are the error if they are not text. -/
def Lexeme.text (l : Lexeme) : Except LexError String :=
  match Text.ofUtf8? l.bytes with
  | some s => .ok s
  | none => .error ⟨l.span.start, "0x" ++ Text.hexOfBytes l.bytes⟩

/-- What one call of a lexer gives: a token, nothing, or an error. -/
inductive Delivery (τ : Type) where
  | token (t : τ)
  | nothing
  | failed (e : LexError)

structure Lexer (ρ τ : Type) where
  rules : Rules ρ
  /-- The tokens that a lexeme matched by a rule yields. -/
  act : ρ → Lexeme → Except LexError (List τ)
  /-- The tokens yielded at the end of the bytes. -/
  close : Span → Except LexError (List τ)

namespace Lexer

variable {ρ τ : Type}

/-- Where a lexer stands: its cursor, the tokens yielded but not delivered, and whether the end has
been reached. -/
structure State (τ : Type) where
  cursor : Cursor
  queue : List τ
  ended : Bool

def State.ofBytes (bs : List UInt8) : State τ :=
  ⟨.ofBytes bs, [], false⟩

/-- Deliver the first of some freshly yielded tokens, if there is one. -/
def deliver (s : State τ) : Except LexError (List τ) → Delivery τ × State τ
  | .error e => (.failed e, s)
  | .ok [] => (.nothing, s)
  | .ok (t :: ts) => (.token t, { s with queue := ts })

/-- Scan until an action yields a token, an error arises or the bytes end. Every round consumes a
byte, so one more than the bytes ahead is fuel enough. -/
def advance (lexer : Lexer ρ τ) : Nat → State τ → Delivery τ × State τ
  | 0, s => (.nothing, s)
  | fuel + 1, s =>
    match s.cursor.scan lexer.rules with
    | (.error e, c) => (.failed e, { s with cursor := c })
    | (.ok none, c) =>
      deliver { s with cursor := c, ended := true } (lexer.close ⟨c.span.stop, c.span.stop⟩)
    | (.ok (some r), c) =>
      match deliver { s with cursor := c } (lexer.act r ⟨c.lexeme, c.span⟩) with
      | (.nothing, s) => advance lexer fuel s
      | delivered => delivered

/-- One call: the next token. -/
def next (lexer : Lexer ρ τ) (s : State τ) : Delivery τ × State τ :=
  match s.queue with
  | t :: queue => (.token t, { s with queue })
  | [] => if s.ended then (.nothing, s) else lexer.advance (s.cursor.ahead.length + 1) s

/-- What the next calls give, until nothing comes or `calls` calls are made, each with the counts
after the call. -/
def deliveries (lexer : Lexer ρ τ) : Nat → State τ → List (Delivery τ × ScanCounts)
  | 0, _ => []
  | calls + 1, s =>
    match lexer.next s with
    | (.nothing, _) => []
    | (d, s) => (d, s.cursor.counts) :: deliveries lexer calls s

/-- All tokens up to the first call that gives nothing, or the first error. -/
def collect (lexer : Lexer ρ τ) (calls : Nat) (s : State τ) : Except LexError (List τ) :=
  (lexer.deliveries calls s).foldr
    (fun d ts =>
      match d.1 with
      | .token t => ts.map (t :: ·)
      | .nothing => .ok []
      | .failed e => .error e)
    (.ok [])

end Lexer
end Argand
