-- SUMMARY: The lexical rules of the calculator and the tokens they yield.
import Argand.Calc.Token
import Argand.Decimal
import Argand.Lexer

/-!
# Lexical rules

Keywords and the imaginary unit stand before identifiers in the order of the rules, so they win
where both match the same bytes; a longer identifier that begins like a keyword wins by its
length. Blanks yield nothing. Literals are read into numbers here, so nothing later looks at their
text.
-/
namespace Argand.Calc

inductive LexRule where
  | number | imaginary | abs | arg | norm | conj | ident | plus | minus | asterisk | slash
  | equals | lparen | rparen | space
deriving DecidableEq

namespace LexRule

/-! ## Patterns -/

def digit : ByteSet := .between '0' '9'

def letter : ByteSet := .between 'A' 'Z' ∪ .between 'a' 'z' ∪ .single '_'.toNat.toUInt8

def digits : Pattern := .plus (.byte digit)

/-- A point and digits. -/
def fraction : Pattern := .seq (.literal ['.']) digits

/-- The letter, perhaps a sign, and digits. -/
def exponent : Pattern :=
  .all [.byte (.oneOf ['e', 'E']), .opt (.byte (.oneOf ['+', '-'])), digits]

/-- A numeral without sign. -/
def numeral : Pattern := .all [digits, .opt fraction, .opt exponent]

def pattern : LexRule → Pattern
  | number => numeral
  | imaginary => .seq (.opt numeral) (.literal ['i'])
  | abs => .literal ['a', 'b', 's']
  | arg => .literal ['a', 'r', 'g']
  | norm => .literal ['n', 'o', 'r', 'm']
  | conj => .literal ['c', 'o', 'n', 'j']
  | ident => .seq (.byte letter) (.star (.byte (letter ∪ digit)))
  | plus => .literal ['+']
  | minus => .literal ['-']
  | asterisk => .literal ['*']
  | slash => .literal ['/']
  | equals => .literal ['=']
  | lparen => .literal ['(']
  | rparen => .literal [')']
  | space => .plus (.byte (.oneOf [' ', '\t', '\r', '\n', '\x0c']))

/-- The rules in order of priority. -/
def all : List LexRule :=
  [number, imaginary, abs, arg, norm, conj, ident, plus, minus, asterisk, slash,
    equals, lparen, rparen, space]

/-! ## Tokens -/

/-- The float that a numeral stands for. -/
def readReal (span : Span) (cs : List Char) : Except LexError Float :=
  match Decimal.read? cs with
  | some d => .ok d.toFloat
  | none => .error ⟨span.start, String.ofList cs⟩

/-- A number on the real axis. -/
def readNumber (l : Lexeme) : Except LexError Complex := do
  let s ← l.text
  return .ofReal (← readReal l.span s.toList)

/-- A number on the imaginary axis: the numeral before the last letter, or one if there is none. -/
def readImaginary (l : Lexeme) : Except LexError Complex := do
  let s ← l.text
  let numeral := s.toList.dropLast
  if numeral.isEmpty then return .i
  else return .ofImaginary (← readReal l.span numeral)

/-- The tokens that a lexeme yields. -/
def act (r : LexRule) (l : Lexeme) : Except LexError (List Token) :=
  let plain (X : Symbol) : Except LexError (List Token) := .ok [⟨X, .absent, some l.span⟩]
  match r with
  | number => do return [⟨.number, .number (← readNumber l), some l.span⟩]
  | imaginary => do return [⟨.imaginary, .number (← readImaginary l), some l.span⟩]
  | ident => do return [⟨.ident, .name (← l.text), some l.span⟩]
  | abs => plain .abs
  | arg => plain .arg
  | norm => plain .norm
  | conj => plain .conj
  | plus => plain .plus
  | minus => plain .minus
  | asterisk => plain .asterisk
  | slash => plain .slash
  | equals => plain .equals
  | lparen => plain .lparen
  | rparen => plain .rparen
  | space => .ok []

end LexRule

/-- The lexer of the calculator. A line ends with an end token at its end. -/
def lexer : Lexer LexRule Token where
  rules := ⟨LexRule.all.map fun r => (r, r.pattern)⟩
  act := LexRule.act
  close := fun span => .ok [⟨.finish, .absent, some span⟩]

/-- What the lexer delivers for some bytes, each delivery with the counts after it. Every delivery
but the end token consumes a byte. -/
def deliveries (bs : List UInt8) : List (Delivery Token × ScanCounts) :=
  lexer.deliveries (bs.length + 1) (.ofBytes bs)

end Argand.Calc
