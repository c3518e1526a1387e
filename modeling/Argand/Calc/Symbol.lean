-- SUMMARY: The symbols of the calculator's grammar.

/-!
# Symbols

Nonterminals come first, the start symbol at 0, then the terminals that the lexer yields, the end
of the line last.
-/
namespace Argand.Calc

inductive Symbol where
  | start | line | expr | term | factor | innerFactor | unit
  | number | imaginary | ident | plus | minus | asterisk | slash | equals | lparen | rparen
  | abs | arg | norm | conj | finish
deriving DecidableEq

namespace Symbol

/-- All symbols in order. -/
def all : List Symbol :=
  [start, line, expr, term, factor, innerFactor, unit,
    number, imaginary, ident, plus, minus, asterisk, slash, equals, lparen, rparen,
    abs, arg, norm, conj, finish]

/-- The place of a symbol among all of them. -/
def index : Symbol → Nat
  | start => 0
  | line => 1
  | expr => 2
  | term => 3
  | factor => 4
  | innerFactor => 5
  | unit => 6
  | number => 7
  | imaginary => 8
  | ident => 9
  | plus => 10
  | minus => 11
  | asterisk => 12
  | slash => 13
  | equals => 14
  | lparen => 15
  | rparen => 16
  | abs => 17
  | arg => 18
  | norm => 19
  | conj => 20
  | finish => 21

def label : Symbol → String
  | start => "Start"
  | line => "Line"
  | expr => "Expr"
  | term => "Term"
  | factor => "Factor"
  | innerFactor => "InnerFactor"
  | unit => "Unit"
  | number => "number"
  | imaginary => "imaginary"
  | ident => "ident"
  | plus => "plus"
  | minus => "minus"
  | asterisk => "asterisk"
  | slash => "slash"
  | equals => "equals"
  | lparen => "lparen"
  | rparen => "rparen"
  | abs => "abs"
  | arg => "arg"
  | norm => "norm"
  | conj => "conj"
  | finish => "end"

/-- The symbol at a place. -/
def ofIndex? (n : Nat) : Option Symbol :=
  all[n]?

def ofLabel? (s : String) : Option Symbol :=
  all.find? fun X => X.label == s

theorem ofIndex?_index (X : Symbol) : ofIndex? X.index = some X := by
  cases X <;> rfl

theorem ofIndex?_eq_none_iff {n : Nat} : ofIndex? n = none ↔ 22 ≤ n := by
  simp [ofIndex?, all]

end Symbol
end Argand.Calc
