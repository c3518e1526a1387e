-- SUMMARY: The productions of the calculator's grammar.
import Argand.Calc.Symbol
import Argand.Grammar

/-!
# Phrases

A phrase is a way to build a nonterminal. Precedence and associativity lie in the strata:
expressions are chains of terms, terms chains of factors, a sign applies to one inner factor, and
only inner factors have parentheses.
-/
namespace Argand.Calc

inductive Phrase where
  | start | assign | eval | add | sub | exprTerm | mul | div | termFactor | factorInner
  | plus | neg | innerUnit | paren | abs | arg | norm | conj | number | imaginary | name
deriving DecidableEq

namespace Phrase

/-- All phrases in order. -/
def all : List Phrase :=
  [start, assign, eval, add, sub, exprTerm, mul, div, termFactor, factorInner,
    plus, neg, innerUnit, paren, abs, arg, norm, conj, number, imaginary, name]

/-- The place of a phrase among all of them. -/
def index : Phrase → Nat
  | start => 0
  | assign => 1
  | eval => 2
  | add => 3
  | sub => 4
  | exprTerm => 5
  | mul => 6
  | div => 7
  | termFactor => 8
  | factorInner => 9
  | plus => 10
  | neg => 11
  | innerUnit => 12
  | paren => 13
  | abs => 14
  | arg => 15
  | norm => 16
  | conj => 17
  | number => 18
  | imaginary => 19
  | name => 20

def label : Phrase → String
  | start => "start"
  | assign => "assign"
  | eval => "eval"
  | add => "add"
  | sub => "sub"
  | exprTerm => "expr_term"
  | mul => "mul"
  | div => "div"
  | termFactor => "term_factor"
  | factorInner => "factor_inner"
  | plus => "plus"
  | neg => "neg"
  | innerUnit => "inner_unit"
  | paren => "paren"
  | abs => "abs"
  | arg => "arg"
  | norm => "norm"
  | conj => "conj"
  | number => "number"
  | imaginary => "imaginary"
  | name => "variable"

/-- The phrase at a place. -/
def ofIndex? (n : Nat) : Option Phrase :=
  all[n]?

def ofLabel? (s : String) : Option Phrase :=
  all.find? fun f => f.label == s

/-- The nonterminal that a phrase builds. -/
def lhs : Phrase → Symbol
  | start => .start
  | assign | eval => .line
  | add | sub | exprTerm => .expr
  | mul | div | termFactor => .term
  | factorInner | plus | neg => .factor
  | innerUnit | paren | abs | arg | norm | conj => .innerFactor
  | number | imaginary | name => .unit

/-- The symbols that it is built from. -/
def rhs : Phrase → List Symbol
  | start => [.line]
  | assign => [.ident, .equals, .expr]
  | eval => [.expr]
  | add => [.expr, .plus, .term]
  | sub => [.expr, .minus, .term]
  | exprTerm => [.term]
  | mul => [.term, .asterisk, .factor]
  | div => [.term, .slash, .factor]
  | termFactor => [.factor]
  | factorInner => [.innerFactor]
  | plus => [.plus, .innerFactor]
  | neg => [.minus, .innerFactor]
  | innerUnit => [.unit]
  | paren => [.lparen, .expr, .rparen]
  | abs => [.abs, .lparen, .expr, .rparen]
  | arg => [.arg, .lparen, .expr, .rparen]
  | norm => [.norm, .lparen, .expr, .rparen]
  | conj => [.conj, .lparen, .expr, .rparen]
  | number => [.number]
  | imaginary => [.imaginary]
  | name => [.ident]

/-- The phrase as a production over numbered symbols. -/
def production (f : Phrase) : Production :=
  ⟨f.index, f.lhs.index, f.rhs.map Symbol.index⟩

theorem ofIndex?_index (f : Phrase) : ofIndex? f.index = some f := by
  cases f <;> rfl

theorem ofIndex?_eq_none_iff {n : Nat} : ofIndex? n = none ↔ 21 ≤ n := by
  simp [ofIndex?, all]

end Phrase

/-- The grammar of the calculator. -/
def grammar : Grammar where
  nonterminals := 7
  terminals := 15
  endMark := Symbol.finish.index
  productions := Phrase.all.map Phrase.production
  labels := Symbol.all.map Symbol.label

end Argand.Calc
