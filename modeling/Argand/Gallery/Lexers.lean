-- SUMMARY: Small lexers over written patterns.
import Argand.Lexer
import Argand.Pattern.Written
import Argand.Table

/-!
# Small lexers

Rules are numbered. Rule 0 is skipped, rules from 50 on and the end yield a token without text,
and rules from 60 on yield a second token with the same text, ten numbers further; all other rules
yield a token with their text.
-/
namespace Argand.Gallery

/-- A token of a rule, with its text and its place. -/
structure WordToken where
  rule : Nat
  text : String
  span : Span

/-- The rule for which the end of the bytes counts. -/
def endRule : Nat := 99

/-- The tokens that a rule yields. -/
def wordTokens (rule : Nat) (l : Lexeme) : Except LexError (List WordToken) :=
  if rule = 0 then .ok []
  else if 50 ≤ rule ∧ rule < 60 then .ok [⟨rule, "", l.span⟩]
  else do
    let s ← l.text
    if 60 ≤ rule ∧ rule < 70 then return [⟨rule, s, l.span⟩, ⟨rule + 10, s, l.span⟩]
    else return [⟨rule, s, l.span⟩]

/-- The rules with their written patterns, in order of priority. -/
abbrev WrittenRules := List (Nat × String)

def words : WrittenRules :=
  [(1, "[0-9]+(\\.[0-9]+)?"), (2, "if"), (3, "[a-z]+"), (0, "[ \\t]+")]

def arrows : WrittenRules :=
  [(50, "<-"), (51, "<--+>"), (52, "-"), (1, "do"), (2, "[a-z]+"), (3, "end"), (4, "\\xC3\\xA9"),
    (5, "[\\xF0-\\xFF]+"), (60, "::"), (6, "\"[ -!#-~]*\""), (7, "A(BC)+"), (8, "AB"),
    (0, "[ \\n]+")]

/-- A group is never closed. -/
def broken : WrittenRules :=
  [(1, "[a-z]+"), (2, "(")]

/-- The rules with their patterns, if all of them can be read. -/
def readRules (rules : WrittenRules) : Except TableError (Rules Nat) := do
  let alternatives ← rules.mapM fun r =>
    match Pattern.ofWritten? r.2 with
    | some p => .ok (r.1, p)
    | none => .error (.pattern r.2)
  return ⟨alternatives⟩

/-- The lexer over written rules. -/
def lexerOf (rules : WrittenRules) : Except TableError (Lexer Nat WordToken) := do
  return ⟨← readRules rules, wordTokens, fun span => .ok [⟨endRule, "", span⟩]⟩

/-- The rules by name. -/
def lexers : List (String × WrittenRules) :=
  [("words", words), ("arrows", arrows), ("broken", broken)]

end Argand.Gallery
