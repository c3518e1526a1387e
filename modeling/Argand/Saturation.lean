-- SUMMARY: The least set of facts closed under a monotone rule, among finitely many candidates.

/-!
# Saturation

Many sets about a grammar are least fixpoints: the facts that follow from the facts already found.
`saturate` starts from nothing and adds every candidate that follows, round after round, until a
round adds nothing. Each round but the last adds a fact, so there are at most as many rounds as
candidates. The result lists its facts in the order of the candidates.
-/
namespace Argand

section

variable {α : Type} [DecidableEq α]

/-- One round: keep what was found and add what follows from it. -/
def saturateOnce (candidates : List α) (follows : List α → α → Bool) (found : List α) : List α :=
  candidates.filter fun x => found.contains x || follows found x

/-- At most `rounds` rounds, fewer if one adds nothing. -/
def saturateFrom (candidates : List α) (follows : List α → α → Bool) : Nat → List α → List α
  | 0, found => found
  | rounds + 1, found =>
    let more := saturateOnce candidates follows found
    if more.length = found.length then found else saturateFrom candidates follows rounds more

/-- The candidates that follow, starting from nothing. -/
def saturate (candidates : List α) (follows : List α → α → Bool) : List α :=
  saturateFrom candidates follows candidates.length []

end

end Argand
