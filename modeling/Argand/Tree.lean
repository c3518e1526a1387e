-- SUMMARY: Derivation trees over tokens.
import Argand.Grammar

/-!
# Derivation trees

A tree says how a sentence is built: its leaves are the tokens of the sentence, and each inner node
is a production over its children. Which symbol a token stands for is for the user of the tree to
say.
-/
namespace Argand

inductive Tree (τ : Type) where
  | leaf (t : τ)
  | node (p : Production) (children : List (Tree τ))

namespace Tree

variable {τ : Type}

/-- The symbol that the tree stands for. -/
def root (kind : τ → Nat) : Tree τ → Nat
  | leaf t => kind t
  | node p _ => p.lhs

/-- The tokens at the leaves, left to right. -/
def yield : Tree τ → List τ
  | leaf t => [t]
  | node _ children => children.flatMap yield

/-- The inner nodes in post-order: children before parents, left to right. -/
def nodes : Tree τ → List (Tree τ)
  | leaf _ => []
  | node p children => children.flatMap nodes ++ [node p children]

/-- Every inner node is a production of the grammar over the symbols of its children. -/
inductive IsDerivation (g : Grammar) (kind : τ → Nat) : Tree τ → Prop where
  | leaf (t : τ) : IsDerivation g kind (leaf t)
  | node {p : Production} {children : List (Tree τ)} :
      p ∈ g.productions → children.map (root kind) = p.rhs →
      (∀ c ∈ children, IsDerivation g kind c) → IsDerivation g kind (node p children)

end Tree
end Argand
