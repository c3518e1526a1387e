-- SUMMARY: A grammar that has a table is unambiguous.
import Argand.Gallery.Grammars
import Argand.Proofs.Building
import Argand.Proofs.Drive

/-!
# A table leaves no ambiguity

The moves that build a tree are its inner nodes in post-order between its leaves. Replaying them on
a stack gives the tree back (`Tree.IsDerivation.replay`), so a tree is known by its moves and its
leaves. A table is driven through every derivation tree of the goal and accepts at its end. Drives
are deterministic, so two trees over the same string have the same moves, and are the same tree
(`isUnambiguous_of_build`).
-/
open Argand.Parser (top)

namespace Argand

/-! ## Replaying moves -/

/-- Replay moves on a stack of trees, its top first: a shift puts the next token on it as a leaf, a
reduction puts the trees of a right-hand side under one node. -/
def Grammar.replay {τ : Type} (g : Grammar) : List Move → List τ → List (Tree τ) → List (Tree τ)
  | .shift :: ms, x :: xs, stack => g.replay ms xs (.leaf x :: stack)
  | .reduce n :: ms, xs, stack =>
    match g.productions[n]? with
    | some p =>
      g.replay ms xs (.node p (stack.take p.rhs.length).reverse :: stack.drop p.rhs.length)
    | none => stack
  | _, _, stack => stack

namespace Tree

variable {τ : Type} {g : Grammar} {kind : τ → Nat} {t t' : Tree τ}

/-- If the moves of each tree put it on the stack, those of some trees in a row put them there one
after the other. -/
private theorem replay_forest {ts : List (Tree τ)} (ms : List Move) (xs : List τ)
    (h : ∀ t ∈ ts, ∀ (ms : List Move) (xs : List τ) (stack : List (Tree τ)),
      g.replay (t.moves ++ ms) (t.yield ++ xs) stack = g.replay ms xs (t :: stack))
    (stack : List (Tree τ)) :
    g.replay (ts.flatMap moves ++ ms) (ts.flatMap yield ++ xs) stack =
      g.replay ms xs (ts.reverse ++ stack) := by
  induction ts generalizing stack with
  | nil => rfl
  | cons t rest ih =>
      simp only [List.flatMap_cons, List.append_assoc]
      rw [h t List.mem_cons_self, ih fun t' ht' => h t' (List.mem_cons_of_mem _ ht')]
      simp

/-- The moves of a derivation tree put it on top of the stack. -/
theorem IsDerivation.replay
    (hids : ∀ (n : Nat) (p : Production), g.productions[n]? = some p → p.id = n)
    (h : t.IsDerivation g kind) (ms : List Move) (xs : List τ) (stack : List (Tree τ)) :
    g.replay (t.moves ++ ms) (t.yield ++ xs) stack = g.replay ms xs (t :: stack) := by
  induction h generalizing ms xs stack with
  | leaf x => simp [Grammar.replay]
  | @node p children hp hroots _ ih =>
      obtain ⟨n, hn⟩ := List.getElem?_of_mem hp
      have hcount : p.rhs.length = children.length := by rw [← hroots, List.length_map]
      have hforest := replay_forest (.reduce n :: ms) xs ih stack
      rw [moves_node, yield_node, hids n p hn, List.append_assoc, List.singleton_append, hforest,
        Grammar.replay, hn]
      simp [hcount]

/-- Derivation trees with the same moves over the same tokens are equal. -/
theorem IsDerivation.eq_of_moves_eq
    (hids : ∀ (n : Nat) (p : Production), g.productions[n]? = some p → p.id = n)
    (h : t.IsDerivation g kind) (h' : t'.IsDerivation g kind) (hmoves : t.moves = t'.moves)
    (hyield : t.yield = t'.yield) : t = t' := by
  have hreplay := h.replay hids [] [] []
  rw [hmoves, hyield, h'.replay hids [] [] []] at hreplay
  simpa [Grammar.replay, eq_comm] using hreplay

end Tree

/-! ## Ambiguity -/

namespace Grammar

variable {g : Grammar} {t : Table}

/-- Every string of terminals has at most one derivation tree of the goal. -/
def IsUnambiguous (g : Grammar) : Prop :=
  ∀ t t' : Tree Nat, t.IsDerivation g id → t'.IsDerivation g id → t.root id = g.goal →
    t'.root id = g.goal → (∀ X ∈ t.yield, X ∈ g.terminalSymbols) → t.yield = t'.yield → t = t'

/-- Drives that end where the table accepts have made the same moves. -/
theorem eq_of_drives_of_accept {σ σ₁ σ₂ u : List Nat} {x : Nat} {ms ms' : List Move}
    (h : Drives g t σ u x ms σ₁) (haccept : t.lookup (top σ₁) x = some .accept)
    (h' : Drives g t σ u x ms' σ₂) (haccept' : t.lookup (top σ₂) x = some .accept) : ms = ms' := by
  rcases h.compare (v := []) (by simpa using h') rfl with ⟨rest, rfl, hrest⟩ | ⟨-, rest, rfl, hrest⟩
  · simp [hrest.eq_nil_of_accept haccept]
  · simp [hrest.eq_nil_of_accept haccept']

variable (hend : g.endMark ∈ g.terminalSymbols) (hstart : ∀ p ∈ g.productions, 0 ∉ p.rhs)
include hend hstart

theorem isUnambiguous_of_build (hbuild : Table.build g = .ok t) : g.IsUnambiguous := by
  intro tr tr' htr htr' hroot hroot' hleaves hyield
  obtain ⟨σ, hdrive, haccept⟩ := htr.exists_drive hbuild hend hstart hroot hleaves
  obtain ⟨σ', hdrive', haccept'⟩ := htr'.exists_drive hbuild hend hstart hroot' (hyield ▸ hleaves)
  rw [← hyield] at hdrive'
  refine htr.eq_of_moves_eq (fun n p hp => (production_of_build hbuild hp).1) htr' ?_ hyield
  exact eq_of_drives_of_accept hdrive haccept hdrive' haccept'

omit hend hstart in
/-- In a sum without brackets either plus sign can come first. -/
theorem not_isUnambiguous_ambiguous : ¬ Gallery.ambiguous.IsUnambiguous := by
  intro h
  have hplus : 2 ∈ Gallery.ambiguous.terminalSymbols := by decide +kernel
  have hdigit : 3 ∈ Gallery.ambiguous.terminalSymbols := by decide +kernel
  let number : Tree Nat := .node ⟨2, 1, [3]⟩ [.leaf 3]
  let sum (a b : Tree Nat) : Tree Nat := .node ⟨1, 1, [1, 2, 1]⟩ [a, .leaf 2, b]
  have hnumber : number.IsDerivation Gallery.ambiguous id :=
    .node (by decide +kernel) rfl (by simpa using .leaf 3)
  have hsum : ∀ a b : Tree Nat, a.root id = 1 → b.root id = 1 →
      a.IsDerivation Gallery.ambiguous id → b.IsDerivation Gallery.ambiguous id →
      (sum a b).IsDerivation Gallery.ambiguous id := fun a b ha hb hda hdb =>
    .node (by decide +kernel) (by simp [ha, hb]) (by simpa using ⟨hda, .leaf 2, hdb⟩)
  have heq := h (sum (sum number number) number) (sum number (sum number number))
    (hsum _ _ rfl rfl (hsum _ _ rfl rfl hnumber hnumber) hnumber)
    (hsum _ _ rfl rfl hnumber (hsum _ _ rfl rfl hnumber hnumber))
    (by decide +kernel) (by decide +kernel) (by simp [sum, number, hplus, hdigit])
    (by simp [sum, number])
  simp [sum, number] at heq

/-- A grammar whose start symbol is in no right-hand side is unambiguous if it has a table; if it is
ambiguous, and its productions are well listed, there is a conflict. -/
theorem isUnambiguous_or_conflict :
    (∀ t, Table.build g = .ok t → g.IsUnambiguous) ∧
    (g.IsWellListed → ¬ g.IsUnambiguous →
      ∃ s label acts, Table.build g = .error (.conflict s label acts)) := by
  refine ⟨fun t => isUnambiguous_of_build hend hstart, fun hlisted hambiguous => ?_⟩
  rcases build_of_isWellListed hlisted with ⟨t, hbuild⟩ | ⟨s, X, -, -, -, herror, -⟩
  · exact absurd (isUnambiguous_of_build hend hstart hbuild) hambiguous
  · exact ⟨s, _, _, herror⟩

omit hend hstart in
/-- Lists with empty items have one derivation tree each; sums without brackets have no table. -/
theorem isUnambiguous_or_conflict_gallery :
    Gallery.list.IsUnambiguous ∧ ¬ Gallery.ambiguous.IsUnambiguous ∧
      ∃ s label acts, Table.build Gallery.ambiguous = .error (.conflict s label acts) := by
  obtain ⟨t, hbuild⟩ := Table.exists_build (g := Gallery.list) (by decide +kernel)
  have hlist :=
    isUnambiguous_or_conflict (g := Gallery.list) (by decide +kernel) (by decide +kernel)
  have hsum :=
    isUnambiguous_or_conflict (g := Gallery.ambiguous) (by decide +kernel) (by decide +kernel)
  exact ⟨hlist.1 t hbuild, not_isUnambiguous_ambiguous,
    hsum.2 (malformed?_eq_none_iff.mp (by decide +kernel)) not_isUnambiguous_ambiguous⟩

end Grammar
end Argand
