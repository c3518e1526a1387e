-- SUMMARY: The tree parser reads exactly the sentences of its grammar, and builds their derivation trees in post-order.
import Argand.Proofs.Viable
import Argand.Gallery.Grammars
import Argand.TreeParser

/-!
# Reading a language

For every grammar that has a table, the parser that builds derivation trees gives a tree for exactly
the token strings that the goal derives. The stack of this parser holds trees itself. What it stands
for are therefore trees of trees, which `Tree.join` puts together.
-/
open Argand.Parser

namespace Argand

/-! ## Trees of trees -/

namespace Tree

variable {α : Type} {g : Grammar} {kind : α → Nat} {t : Tree (Tree α)}

/-- Put the trees at the leaves into their places. -/
def join : Tree (Tree α) → Tree α
  | leaf t => t
  | node p children => node p (children.map join)

@[simp] theorem join_leaf (t : Tree α) : (leaf t).join = t := by
  rw [join]

@[simp] theorem join_node (p : Production) (children : List (Tree (Tree α))) :
    (node p children).join = node p (children.map join) := by
  rw [join]

@[simp] theorem root_join (kind : α → Nat) (t : Tree (Tree α)) :
    t.join.root kind = t.root (root kind) := by
  cases t <;> simp

theorem IsDerivation.join (h : t.IsDerivation g (root kind))
    (hleaves : ∀ y ∈ t.yield, y.IsDerivation g kind) : t.join.IsDerivation g kind := by
  induction h with
  | leaf y => simpa using hleaves
  | @node p children hp hroots _ ih =>
      rw [join_node]
      refine .node hp (by simpa [Function.comp_def] using hroots) fun c hc => ?_
      obtain ⟨d, hd, rfl⟩ := List.mem_map.mp hc
      exact ih d hd fun y hy => hleaves y (by
        rw [yield_node]
        exact List.mem_flatMap.mpr ⟨d, hd, hy⟩)

theorem IsDerivation.yield_join (h : t.IsDerivation g (root kind)) :
    t.join.yield = t.yield.flatMap yield := by
  induction h with
  | leaf y => simp
  | node _ _ _ ih =>
      rw [join_node, yield_node, yield_node, List.flatMap_map, List.flatMap_assoc]
      exact List.flatMap_congr ih

/-- Where the leaves have no inner nodes, joining keeps the inner nodes. -/
theorem IsDerivation.nodes_join (h : t.IsDerivation g (root kind))
    (hleaves : ∀ y ∈ t.yield, y.nodes = []) : t.join.nodes = t.nodes.map Tree.join := by
  induction h with
  | leaf y => simpa using hleaves
  | @node p children _ _ _ ih =>
      rw [join_node, nodes_node, nodes_node, List.flatMap_map, List.map_append, List.map_flatMap]
      congr 1
      · refine List.flatMap_congr fun c hc => ih c hc fun y hy => hleaves y ?_
        rw [yield_node]
        exact List.mem_flatMap.mpr ⟨c, hc, hy⟩
      · simp

end Tree

/-! ## What the stack stands for -/

namespace TreeParser

variable {α : Type} {g : Grammar} {table : Table} {kind : α → Nat}
  {span : Tree α → Option Span} {log : List (Tree α)} {p₀ p : Progress (Tree α) (List (Tree α))}
  {t : Tree α} {w : List α} {last : α} {rest : List (Delivery (Tree α))}

/-- The stack holds the joined trees, and their inner nodes have been noted in post-order. -/
def Stands (log : List (Tree α)) (ts : List (Tree α)) (fs : List (Tree (Tree α)))
    (built : List (Tree α)) : Prop :=
  ts = fs.map Tree.join ∧ built = log ++ (fs.reverse.flatMap Tree.nodes).map Tree.join

/-- On a stack for the trees of a right-hand side the hook never fails. -/
theorem reduce_of_stands {n : Nat} {q : Production} {x : Tree α} {ts built : List (Tree α)}
    {cs fs : List (Tree (Tree α))} (hq : g.productions[n]? = some q)
    (hroots : cs.map (Tree.root (Tree.root kind)) = q.rhs)
    (h : Stands log ts (cs.reverse ++ fs) built) :
    (treeParser g table kind span).reduce n x ts built =
      (.ok (), .node q (cs.map Tree.join) :: fs.map Tree.join,
        built ++ [.node q (cs.map Tree.join)]) := by
  have hcount : q.rhs.length = cs.length := by rw [← hroots, List.length_map]
  have hpop : Stack.popN q.rhs.length ts = some (cs.map Tree.join, fs.map Tree.join) := by
    rw [Stack.popN, h.1, if_pos (by simp [hcount])]
    simp [hcount, List.take_left', List.drop_left']
  simp [treeParser, hq, hpop]

theorem stands_nil : Stands log [] ([] : List (Tree (Tree α))) log :=
  ⟨rfl, by simp⟩

theorem tracks_stands : (treeParser g table kind span).Tracks (Stands log) where
  kinds := fun ⟨hts, _⟩ => by simp [hts, treeParser, Function.comp_def]
  shift := fun x ⟨hts, hbuilt⟩ => ⟨by simp [hts], by simp [hbuilt]⟩
  reduce := fun _ hq hroots h hreduce => by
    rw [reduce_of_stands (g := g) hq hroots h] at hreduce
    obtain ⟨rfl, rfl⟩ := Prod.mk.inj (Prod.mk.inj hreduce).2
    exact ⟨by simp, by simp [h.2]⟩

/-! ## Reading sentences -/

/-- From `p₀` the parser has read the tokens `w` and the end mark, and has come to `p` with the
derivation tree `t` of the goal over `w`. Each inner node was noted once, children before parents,
left to right, and `rest` is still to come. -/
structure Reads (g : Grammar) (kind : α → Nat) (p₀ : Progress (Tree α) (List (Tree α)))
    (w : List α) (rest : List (Delivery (Tree α))) (t : Tree α)
    (p : Progress (Tree α) (List (Tree α))) : Prop where
  root : t.root kind = g.goal
  derivation : t.IsDerivation g kind
  yield : t.yield = w
  noted : p.context = p₀.context ++ t.nodes
  input : p.input = rest
  counts : p.counts = ⟨p₀.counts.tokens + (w.length + 1), p₀.counts.shifts + w.length,
    p₀.counts.reductions + t.nodes.length⟩

/-- Where two lists are each split at their first member of a kind, the parts are equal. -/
private theorem split_unique {β : Type} {Q : β → Prop} {u v r s : List β} {x y : β}
    (h : u ++ x :: r = v ++ y :: s) (hu : ∀ z ∈ u, ¬ Q z) (hx : Q x) (hv : ∀ z ∈ v, ¬ Q z)
    (hy : Q y) : u = v ∧ r = s := by
  induction u generalizing v with
  | nil =>
      cases v with
      | nil => simpa using (List.cons.inj h).2
      | cons z v => exact absurd ((List.cons.inj h).1 ▸ hx) (hv z (by simp))
  | cons z u ih =>
      cases v with
      | nil => exact absurd ((List.cons.inj h).1 ▸ hy) (hu z (by simp))
      | cons z' v =>
          obtain ⟨rfl, htail⟩ := List.cons.inj h
          obtain ⟨rfl, rfl⟩ := ih htail (fun a ha => hu a (by simp [ha]))
            (fun a ha => hv a (by simp [ha]))
          exact ⟨rfl, rfl⟩

section

variable (hbuild : Table.build g = .ok table) (hstart : ∀ q ∈ g.productions, 0 ∉ q.rhs)
  (hlast : kind last = g.endMark)
  (hinput : p₀.input = (w.map Tree.leaf ++ [Tree.leaf last]).map .token ++ rest)
include hbuild hstart hlast hinput

/-- The parser gives a tree for every string that the goal derives. -/
theorem exists_next_of_derives (hend : g.endMark ∈ g.terminalSymbols)
    (hterm : ∀ x ∈ w, kind x ∈ g.terminalSymbols) (hder : g.Derives [g.goal] (w.map kind)) :
    ∃ t p, (treeParser g table kind span).next p₀ = (.ok (some t), p) := by
  have hkinds : (w.map Tree.leaf).map (Tree.root kind) = w.map kind := by
    simp [Function.comp_def]
  obtain ⟨tr, htr, hroot, hyield⟩ := Tree.derives_iff_exists_tree.mp (hkinds ▸ hder)
  obtain ⟨σ, hdrive, haccept⟩ := htr.exists_drive hbuild hend hstart hroot fun z hz => by
    obtain ⟨x, hx, rfl⟩ := List.mem_map.mp (hyield ▸ hz)
    exact hterm x hx
  rw [hyield] at hdrive
  obtain ⟨x, more, hahead⟩ : ∃ x more, w.map Tree.leaf ++ [Tree.leaf last] = x :: more := by
    cases w <;> simp
  rw [hahead, List.map_cons, List.cons_append] at hinput
  have hkind : (treeParser g table kind span).kind (.leaf last) = g.endMark := hlast
  have hnext : (initial x p₀.fetch.2).progress.input = more.map .token ++ rest := by
    simp [initial, Progress.fetch, hinput]
  -- The run follows the drive to the end mark, where the table accepts.
  have hreading := reading_initial (P := treeParser g table kind span) stands_nil hinput
  obtain ⟨c, fs, hrun, hreading', hstates, hla, -⟩ :=
    hreading.run_of_drive tracks_stands hbuild
      (fun hq hroots h => ⟨_, _, reduce_of_stands hq hroots h⟩) hdrive rfl hkind hahead.symm hnext
  obtain ⟨-, f, x', -, -, -, hstep⟩ := hreading'.step_accept tracks_stands hbuild hstart (by
    rw [hstates, hla, hkind]
    exact haccept)
  exact ⟨x', c.progress, next_of_run hinput (hrun.trans (run_of_finished hstep))⟩

/-- Where the parser gives a tree, it has read a sentence. -/
theorem reads_of_next (hendRhs : ∀ q ∈ g.productions, g.endMark ∉ q.rhs)
    (hne : ∀ x ∈ w, kind x ≠ g.endMark)
    (hnext : (treeParser g table kind span).next p₀ = (.ok (some t), p)) :
    g.Derives [g.goal] (w.map kind) ∧ Reads g kind p₀ w rest t p := by
  obtain ⟨c, u, f, hreading, htokens, rfl, hla, hroot⟩ :=
    exists_reading_of_next_ok tracks_stands hbuild hstart stands_nil hnext
  have hder := hreading.derives_of_accept rfl hroot
  have hgoal := hendRhs _ (List.mem_of_getElem? (Grammar.start_of_build hbuild))
  have hu : ∀ x ∈ u, x.root kind ≠ g.endMark := fun x hx =>
    hder.forall_mem (Q := (· ≠ g.endMark)) (by simpa [eq_comm] using hgoal)
      (fun q hq X hX heq => hendRhs q hq (heq ▸ hX)) _ (List.mem_map.mpr ⟨x, hx, rfl⟩)
  -- Both the tokens read and the tokens of the string end where the first end mark stands.
  obtain ⟨hmap, rfl⟩ : u.map Delivery.token = (w.map Tree.leaf).map .token ∧
      c.progress.input = rest := by
    have hsplit := hreading.input
    rw [hinput] at hsplit
    simp only [List.map_append, List.map_singleton, List.append_assoc, List.singleton_append]
      at hsplit
    refine split_unique (Q := fun d => ∃ x, d = .token x ∧ x.root kind = g.endMark) hsplit.symm
      (by simpa using hu) ⟨_, rfl, hla⟩ (by simpa using hne) ⟨_, rfl, hlast⟩
  obtain rfl : u = w.map Tree.leaf :=
    List.map_injective_iff.mpr (fun _ _ h => Delivery.token.inj h) hmap
  have hyield : f.yield = w.map Tree.leaf := by simpa using hreading.yield
  have hleaf : ∀ y ∈ f.yield, ∃ x, y = .leaf x := fun y hy => by
    obtain ⟨x, -, rfl⟩ := List.mem_map.mp (hyield ▸ hy)
    exact ⟨x, rfl⟩
  have hf := hreading.derivations f (by simp)
  have hnodes : f.join.nodes = f.nodes.map Tree.join := hf.nodes_join fun y hy => by
    obtain ⟨x, rfl⟩ := hleaf y hy
    simp
  obtain ⟨hstack, hlog⟩ := hreading.tracked
  obtain rfl : t = f.join := by
    rw [htokens] at hstack
    simpa using hstack
  refine ⟨by simpa [treeParser, Function.comp_def] using hder, ?_, ?_, ?_, ?_, rfl, ?_⟩
  · simpa using hroot
  · refine hf.join fun y hy => ?_
    obtain ⟨x, rfl⟩ := hleaf y hy
    exact .leaf x
  · rw [hf.yield_join, hyield, Tree.flatMap_yield_map_leaf]
  · simpa [hnodes] using hlog
  · simpa [hnodes] using hreading.counts

/-- The parser gives a tree for exactly the strings that the goal derives, and the tree is what it
should be: a derivation tree of the goal over the string, with its inner nodes noted in post-order.
-/
theorem next_iff_derives (span : Tree α → Option Span) (hend : g.endMark ∈ g.terminalSymbols)
    (hendRhs : ∀ q ∈ g.productions, g.endMark ∉ q.rhs)
    (hterm : ∀ x ∈ w, kind x ∈ g.terminalSymbols ∧ kind x ≠ g.endMark) :
    ((∃ t p, (treeParser g table kind span).next p₀ = (.ok (some t), p)) ↔
      g.Derives [g.goal] (w.map kind)) ∧
    ∀ t p, (treeParser g table kind span).next p₀ = (.ok (some t), p) →
      Reads g kind p₀ w rest t p := by
  have hreads {t p} (hnext : (treeParser g table kind span).next p₀ = (.ok (some t), p)) :=
    reads_of_next hbuild hstart hlast hinput hendRhs (fun x hx => (hterm x hx).2) hnext
  refine ⟨⟨fun ⟨t, p, hnext⟩ => (hreads hnext).1, fun hder => ?_⟩,
    fun t p hnext => (hreads hnext).2⟩
  exact exists_next_of_derives hbuild hstart hlast hinput hend (fun x hx => (hterm x hx).1) hder

end

/-- Two numbers with a plus between them are a sum. -/
theorem next_sum_of_two :
    ∃ table, Table.build Gallery.sum = .ok table ∧
      ∃ t p, (treeParser Gallery.sum table id fun _ => none).next
          (.start [.token (.leaf 3), .token (.leaf 2), .token (.leaf 3), .token (.leaf 4)] []) =
        (.ok (some t), p) ∧ t.yield = [3, 2, 3] ∧ p.context = t.nodes := by
  obtain ⟨table, hbuild⟩ := Table.exists_build (g := Gallery.sum) (by decide +kernel)
  have hstart : ∀ q ∈ Gallery.sum.productions, 0 ∉ q.rhs := by decide +kernel
  have hlast : id 4 = Gallery.sum.endMark := by decide +kernel
  have hinput : (Progress.start [.token (.leaf 3), .token (.leaf 2), .token (.leaf 3),
      .token (.leaf 4)] ([] : List (Tree Nat))).input =
      (([3, 2, 3].map Tree.leaf) ++ [Tree.leaf 4]).map .token ++ [] := rfl
  obtain ⟨hiff, hreads⟩ := next_iff_derives hbuild hstart hlast hinput (fun _ => none)
    (by decide +kernel) (by decide +kernel) (by decide +kernel)
  have hsum : ⟨1, 1, [1, 2, 3]⟩ ∈ Gallery.sum.productions := by decide +kernel
  have hnumber : ⟨2, 1, [3]⟩ ∈ Gallery.sum.productions := by decide +kernel
  have hder : Gallery.sum.Derives [Gallery.sum.goal] [3, 2, 3] :=
    .step (.step (.refl [1]) (.expand [] [] hsum)) (.expand [] [2, 3] hnumber)
  obtain ⟨t, p, hnext⟩ := hiff.mpr hder
  have h := hreads t p hnext
  exact ⟨table, hbuild, t, p, hnext, h.yield, h.noted⟩

end TreeParser
end Argand
