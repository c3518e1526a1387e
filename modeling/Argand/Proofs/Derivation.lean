-- SUMMARY: Derivations and derivation trees are the same thing, and what trees say about lookahead.
import Argand.Tree
import Argand.Proofs.Lookahead

/-!
# Derivations and their trees

`derives_iff_exists_tree` says that a symbol derives the kinds of some tokens exactly when there is
a derivation tree over these tokens. Trees without leaves make their symbol nullable, and the first
leaf of a tree is in FIRST of its symbol.
-/
namespace Argand

variable {τ : Type} {g : Grammar} {kind : τ → Nat} {u v w : List Nat} {X : Nat}

/-! ## Derivations -/

namespace Grammar

theorem Derives.trans (huv : g.Derives u v) (hvw : g.Derives v w) : g.Derives u w := by
  induction hvw with
  | refl => exact huv
  | step _ hstep ih => exact .step ih hstep

theorem Step.context {u v : List Nat} (x y : List Nat) (h : g.Step u v) :
    g.Step (x ++ u ++ y) (x ++ v ++ y) := by
  obtain ⟨u', v', hp⟩ := h
  simpa using Step.expand (x ++ u') (v' ++ y) hp

theorem Derives.context (x y : List Nat) (h : g.Derives u v) :
    g.Derives (x ++ u ++ y) (x ++ v ++ y) := by
  induction h with
  | refl => exact .refl _
  | step _ hstep ih => exact .step ih (hstep.context x y)

theorem Derives.append {u' v' : List Nat} (h : g.Derives u v) (h' : g.Derives u' v') :
    g.Derives (u ++ u') (v ++ v') := by
  have hleft : g.Derives (u ++ u') (v ++ u') := by simpa using h.context [] u'
  have hright : g.Derives (v ++ u') (v ++ v') := by simpa using h'.context v []
  exact hleft.trans hright

theorem derives_production {p : Production} (hp : p ∈ g.productions) : g.Derives [p.lhs] p.rhs := by
  simpa using Derives.step (.refl [p.lhs]) (.expand [] [] hp)

/-- A derivation brings in symbols of right-hand sides only. -/
theorem Derives.forall_mem {Q : Nat → Prop} (h : g.Derives u v) (hu : ∀ X ∈ u, Q X)
    (hrhs : ∀ p ∈ g.productions, ∀ X ∈ p.rhs, Q X) : ∀ X ∈ v, Q X := by
  induction h with
  | refl => exact hu
  | step _ hstep ih =>
      obtain @⟨p, x, y, hp⟩ := hstep
      intro X hX
      obtain hX | hX | hX : X ∈ x ∨ X ∈ p.rhs ∨ X ∈ y := by simpa using hX
      · exact ih X (by simp [hX])
      · exact hrhs p hp X hX
      · exact ih X (by simp [hX])

end Grammar

/-! ## Trees -/

namespace Tree

open Grammar

variable {t : Tree τ} {ts : List (Tree τ)}

@[simp] theorem yield_leaf (x : τ) : (leaf x).yield = [x] := by
  rw [yield]

@[simp] theorem yield_node (p : Production) (children : List (Tree τ)) :
    (node p children).yield = children.flatMap yield := by
  rw [yield]

@[simp] theorem nodes_leaf (x : τ) : (leaf x).nodes = [] := by
  rw [nodes]

@[simp] theorem nodes_node (p : Production) (children : List (Tree τ)) :
    (node p children).nodes = children.flatMap nodes ++ [node p children] := by
  rw [nodes]

@[simp] theorem root_leaf (x : τ) : (leaf x).root kind = kind x := rfl

@[simp] theorem root_node (p : Production) (children : List (Tree τ)) :
    (node p children).root kind = p.lhs := rfl

@[simp] theorem flatMap_yield_map_leaf (xs : List τ) : (xs.map leaf).flatMap yield = xs := by
  induction xs with
  | nil => rfl
  | cons x rest ih => simp [ih]

/-- The roots of some trees derive what is at their leaves. -/
theorem derives_forest
    (h : ∀ t ∈ ts, g.Derives [t.root kind] (t.yield.map kind)) :
    g.Derives (ts.map (root kind)) ((ts.flatMap yield).map kind) := by
  induction ts with
  | nil => exact .refl []
  | cons t rest ih =>
      have hhead := h t List.mem_cons_self
      have hrest := ih fun t' ht' => h t' (List.mem_cons_of_mem _ ht')
      simpa using hhead.append hrest

theorem IsDerivation.derives (h : t.IsDerivation g kind) :
    g.Derives [t.root kind] (t.yield.map kind) := by
  induction h with
  | leaf x => simpa using Derives.refl [kind x]
  | @node p children hp hroots _ ih =>
      have hforest := derives_forest ih
      rw [hroots] at hforest
      rw [root_node, yield_node]
      exact (derives_production hp).trans hforest

/-- Trees over the end of a derivation extend to trees over its beginning. -/
theorem exists_forest_of_derives (h : g.Derives u v) (hroots : ts.map (root kind) = v)
    (hts : ∀ t ∈ ts, t.IsDerivation g kind) :
    ∃ ts' : List (Tree τ), ts'.map (root kind) = u ∧ (∀ t ∈ ts', t.IsDerivation g kind) ∧
      ts'.flatMap yield = ts.flatMap yield := by
  induction h generalizing ts with
  | refl => exact ⟨ts, hroots, hts, rfl⟩
  | step _ hstep ih =>
      obtain @⟨p, x, y, hp⟩ := hstep
      -- The trees over the right-hand side become the children of one node.
      obtain ⟨left, right, rfl, hleft, hright⟩ := List.map_eq_append_iff.mp hroots
      obtain ⟨before, children, rfl, hbefore, hchildren⟩ := List.map_eq_append_iff.mp hleft
      have hnode : (node p children).IsDerivation g kind :=
        .node hp hchildren fun c hc => hts c (by simp [hc])
      have hroots' : (before ++ node p children :: right).map (root kind) = x ++ p.lhs :: y := by
        simp [hbefore, hright]
      obtain ⟨ts', hts, hders, hyield⟩ := ih hroots' (by
        intro t ht
        obtain ht | ht | ht : t ∈ before ∨ t = node p children ∨ t ∈ right := by simpa using ht
        · exact hts t (by simp [ht])
        · exact ht ▸ hnode
        · exact hts t (by simp [ht]))
      exact ⟨ts', hts, hders, by simp [hyield]⟩

theorem derives_iff_exists_tree {xs : List τ} :
    g.Derives [X] (xs.map kind) ↔
      ∃ t : Tree τ, t.IsDerivation g kind ∧ t.root kind = X ∧ t.yield = xs := by
  constructor
  · intro h
    have hleaves : (xs.map leaf).map (root kind) = xs.map kind := by
      simp [Function.comp_def]
    obtain ⟨ts, hroots, hts, hyield⟩ := exists_forest_of_derives h hleaves (by
        intro t ht
        obtain ⟨x, -, rfl⟩ := List.mem_map.mp ht
        exact .leaf x)
    obtain ⟨t, rfl, hroot⟩ := List.map_eq_singleton_iff.mp hroots
    exact ⟨t, hts t (by simp), hroot, by simpa using hyield⟩
  · rintro ⟨t, ht, rfl, rfl⟩
    exact ht.derives

/-! ## Trees and lookahead -/

variable (hlhs : ∀ p ∈ g.productions, p.lhs < g.nonterminals)
include hlhs

/-- A tree without leaves has a nullable symbol. -/
theorem IsDerivation.isNullable (h : t.IsDerivation g kind) (hyield : t.yield = []) :
    g.isNullable (t.root kind) = true := by
  induction h with
  | leaf x => simp at hyield
  | @node p children hp hroots _ ih =>
      refine isNullable_of_production hp (hlhs p hp) ?_
      rw [← hroots, List.all_eq_true]
      intro Y hY
      obtain ⟨c, hc, rfl⟩ := List.mem_map.mp hY
      rw [yield_node, List.flatMap_eq_nil_iff] at hyield
      exact ih c hc (hyield c hc)

theorem all_isNullable_forest (h : ∀ t ∈ ts, t.IsDerivation g kind)
    (hyield : ts.flatMap yield = []) : (ts.map (root kind)).all g.isNullable = true := by
  rw [List.all_eq_true]
  intro Y hY
  obtain ⟨t, ht, rfl⟩ := List.mem_map.mp hY
  exact (h t ht).isNullable hlhs (List.flatMap_eq_nil_iff.mp hyield t ht)

/-- If each tree begins with its first leaf, some trees in a row do. -/
private theorem beginsWith_forest_aux {x : τ} {xs : List τ}
    (h : ∀ t ∈ ts, t.IsDerivation g kind)
    (hbegins : ∀ t ∈ ts, ∀ xs, t.yield = x :: xs → g.begins (kind x) (t.root kind) = true)
    (hyield : ts.flatMap yield = x :: xs) :
    beginsWith g.isNullable (g.begins (kind x)) (ts.map (root kind)) = true := by
  induction ts with
  | nil => simp at hyield
  | cons t rest ih =>
      rw [List.map_cons, beginsWith, Bool.or_eq_true, Bool.and_eq_true]
      cases hhead : t.yield with
      | nil =>
          right
          refine ⟨(h t List.mem_cons_self).isNullable hlhs hhead, ?_⟩
          exact ih (fun t' ht' => h t' (List.mem_cons_of_mem _ ht'))
            (fun t' ht' => hbegins t' (List.mem_cons_of_mem _ ht')) (by simpa [hhead] using hyield)
      | cons y ys =>
          obtain rfl : y = x := by
            rw [List.flatMap_cons, hhead] at hyield
            exact (List.cons.inj hyield).1
          exact .inl (hbegins t List.mem_cons_self ys hhead)

/-- The first leaf of a tree is in FIRST of its symbol. -/
theorem IsDerivation.begins {x : τ} {xs : List τ} (h : t.IsDerivation g kind)
    (hx : kind x ∈ g.terminalSymbols) (hyield : t.yield = x :: xs) :
    g.begins (kind x) (t.root kind) = true := by
  induction h generalizing xs with
  | leaf y =>
      obtain ⟨rfl, -⟩ : y = x ∧ [] = xs := by simpa using hyield
      exact begins_self hx
  | @node p children hp hroots hchildren ih =>
      refine begins_of_production hp (hlhs p hp) ?_
      rw [← hroots]
      exact beginsWith_forest_aux hlhs hchildren (fun c hc xs => ih c hc) (by simpa using hyield)

theorem beginsWith_forest {x : τ} {xs : List τ} (h : ∀ t ∈ ts, t.IsDerivation g kind)
    (hx : kind x ∈ g.terminalSymbols) (hyield : ts.flatMap yield = x :: xs) :
    beginsWith g.isNullable (g.begins (kind x)) (ts.map (root kind)) = true :=
  beginsWith_forest_aux hlhs h (fun t ht _ => (h t ht).begins hlhs hx) hyield

end Tree
end Argand
