-- SUMMARY: Paths through the automaton, and what the items of their last state say about them.
import Argand.Parser
import Argand.Proofs.Derivation
import Argand.Proofs.Table

/-!
# Paths through the automaton

The states on the stack of a parser lie on a path from the start. An item of the last state tells
what was moved over last (`Path.recognised`) and why it is there (`Path.predicted`). It is valid for
the symbols of the path (`Path.valid`), so these go on to a sentential form (`Path.exists_derives`).
-/
open Argand.Parser (top)

namespace Argand

/-- The states of a path from the start, and the symbols moved over; both with the last first. -/
inductive Automaton.Path (a : Automaton) : List Nat → List Nat → Prop where
  | start : Path a [] [0]
  | move {α σ : List Nat} {s t X : Nat} :
      Path a α (s :: σ) → a.move? s X = some t → Path a (X :: α) (t :: s :: σ)

namespace Automaton.Path

variable {a : Automaton} {α σ : List Nat} {k t X : Nat}

theorem length_eq (h : a.Path α σ) : σ.length = α.length + 1 := by
  induction h with
  | start => rfl
  | move _ _ ih => simpa using ih

theorem push (h : a.Path α σ) (hmove : a.move? (top σ) X = some t) : a.Path (X :: α) (t :: σ) := by
  cases h with
  | start => exact .move .start hmove
  | move h' hm => exact .move (.move h' hm) hmove

theorem drop (h : a.Path α σ) (hk : k ≤ α.length) : a.Path (α.drop k) (σ.drop k) := by
  induction k generalizing α σ with
  | zero => exact h
  | succ k ih =>
      cases h with
      | start => simp at hk
      | move h' _ => exact ih h' (by simpa using hk)

end Automaton.Path

namespace Grammar

variable {g : Grammar} {α σ : List Nat} {a b : Item} {p : Production} {n X : Nat}
  (hprod : 0 < g.productions.length)
include hprod

/-! ## The last state -/

theorem Path.top_lt (h : g.automaton.Path α σ) : top σ < g.automaton.states.length := by
  cases h with
  | start => exact zero_lt_states hprod
  | move _ hmove => exact (move?_eq_some hprod hmove).2.2.1

/-- The items of the last state are the closure of a kernel: the start item, or items with the dot
moved over the last symbol. -/
theorem Path.exists_kernel (h : g.automaton.Path α σ) :
    ∃ kernel, g.itemsAt (top σ) = g.closure kernel ∧ ∀ a ∈ kernel,
      α = [] ∧ a = ⟨0, 1⟩ ∨ ∃ X β τ b, α = X :: β ∧ σ = top σ :: τ ∧ g.automaton.Path β τ ∧
        b ∈ g.itemsAt (top τ) ∧ g.next? b = some X ∧ a = b.advance := by
  cases h with
  | start => exact ⟨[⟨0, 1⟩], itemsAt_zero hprod, fun a ha => .inl ⟨rfl, by simpa using ha⟩⟩
  | @move β τ s t X hpath hmove =>
      refine ⟨g.movedOver (g.itemsAt s) X, ?_, fun a ha => .inr ?_⟩
      · rw [← goto_eq_closure]
        exact (move?_eq_some hprod hmove).2.2.2.1
      · obtain ⟨b, hb, hnext, rfl⟩ := mem_movedOver.mp ha
        exact ⟨X, β, s :: τ, b, rfl, rfl, hpath, hb, hnext, rfl⟩

/-- The last state predicts every production of a nonterminal right after a dot. -/
theorem Path.predict (h : g.automaton.Path α σ) (ha : a ∈ g.itemsAt (top σ))
    (hnext : g.next? a = some p.lhs) (hlhs : p.lhs < g.nonterminals)
    (hp : g.productions[n]? = some p) : ⟨n, 1⟩ ∈ g.itemsAt (top σ) := by
  obtain ⟨kernel, heq, -⟩ := Path.exists_kernel hprod h
  rw [heq] at ha ⊢
  exact mem_closure_of_next ha hnext hlhs hp

/-- What stands before the dot of an item was moved over last, and where that began the item has
its dot before the right-hand side. -/
theorem Path.recognised (h : g.automaton.Path α σ) (ha : a ∈ g.itemsAt (top σ)) :
    ∃ p, g.productions[a.production]? = some p ∧ 1 ≤ a.dot ∧ a.dot ≤ p.rhs.length + 1 ∧
      (p.rhs.take (a.dot - 1)).reverse <+: α ∧
      ⟨a.production, 1⟩ ∈ g.itemsAt (top (σ.drop (a.dot - 1))) := by
  induction h generalizing a with
  | start =>
      obtain ⟨p, hp⟩ : ∃ p, g.productions[0]? = some p := ⟨_, List.getElem?_eq_getElem hprod⟩
      have hmem : a ∈ g.closure [⟨0, 1⟩] := by rwa [← itemsAt_zero hprod]
      rcases predicted_of_mem_closure hmem with hkernel | ⟨hdot, -, -, q, hq, -⟩
      · obtain rfl := List.mem_singleton.mp hkernel
        exact ⟨p, hp, le_refl _, by simp, by simp, ha⟩
      · obtain ⟨n, d⟩ := a
        obtain rfl : d = 1 := hdot
        exact ⟨q, hq, le_refl _, by simp, by simp, ha⟩
  | @move α σ s t X hpath hmove ih =>
      have hmem : a ∈ g.closure (g.movedOver (g.itemsAt s) X) := by
        rwa [← goto_eq_closure, ← (move?_eq_some hprod hmove).2.2.2.1]
      rcases predicted_of_mem_closure hmem with hkernel | ⟨hdot, -, -, q, hq, -⟩
      · obtain ⟨b, hb, hnext, rfl⟩ := mem_movedOver.mp hkernel
        obtain ⟨q, hq, hdot, -, hprefix, hinitial⟩ := ih hb
        obtain ⟨q', hq', hX⟩ := next?_eq_some_iff.mp hnext
        obtain rfl : q = q' := Option.some.inj (hq.symm.trans hq')
        obtain ⟨d, hd⟩ : ∃ d, b.dot = d + 1 := ⟨b.dot - 1, by omega⟩
        rw [hd, Production.symbols, List.getElem?_cons_succ] at hX
        obtain ⟨hlt, -⟩ := List.getElem?_eq_some_iff.mp hX
        simp only [hd, Nat.add_sub_cancel] at hprefix hinitial
        refine ⟨q, hq, by simp [Item.advance], ?_, ?_, ?_⟩
        · simpa [Item.advance, hd] using Nat.succ_le_of_lt hlt
        · simp only [Item.advance, hd, Nat.add_sub_cancel, List.take_add_one, hX,
            Option.toList_some, List.reverse_append, List.reverse_singleton,
            List.singleton_append]
          exact (List.prefix_cons_inj X).mpr hprefix
        · simpa [Item.advance, hd] using hinitial
      · obtain ⟨n, d⟩ := a
        obtain rfl : d = 1 := hdot
        exact ⟨q, hq, le_refl _, by simp, by simp, ha⟩

/-- An item with its dot before the right-hand side is the start item at the start, or its
left-hand side stands right after the dot of another item. -/
theorem Path.predicted (h : g.automaton.Path α σ) (ha : ⟨n, 1⟩ ∈ g.itemsAt (top σ))
    (hp : g.productions[n]? = some p) :
    n = 0 ∧ α = [] ∨ ∃ b ∈ g.itemsAt (top σ), g.next? b = some p.lhs := by
  obtain ⟨kernel, heq, hkernel⟩ := Path.exists_kernel hprod h
  rw [heq] at ha ⊢
  rcases predicted_of_mem_closure ha with hmem | ⟨-, b, hb, q, hq, hnext⟩
  · rcases hkernel _ hmem with ⟨hα, hitem⟩ | ⟨X, β, τ, b, rfl, hσ, hpath, hb, -, hadvance⟩
    · exact .inl ⟨(Item.mk.injEq .. ▸ hitem).1, hα⟩
    · have hdot := (Path.recognised hprod hpath hb).choose_spec.2.1
      have : 1 = b.dot + 1 := congrArg Item.dot hadvance
      omega
  · obtain rfl : p = q := Option.some.inj (hp.symm.trans hq)
    exact .inr ⟨b, hb, hnext⟩

/-- What stands after a dot stands in a right-hand side. -/
theorem Path.next_mem_rhs (h : g.automaton.Path α σ) (ha : a ∈ g.itemsAt (top σ))
    (hnext : g.next? a = some X) : ∃ p ∈ g.productions, X ∈ p.rhs := by
  obtain ⟨p, hp, hdot, -⟩ := Path.recognised hprod h ha
  obtain ⟨q, hq, hX⟩ := next?_eq_some_iff.mp hnext
  obtain rfl : p = q := Option.some.inj (hp.symm.trans hq)
  obtain ⟨d, hd⟩ : ∃ d, a.dot = d + 1 := ⟨a.dot - 1, by omega⟩
  rw [hd, Production.symbols, List.getElem?_cons_succ] at hX
  exact ⟨p, List.mem_of_getElem? hp, List.mem_of_getElem? hX⟩

/-- A symbol that can be moved over stands after a dot. -/
theorem Path.exists_next_of_move? {s : Nat} (hmove : g.automaton.move? (top σ) X = some s) :
    ∃ a ∈ g.itemsAt (top σ), g.next? a = some X := by
  obtain ⟨-, -, -, heq, hne⟩ := move?_eq_some hprod hmove
  by_contra hnone
  refine hne (heq ▸ goto_eq_nil_iff.mpr fun a ha hnext => ?_)
  exact hnone ⟨a, ha, hnext⟩

/-- What was moved over stands in a right-hand side. -/
theorem Path.mem_rhs (h : g.automaton.Path α σ) : ∀ X ∈ α, ∃ p ∈ g.productions, X ∈ p.rhs := by
  induction h with
  | start => simp
  | @move α σ s t Y hpath hmove ih =>
      have hmove' : g.automaton.move? (top (s :: σ)) Y = some t := hmove
      obtain ⟨a, ha, hnext⟩ := Path.exists_next_of_move? hprod hmove'
      exact List.forall_mem_cons.mpr ⟨Path.next_mem_rhs hprod hpath ha hnext, ih⟩

/-! ## Valid items -/

omit hprod in
/-- The items that can be met after a string of symbols: the start item, items with the dot moved
over a further symbol, and items predicted by one that can be met. -/
inductive Valid (g : Grammar) : List Nat → Item → Prop where
  | start : Valid g [] ⟨0, 1⟩
  | advance {α : List Nat} {a : Item} {X : Nat} :
      Valid g α a → g.next? a = some X → Valid g (α ++ [X]) a.advance
  | predict {α : List Nat} {b : Item} {n : Nat} {p : Production} :
      Valid g α b → g.next? b = some p.lhs → g.productions[n]? = some p → Valid g α ⟨n, 1⟩

theorem Path.valid (h : g.automaton.Path α σ) (ha : a ∈ g.itemsAt (top σ)) :
    g.Valid α.reverse a := by
  induction h generalizing a with
  | start =>
      have hmem : a ∈ g.closure [⟨0, 1⟩] := by rwa [← itemsAt_zero hprod]
      refine closure_induction (P := g.Valid []) (fun b hb => ?_)
        (fun b _ hvalid n p hp hnext _ => ?_) a hmem
      · exact List.mem_singleton.mp hb ▸ .start
      · exact .predict hvalid hnext hp
  | @move α σ s t X hpath hmove ih =>
      have hmem : a ∈ g.closure (g.movedOver (g.itemsAt s) X) := by
        rwa [← goto_eq_closure, ← (move?_eq_some hprod hmove).2.2.2.1]
      rw [List.reverse_cons]
      refine closure_induction (P := g.Valid (α.reverse ++ [X])) (fun b hb => ?_)
        (fun b _ hvalid n p hp hnext _ => ?_) a hmem
      · obtain ⟨c, hc, hnext, rfl⟩ := mem_movedOver.mp hb
        exact .advance (ih hc) hnext
      · exact .predict hvalid hnext hp

omit hprod in
/-- The dot of a valid item is in its right-hand side, what stands before it ends the string, and
with what stands after it the string goes on to a sentential form of the goal. -/
theorem Valid.exists_split (hstart : g.productions[0]? = some ⟨0, 0, [g.goal]⟩)
    (h : g.Valid α a) :
    ∃ p pre post β γ, g.productions[a.production]? = some p ∧ p.rhs = pre ++ post ∧
      a.dot = pre.length + 1 ∧ α = β ++ pre ∧ g.Derives [g.goal] (α ++ post ++ γ) := by
  induction h with
  | start => exact ⟨_, [], [g.goal], [], [], hstart, rfl, rfl, rfl, .refl _⟩
  | advance _ hnext ih =>
      obtain ⟨p, pre, post, β, γ, hp, hrhs, hdot, rfl, hder⟩ := ih
      obtain ⟨q, hq, hX⟩ := next?_eq_some_iff.mp hnext
      obtain rfl : p = q := Option.some.inj (hp.symm.trans hq)
      rw [Production.symbols, hdot, List.getElem?_cons_succ, hrhs] at hX
      obtain ⟨Y, rest, rfl⟩ : ∃ Y rest, post = Y :: rest := by
        cases post with
        | nil => simp at hX
        | cons Y rest => exact ⟨Y, rest, rfl⟩
      obtain rfl : Y = _ := by simpa using hX
      exact ⟨p, pre ++ [Y], rest, β, γ, hp, by simpa using hrhs, by simp [Item.advance, hdot],
        by simp, by simpa using hder⟩
  | @predict α b n p _ hnext hp ih =>
      obtain ⟨q, pre, post, β, γ, hq, hrhs, hdot, rfl, hder⟩ := ih
      obtain ⟨q', hq', hX⟩ := next?_eq_some_iff.mp hnext
      obtain rfl : q = q' := Option.some.inj (hq.symm.trans hq')
      rw [Production.symbols, hdot, List.getElem?_cons_succ, hrhs] at hX
      obtain ⟨rest, rfl⟩ : ∃ rest, post = p.lhs :: rest := by
        cases post with
        | nil => simp at hX
        | cons Y rest => exact ⟨rest, by simpa using hX⟩
      refine ⟨p, [], p.rhs, β ++ pre, rest ++ γ, hp, rfl, rfl, by simp, ?_⟩
      have hstep := Step.expand (p := p) (β ++ pre) (rest ++ γ) (List.mem_of_getElem? hp)
      exact (by simpa using hder : g.Derives [g.goal] (β ++ pre ++ p.lhs :: (rest ++ γ))).step
        (by simpa using hstep)

omit hprod in
/-- A string for which an item is valid goes on to a sentential form of the goal. -/
theorem Valid.exists_derives (hstart : g.productions[0]? = some ⟨0, 0, [g.goal]⟩)
    (h : g.Valid α a) : ∃ γ, g.Derives [g.goal] (α ++ γ) := by
  obtain ⟨p, pre, post, β, γ, -, -, -, rfl, hder⟩ := h.exists_split hstart
  exact ⟨post ++ γ, by simpa using hder⟩

omit hprod in
/-- Where only the start production uses the goal, it is in no sentential form but itself. -/
theorem Derives.eq_or_goal_not_mem {v : List Nat} (h : g.Derives [g.goal] v)
    (hzero : g.productions[0]? = some ⟨0, 0, [g.goal]⟩) (hstart : ∀ p ∈ g.productions, 0 ∉ p.rhs)
    (hgoal : ∀ p ∈ g.productions, p.lhs ≠ 0 → g.goal ∉ p.rhs) : v = [g.goal] ∨ g.goal ∉ v := by
  have hne : ∀ X ∈ [g.goal], X ≠ 0 := by
    intro X hX heq
    exact hstart _ (List.mem_of_getElem? hzero) (heq ▸ hX)
  induction h with
  | refl => exact .inl rfl
  | step hder hstep ih =>
      obtain @⟨p, x, y, hp⟩ := hstep
      have hlhs : p.lhs ≠ 0 :=
        hder.forall_mem (Q := (· ≠ 0)) hne (fun q hq X hX heq => hstart q hq (heq ▸ hX)) _ (by simp)
      right
      rcases ih with heq | hnot
      · obtain ⟨rfl, rfl⟩ : x = [] ∧ y = [] := by
          cases x <;> cases y <;> simp_all
        simpa using hgoal p hp hlhs
      · intro hmem
        obtain hmem | hmem | hmem : g.goal ∈ x ∨ g.goal ∈ p.rhs ∨ g.goal ∈ y := by
          simpa using hmem
        · exact hnot (by simp [hmem])
        · exact hgoal p hp hlhs hmem
        · exact hnot (by simp [hmem])

/-- The symbols of a path go on to a sentential form of the goal. -/
theorem Path.exists_derives (h : g.automaton.Path α σ)
    (hstart : g.productions[0]? = some ⟨0, 0, [g.goal]⟩) :
    ∃ γ, g.Derives [g.goal] (α.reverse ++ γ) := by
  cases h with
  | start => exact ⟨[g.goal], .refl _⟩
  | move hpath hmove =>
      obtain ⟨a, ha⟩ := List.exists_mem_of_ne_nil _ (move?_eq_some hprod hmove).2.2.2.2
      exact (Path.valid hprod (hpath.move hmove) ha).exists_derives hstart

end Grammar
end Argand
