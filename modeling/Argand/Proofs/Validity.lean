-- SUMMARY: The states of the automaton are the sets of valid items, and every string with valid items leads to one.
import Argand.Proofs.Building
import Argand.Proofs.Path

/-!
# Valid items and the states of the automaton

A chain of productions begins with the start production, and each production of it expands a
nonterminal in the right-hand side of the one before. An item is valid for the string that stands
left of the occurrences expanded and of its own dot (`IsValidItem`). The automaton leads every
string for which some item is valid to the state that holds just these items
(`collects_of_walk?`, `exists_walk?`), and every state is reached by such a string
(`exists_walk?_eq`).
-/
namespace Argand

namespace Automaton

variable {a : Automaton} {s X : Nat} {α : List Nat}

theorem walk?_append_singleton :
    a.walk? s (α ++ [X]) = (a.walk? s α).bind fun t => a.move? t X := by
  induction α generalizing s with
  | nil => cases hmove : a.move? s X <;> simp [walk?, hmove]
  | cons Y rest ih => cases hmove : a.move? s Y <;> simp [walk?, hmove, ih]

end Automaton

namespace Grammar

variable {g : Grammar} {α β pre post : List Nat} {a b : Item} {p q : Production} {m n s X : Nat}
  {items : List Item}

/-! ## Chains of productions -/

/-- A chain of productions from the start production on, each of which expands a nonterminal in the
right-hand side of the one before. The string is what stands left of the occurrences expanded, the
number is that of the last production. -/
inductive Chain (g : Grammar) : List Nat → Nat → Prop where
  | start : Chain g [] 0
  | expand {α pre post : List Nat} {m n : Nat} {p q : Production} :
      Chain g α n → g.productions[n]? = some p → p.rhs = pre ++ q.lhs :: post →
      g.productions[m]? = some q → Chain g (α ++ pre) m

/-- The item of production `n` with its dot between `pre` and `post` is valid for `α`: a chain ends
with the production, and what it leaves to its left, followed by `pre`, spells `α`. -/
def IsValidItem (g : Grammar) (α : List Nat) (n : Nat) (pre post : List Nat) : Prop :=
  ∃ β p, g.Chain β n ∧ g.productions[n]? = some p ∧ p.rhs = pre ++ post ∧ α = β ++ pre

theorem next?_of_split (hp : g.productions[n]? = some p) (hrhs : p.rhs = pre ++ X :: post) :
    g.next? ⟨n, pre.length + 1⟩ = some X :=
  next?_eq_some_iff.mpr ⟨p, hp, by simp [Production.symbols, hrhs]⟩

theorem eq_cons_of_next? (hp : g.productions[n]? = some p) (hrhs : p.rhs = pre ++ post)
    (hnext : g.next? ⟨n, pre.length + 1⟩ = some X) : ∃ rest, post = X :: rest := by
  obtain ⟨q, hq, hX⟩ := next?_eq_some_iff.mp hnext
  obtain rfl : p = q := Option.some.inj (hp.symm.trans hq)
  cases post with
  | nil => simp [Production.symbols, hrhs] at hX
  | cons Y rest => exact ⟨rest, by simpa [Production.symbols, hrhs] using hX⟩

/-- The dot of a valid item can be moved over as much of the right-hand side as one likes. -/
theorem Valid.advance_over (h : g.Valid α ⟨n, 1⟩) (hp : g.productions[n]? = some p)
    (hrhs : p.rhs = pre ++ post) : g.Valid (α ++ pre) ⟨n, pre.length + 1⟩ := by
  induction pre using List.reverseRecOn generalizing post with
  | nil => simpa using h
  | append_singleton pre X ih =>
      have hrhs' : p.rhs = pre ++ X :: post := by simpa using hrhs
      simpa [Item.advance] using (ih hrhs').advance (next?_of_split hp hrhs')

theorem Chain.valid (h : g.Chain α n) : g.Valid α ⟨n, 1⟩ := by
  induction h with
  | start => exact .start
  | expand _ hp hrhs hq ih =>
      exact .predict (ih.advance_over hp hrhs) (next?_of_split hp hrhs) hq

theorem Valid.isValidItem (hstart : g.productions[0]? = some q) (h : g.Valid α a) :
    ∃ pre post, a.dot = pre.length + 1 ∧ g.IsValidItem α a.production pre post := by
  induction h with
  | start => exact ⟨[], q.rhs, rfl, [], q, .start, hstart, rfl, rfl⟩
  | @advance α a X _ hnext ih =>
      obtain ⟨pre, post, hdot, β, p, hchain, hp, hrhs, rfl⟩ := ih
      obtain ⟨n, d⟩ := a
      obtain rfl : d = pre.length + 1 := hdot
      obtain ⟨rest, rfl⟩ := eq_cons_of_next? hp hrhs hnext
      exact ⟨pre ++ [X], rest, by simp [Item.advance], β, p, hchain, hp, by simpa using hrhs,
        by simp⟩
  | @predict α b m p' _ hnext hp' ih =>
      obtain ⟨pre, post, hdot, β, p, hchain, hp, hrhs, rfl⟩ := ih
      obtain ⟨n, d⟩ := b
      obtain rfl : d = pre.length + 1 := hdot
      obtain ⟨rest, rfl⟩ := eq_cons_of_next? hp hrhs hnext
      exact ⟨[], p'.rhs, rfl, β ++ pre, p', .expand hchain hp hrhs hp', hp', rfl, by simp⟩

/-- The items valid for a string are those that can be met after it. -/
theorem isValidItem_iff (hstart : g.productions[0]? = some q) :
    g.IsValidItem α n pre post ↔
      (∃ p, g.productions[n]? = some p ∧ p.rhs = pre ++ post) ∧
        g.Valid α ⟨n, pre.length + 1⟩ := by
  constructor
  · rintro ⟨β, p, hchain, hp, hrhs, rfl⟩
    exact ⟨⟨p, hp, hrhs⟩, hchain.valid.advance_over hp hrhs⟩
  · rintro ⟨⟨p, hp, hrhs⟩, hvalid⟩
    obtain ⟨pre', post', hdot, β, p', hchain, hp', hrhs', rfl⟩ := hvalid.isValidItem hstart
    obtain rfl : p = p' := Option.some.inj (hp.symm.trans hp')
    obtain ⟨rfl, rfl⟩ := List.append_inj (hrhs.symm.trans hrhs') (by simpa using hdot)
    exact ⟨β, p, hchain, hp, hrhs, rfl⟩

/-! ## Sets of valid items -/

/-- The items are those valid for a string. -/
def Collects (g : Grammar) (items : List Item) (α : List Nat) : Prop :=
  ∀ a, a ∈ items ↔ g.Valid α a

section

variable (hlhs : ∀ p ∈ g.productions, p.lhs < g.nonterminals)
include hlhs

theorem collects_start : g.Collects (g.closure [⟨0, 1⟩]) [] := by
  intro a
  constructor
  · refine closure_induction (P := g.Valid []) (fun b hb => ?_)
      (fun b _ hvalid n p hp hnext _ => .predict hvalid hnext hp) a
    exact List.mem_singleton.mp hb ▸ .start
  · intro h
    generalize hα : ([] : List Nat) = α at h
    induction h with
    | start => exact mem_closure.mpr (.inl (by simp))
    | advance => simp at hα
    | predict _ hnext hp ih =>
        exact mem_closure_of_next (ih hα) hnext (hlhs _ (List.mem_of_getElem? hp)) hp

theorem Collects.goto (h : g.Collects items α) : g.Collects (g.goto items X) (α ++ [X]) := by
  intro a
  rw [goto_eq_closure]
  constructor
  · refine closure_induction (P := g.Valid (α ++ [X])) (fun b hb => ?_)
      (fun b _ hvalid n p hp hnext _ => .predict hvalid hnext hp) a
    obtain ⟨c, hc, hnext, rfl⟩ := mem_movedOver.mp hb
    exact .advance ((h c).mp hc) hnext
  · intro hvalid
    generalize hβ : α ++ [X] = β at hvalid
    induction hvalid with
    | start => simp at hβ
    | advance hvalid hnext _ =>
        obtain ⟨rfl, rfl⟩ := List.append_singleton_inj.mp hβ
        exact mem_closure.mpr (.inl (mem_movedOver.mpr ⟨_, (h _).mpr hvalid, hnext, rfl⟩))
    | predict _ hnext hp ih =>
        exact mem_closure_of_next (ih hβ) hnext (hlhs _ (List.mem_of_getElem? hp)) hp

end

/-- What holds of the first item set and is kept by moving to some item holds of every state. -/
theorem states_induction {P : List Item → Prop} (hstart : P (g.closure [⟨0, 1⟩]))
    (hgoto : ∀ items X, P items → g.goto items X ≠ [] → P (g.goto items X)) : ∀ S ∈ g.automaton.states, P S := by
  have hexplore : ∀ (fuel : Nat) (a : Automaton), (∀ S ∈ a.states, P S) →
      ∀ S ∈ (g.explore fuel a).states, P S := by
    intro fuel
    induction fuel with
    | zero => exact fun a ha => ha
    | succ fuel ih =>
        intro a ha
        rw [explore]
        split
        · exact ha
        · rename_i items hitems
          refine ih _ fun S hS => ?_
          rcases (movesOver_movesFrom g items g.symbols a.states).origin S hS with
            hS | ⟨X, rfl, hne⟩
          · exact ha S hS
          · exact hgoto items X (ha items (List.mem_of_getElem? hitems)) hne
  exact hexplore _ _ (by simpa using hstart)

theorem states_ne_nil : ∀ S ∈ g.automaton.states, S ≠ [] :=
  states_induction (by simp [closure_eq_nil_iff]) fun _ _ _ hne => hne

/-! ## States -/

section

variable (hprod : 0 < g.productions.length)
include hprod

theorem lt_of_walk? (h : g.automaton.walk? 0 α = some s) : s < g.automaton.states.length := by
  cases α using List.reverseRecOn with
  | nil =>
      obtain rfl : 0 = s := by simpa [Automaton.walk?] using h
      exact zero_lt_states hprod
  | append_singleton β X =>
      rw [Automaton.walk?_append_singleton, Option.bind_eq_some_iff] at h
      obtain ⟨t, -, hmove⟩ := h
      exact (move?_eq_some hprod hmove).2.2.1

/-- The symbol after the dot of a valid item is one of a right-hand side. -/
theorem Valid.next_mem_rhs (h : g.Valid α a) (hnext : g.next? a = some X) :
    ∃ p ∈ g.productions, X ∈ p.rhs := by
  obtain ⟨pre, post, hdot, β, p, -, hp, hrhs, -⟩ :=
    h.isValidItem (List.getElem?_eq_getElem hprod)
  obtain ⟨n, d⟩ := a
  obtain rfl : d = pre.length + 1 := hdot
  obtain ⟨rest, rfl⟩ := eq_cons_of_next? hp hrhs hnext
  exact ⟨p, List.mem_of_getElem? hp, by simp [hrhs]⟩

variable (hlhs : ∀ p ∈ g.productions, p.lhs < g.nonterminals)
include hlhs

/-- A string leads to the state that holds the items valid for it. -/
theorem collects_of_walk? (h : g.automaton.walk? 0 α = some s) :
    g.Collects (g.itemsAt s) α := by
  induction α using List.reverseRecOn generalizing s with
  | nil =>
      obtain rfl : 0 = s := by simpa [Automaton.walk?] using h
      rw [itemsAt_zero hprod]
      exact collects_start hlhs
  | append_singleton α X ih =>
      rw [Automaton.walk?_append_singleton, Option.bind_eq_some_iff] at h
      obtain ⟨t, ht, hmove⟩ := h
      rw [(move?_eq_some hprod hmove).2.2.2.1]
      exact (ih ht).goto hlhs

variable (hsymbols : ∀ p ∈ g.productions, ∀ X ∈ p.rhs, X ∈ g.symbols)
include hsymbols

/-- A string for which an item is valid leads to a state. -/
theorem exists_walk? (h : g.Valid α a) : ∃ s, g.automaton.walk? 0 α = some s := by
  induction h with
  | start => exact ⟨0, rfl⟩
  | @advance α a X hvalid hnext ih =>
      obtain ⟨s, hs⟩ := ih
      obtain ⟨p, hp, hX⟩ := hvalid.next_mem_rhs hprod hnext
      have hX' := hsymbols p hp X hX
      obtain ⟨t, ht⟩ := exists_move? hprod (lt_of_walk? hprod hs) hX'
        ((collects_of_walk? hprod hlhs hs a).mpr hvalid) hnext
      exact ⟨t, by rw [Automaton.walk?_append_singleton, hs, Option.bind_some, ht]⟩
  | predict _ _ _ ih => exact ih

/-- Some string leads to each state. -/
theorem exists_walk?_eq (hs : s < g.automaton.states.length) :
    ∃ α, g.automaton.walk? 0 α = some s := by
  obtain ⟨hexplored, -⟩ := explored_automaton hprod
  have hitems := itemsAt_eq (List.getElem?_eq_getElem hs)
  obtain ⟨α, hα⟩ : ∃ α, g.Collects (g.itemsAt s) α := by
    rw [hitems]
    refine states_induction (P := fun S => ∃ α, g.Collects S α) ⟨[], collects_start hlhs⟩
      (fun items X h _ => ?_) _ (List.getElem_mem hs)
    obtain ⟨α, hα⟩ := h
    exact ⟨α ++ [X], hα.goto hlhs⟩
  obtain ⟨a, ha⟩ := List.exists_mem_of_ne_nil _ (states_ne_nil _ (List.getElem_mem hs))
  rw [← hitems] at ha
  -- The string leads to a state with the same items, and states are distinct.
  obtain ⟨t, ht⟩ := exists_walk? hprod hlhs hsymbols ((hα a).mp ha)
  have htlt := lt_of_walk? hprod ht
  have heq : g.automaton.states[t] = g.automaton.states[s] := by
    refine (hexplored.itemSets _ (List.getElem_mem htlt)).1.ext
      (hexplored.itemSets _ (List.getElem_mem hs)).1 fun b => ?_
    rw [← itemsAt_eq (List.getElem?_eq_getElem htlt), ← hitems, collects_of_walk? hprod hlhs ht b,
      hα b]
  exact ⟨α, (hexplored.nodup.getElem_inj_iff.mp heq) ▸ ht⟩

end

end Grammar
end Argand
