-- SUMMARY: The automaton has every state that it moves to, with the right items.
import Argand.Proofs.Items
import Mathlib.Data.Finset.Powerset
import Mathlib.Data.List.Infix

/-!
# The automaton is explored to its end

Exploration numbers each new item set and gives moves to the states in order. There are no more
states than sets of items, so the fuel suffices and at the end every state has its moves: over each
symbol that some dot precedes (`exists_move?`), and over no other, to the state whose items are the
closure of the items with the dot moved (`move?_eq_some`).
-/
namespace Argand

/-! ## Numbering -/

private theorem getElem?_of_isPrefix {α : Type} {l l' : List α} {n : Nat} {x : α} (h : l <+: l')
    (hx : l[n]? = some x) : l'[n]? = some x := by
  obtain ⟨hlt, rfl⟩ := List.getElem?_eq_some_iff.mp hx
  exact List.prefix_iff_getElem?.mp h n hlt

namespace Automaton

variable {items : List Item} {states : List (List Item)}

theorem prefix_number : states <+: (number items states).2 := by
  unfold number
  split
  · exact List.prefix_rfl
  · exact List.prefix_append _ _

theorem nodup_number (h : states.Nodup) : (number items states).2.Nodup := by
  unfold number
  split
  · exact h
  · rename_i hnone
    rw [List.nodup_append]
    refine ⟨h, by simp, ?_⟩
    intro x hx y hy heq
    obtain rfl := List.mem_singleton.mp hy
    exact List.idxOf?_eq_none_iff.mp hnone (heq ▸ hx)

theorem getElem?_number : (number items states).2[(number items states).1]? = some items := by
  unfold number
  split
  · rename_i s hs
    obtain ⟨hlt, heq, -⟩ := List.idxOf?_eq_some_iff.mp hs
    rw [List.getElem?_eq_getElem hlt, heq]
  · simp

theorem mem_number {x : List Item} (hx : x ∈ (number items states).2) : x ∈ states ∨ x = items := by
  unfold number at hx
  split at hx
  · exact .inl hx
  · simpa using hx

end Automaton

/-! ## Moves of one state -/

namespace Grammar

variable {g : Grammar} {items : List Item} {symbols : List Nat} {states : List (List Item)}
  {a b : Item} {n s t X : Nat}

/-- Moves out of an item set over some symbols, and the states known before and after. -/
structure MovesOver (g : Grammar) (items : List Item) (symbols : List Nat)
    (states : List (List Item)) (r : List (Nat × Nat) × List (List Item)) : Prop where
  extends_ : states <+: r.2
  nodup : states.Nodup → r.2.Nodup
  origin : ∀ S ∈ r.2, S ∈ states ∨ ∃ X, S = g.goto items X ∧ S ≠ []
  sound : ∀ X t, r.1.lookup X = some t →
    X ∈ symbols ∧ g.goto items X ≠ [] ∧ r.2[t]? = some (g.goto items X)
  complete : ∀ X ∈ symbols, g.goto items X ≠ [] → ∃ t, r.1.lookup X = some t

theorem movesOver_movesFrom (g : Grammar) (items : List Item) (symbols : List Nat)
    (states : List (List Item)) :
    g.MovesOver items symbols states (g.movesFrom items symbols states) := by
  induction symbols generalizing states with
  | nil =>
      exact ⟨List.prefix_rfl, id, fun S hS => .inl hS, by simp [movesFrom], by simp⟩
  | cons X rest ih =>
      rw [movesFrom]
      split
      · rename_i hnil
        obtain ⟨hext, hnodup, horigin, hsound, hcomplete⟩ := ih states
        refine ⟨hext, hnodup, horigin, fun Y t ht => ?_, fun Y hY hne => ?_⟩
        · obtain ⟨hmem, hrest⟩ := hsound Y t ht
          exact ⟨List.mem_cons_of_mem _ hmem, hrest⟩
        · rcases List.mem_cons.mp hY with rfl | hY
          · exact absurd hnil hne
          · exact hcomplete Y hY hne
      · rename_i target hne
        obtain ⟨hext, hnodup, horigin, hsound, hcomplete⟩ :=
          ih (Automaton.number (g.goto items X) states).2
        refine ⟨Automaton.prefix_number.trans hext, fun h => hnodup (Automaton.nodup_number h),
          fun S hS => ?_, fun Y t ht => ?_, fun Y hY hneY => ?_⟩
        · rcases horigin S hS with hS | hS
          · rcases Automaton.mem_number hS with hS | rfl
            · exact .inl hS
            · exact .inr ⟨X, rfl, hne⟩
          · exact .inr hS
        · rw [List.lookup_cons] at ht
          split at ht
          · rename_i hYX
            obtain rfl : Y = X := by simpa using hYX
            obtain rfl : _ = t := by simpa using ht
            exact ⟨List.mem_cons_self, hne, getElem?_of_isPrefix hext Automaton.getElem?_number⟩
          · obtain ⟨hmem, hrest⟩ := hsound Y t ht
            exact ⟨List.mem_cons_of_mem _ hmem, hrest⟩
        · rw [List.lookup_cons]
          split
          · exact ⟨_, rfl⟩
          · rename_i hYX
            rcases List.mem_cons.mp hY with rfl | hY
            · simp at hYX
            · exact hcomplete Y hY hneY

/-! ## How many states there can be -/

/-- The item is a production of the grammar with the dot at place 1 or later. -/
def IsItem (g : Grammar) (a : Item) : Prop :=
  ∃ p, g.productions[a.production]? = some p ∧ 1 ≤ a.dot ∧ a.dot ≤ p.symbols.length

/-- A strictly ascending list of items of the grammar. -/
def IsItemSet (g : Grammar) (items : List Item) : Prop :=
  Ascending items ∧ ∀ a ∈ items, g.IsItem a

theorem isItem_initial {p : Production} (hp : g.productions[n]? = some p) : g.IsItem ⟨n, 1⟩ :=
  ⟨p, hp, le_refl _, by simp [Production.symbols]⟩

theorem IsItem.advance (ha : g.IsItem a) (hnext : g.next? a = some X) : g.IsItem a.advance := by
  obtain ⟨p, hp, hdot, -⟩ := ha
  obtain ⟨q, hq, hX⟩ := next?_eq_some_iff.mp hnext
  obtain rfl : p = q := Option.some.inj (hp.symm.trans hq)
  obtain ⟨hlt, -⟩ := List.getElem?_eq_some_iff.mp hX
  exact ⟨p, hp, by simp [Item.advance], hlt⟩

theorem isItemSet_closure {kernel : List Item} (h : ∀ a ∈ kernel, g.IsItem a) :
    g.IsItemSet (g.closure kernel) :=
  ⟨ascending_closure, closure_induction h fun _ _ _ _ _ hp _ _ => isItem_initial hp⟩

theorem IsItemSet.goto (h : g.IsItemSet items) : g.IsItemSet (g.goto items X) := by
  rw [goto_eq_closure]
  refine isItemSet_closure fun b hb => ?_
  obtain ⟨a, ha, hnext, rfl⟩ := mem_movedOver.mp hb
  exact (h.2 a ha).advance hnext

/-- All items of the grammar. -/
def allItems (g : Grammar) : List Item :=
  g.productions.zipIdx.flatMap fun p => (List.range' 1 p.1.symbols.length).map fun d => ⟨p.2, d⟩

theorem length_allItems : g.allItems.length = g.itemCount := by
  have hlen : (fun p : Production × Nat => p.1.symbols.length) =
      (fun p => p.symbols.length) ∘ Prod.fst := rfl
  rw [allItems, itemCount, List.length_flatMap, List.length_flatMap]
  simp only [List.length_map, List.length_range']
  rw [hlen, ← List.map_map, List.zipIdx_map_fst]

theorem mem_allItems : a ∈ g.allItems ↔ g.IsItem a := by
  simp only [allItems, List.mem_flatMap, List.mem_map, List.mem_range'_1, Prod.exists,
    List.mem_zipIdx_iff_getElem?]
  constructor
  · rintro ⟨p, n, hp, d, ⟨hd, hlt⟩, rfl⟩
    exact ⟨p, hp, hd, by simp only; omega⟩
  · rintro ⟨p, hp, hd, hle⟩
    exact ⟨p, a.production, hp, a.dot, ⟨hd, by omega⟩, rfl⟩

/-- There are no more item sets than sets of items. -/
theorem length_le_of_isItemSet (hnodup : states.Nodup) (h : ∀ S ∈ states, g.IsItemSet S) :
    states.length ≤ 2 ^ g.itemCount := by
  have hmaps : ∀ S ∈ states.toFinset, S.toFinset ∈ g.allItems.toFinset.powerset := by
    intro S hS
    rw [Finset.mem_powerset]
    intro a ha
    rw [List.mem_toFinset] at ha ⊢
    exact mem_allItems.mpr ((h S (List.mem_toFinset.mp hS)).2 a ha)
  have hinj : Set.InjOn List.toFinset (states.toFinset : Set (List Item)) := by
    intro S hS T hT heq
    refine (h S (by simpa using hS)).1.ext (h T (by simpa using hT)).1 fun a => ?_
    rw [← List.mem_toFinset, heq, List.mem_toFinset]
  calc states.length = states.toFinset.card := (List.toFinset_card_of_nodup hnodup).symm
    _ ≤ g.allItems.toFinset.powerset.card := Finset.card_le_card_of_injOn _ hmaps hinj
    _ = 2 ^ g.allItems.toFinset.card := Finset.card_powerset _
    _ ≤ 2 ^ g.allItems.length := Nat.pow_le_pow_right (by decide) (List.toFinset_card_le _)
    _ = 2 ^ g.itemCount := by rw [length_allItems]

/-! ## Exploration -/

/-- What holds throughout exploration: distinct item sets, the start first, and right moves for
every state that has moves. -/
structure Explored (g : Grammar) (a : Automaton) : Prop where
  start : a.states[0]? = some (g.closure [⟨0, 1⟩])
  nodup : a.states.Nodup
  itemSets : ∀ S ∈ a.states, g.IsItemSet S
  moves_le : a.moves.length ≤ a.states.length
  sound : ∀ (s : Nat) (moves : List (Nat × Nat)) (items : List Item),
    a.moves[s]? = some moves → a.states[s]? = some items → ∀ X t, moves.lookup X = some t →
      X ∈ g.symbols ∧ g.goto items X ≠ [] ∧ a.states[t]? = some (g.goto items X)
  complete : ∀ (s : Nat) (moves : List (Nat × Nat)) (items : List Item),
    a.moves[s]? = some moves → a.states[s]? = some items → ∀ X ∈ g.symbols,
      g.goto items X ≠ [] → ∃ t, moves.lookup X = some t

theorem Explored.length_le {a : Automaton} (h : g.Explored a) :
    a.states.length ≤ 2 ^ g.itemCount :=
  length_le_of_isItemSet h.nodup h.itemSets

theorem explored_start (hprod : 0 < g.productions.length) :
    g.Explored ⟨[g.closure [⟨0, 1⟩]], []⟩ := by
  obtain ⟨p, hp⟩ : ∃ p, g.productions[0]? = some p := ⟨_, List.getElem?_eq_getElem hprod⟩
  refine ⟨rfl, by simp, ?_, by simp, by simp, by simp⟩
  have hkernel : ∀ a ∈ [⟨0, 1⟩], g.IsItem a := by simpa using isItem_initial hp
  simpa using isItemSet_closure hkernel

/-- Giving moves to the next state keeps the invariant. -/
theorem Explored.step {a : Automaton} (h : g.Explored a)
    (hnext : a.states[a.moves.length]? = some items) :
    g.Explored ⟨(g.movesFrom items g.symbols a.states).2,
      a.moves ++ [(g.movesFrom items g.symbols a.states).1]⟩ := by
  obtain ⟨hext, hnodup, horigin, hsound, hcomplete⟩ :=
    movesOver_movesFrom g items g.symbols a.states
  obtain ⟨hlt, -⟩ := List.getElem?_eq_some_iff.mp hnext
  have hitems : g.IsItemSet items := h.itemSets items (List.mem_of_getElem? hnext)
  -- A state that has moves is an old one, or the one that has just been given moves.
  have hcases : ∀ (s : Nat) (moves' : List (Nat × Nat)) (items' : List Item),
      (a.moves ++ [(g.movesFrom items g.symbols a.states).1])[s]? = some moves' →
      (g.movesFrom items g.symbols a.states).2[s]? = some items' →
      a.moves[s]? = some moves' ∧ a.states[s]? = some items' ∨
        moves' = (g.movesFrom items g.symbols a.states).1 ∧ items' = items := by
    intro s moves' items' hmoves hstate
    have hstates : s < a.states.length → a.states[s]? = some items' := fun hs => by
      rw [← hstate, getElem?_of_isPrefix hext (List.getElem?_eq_getElem hs)]
      exact List.getElem?_eq_getElem hs
    rcases Nat.lt_or_ge s a.moves.length with hs | hs
    · rw [List.getElem?_append_left hs] at hmoves
      exact .inl ⟨hmoves, hstates (by omega)⟩
    · rw [List.getElem?_append_right hs, List.getElem?_singleton] at hmoves
      split at hmoves
      · obtain rfl : s = a.moves.length := by omega
        rw [hstates hlt] at hnext
        exact .inr ⟨(Option.some.inj hmoves).symm, Option.some.inj hnext⟩
      · simp at hmoves
  refine ⟨getElem?_of_isPrefix hext h.start, hnodup h.nodup, fun S hS => ?_, ?_,
    fun s moves' items' hmoves hstate X t ht => ?_, fun s moves' items' hmoves hstate => ?_⟩
  · rcases horigin S hS with hS | ⟨X, rfl, -⟩
    · exact h.itemSets S hS
    · exact hitems.goto
  · have := hext.length_le
    simp only [List.length_append, List.length_singleton]
    omega
  · rcases hcases s moves' items' hmoves hstate with ⟨hm, hs⟩ | ⟨rfl, rfl⟩
    · obtain ⟨hX, hne, htarget⟩ := h.sound s moves' items' hm hs X t ht
      exact ⟨hX, hne, getElem?_of_isPrefix hext htarget⟩
    · exact hsound X t ht
  · rcases hcases s moves' items' hmoves hstate with ⟨hm, hs⟩ | ⟨rfl, rfl⟩
    · exact h.complete s moves' items' hm hs
    · exact hcomplete

/-- Exploration with fuel for every possible state leaves no state without moves. -/
theorem Explored.explore {a : Automaton} {fuel : Nat} (h : g.Explored a)
    (hfuel : 2 ^ g.itemCount < a.moves.length + fuel) :
    g.Explored (g.explore fuel a) ∧
      (g.explore fuel a).moves.length = (g.explore fuel a).states.length := by
  induction fuel generalizing a with
  | zero =>
      have := h.length_le
      have := h.moves_le
      omega
  | succ fuel ih =>
      rw [Grammar.explore]
      split
      · rename_i hnone
        have hge := List.getElem?_eq_none_iff.mp hnone
        exact ⟨h, le_antisymm h.moves_le hge⟩
      · rename_i items hnext
        exact ih (h.step hnext) (by simp only [List.length_append, List.length_singleton]; omega)

theorem explored_automaton (hprod : 0 < g.productions.length) :
    g.Explored g.automaton ∧ g.automaton.moves.length = g.automaton.states.length :=
  (explored_start hprod).explore (by simp)

/-! ## States and moves -/

/-- The items of a state of the automaton. -/
def itemsAt (g : Grammar) (s : Nat) : List Item :=
  g.automaton.states.getD s []

theorem itemsAt_eq (h : g.automaton.states[s]? = some items) : g.itemsAt s = items := by
  rw [itemsAt, List.getD_eq_getElem?_getD, h, Option.getD_some]

theorem itemsAt_zero (hprod : 0 < g.productions.length) : g.itemsAt 0 = g.closure [⟨0, 1⟩] :=
  itemsAt_eq (explored_automaton hprod).1.start

theorem zero_lt_states (hprod : 0 < g.productions.length) : 0 < g.automaton.states.length :=
  (List.getElem?_eq_some_iff.mp (explored_automaton hprod).1.start).1

private theorem move?_eq_lookup (hmove : g.automaton.move? s X = some t) :
    ∃ moves : List (Nat × Nat),
      g.automaton.moves[s]? = some moves ∧ moves.lookup X = some t := by
  rw [Automaton.move?, List.getD_eq_getElem?_getD] at hmove
  cases hmoves : g.automaton.moves[s]? with
  | none => simp [hmoves] at hmove
  | some moves => exact ⟨moves, rfl, by simpa [hmoves] using hmove⟩

theorem move?_eq_some (hprod : 0 < g.productions.length) (hmove : g.automaton.move? s X = some t) :
    X ∈ g.symbols ∧ s < g.automaton.states.length ∧ t < g.automaton.states.length ∧
      g.itemsAt t = g.goto (g.itemsAt s) X ∧ g.itemsAt t ≠ [] := by
  obtain ⟨hexp, hlen⟩ := explored_automaton hprod
  obtain ⟨moves, hmoves, hlookup⟩ := move?_eq_lookup hmove
  have hs : s < g.automaton.states.length := hlen ▸ (List.getElem?_eq_some_iff.mp hmoves).1
  have hstate := List.getElem?_eq_getElem hs
  obtain ⟨hX, hne, ht⟩ := hexp.sound s moves _ hmoves hstate X t hlookup
  rw [itemsAt_eq ht, itemsAt_eq hstate]
  exact ⟨hX, hs, (List.getElem?_eq_some_iff.mp ht).1, rfl, hne⟩

/-- A state moves over every symbol that stands right after one of its dots. -/
theorem exists_move? (hprod : 0 < g.productions.length) (hs : s < g.automaton.states.length)
    (hX : X ∈ g.symbols) (ha : a ∈ g.itemsAt s) (hnext : g.next? a = some X) :
    ∃ t, g.automaton.move? s X = some t := by
  obtain ⟨hexp, hlen⟩ := explored_automaton hprod
  have hstate := List.getElem?_eq_getElem hs
  have hmoves := List.getElem?_eq_getElem (hlen.symm ▸ hs)
  rw [itemsAt_eq hstate] at ha
  have hne : g.goto g.automaton.states[s] X ≠ [] := fun hnil =>
    goto_eq_nil_iff.mp hnil a ha hnext
  obtain ⟨t, ht⟩ := hexp.complete s _ _ hmoves hstate X hX hne
  refine ⟨t, ?_⟩
  rw [Automaton.move?, List.getD_eq_getElem?_getD, hmoves]
  exact ht

end Grammar
end Argand
