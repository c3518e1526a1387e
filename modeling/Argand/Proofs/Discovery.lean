-- SUMMARY: The automaton is the canonical one: its states are the sets of valid items, in the order in which they are discovered.
import Argand.Gallery.Grammars
import Argand.Proofs.Validity

/-!
# The canonical automaton

The states of the automaton are the sets of valid items, each once, and all of them can be reached
(`automaton_isCanonical`). Exploration goes through the states in order and through the symbols in
order, and an item set that is not known yet gets the next number. The targets of all moves, in that
order, therefore show the numbers in order, each one used for the first time right after all smaller
ones (`UsesInOrder`).
-/
namespace Argand

/-! ## Numbers in order of their first use -/

/-- The numbers used are those below `n`, and the first uses of them are in order. -/
def UsesInOrder (used : List Nat) (n : Nat) : Prop :=
  used.eraseDups = List.range n

namespace UsesInOrder

variable {used : List Nat} {n x : Nat}

theorem mem_iff (h : UsesInOrder used n) : x ∈ used ↔ x < n := by
  rw [← List.mem_eraseDups, h, List.mem_range]

/-- A number that was used before may be used again. -/
theorem reuse (h : UsesInOrder used n) (hx : x < n) : UsesInOrder (used ++ [x]) n := by
  have hold : [x].removeAll used = [] := by simp [List.removeAll, h.mem_iff, hx]
  rw [UsesInOrder, List.eraseDups_append, hold, h]
  exact List.append_nil _

/-- The next number may be used. -/
theorem next (h : UsesInOrder used n) : UsesInOrder (used ++ [n]) (n + 1) := by
  have hnew : [n].removeAll used = [n] := by simp [List.removeAll, h.mem_iff]
  rw [UsesInOrder, List.eraseDups_append, hnew, h, List.range_succ]
  rfl

/-- Numbering an item set uses an old number or the next one. -/
theorem number {states : List (List Item)} (h : UsesInOrder used states.length)
    (items : List Item) :
    UsesInOrder (used ++ [(Automaton.number items states).1])
      (Automaton.number items states).2.length := by
  unfold Automaton.number
  split
  · rename_i s hs
    obtain ⟨hlt, -⟩ := List.idxOf?_eq_some_iff.mp hs
    exact h.reuse hlt
  · simpa using h.next

end UsesInOrder

/-! ## Moves in order -/

namespace Grammar

variable {g : Grammar} {items : List Item} {symbols used : List Nat} {states : List (List Item)}
  {a : Automaton}

theorem usesInOrder_movesFrom (h : UsesInOrder used states.length) :
    UsesInOrder (used ++ (g.movesFrom items symbols states).1.map (·.2))
      (g.movesFrom items symbols states).2.length := by
  induction symbols generalizing used states with
  | nil => simpa [movesFrom] using h
  | cons X rest ih =>
      rw [movesFrom]
      split
      · exact ih h
      · rename_i target _
        simpa using ih (h.number (g.goto items X))

/-- Each symbol is moved over once at most, in the order of the symbols. -/
theorem movesFrom_sublist :
    ((g.movesFrom items symbols states).1.map (·.1)).Sublist symbols := by
  induction symbols generalizing states with
  | nil => simp [movesFrom]
  | cons X rest ih =>
      rw [movesFrom]
      split
      · exact ih.cons X
      · exact ih.cons_cons X

/-- The moves of every state are ascending by symbol, and the targets of all moves are numbered in
order, the start being known from the beginning. -/
structure IsOrdered (a : Automaton) : Prop where
  symbols : ∀ moves ∈ a.moves, (moves.map (·.1)).Pairwise (· < ·)
  targets : UsesInOrder (0 :: a.moves.flatMap (·.map (·.2))) a.states.length

/-- Giving moves to a state keeps the order. -/
theorem IsOrdered.step (h : IsOrdered a) :
    IsOrdered ⟨(g.movesFrom items g.symbols a.states).2,
      a.moves ++ [(g.movesFrom items g.symbols a.states).1]⟩ := by
  refine ⟨fun moves hmoves => ?_, by simpa using usesInOrder_movesFrom h.targets⟩
  rcases List.mem_append.mp hmoves with hmoves | hmoves
  · exact h.symbols moves hmoves
  · obtain rfl := List.mem_singleton.mp hmoves
    exact List.pairwise_lt_range.sublist movesFrom_sublist

theorem IsOrdered.explore {fuel : Nat} (h : IsOrdered a) : IsOrdered (g.explore fuel a) := by
  induction fuel generalizing a with
  | zero => exact h
  | succ fuel ih =>
      rw [Grammar.explore]
      split
      · exact h
      · exact ih h.step

theorem isOrdered_automaton : IsOrdered g.automaton :=
  IsOrdered.explore ⟨by simp, rfl⟩

/-! ## The end of exploration -/

theorem explore_add (m n : Nat) : g.explore (m + n) a = g.explore n (g.explore m a) := by
  induction m generalizing a with
  | zero => rw [Nat.zero_add, explore]
  | succ m ih =>
      rw [Nat.succ_add, explore, explore]
      split
      · rename_i hnone
        cases n <;> simp [explore, hnone]
      · exact ih

/-- Where every state has its moves, nothing is left to explore. -/
theorem explore_of_length_eq (h : a.moves.length = a.states.length) (fuel : Nat) :
    g.explore fuel a = a := by
  cases fuel with
  | zero => rfl
  | succ fuel => simp [explore, h]

/-! ## The canonical automaton -/

variable {α : List Nat}

/-- A string leads to a state if an item is valid for it, and then to the state that holds just the
items valid for it. States are distinct and can be reached, all of them have their moves, ascending
by symbol, and states are numbered in the order in which moves lead to them. -/
structure IsCanonical (g : Grammar) (a : Automaton) : Prop where
  leads : ∀ α, (∃ s, a.walk? 0 α = some s) ↔ ∃ n pre post, g.IsValidItem α n pre post
  holds : ∀ α s, a.walk? 0 α = some s → ∃ items, a.states[s]? = some items ∧ ∀ n d,
    ⟨n, d⟩ ∈ items ↔ ∃ pre post, d = pre.length + 1 ∧ g.IsValidItem α n pre post
  distinct : ∀ (s t : Nat) (S T : List Item), a.states[s]? = some S → a.states[t]? = some T →
    (∀ item, item ∈ S ↔ item ∈ T) → s = t
  reached : ∀ s < a.states.length, ∃ α, a.walk? 0 α = some s
  finished : a.moves.length = a.states.length
  ascending : ∀ moves ∈ a.moves, (moves.map (·.1)).Pairwise (· < ·)
  discovered : (0 :: a.moves.flatMap (·.map (·.2))).eraseDups = List.range a.states.length

/-- The items that can be met after a string are those that are valid for it. -/
theorem valid_iff (hprod : 0 < g.productions.length) {n d : Nat} :
    g.Valid α ⟨n, d⟩ ↔ ∃ pre post, d = pre.length + 1 ∧ g.IsValidItem α n pre post := by
  have hstart := List.getElem?_eq_getElem hprod
  constructor
  · exact fun h => h.isValidItem hstart
  · rintro ⟨pre, post, rfl, hitem⟩
    exact ((isValidItem_iff hstart).mp hitem).2

/-- Where there is a production to start from and all symbols are in their ranges, exploration comes
to its end, whatever fuel above the bound it has, and gives the canonical automaton. -/
theorem automaton_isCanonical (hprod : 0 < g.productions.length)
    (hlhs : ∀ p ∈ g.productions, p.lhs < g.nonterminals)
    (hsymbols : ∀ p ∈ g.productions, ∀ X ∈ p.rhs, X ∈ g.symbols) :
    g.IsCanonical g.automaton ∧
      ∀ fuel > 2 ^ g.itemCount, g.explore fuel ⟨[g.closure [⟨0, 1⟩]], []⟩ = g.automaton := by
  obtain ⟨hexplored, hfinished⟩ := explored_automaton hprod
  refine ⟨⟨fun α => ⟨?_, ?_⟩, fun α s hwalk => ?_, fun s t S T hS hT hmem => ?_,
    fun s hs => exists_walk?_eq hprod hlhs hsymbols hs, hfinished, isOrdered_automaton.symbols,
    isOrdered_automaton.targets⟩, fun fuel hfuel => ?_⟩
  · rintro ⟨s, hwalk⟩
    have hs := lt_of_walk? hprod hwalk
    obtain ⟨⟨n, d⟩, hitem⟩ :=
      List.exists_mem_of_ne_nil _ (states_ne_nil _ (List.getElem_mem hs))
    rw [← itemsAt_eq (List.getElem?_eq_getElem hs)] at hitem
    obtain ⟨pre, post, -, hvalid⟩ :=
      (valid_iff hprod).mp ((collects_of_walk? hprod hlhs hwalk _).mp hitem)
    exact ⟨n, pre, post, hvalid⟩
  · rintro ⟨n, pre, post, hitem⟩
    exact exists_walk? hprod hlhs hsymbols ((valid_iff hprod).mpr ⟨pre, post, rfl, hitem⟩)
  · have hs := lt_of_walk? hprod hwalk
    have hstate := List.getElem?_eq_getElem hs
    refine ⟨_, hstate, fun n d => ?_⟩
    rw [← itemsAt_eq hstate, collects_of_walk? hprod hlhs hwalk ⟨n, d⟩, valid_iff hprod]
  · obtain ⟨hs, rfl⟩ := List.getElem?_eq_some_iff.mp hS
    obtain ⟨ht, rfl⟩ := List.getElem?_eq_some_iff.mp hT
    exact hexplored.nodup.getElem_inj_iff.mp ((hexplored.itemSets _ (List.getElem_mem hs)).1.ext
      (hexplored.itemSets _ (List.getElem_mem ht)).1 hmem)
  · obtain ⟨k, rfl⟩ := Nat.exists_eq_add_of_lt hfuel
    rw [Nat.add_right_comm, explore_add]
    exact explore_of_length_eq hfinished k

/-- The first production may go from the start symbol to two symbols. -/
theorem automaton_isCanonical_longStart :
    Gallery.longStart.productions[0]? = some ⟨0, 0, [1, 1]⟩ ∧
      Gallery.longStart.IsCanonical Gallery.longStart.automaton :=
  ⟨by decide +kernel, (automaton_isCanonical (g := Gallery.longStart) (by decide +kernel)
    (by decide +kernel) (by decide +kernel)).1⟩

end Grammar
end Argand
