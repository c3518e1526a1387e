-- SUMMARY: The sets of a grammar hold exactly what derivations say, in whatever order its productions stand.
import Argand.Proofs.Follow
import Mathlib.Data.List.Sort

/-!
# The lookahead sets of a grammar

The sets are kept by symbol: whether it is nullable, its FIRST set and, for a nonterminal, its
FOLLOW set. `HasExactFirst` and `HasExactFollow` say that the rounds which find them come to an end
by themselves, that every symbol has its set, and that the set holds exactly the terminals that
derivations prescribe. Derivations do not know in which order productions stand or how often they
are listed, so neither do the sets.
-/
namespace Argand.Grammar

variable {g g' : Grammar} {u v : List Nat} {t A X : Nat}

/-! ## The rules by which the sets are found -/

/-- The symbol has a production that vanishes if the symbols found do. -/
def vanishes (g : Grammar) (found : List Nat) (X : Nat) : Bool :=
  g.productions.any fun p => p.lhs == X && p.rhs.all found.contains

/-- The symbol is `t`, or it has a production that begins with `t` if the symbols found do. -/
def starts (g : Grammar) (t : Nat) (found : List Nat) (X : Nat) : Bool :=
  X == t || g.productions.any fun p => p.lhs == X && beginsWith g.isNullable found.contains p.rhs

/-- What comes after the nonterminal somewhere is `t` if the nonterminals found can have `t` after
them. -/
def precedes (g : Grammar) (t : Nat) (found : List Nat) (A : Nat) : Bool :=
  (A == 0 && t == g.endMark) || g.productions.any fun p =>
    followedBy g.isNullable (g.begins t) A (found.contains p.lhs) p.rhs

/-! ## The sets by symbol -/

/-- Sets by terminal, turned round, are in the order of the terminals. -/
theorem holding_map (ts : List Nat) (f : Nat → List Nat) (X : Nat) :
    holding (ts.map fun t => (t, f t)) X = ts.filter fun t => (f t).contains X := by
  rw [holding, List.filter_map, List.map_map]
  exact List.map_id'' (fun _ => rfl) _

theorem getElem?_nullable (hX : X < g.symbolCount) :
    g.lookahead.nullable[X]? = some (g.isNullable X) := by
  rw [lookahead, List.getElem?_map, symbols, List.getElem?_range hX]
  rfl

theorem getElem?_first (hX : X < g.symbolCount) :
    g.lookahead.first[X]? = some (g.terminalSymbols.filter fun t => g.begins t X) := by
  rw [lookahead, List.getElem?_map, symbols, List.getElem?_range hX, Option.map_some, holding_map]
  rfl

theorem getElem?_follow (hA : A < g.nonterminals) :
    g.lookahead.follow[A]? = some (g.lookahead.followOf A) := by
  have hlength : g.lookahead.follow.length = g.nonterminals := by simp [lookahead]
  rw [Lookahead.followOf, List.getD_eq_getElem?_getD, List.getElem?_eq_getElem (by omega)]
  rfl

theorem ascending_terminalSymbols : g.terminalSymbols.Pairwise (· < ·) :=
  List.pairwise_lt_range'

theorem ascending_followOf (hend : g.endMark ∈ g.terminalSymbols) :
    (g.lookahead.followOf A).Pairwise (· < ·) := by
  rw [Lookahead.followOf, lookahead, List.getD_eq_getElem?_getD, List.getElem?_map,
    lookaheads_eq hend]
  by_cases hA : A < g.nonterminals
  · rw [List.getElem?_range hA, Option.map_some, Option.getD_some, holding_map]
    exact ascending_terminalSymbols.filter _
  · simp [hA]

/-! ## Exact sets -/

/-- Nullability and the FIRST sets are what derivations say they are. -/
structure HasExactFirst (g : Grammar) : Prop where
  nullables_end : saturateOnce g.symbols g.vanishes g.nullables = g.nullables
  beginners_end : ∀ t, saturateOnce g.symbols (g.starts t) (g.beginners g.isNullable t) =
    g.beginners g.isNullable t
  length_nullable : g.lookahead.nullable.length = g.symbolCount
  length_first : g.lookahead.first.length = g.symbolCount
  nullable : ∀ X < g.symbolCount, ∃ b, g.lookahead.nullable[X]? = some b ∧
    (b = true ↔ g.Derives [X] [])
  first : ∀ X < g.symbolCount, ∃ set, g.lookahead.first[X]? = some set ∧ set.Pairwise (· < ·) ∧
    ∀ t, t ∈ set ↔ t ∈ g.terminalSymbols ∧ ∃ v, g.Derives [X] (t :: v)

/-- The FOLLOW sets are what derivations say they are. -/
structure HasExactFollow (g : Grammar) : Prop where
  preceders_end : ∀ t ∈ g.terminalSymbols,
    saturateOnce (List.range g.nonterminals) (g.precedes t)
        (g.preceders g.isNullable (g.begins t) t) =
      g.preceders g.isNullable (g.begins t) t
  length_follow : g.lookahead.follow.length = g.nonterminals
  follow : ∀ A < g.nonterminals, ∃ set, g.lookahead.follow[A]? = some set ∧
    set.Pairwise (· < ·) ∧ ∀ t, t ∈ set ↔ t ∈ g.terminalSymbols ∧ g.CanFollow A t

section

variable (hlhs : ∀ p ∈ g.productions, p.lhs < g.nonterminals)
include hlhs

theorem isNullable_iff : g.isNullable X = true ↔ g.Derives [X] [] := by
  have h := all_isNullable_iff (u := [X]) hlhs
  rwa [List.all_cons, List.all_nil, Bool.and_true] at h

theorem begins_iff (ht : t ∈ g.terminalSymbols) :
    g.begins t X = true ↔ ∃ v, g.Derives [X] (t :: v) := by
  have h := beginsWith_iff (u := [X]) hlhs ht
  rwa [Grammar.beginsWith, Grammar.beginsWith, Bool.and_false, Bool.or_false] at h

theorem hasExactFirst : g.HasExactFirst where
  nullables_end := saturateOnce_saturate
  beginners_end _ := saturateOnce_saturate
  length_nullable := by simp [lookahead, symbols]
  length_first := by simp [lookahead, symbols]
  nullable X hX := ⟨_, getElem?_nullable hX, isNullable_iff hlhs⟩
  first X hX := by
    refine ⟨_, getElem?_first hX, ascending_terminalSymbols.filter _, fun t => ?_⟩
    rw [List.mem_filter]
    exact and_congr_right fun ht => begins_iff hlhs ht

theorem hasExactFollow (hend : g.endMark ∈ g.terminalSymbols) : g.HasExactFollow where
  preceders_end _ _ := saturateOnce_saturate
  length_follow := by simp [lookahead]
  follow A hA := by
    refine ⟨_, getElem?_follow hA, ascending_followOf hend, fun t => ?_⟩
    rw [mem_followOf_iff hlhs hend]
    exact and_iff_right hA

end

/-! ## Order and repetition of productions -/

/-- The same symbols and the same productions, in any order and any number of times. -/
structure SameProductions (g g' : Grammar) : Prop where
  nonterminals_eq : g'.nonterminals = g.nonterminals
  terminals_eq : g'.terminals = g.terminals
  endMark_eq : g'.endMark = g.endMark
  symbols_iff : ∀ l, (∃ p ∈ g'.productions, p.symbols = l) ↔ ∃ p ∈ g.productions, p.symbols = l

/-- A list with the same members will do. -/
theorem sameProductions_of_mem_iff {ps : List Production} (h : ∀ p, p ∈ ps ↔ p ∈ g.productions) :
    SameProductions g { g with productions := ps } :=
  ⟨rfl, rfl, rfl, fun l => by simp only [h]⟩

namespace SameProductions

variable (h : SameProductions g g')
include h

theorem symm : SameProductions g' g :=
  ⟨h.nonterminals_eq.symm, h.terminals_eq.symm, h.endMark_eq.symm, fun l => (h.symbols_iff l).symm⟩

theorem terminalSymbols_eq : g'.terminalSymbols = g.terminalSymbols := by
  rw [terminalSymbols, h.nonterminals_eq, h.terminals_eq, terminalSymbols]

theorem symbolCount_eq : g'.symbolCount = g.symbolCount := by
  rw [symbolCount, h.nonterminals_eq, h.terminals_eq, symbolCount]

/-- Each production of one grammar is listed in the other, under some number. -/
theorem exists_production {p : Production} (hp : p ∈ g.productions) :
    ∃ p' ∈ g'.productions, p'.lhs = p.lhs ∧ p'.rhs = p.rhs := by
  obtain ⟨p', hp', hsymbols⟩ := (h.symbols_iff p.symbols).mpr ⟨p, hp, rfl⟩
  obtain ⟨hlhs, hrhs⟩ := List.cons.inj hsymbols
  exact ⟨p', hp', hlhs, hrhs⟩

theorem derives (hder : g.Derives u v) : g'.Derives u v := by
  induction hder with
  | refl => exact .refl u
  | step _ hstep ih =>
      obtain @⟨p, x, y, hp⟩ := hstep
      obtain ⟨p', hp', hlhs, hrhs⟩ := h.exists_production hp
      have hstep' : g'.Step (x ++ p'.lhs :: y) (x ++ p'.rhs ++ y) := .expand x y hp'
      rw [hlhs, hrhs] at hstep'
      exact ih.step hstep'

theorem derives_iff : g'.Derives u v ↔ g.Derives u v :=
  ⟨h.symm.derives, h.derives⟩

theorem canFollow_iff : g'.CanFollow A t ↔ g.CanFollow A t := by
  simp only [CanFollow, h.derives_iff, h.nonterminals_eq, h.endMark_eq]

theorem lhs_lt (hlhs : ∀ p ∈ g.productions, p.lhs < g.nonterminals) :
    ∀ p ∈ g'.productions, p.lhs < g'.nonterminals := by
  intro p hp
  obtain ⟨p', hp', hlhs', -⟩ := h.symm.exists_production hp
  rw [← hlhs', h.nonterminals_eq]
  exact hlhs p' hp'

end SameProductions

/-- Ascending sets with the same members at the same places are the same sets. -/
private theorem sets_eq {sets sets' : List (List Nat)} {member member' : Nat → Nat → Prop}
    (hlength : sets'.length = sets.length) (hmember : ∀ i x, member' i x ↔ member i x)
    (h : ∀ i < sets.length, ∃ set, sets[i]? = some set ∧ set.Pairwise (· < ·) ∧
      ∀ x, x ∈ set ↔ member i x)
    (h' : ∀ i < sets'.length, ∃ set, sets'[i]? = some set ∧ set.Pairwise (· < ·) ∧
      ∀ x, x ∈ set ↔ member' i x) : sets' = sets := by
  refine List.ext_getElem? fun i => ?_
  by_cases hi : i < sets.length
  · obtain ⟨set, hset, hascending, hmem⟩ := h i hi
    obtain ⟨set', hset', hascending', hmem'⟩ := h' i (hlength ▸ hi)
    have heq : set' = set := hascending'.eq_of_mem_iff hascending fun x => by
      rw [hmem', hmem, hmember]
    rw [hset, hset', heq]
  · rw [List.getElem?_eq_none (Nat.le_of_not_lt hi),
      List.getElem?_eq_none (hlength ▸ Nat.le_of_not_lt hi)]

namespace SameProductions

variable (h : SameProductions g g')
include h

theorem nullable_eq (hexact : g.HasExactFirst) (hexact' : g'.HasExactFirst) :
    g'.lookahead.nullable = g.lookahead.nullable := by
  have hcount := h.symbolCount_eq
  refine List.ext_getElem? fun X => ?_
  by_cases hX : X < g.symbolCount
  · obtain ⟨b, hb, hder⟩ := hexact.nullable X hX
    obtain ⟨b', hb', hder'⟩ := hexact'.nullable X (hcount ▸ hX)
    have heq : b' = b := by rw [Bool.eq_iff_iff, hder, hder', h.derives_iff]
    rw [hb, hb', heq]
  · have hlength := hexact.length_nullable
    have hlength' := hexact'.length_nullable
    rw [List.getElem?_eq_none (by omega), List.getElem?_eq_none (by omega)]

theorem first_eq (hexact : g.HasExactFirst) (hexact' : g'.HasExactFirst) :
    g'.lookahead.first = g.lookahead.first := by
  refine sets_eq (by rw [hexact.length_first, hexact'.length_first, h.symbolCount_eq])
    (fun X t => ?_) (hexact.length_first ▸ hexact.first) (hexact'.length_first ▸ hexact'.first)
  simp only [h.terminalSymbols_eq, h.derives_iff]

theorem follow_eq (hexact : g.HasExactFollow) (hexact' : g'.HasExactFollow) :
    g'.lookahead.follow = g.lookahead.follow := by
  refine sets_eq (by rw [hexact.length_follow, hexact'.length_follow, h.nonterminals_eq])
    (fun A t => ?_) (hexact.length_follow ▸ hexact.follow)
    (hexact'.length_follow ▸ hexact'.follow)
  rw [h.terminalSymbols_eq, h.canFollow_iff]

end SameProductions

end Argand.Grammar
