-- SUMMARY: The closure rules of nullability, FIRST and FOLLOW.
import Argand.Grammar.Lookahead
import Argand.Proofs.Saturation

/-!
# Closure rules of the lookahead sets

Nullability, FIRST and FOLLOW are saturations, so each is closed under its rule. The rules are
stated here one production at a time; for FOLLOW, one occurrence in a right-hand side at a time
(`mem_followOf_of_begins`, `mem_followOf_of_nullable`).
-/
namespace Argand.Grammar

variable {g : Grammar} {p : Production} {t A B X : Nat}

theorem mem_symbols : X ∈ g.symbols ↔ X < g.symbolCount :=
  List.mem_range

theorem mem_terminalSymbols :
    t ∈ g.terminalSymbols ↔ g.nonterminals ≤ t ∧ t < g.symbolCount := by
  rw [terminalSymbols, List.mem_range'_1, symbolCount]

theorem mem_symbols_of_terminal (ht : t ∈ g.terminalSymbols) : t ∈ g.symbols :=
  mem_symbols.mpr (mem_terminalSymbols.mp ht).2

theorem mem_symbols_of_nonterminal (hA : A < g.nonterminals) : A ∈ g.symbols :=
  mem_symbols.mpr (Nat.lt_of_lt_of_le hA (Nat.le_add_right _ _))

/-! ## Nullability -/

/-- The nullable symbols of the grammar, as a test. -/
def isNullable (g : Grammar) (X : Nat) : Bool :=
  g.nullables.contains X

theorem isNullable_of_production (hp : p ∈ g.productions) (hlhs : p.lhs < g.nonterminals)
    (hrhs : p.rhs.all g.isNullable = true) : g.isNullable p.lhs = true := by
  rw [isNullable, List.contains_iff_mem]
  refine saturate_closed (mem_symbols_of_nonterminal hlhs) ?_
  refine List.any_eq_true.mpr ⟨p, hp, ?_⟩
  rw [Bool.and_eq_true]
  exact ⟨beq_self_eq_true _, hrhs⟩

/-! ## FIRST -/

/-- Can what the symbol stands for begin with `t`? -/
def begins (g : Grammar) (t X : Nat) : Bool :=
  (g.beginners g.isNullable t).contains X

theorem begins_self (ht : t ∈ g.terminalSymbols) : g.begins t t = true := by
  rw [begins, List.contains_iff_mem]
  exact saturate_closed (mem_symbols_of_terminal ht) (by simp)

theorem begins_of_production (hp : p ∈ g.productions) (hlhs : p.lhs < g.nonterminals)
    (hrhs : beginsWith g.isNullable (g.begins t) p.rhs = true) : g.begins t p.lhs = true := by
  rw [begins, List.contains_iff_mem]
  refine saturate_closed (mem_symbols_of_nonterminal hlhs) ?_
  rw [Bool.or_eq_true]
  refine .inr (List.any_eq_true.mpr ⟨p, hp, ?_⟩)
  rw [Bool.and_eq_true]
  exact ⟨beq_self_eq_true _, hrhs⟩

/-! ## FOLLOW -/

theorem followedBy_append {nullable begins : Nat → Bool} {after : Bool} {pre post : List Nat}
    (h : (beginsWith nullable begins post || (post.all nullable && after)) = true) :
    followedBy nullable begins B after (pre ++ B :: post) = true := by
  induction pre with
  | nil => simp [followedBy, h]
  | cons X pre ih => simp [followedBy, ih]

theorem lookaheads_eq (hend : g.endMark ∈ g.terminalSymbols) :
    g.lookaheads = g.terminalSymbols := by
  rw [lookaheads, if_pos (List.contains_iff_mem.mpr hend)]

private theorem lookup_map_self {f : Nat → List Nat} {l : List Nat} (ht : t ∈ l) :
    (l.map fun x => (x, f x)).lookup t = some (f t) := by
  induction l with
  | nil => simp at ht
  | cons x rest ih =>
      rw [List.map_cons, List.lookup_cons]
      split
      · rename_i hx
        rw [beq_iff_eq.mp hx]
      · rename_i hx
        exact ih (List.mem_of_ne_of_mem (by simpa using hx) ht)

theorem mem_followOf (hend : g.endMark ∈ g.terminalSymbols) :
    t ∈ g.lookahead.followOf A ↔
      A < g.nonterminals ∧ t ∈ g.terminalSymbols ∧
        A ∈ g.preceders g.isNullable (g.begins t) t := by
  have hbegun : t ∈ g.terminalSymbols →
      (((g.terminalSymbols.map fun t => (t, g.beginners g.nullables.contains t)).lookup t).getD
        []).contains = g.begins t := fun ht => by
    rw [lookup_map_self ht]
    rfl
  rw [Lookahead.followOf, lookahead, List.getD_eq_getElem?_getD, List.getElem?_map,
    lookaheads_eq hend]
  by_cases hA : A < g.nonterminals
  · simp only [List.getElem?_range hA, Option.map_some, Option.getD_some, holding, List.mem_map,
      List.mem_filter, List.contains_iff_mem, hA, true_and]
    constructor
    · rintro ⟨_, ⟨⟨t, ht, rfl⟩, hmem⟩, rfl⟩
      rw [hbegun ht] at hmem
      exact ⟨ht, hmem⟩
    · rintro ⟨ht, hmem⟩
      refine ⟨_, ⟨⟨t, ht, rfl⟩, ?_⟩, rfl⟩
      rw [hbegun ht]
      exact hmem
  · simp [hA]

/-- The end mark follows the start symbol. -/
theorem endMark_mem_followOf (hend : g.endMark ∈ g.terminalSymbols) (hstart : 0 < g.nonterminals) :
    g.endMark ∈ g.lookahead.followOf 0 := by
  refine (mem_followOf hend).mpr ⟨hstart, hend, saturate_closed (List.mem_range.mpr hstart) ?_⟩
  simp

private theorem mem_followOf_of_occurrence {pre post : List Nat}
    (hend : g.endMark ∈ g.terminalSymbols) (ht : t ∈ g.terminalSymbols) (hp : p ∈ g.productions)
    (hrhs : p.rhs = pre ++ B :: post) (hB : B < g.nonterminals)
    (h : (beginsWith g.isNullable (g.begins t) post ||
      (post.all g.isNullable &&
        (g.preceders g.isNullable (g.begins t) t).contains p.lhs)) = true) :
    t ∈ g.lookahead.followOf B := by
  refine (mem_followOf hend).mpr ⟨hB, ht, saturate_closed (List.mem_range.mpr hB) ?_⟩
  rw [Bool.or_eq_true]
  refine .inr (List.any_eq_true.mpr ⟨p, hp, ?_⟩)
  rw [hrhs]
  exact followedBy_append h

/-- What comes after `B` in a right-hand side can begin with `t`. -/
theorem mem_followOf_of_begins {pre post : List Nat} (hend : g.endMark ∈ g.terminalSymbols)
    (ht : t ∈ g.terminalSymbols) (hp : p ∈ g.productions) (hrhs : p.rhs = pre ++ B :: post)
    (hB : B < g.nonterminals) (h : beginsWith g.isNullable (g.begins t) post = true) :
    t ∈ g.lookahead.followOf B :=
  mem_followOf_of_occurrence hend ht hp hrhs hB (by simp [h])

/-- What comes after `B` in a right-hand side can vanish. -/
theorem mem_followOf_of_nullable {pre post : List Nat} (hend : g.endMark ∈ g.terminalSymbols)
    (hp : p ∈ g.productions) (hrhs : p.rhs = pre ++ B :: post) (hB : B < g.nonterminals)
    (hpost : post.all g.isNullable = true) (h : t ∈ g.lookahead.followOf p.lhs) :
    t ∈ g.lookahead.followOf B := by
  obtain ⟨-, ht, hmem⟩ := (mem_followOf hend).mp h
  refine mem_followOf_of_occurrence hend ht hp hrhs hB ?_
  rw [Bool.or_eq_true, Bool.and_eq_true]
  exact .inr ⟨hpost, List.contains_iff_mem.mpr hmem⟩

end Argand.Grammar
