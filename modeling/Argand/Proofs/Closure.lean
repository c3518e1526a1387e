-- SUMMARY: Closures are least closed sets, and predicting one item after the other ends with them.
import Argand.Proofs.Items
import Mathlib.Data.List.Perm.Subperm
import Mathlib.Data.Set.Basic
import Mathlib.Logic.Function.Iterate
import Mathlib.Order.Bounds.Basic

/-!
# Closures are least closed sets

The closure of a set of items is the least closed set that holds them (`isLeast_closure`), so it
grows with the set and closing it again adds nothing. It can be found one item at a time: make the
predictions of a pending item, and put those that are new among the known and the pending items.
Every item of the closure becomes known once and is pending once, so there are as many steps as the
closure has items (`iterate_predictNext`), also where nonterminals predict one another in a circle.
-/
namespace Argand

open Grammar

variable {a b : Item} {items : List Item}

/-- Items that are all different are only brought into order. -/
theorem length_sortItems (h : items.Nodup) : (sortItems items).length = items.length :=
  ((List.perm_ext_iff_of_nodup ascending_sortItems.nodup h).mpr fun _ => mem_sortItems).length_eq

namespace Grammar

variable {g : Grammar} {more : List Item} {n : Nat}

/-! ## The least closed set -/

/-- With an item, a closed set holds the initial item of every production of the nonterminal right
after its dot. -/
def IsClosed (g : Grammar) (S : Set Item) : Prop :=
  ∀ a ∈ S, ∀ n p, g.productions[n]? = some p → g.next? a = some p.lhs → p.lhs < g.nonterminals →
    ⟨n, 1⟩ ∈ S

/-- The closed sets that hold some items. -/
def closedSets (g : Grammar) (items : List Item) : Set (Set Item) :=
  {S | (∀ a ∈ items, a ∈ S) ∧ g.IsClosed S}

theorem isLeast_closure : IsLeast (g.closedSets items) {a | a ∈ g.closure items} := by
  constructor
  · exact ⟨fun _ ha => mem_closure.mpr (.inl ha),
      fun _ ha _ _ hp hnext hlhs => mem_closure_of_next ha hnext hlhs hp⟩
  · rintro S ⟨hitems, hclosed⟩
    exact closure_induction hitems fun b _ hb => hclosed b hb

/-- An ascending list is the closure when its items form the least closed set. -/
theorem eq_closure_of_isLeast (hasc : Ascending more)
    (h : IsLeast (g.closedSets items) {a | a ∈ more}) : more = g.closure items :=
  hasc.ext ascending_closure (Set.ext_iff.mp (h.unique isLeast_closure))

theorem closure_subset_iff : g.closure items ⊆ g.closure more ↔ items ⊆ g.closure more := by
  constructor
  · exact fun h a ha => h (mem_closure.mpr (.inl ha))
  · exact fun h => isLeast_closure.2 ⟨fun _ ha => h ha, isLeast_closure.1.2⟩

theorem closure_mono (h : items ⊆ more) : g.closure items ⊆ g.closure more :=
  closure_subset_iff.mpr fun _ ha => mem_closure.mpr (.inl (h ha))

theorem closure_closure : g.closure (g.closure items) = g.closure items := by
  refine ascending_closure.ext ascending_closure fun a => ⟨fun ha => ?_, fun ha => ?_⟩
  · exact closure_subset_iff.mpr (List.Subset.refl _) ha
  · exact mem_closure.mpr (.inl ha)

/-! ## Predictions -/

/-- The initial items of the productions of the nonterminal right after the dot. -/
def predictions (g : Grammar) (a : Item) : List Item :=
  g.initialItems ((g.next? a).toList.filter g.isNonterminal)

theorem mem_predictions :
    b ∈ g.predictions a ↔ b.dot = 1 ∧ ∃ p, g.productions[b.production]? = some p ∧
      g.next? a = some p.lhs ∧ p.lhs < g.nonterminals := by
  simp [predictions, mem_initialItems, isNonterminal]

theorem nodup_initialItems {Bs : List Nat} : (g.initialItems Bs).Nodup := by
  have hnumbers : (g.productions.zipIdx.map (·.2)).Nodup := by
    rw [List.zipIdx_map_snd]
    exact List.nodup_range'
  refine List.pairwise_map.mpr (((List.pairwise_map.mp hnumbers).filter _).imp ?_)
  exact fun hne heq => hne (congrArg Item.production heq)

theorem isClosed_iff_predictions :
    g.IsClosed {a | a ∈ items} ↔ ∀ a ∈ items, g.predictions a ⊆ items := by
  constructor
  · intro h a ha b hb
    obtain ⟨hdot, p, hp, hnext, hlhs⟩ := mem_predictions.mp hb
    have hmem := h a ha b.production p hp hnext hlhs
    cases b
    simp_all
  · intro h a ha n p hp hnext hlhs
    exact h a ha (mem_predictions.mpr ⟨rfl, p, hp, hnext, hlhs⟩)

end Grammar

/-! ## Working items off -/

/-- The items found so far, ascending, and those of them whose predictions are still to be made, the
next one first. -/
structure Worklist where
  known : List Item
  pending : List Item

namespace Worklist

variable {g : Grammar} {w : Worklist} {n : Nat}

/-- All of the items are pending, the last one comes first. -/
def start (items : List Item) : Worklist :=
  ⟨sortItems items, (sortItems items).reverse⟩

/-- The predictions of an item that are not known yet. -/
def fresh (g : Grammar) (w : Worklist) (a : Item) : List Item :=
  (g.predictions a).filter fun b => !w.known.contains b

/-- Make the predictions of the next pending item. Those that are new come before the other pending
items, the last one first. -/
def predictNext (g : Grammar) (w : Worklist) : Worklist :=
  match w.pending with
  | [] => w
  | a :: rest => ⟨sortItems (w.fresh g a ++ w.known), (w.fresh g a).reverse ++ rest⟩

theorem mem_fresh : b ∈ w.fresh g a ↔ b ∈ g.predictions a ∧ b ∉ w.known := by
  simp [fresh]

/-- No new prediction is among what is known, and none is made twice. -/
theorem nodup_fresh_append (h : w.known.Nodup) : (w.fresh g a ++ w.known).Nodup := by
  refine List.nodup_append.mpr ⟨nodup_initialItems.filter _, h, ?_⟩
  rintro b hb c hc rfl
  exact (mem_fresh.mp hb).2 hc

/-- What has been found from some items after `n` steps, each of which has used up a pending item:
no more than the closure, and no less than the items and the predictions of all that are not
pending. -/
structure IsAfter (g : Grammar) (items : List Item) (n : Nat) (w : Worklist) : Prop where
  ascending : Ascending w.known
  given : items ⊆ w.known
  found : w.known ⊆ g.closure items
  pending : w.pending ⊆ w.known
  predicted : ∀ a ∈ w.known, a ∈ w.pending ∨ g.predictions a ⊆ w.known
  count : w.known.length = w.pending.length + n

theorem isAfter_start : IsAfter g items 0 (start items) where
  ascending := ascending_sortItems
  given := fun _ ha => mem_sortItems.mpr ha
  found := fun _ ha => mem_closure.mpr (.inl (mem_sortItems.mp ha))
  pending := fun _ ha => List.mem_reverse.mp ha
  predicted := fun _ ha => .inl (List.mem_reverse.mpr ha)
  count := by simp [start]

theorem IsAfter.predictNext (h : IsAfter g items n w) (hpending : w.pending ≠ []) :
    IsAfter g items (n + 1) (w.predictNext g) := by
  obtain ⟨a, rest, hw⟩ := List.exists_cons_of_ne_nil hpending
  have ha : a ∈ w.known := h.pending (by simp [hw])
  have hknown : ∀ b, b ∈ sortItems (w.fresh g a ++ w.known) ↔ b ∈ w.fresh g a ∨ b ∈ w.known :=
    fun b => mem_sortItems.trans List.mem_append
  rw [Worklist.predictNext, hw]
  constructor
  case ascending => exact ascending_sortItems
  case given => exact fun b hb => (hknown b).mpr (.inr (h.given hb))
  case found =>
    intro b hb
    rcases (hknown b).mp hb with hb | hb
    · exact isClosed_iff_predictions.mp isLeast_closure.1.2 a (h.found ha) (mem_fresh.mp hb).1
    · exact h.found hb
  case pending =>
    intro b hb
    rcases List.mem_append.mp hb with hb | hb
    · exact (hknown b).mpr (.inl (List.mem_reverse.mp hb))
    · exact (hknown b).mpr (.inr (h.pending (by simp [hw, hb])))
  case predicted =>
    intro b hb
    rcases (hknown b).mp hb with hb | hb
    · exact .inl (List.mem_append.mpr (.inl (List.mem_reverse.mpr hb)))
    · rcases h.predicted b hb with hb | hb
      · rcases List.mem_cons.mp (hw ▸ hb) with rfl | hb
        · -- The item whose turn it is: what it predicts is new or was known.
          refine .inr fun c hc => (hknown c).mpr ?_
          by_cases hc' : c ∈ w.known
          · exact .inr hc'
          · exact .inl (mem_fresh.mpr ⟨hc, hc'⟩)
        · exact .inl (List.mem_append.mpr (.inr hb))
      · exact .inr fun c hc => (hknown c).mpr (.inr (hb hc))
  case count =>
    have hcount := h.count
    rw [hw, List.length_cons] at hcount
    rw [length_sortItems (nodup_fresh_append h.ascending.nodup), List.length_append, List.length_append, List.length_reverse]
    omega

/-- When nothing is pending, the closure has been found. -/
theorem IsAfter.known_eq (h : IsAfter g items n w) (hpending : w.pending = []) :
    w.known = g.closure items := by
  refine eq_closure_of_isLeast h.ascending ⟨⟨fun _ ha => h.given ha, ?_⟩, fun S hS a ha => ?_⟩
  · exact isClosed_iff_predictions.mpr fun a ha =>
      (h.predicted a ha).resolve_left (by simp [hpending])
  · exact isLeast_closure.2 hS (h.found ha)

/-- Something is pending until as many steps have been made as the closure has items. -/
theorem IsAfter.pending_ne_nil (h : IsAfter g items n w) (hn : n < (g.closure items).length) :
    w.pending ≠ [] := by
  intro hpending
  have hcount := h.count
  rw [h.known_eq hpending, hpending] at hcount
  simp at hcount
  omega

/-- No more steps use up an item than the closure has items. -/
theorem IsAfter.pending_eq_nil (h : IsAfter g items n w) (hn : (g.closure items).length ≤ n) :
    w.pending = [] := by
  have hle : w.known.length ≤ (g.closure items).length :=
    (List.subperm_of_subset h.ascending.nodup h.found).length_le
  have hcount := h.count
  exact List.eq_nil_of_length_eq_zero (by omega)

theorem isAfter_iterate (hn : n ≤ (g.closure items).length) :
    IsAfter g items n ((predictNext g)^[n] (start items)) := by
  induction n with
  | zero => exact isAfter_start
  | succ n ih =>
      rw [Function.iterate_succ_apply']
      have h := ih (Nat.le_of_succ_le hn)
      exact h.predictNext (h.pending_ne_nil hn)

/-- As many steps as the closure has items are enough, and further ones change nothing. -/
theorem iterate_predictNext (hn : (g.closure items).length ≤ n) :
    (predictNext g)^[n] (start items) = ⟨g.closure items, []⟩ := by
  induction n, hn using Nat.le_induction with
  | base =>
      have h := isAfter_iterate (Nat.le_refl (g.closure items).length)
      have hpending := h.pending_eq_nil (Nat.le_refl _)
      exact congrArg₂ mk (h.known_eq hpending) hpending
  | succ n _ ih => rw [Function.iterate_succ_apply', ih, predictNext]

end Worklist

namespace Grammar

/-- Predicting one item after the other comes to an end, and what has been found then is the
closure, the least closed set that holds the items. It grows with the items, closing it again adds
nothing, and moving the dot over a symbol leaves nothing just where the symbol is after no dot. -/
theorem closure_isLeastClosed (g : Grammar) (items : List Item) :
    (∀ n ≥ (g.closure items).length,
      (Worklist.predictNext g)^[n] (.start items) = ⟨g.closure items, []⟩) ∧
    IsLeast (g.closedSets items) {a | a ∈ g.closure items} ∧
    (∀ more, items ⊆ more → g.closure items ⊆ g.closure more) ∧
    g.closure (g.closure items) = g.closure items ∧
    ∀ X, g.goto items X = [] ↔ ∀ a ∈ items, g.next? a ≠ some X :=
  ⟨fun _ hn => Worklist.iterate_predictNext hn, isLeast_closure, fun _ h => closure_mono h,
    closure_closure, fun _ => goto_eq_nil_iff⟩

/-- Two nonterminals that predict each other: `S -> A`, `A -> B`, `B -> A` and `B -> b`. -/
def circle : Grammar :=
  ⟨3, 1, 3, [⟨0, 0, [1]⟩, ⟨1, 1, [2]⟩, ⟨2, 2, [1]⟩, ⟨3, 2, [3]⟩], []⟩

theorem closure_isLeastClosed_circle :
    (Worklist.predictNext circle)^[3] (.start [⟨1, 1⟩]) = ⟨[⟨1, 1⟩, ⟨2, 1⟩, ⟨3, 1⟩], []⟩ ∧
      circle.closure [⟨1, 1⟩] ⊆ circle.closure [⟨0, 1⟩, ⟨1, 1⟩] := by
  have hclosure : circle.closure [⟨1, 1⟩] = [⟨1, 1⟩, ⟨2, 1⟩, ⟨3, 1⟩] := by decide
  obtain ⟨hends, -, hmono, -⟩ := closure_isLeastClosed circle [⟨1, 1⟩]
  have hthree := hends 3 (by rw [hclosure]; exact Nat.le_refl 3)
  rw [hclosure] at hthree
  exact ⟨hthree, hmono [⟨0, 1⟩, ⟨1, 1⟩] (List.subset_cons_self _ _)⟩

end Grammar
end Argand
