-- SUMMARY: What the closure of an item set holds, and what moving the dot over a symbol gives.
import Argand.Automaton
import Argand.Proofs.Saturation

/-!
# Closures of item sets

A closure holds its items and the initial items of every nonterminal right after a dot
(`mem_closure_of_next`), and nothing else: `closure_induction` reaches every item of a closure from
the given ones by predicting productions. Closures are strictly ascending lists, so two of them
with the same items are the same list.
-/
namespace Argand

/-! ## Ascending lists of items -/

namespace Item

variable {a b c : Item}

theorem before_irrefl (a : Item) : a.before a = false := by
  simp [before]

theorem before_trans (hab : a.before b = true) (hbc : b.before c = true) : a.before c = true := by
  simp only [before, Bool.or_eq_true, decide_eq_true_eq, Bool.and_eq_true, beq_iff_eq] at *
  omega

theorem before_of_not_before (hne : a ≠ b) (h : a.before b = false) : b.before a = true := by
  have hfields : ¬ (a.production = b.production ∧ a.dot = b.dot) := by
    rintro ⟨hp, hd⟩
    cases a; cases b; simp_all
  simp only [before, Bool.or_eq_false_iff, decide_eq_false_iff_not, Bool.and_eq_false_iff,
    beq_eq_false_iff_ne, Bool.or_eq_true, decide_eq_true_eq, Bool.and_eq_true, beq_iff_eq] at *
  omega

end Item

/-- Strictly ascending lists of items. -/
def Ascending (items : List Item) : Prop :=
  items.Pairwise fun a b => a.before b = true

variable {a b : Item} {items : List Item}

theorem mem_insertItem : b ∈ insertItem a items ↔ b = a ∨ b ∈ items := by
  induction items with
  | nil => simp [insertItem]
  | cons c rest ih =>
      rw [insertItem]
      split
      · simp_all
      · split
        · simp
        · simp only [List.mem_cons, ih]
          tauto

theorem ascending_insertItem (h : Ascending items) : Ascending (insertItem a items) := by
  induction items with
  | nil => simp [insertItem, Ascending]
  | cons c rest ih =>
      obtain ⟨hc, hrest⟩ := List.pairwise_cons.mp h
      rw [insertItem]
      split
      · exact h
      · rename_i hne
        split
        · rename_i hac
          refine List.pairwise_cons.mpr ⟨fun d hd => ?_, h⟩
          rcases List.mem_cons.mp hd with rfl | hd
          · exact hac
          · exact Item.before_trans hac (hc d hd)
        · rename_i hac
          have hca : c.before a = true := Item.before_of_not_before hne (by simpa using hac)
          refine List.pairwise_cons.mpr ⟨fun d hd => ?_, ih hrest⟩
          rcases mem_insertItem.mp hd with rfl | hd
          · exact hca
          · exact hc d hd

theorem mem_sortItems : a ∈ sortItems items ↔ a ∈ items := by
  induction items with
  | nil => simp [sortItems]
  | cons c rest ih =>
      rw [sortItems, List.foldr_cons, mem_insertItem, List.mem_cons, ← ih, sortItems]

theorem ascending_sortItems : Ascending (sortItems items) := by
  induction items with
  | nil => simp [sortItems, Ascending]
  | cons c rest ih => exact ascending_insertItem ih

theorem Ascending.nodup (h : Ascending items) : items.Nodup :=
  h.imp fun {a b} hab heq => by simp [heq, Item.before_irrefl] at hab

/-- Ascending lists with the same items are equal. -/
theorem Ascending.ext {items' : List Item} (h : Ascending items) (h' : Ascending items')
    (hmem : ∀ a, a ∈ items ↔ a ∈ items') : items = items' := by
  refine ((List.perm_ext_iff_of_nodup h.nodup h'.nodup).mpr hmem).eq_of_pairwise ?_ h h'
  intro a b _ _ hab hba
  simpa [Item.before_irrefl] using Item.before_trans hab hba

/-! ## Items of a grammar -/

namespace Grammar

variable {g : Grammar} {kernel : List Item} {p : Production} {n d B X : Nat}

theorem next?_eq_some_iff :
    g.next? a = some X ↔
      ∃ p, g.productions[a.production]? = some p ∧ p.symbols[a.dot]? = some X := by
  simp [next?, Option.bind_eq_some_iff]

theorem next?_initial (hp : g.productions[n]? = some p) :
    g.next? ⟨n, 1⟩ = p.rhs.head? := by
  simp [next?, hp, Production.symbols, List.head?_eq_getElem?]

theorem mem_initialItems {Bs : List Nat} :
    a ∈ g.initialItems Bs ↔
      a.dot = 1 ∧ ∃ p, g.productions[a.production]? = some p ∧ p.lhs ∈ Bs := by
  simp only [initialItems, List.mem_map, List.mem_filter, List.contains_iff_mem, Prod.exists,
    List.mem_zipIdx_iff_getElem?]
  constructor
  · rintro ⟨p, n, ⟨hp, hB⟩, rfl⟩
    exact ⟨rfl, p, hp, hB⟩
  · rintro ⟨hdot, p, hp, hB⟩
    exact ⟨p, a.production, ⟨hp, hB⟩, by cases a; simp_all⟩

theorem mem_closure :
    a ∈ g.closure kernel ↔
      a ∈ kernel ∨
        a.dot = 1 ∧ ∃ p, g.productions[a.production]? = some p ∧ p.lhs ∈ g.opened kernel := by
  rw [closure, mem_sortItems, List.mem_append, mem_initialItems]

theorem ascending_closure : Ascending (g.closure kernel) :=
  ascending_sortItems

/-! ## Closedness -/

theorem mem_opened_of_next (ha : a ∈ g.closure kernel) (hnext : g.next? a = some B)
    (hB : B < g.nonterminals) : B ∈ g.opened kernel := by
  refine saturate_closed (List.mem_range.mpr hB) ?_
  rw [Bool.or_eq_true]
  rcases mem_closure.mp ha with hkernel | ⟨hdot, p, hp, hlhs⟩
  · exact .inl (List.any_eq_true.mpr ⟨a, hkernel, by simp [hnext]⟩)
  · right
    have hhead : p.rhs.head? = some B := by
      rw [← next?_initial hp, ← hdot]
      exact hnext
    refine List.any_eq_true.mpr ⟨p, List.mem_of_getElem? hp, ?_⟩
    rw [Bool.and_eq_true, List.contains_iff_mem, beq_iff_eq]
    exact ⟨hlhs, hhead⟩

/-- A closure predicts every production of a nonterminal right after a dot. -/
theorem mem_closure_of_next (ha : a ∈ g.closure kernel) (hnext : g.next? a = some p.lhs)
    (hlhs : p.lhs < g.nonterminals) (hp : g.productions[n]? = some p) :
    ⟨n, 1⟩ ∈ g.closure kernel :=
  mem_closure.mpr (.inr ⟨rfl, p, hp, mem_opened_of_next ha hnext hlhs⟩)

/-- Every item of a closure is given, or predicted by an item of the closure. -/
theorem closure_induction {P : Item → Prop} (hkernel : ∀ a ∈ kernel, P a)
    (hpredict : ∀ b ∈ g.closure kernel, P b → ∀ n p, g.productions[n]? = some p →
      g.next? b = some p.lhs → p.lhs < g.nonterminals → P ⟨n, 1⟩) :
    ∀ a ∈ g.closure kernel, P a := by
  -- An opened nonterminal stands right after the dot of an item that has the property.
  have hopened : ∀ B ∈ g.opened kernel,
      B < g.nonterminals ∧ ∃ b ∈ g.closure kernel, P b ∧ g.next? b = some B := by
    refine saturate_induction fun known hknown B hB hfollows => ⟨List.mem_range.mp hB, ?_⟩
    rcases Bool.or_eq_true _ _ ▸ hfollows with hany | hany
    · obtain ⟨b, hb, hnext⟩ := List.any_eq_true.mp hany
      exact ⟨b, mem_closure.mpr (.inl hb), hkernel b hb, by simpa using hnext⟩
    · obtain ⟨p, hp, hcond⟩ := List.any_eq_true.mp hany
      simp only [Bool.and_eq_true, List.contains_iff_mem, beq_iff_eq] at hcond
      obtain ⟨hmem, hlhs, b, hb, hPb, hnext⟩ := hknown p.lhs hcond.1
      obtain ⟨n, hn⟩ := List.getElem?_of_mem hp
      exact ⟨⟨n, 1⟩, mem_closure.mpr (.inr ⟨rfl, p, hn, hmem⟩),
        hpredict b hb hPb n p hn hnext hlhs, (next?_initial hn).trans hcond.2⟩
  intro a ha
  rcases mem_closure.mp ha with hkern | ⟨hdot, p, hp, hlhs⟩
  · exact hkernel a hkern
  · obtain ⟨hlt, b, hb, hPb, hnext⟩ := hopened p.lhs hlhs
    have hPa := hpredict b hb hPb a.production p hp hnext hlt
    cases a
    simp_all

/-- An item that is not given is predicted. -/
theorem predicted_of_mem_closure (ha : a ∈ g.closure kernel) :
    a ∈ kernel ∨ a.dot = 1 ∧ ∃ b ∈ g.closure kernel, ∃ p, g.productions[a.production]? = some p ∧
      g.next? b = some p.lhs := by
  refine closure_induction
    (P := fun a => a ∈ kernel ∨ a.dot = 1 ∧ ∃ b ∈ g.closure kernel, ∃ p,
      g.productions[a.production]? = some p ∧ g.next? b = some p.lhs)
    (fun a ha => .inl ha) ?_ a ha
  intro b hb _ n p hp hnext _
  exact .inr ⟨rfl, b, hb, p, hp, hnext⟩

/-! ## Moving the dot -/

/-- The items whose dot can be moved over `X`, with the dot moved. -/
def movedOver (g : Grammar) (items : List Item) (X : Nat) : List Item :=
  (items.filter fun a => g.next? a == some X).map Item.advance

theorem mem_movedOver :
    b ∈ g.movedOver items X ↔ ∃ a ∈ items, g.next? a = some X ∧ b = a.advance := by
  simp only [movedOver, List.mem_map, List.mem_filter, beq_iff_eq, and_assoc]
  exact exists_congr fun a => and_congr_right fun _ => and_congr_right fun _ => eq_comm

theorem closure_eq_nil_iff : g.closure kernel = [] ↔ kernel = [] := by
  constructor
  · intro h
    refine List.eq_nil_iff_forall_not_mem.mpr fun a ha => ?_
    have hmem : a ∈ g.closure kernel := mem_closure.mpr (.inl ha)
    simp [h] at hmem
  · rintro rfl
    refine List.eq_nil_iff_forall_not_mem.mpr ?_
    exact closure_induction (P := fun _ => False) (by simp) fun _ _ h => h.elim

theorem goto_eq_closure : g.goto items X = g.closure (g.movedOver items X) := by
  unfold goto
  split
  · rename_i h
    exact (closure_eq_nil_iff.mpr h).symm
  · rfl

theorem goto_eq_nil_iff : g.goto items X = [] ↔ ∀ a ∈ items, g.next? a ≠ some X := by
  rw [goto_eq_closure, closure_eq_nil_iff, movedOver, List.map_eq_nil_iff, List.filter_eq_nil_iff]
  simp

/-- The dot can be moved in every item that allows it. -/
theorem advance_mem_goto (ha : a ∈ items) (hnext : g.next? a = some X) :
    a.advance ∈ g.goto items X := by
  rw [goto_eq_closure]
  exact mem_closure.mpr (.inl (mem_movedOver.mpr ⟨a, ha, hnext, rfl⟩))

end Grammar
end Argand
