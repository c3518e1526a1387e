-- SUMMARY: Ascending sets by number that grow in place.
import Argand.Grammar
import Mathlib.Data.List.Sort

/-!
# Sets by number

Sets of numbers stand in a list, each ascending, and grow in place by one member at a time. An
insertion puts one member into one set and makes all sets together longer (`mem_setAt_insertAt?`,
`length_flatten_insertAt?`). Sets with the same members are the same (`HoldsOnly.eq_of_mem_iff`).
-/
namespace Argand

variable {sets sets' : List (List Nat)} {i j n t u : Nat} {Q : Nat → Nat → Prop} {ts : List Nat}

/-- The set with a number. -/
def setAt (sets : List (List Nat)) (i : Nat) : List Nat :=
  sets.getD i []

theorem setAt_eq_of_getElem? {set : List Nat} (h : sets[i]? = some set) : setAt sets i = set := by
  rw [setAt, List.getD_eq_getElem?_getD, h, Option.getD_some]

theorem mem_setAt_map_range {f : Nat → List Nat} :
    t ∈ setAt ((List.range n).map f) i ↔ i < n ∧ t ∈ f i := by
  rw [setAt, List.getD_eq_getElem?_getD, List.getElem?_map]
  by_cases hi : i < n <;> simp [hi]

/-- Insert into the ascending set with a number, unless it is there. -/
def insertAt? (i t : Nat) (sets : List (List Nat)) : Option (List (List Nat)) :=
  match sets[i]? with
  | some set => if set.contains t then none else some (sets.set i (set.orderedInsert (· ≤ ·) t))
  | none => none

/-- Nothing is inserted what is there already. -/
theorem mem_setAt_of_eq_none (hi : i < sets.length) (h : insertAt? i t sets = none) :
    t ∈ setAt sets i := by
  rw [insertAt?, List.getElem?_eq_getElem hi] at h
  rw [setAt_eq_of_getElem? (List.getElem?_eq_getElem hi)]
  simpa using h

theorem exists_of_insertAt? (h : insertAt? i t sets = some sets') :
    ∃ set, sets[i]? = some set ∧ t ∉ set ∧ sets' = sets.set i (set.orderedInsert (· ≤ ·) t) := by
  unfold insertAt? at h
  split at h
  · rename_i set hset
    split at h
    · cases h
    · rename_i hmem
      exact ⟨set, hset, by simpa using hmem, (Option.some.inj h).symm⟩
  · cases h

theorem mem_setAt_insertAt? (h : insertAt? i t sets = some sets') :
    u ∈ setAt sets' j ↔ u ∈ setAt sets j ∨ j = i ∧ u = t := by
  obtain ⟨set, hset, -, rfl⟩ := exists_of_insertAt? h
  have hi := (List.getElem?_eq_some_iff.mp hset).1
  by_cases hij : j = i
  · subst hij
    rw [setAt_eq_of_getElem? (List.getElem?_set_self hi), setAt_eq_of_getElem? hset,
      List.mem_orderedInsert]
    tauto
  · simp only [setAt, List.getD_eq_getElem?_getD, List.getElem?_set_ne (Ne.symm hij)]
    simp [hij]

theorem length_flatten_set {set : List Nat} (h : sets[i]? = some set) (set' : List Nat) :
    (sets.set i set').flatten.length + set.length = sets.flatten.length + set'.length := by
  induction sets generalizing i with
  | nil => simp at h
  | cons first rest ih =>
      cases i with
      | zero =>
          obtain rfl : first = set := by simpa using h
          simp only [List.set_cons_zero, List.flatten_cons, List.length_append]
          omega
      | succ i =>
          have hrest := ih (i := i) (by simpa using h)
          simp only [List.set_cons_succ, List.flatten_cons, List.length_append]
          omega

theorem length_flatten_insertAt? (h : insertAt? i t sets = some sets') :
    sets.flatten.length < sets'.flatten.length := by
  obtain ⟨set, hset, -, rfl⟩ := exists_of_insertAt? h
  have hlength := length_flatten_set hset (set.orderedInsert (· ≤ ·) t)
  rw [List.orderedInsert_length] at hlength
  omega

/-- As many ascending sets as there should be, with no members but those allowed. -/
structure HoldsOnly (n : Nat) (Q : Nat → Nat → Prop) (sets : List (List Nat)) : Prop where
  length_eq : sets.length = n
  ascending : ∀ set ∈ sets, set.Pairwise (· < ·)
  allowed : ∀ i, ∀ t ∈ setAt sets i, Q i t

theorem pairwise_orderedInsert {set : List Nat} (h : set.Pairwise (· < ·)) (ht : t ∉ set) :
    (set.orderedInsert (· ≤ ·) t).Pairwise (· < ·) := by
  have hle := (h.imp Nat.le_of_lt).orderedInsert t
  have hnodup : (set.orderedInsert (· ≤ ·) t).Nodup :=
    (List.perm_orderedInsert (· ≤ ·) t set).nodup_iff.mpr
      (List.nodup_cons.mpr ⟨ht, h.imp Nat.ne_of_lt⟩)
  exact (hle.and hnodup).imp fun h => Nat.lt_of_le_of_ne h.1 h.2

theorem HoldsOnly.insertAt? (h : HoldsOnly n Q sets) (ht : Q i t)
    (hinsert : insertAt? i t sets = some sets') : HoldsOnly n Q sets' := by
  have hmem := fun j u => mem_setAt_insertAt? (j := j) (u := u) hinsert
  obtain ⟨set, hset, hnot, rfl⟩ := exists_of_insertAt? hinsert
  refine ⟨by rw [List.length_set, h.length_eq], fun set' hset' => ?_, fun j u hu => ?_⟩
  · rcases List.mem_or_eq_of_mem_set hset' with hold | rfl
    · exact h.ascending set' hold
    · exact pairwise_orderedInsert (h.ascending set (List.mem_of_getElem? hset)) hnot
  · rcases (hmem j u).mp hu with hold | ⟨rfl, rfl⟩
    · exact h.allowed j u hold
    · exact ht

/-- Ascending sets with the same members at the same places are the same sets. -/
theorem HoldsOnly.eq_of_mem_iff (h : HoldsOnly n Q sets) (hlength : sets'.length = n)
    (h' : ∀ i < n, ∃ set, sets'[i]? = some set ∧ set.Pairwise (· < ·) ∧
      ∀ t, t ∈ set ↔ t ∈ setAt sets i) : sets = sets' := by
  refine List.ext_getElem? fun i => ?_
  by_cases hi : i < n
  · obtain ⟨set, hset, hascending, hmem⟩ := h' i hi
    have hlt : i < sets.length := h.length_eq ▸ hi
    have heq : sets[i] = set := by
      refine (h.ascending _ (List.getElem_mem hlt)).eq_of_mem_iff hascending fun t => ?_
      rw [hmem, setAt_eq_of_getElem? (List.getElem?_eq_getElem hlt)]
    rw [hset, List.getElem?_eq_getElem hlt, heq]
  · rw [List.getElem?_eq_none (h.length_eq ▸ Nat.le_of_not_lt hi),
      List.getElem?_eq_none (hlength ▸ Nat.le_of_not_lt hi)]

/-- Sets of members of a list hold no more than this list each. -/
theorem HoldsOnly.length_flatten_le (h : HoldsOnly n Q sets) (hQ : ∀ i t, Q i t → t ∈ ts) :
    sets.flatten.length ≤ n * ts.length := by
  have hle : ∀ set ∈ sets, set.length ≤ ts.length := by
    intro set hset
    obtain ⟨i, hi, rfl⟩ := List.getElem_of_mem hset
    refine (List.subperm_of_subset ((h.ascending _ hset).imp Nat.ne_of_lt) fun t ht => ?_).length_le
    refine hQ i t (h.allowed i t ?_)
    rwa [setAt_eq_of_getElem? (List.getElem?_eq_getElem hi)]
  rw [← h.length_eq]
  clear h
  induction sets with
  | nil => simp
  | cons set rest ih =>
      obtain ⟨hset, hrest⟩ := List.forall_mem_cons.mp hle
      have hsum := ih hrest
      rw [List.flatten_cons, List.length_append, List.length_cons, Nat.succ_mul]
      omega

end Argand
