-- SUMMARY: Going over the occurrences of nonterminals until nothing changes ends with FOLLOW.
import Argand.Proofs.FirstLoop

/-!
# FOLLOW sets found in place

FOLLOW sets can be found like FIRST sets, by going over the productions again and again and changing
the sets in place: every occurrence of a nonterminal adds to its set what the symbols behind it can
begin with, and what follows the left-hand side if they vanish. The FIRST sets and the nullable
symbols are those that the loop for them ends with. What is added is never wrong (`IsSoundFollow`),
and where a round adds nothing the sets hold all that can follow (`mem_setAt_of_fixed`), so the loop
ends with the sets of `lookahead` (`iterate_followRound`), which are exact (`follow_exact`).
-/
namespace Argand.Grammar

variable {g : Grammar} {f : FirstSets} {p : Production} {t A B : Nat} {pre post : List Nat}
  {sets : List (List Nat)} {fm : Marked (List (List Nat))}

/-! ## Looking at occurrences -/

/-- Insert a terminal into the FOLLOW set of a nonterminal. -/
def addFollow (B : Nat) (m : Marked (List (List Nat))) (t : Nat) : Marked (List (List Nat)) :=
  m.update (insertAt? B t)

/-- Nothing has been found but that the end mark follows the start symbol. -/
def followStart (g : Grammar) : List (List Nat) :=
  (List.range g.nonterminals).map fun A => if A = 0 then [g.endMark] else []

/-- Look at an occurrence of `B` in a production of `A`: it is followed by what the symbols behind
it can begin with, up to the first that does not vanish, and by what follows `A` if all of them
do. -/
def followVisit (f : FirstSets) (A B : Nat) (post : List Nat) (m : Marked (List (List Nat))) :
    Marked (List (List Nat)) :=
  let (m, vanish) := addBeginnings (fun _ => f.firstOf) (fun _ => f.isNullable) (addFollow B) post m
  if vanish then (setAt m.value A).foldl (addFollow B) m else m

/-- Look at the nonterminals of a right-hand side from left to right. -/
def followScan (g : Grammar) (f : FirstSets) (A : Nat) :
    List Nat → Marked (List (List Nat)) → Marked (List (List Nat))
  | [], m => m
  | B :: post, m =>
    followScan g f A post (if g.isNonterminal B then followVisit f A B post m else m)

/-- Look at all productions in order. -/
def followPass (g : Grammar) (f : FirstSets) (m : Marked (List (List Nat))) :
    Marked (List (List Nat)) :=
  g.productions.foldl (fun m p => g.followScan f p.lhs p.rhs m) m

theorem grows_addFollow (m : Marked (List (List Nat))) (t : Nat) :
    Marked.Grows (·.flatten.length) m (addFollow B m t) :=
  Marked.grows_update (fun _ _ => length_flatten_insertAt?) m

theorem grows_followVisit : Marked.Grows (·.flatten.length) fm (followVisit f A B post fm) :=
  (grows_addBeginnings grows_addFollow post fm).trans (.ite (.foldl grows_addFollow _ _))

theorem grows_followScan {rhs : List Nat} :
    Marked.Grows (·.flatten.length) fm (g.followScan f A rhs fm) := by
  induction rhs generalizing fm with
  | nil => exact .refl fm
  | cons B post ih =>
      rw [followScan]
      split
      · exact grows_followVisit.trans ih
      · exact ih

theorem grows_followPass (m : Marked (List (List Nat))) :
    Marked.Grows (·.flatten.length) m (g.followPass f m) :=
  Marked.Grows.foldl (fun _ _ => grows_followScan) m g.productions

/-- Where a scan finds nothing, no occurrence of a nonterminal has anything new after it. -/
theorem followScan_fixed (hfixed : g.followScan f A (pre ++ B :: post) fm = fm)
    (hB : B < g.nonterminals) : followVisit f A B post fm = fm := by
  induction pre with
  | nil =>
      rw [List.nil_append, followScan, if_pos (by simpa [isNonterminal] using hB)] at hfixed
      exact grows_followVisit.stays grows_followScan hfixed
  | cons X pre ih =>
      rw [List.cons_append, followScan] at hfixed
      split at hfixed
      · rw [grows_followVisit.stays grows_followScan hfixed] at hfixed
        exact ih hfixed
      · exact ih hfixed

theorem followVisit_fixed (hfixed : followVisit f A B post fm = fm) :
    (∀ t, beginsWith f.isNullable (fun X => (f.firstOf X).contains t) post = true →
      addFollow B fm t = fm) ∧
    (post.all f.isNullable = true → ∀ t ∈ setAt fm.value A, addFollow B fm t = fm) := by
  have hscan := (grows_addBeginnings grows_addFollow post fm).stays
    (.ite (.foldl grows_addFollow _ _)) hfixed
  obtain ⟨hbegins, hall⟩ := addBeginnings_fixed grows_addFollow hscan
  simp only [followVisit, hscan, hall] at hfixed
  refine ⟨hbegins, fun h => ?_⟩
  rw [if_pos h] at hfixed
  exact Marked.Grows.foldl_fixed grows_addFollow hfixed

/-- No set holds what cannot follow, and the end mark follows the start symbol. -/
structure IsSoundFollow (g : Grammar) (sets : List (List Nat)) : Prop where
  follow : HoldsOnly g.nonterminals (fun A t => t ∈ g.lookahead.followOf A) sets
  endMark : 0 < g.nonterminals → g.endMark ∈ setAt sets 0

theorem IsSoundFollow.addFollow (h : g.IsSoundFollow fm.value) (ht : t ∈ g.lookahead.followOf B) :
    g.IsSoundFollow (addFollow B fm t).value :=
  Marked.update_keeps (fun _ hinsert => ⟨h.follow.insertAt? ht hinsert,
    fun hstart => (mem_setAt_insertAt? hinsert).mpr (.inl (h.endMark hstart))⟩) h

section

variable (hend : g.endMark ∈ g.terminalSymbols) (hf : f.IsSound g)
include hend

theorem isSoundFollow_followStart : g.IsSoundFollow g.followStart where
  follow := by
    refine ⟨by simp [followStart], fun set hset => ?_, fun A t ht => ?_⟩
    · obtain ⟨A, -, rfl⟩ := List.mem_map.mp hset
      split <;> simp
    · obtain ⟨hA, hmem⟩ := mem_setAt_map_range.mp ht
      by_cases hstart : A = 0
      · rw [if_pos hstart, List.mem_singleton] at hmem
        subst hstart hmem
        exact endMark_mem_followOf hend hA
      · simp [hstart] at hmem
  endMark hstart := mem_setAt_map_range.mpr ⟨hstart, by simp⟩

include hf

theorem isSoundFollow_followVisit (hp : p ∈ g.productions) (hrhs : p.rhs = pre ++ B :: post)
    (hB : B < g.nonterminals) (hm : g.IsSoundFollow fm.value) :
    g.IsSoundFollow (followVisit f p.lhs B post fm).value := by
  have hadd : ∀ m t, g.IsSoundFollow m.value → t ∈ g.terminalSymbols →
      beginsWith g.isNullable (g.begins t) post = true →
      g.IsSoundFollow (addFollow B m t).value := fun m t hm ht hbegins =>
    hm.addFollow (mem_followOf_of_begins hend ht hp hrhs hB hbegins)
  obtain ⟨hpost, hvanish⟩ := addBeginnings_keeps (P := g.IsSoundFollow)
    (fun _ _ => hf.first.allowed) (fun _ _ => hf.nullable) hadd hm
  simp only [followVisit]
  split
  · rename_i hall
    refine Marked.foldl_keeps (P := g.IsSoundFollow) (fun m t ht hm => hm.addFollow ?_) hpost
    exact mem_followOf_of_nullable hend hp hrhs hB (hvanish hall) (hpost.follow.allowed p.lhs t ht)
  · exact hpost

theorem isSoundFollow_followScan (hp : p ∈ g.productions) (hrhs : p.rhs = pre ++ post)
    (hm : g.IsSoundFollow fm.value) : g.IsSoundFollow (g.followScan f p.lhs post fm).value := by
  induction post generalizing pre fm with
  | nil => exact hm
  | cons B post ih =>
      have hrest : p.rhs = (pre ++ [B]) ++ post := by rw [hrhs, List.append_assoc]; rfl
      rw [followScan]
      split
      · rename_i hB
        have hB : B < g.nonterminals := by simpa [isNonterminal] using hB
        exact ih hrest (isSoundFollow_followVisit hend hf hp hrhs hB hm)
      · exact ih hrest hm

theorem isSoundFollow_followPass (hm : g.IsSoundFollow fm.value) :
    g.IsSoundFollow (g.followPass f fm).value :=
  Marked.foldl_keeps (P := g.IsSoundFollow)
    (fun _ _ hp hm => isSoundFollow_followScan hend hf hp (List.nil_append _).symm hm) hm

variable (hdone : g.firstPass ⟨f, false⟩ = ⟨f, false⟩)
include hdone

/-- Sound sets in which a round finds nothing hold all that can follow. -/
theorem mem_setAt_of_fixed (hsets : g.IsSoundFollow sets)
    (hfixed : g.followPass f ⟨sets, false⟩ = ⟨sets, false⟩) (h : t ∈ g.lookahead.followOf A) :
    t ∈ setAt sets A := by
  obtain ⟨-, ht, hmem⟩ := (mem_followOf hend).mp h
  -- The induction follows the saturation and not the loop, of which only the last round counts.
  refine saturate_induction (P := fun A => t ∈ setAt sets A) (fun known hknown A hA hfollows => ?_)
    A hmem
  have hA := List.mem_range.mp hA
  rcases Bool.or_eq_true _ _ ▸ hfollows with hstart | hany
  · rw [Bool.and_eq_true, beq_iff_eq, beq_iff_eq] at hstart
    obtain ⟨rfl, rfl⟩ := hstart
    exact hsets.endMark hA
  · obtain ⟨p, hp, hfollowed⟩ := List.any_eq_true.mp hany
    obtain ⟨pre, post, hrhs, hpost⟩ := exists_split_of_followedBy hfollowed
    have hscan := Marked.Grows.foldl_fixed (fun _ _ => grows_followScan) hfixed p hp
    rw [hrhs] at hscan
    obtain ⟨hbegins, hvanish⟩ := followVisit_fixed (followScan_fixed hscan hA)
    have hadd : addFollow A ⟨sets, false⟩ t = ⟨sets, false⟩ := by
      rcases hpost with hpost | ⟨hpost, hlhs⟩
      · exact hbegins t (beginsWith_mono (fun _ => isNullable_of_fixed hf hdone)
          (fun _ hX => List.contains_iff_mem.mpr (mem_firstOf_of_fixed hf hdone ht hX)) hpost)
      · refine hvanish (List.all_eq_true.mpr fun X hX => ?_) t
          (hknown p.lhs (List.contains_iff_mem.mp hlhs)).2
        exact isNullable_of_fixed hf hdone (List.all_eq_true.mp hpost X hX)
    have hnone := Marked.eq_none_of_update (fun _ _ => length_flatten_insertAt?) hadd
    exact mem_setAt_of_eq_none (hsets.follow.length_eq ▸ hA) hnone

end

/-- The loop ends with the FOLLOW sets. -/
theorem iterate_followRound (hlhs : ∀ p ∈ g.productions, p.lhs < g.nonterminals)
    (hend : g.endMark ∈ g.terminalSymbols) {n : Nat} (hn : n > g.nonterminals * g.terminals) :
    (Marked.round (g.followPass g.firstSets))^[n] ⟨g.followStart, true⟩ =
      ⟨g.lookahead.follow, false⟩ := by
  obtain ⟨hf, hdone, -⟩ := iterate_firstRound hlhs
  have hbound : ∀ sets, g.IsSoundFollow sets →
      sets.flatten.length ≤ g.nonterminals * g.terminals := by
    intro sets hsets
    have hle := hsets.follow.length_flatten_le fun _ _ ht => ((mem_followOf hend).mp ht).2.1
    rwa [terminalSymbols, List.length_range'] at hle
  obtain ⟨sets, hsets, hfixed, hends⟩ := Marked.iterate_round (P := g.IsSoundFollow)
    grows_followPass (fun _ => isSoundFollow_followPass hend hf) hbound
    (isSoundFollow_followStart hend)
  rw [hends n (Nat.lt_of_le_of_lt (Nat.sub_le _ _) hn)]
  have heq : sets = g.lookahead.follow := by
    refine hsets.follow.eq_of_mem_iff (by simp [lookahead]) fun A hA => ?_
    refine ⟨_, getElem?_follow hA, ascending_followOf hend, fun t => ?_⟩
    exact ⟨mem_setAt_of_fixed hend hf hdone hsets hfixed, hsets.follow.allowed A t⟩
  rw [heq]

/-! ## The sets are exact -/

/-- Where left-hand sides are nonterminals and the end mark is a terminal, the loop over the
occurrences of nonterminals comes to an end with the FOLLOW sets, given what the loop for the FIRST
sets and the nullable symbols ends with. The FOLLOW set of a nonterminal holds exactly the terminals
that can follow it. The order and the repetition of productions make no difference. -/
theorem follow_exact (hlhs : ∀ p ∈ g.productions, p.lhs < g.nonterminals)
    (hend : g.endMark ∈ g.terminalSymbols) :
    (∃ f : FirstSets,
      (∀ n > g.symbolCount * g.terminals + g.symbolCount,
        (Marked.round g.firstPass)^[n] ⟨g.firstStart, true⟩ = ⟨f, false⟩) ∧
      ∀ n > g.nonterminals * g.terminals,
        (Marked.round (g.followPass f))^[n] ⟨g.followStart, true⟩ =
          ⟨g.lookahead.follow, false⟩) ∧
    g.HasExactFollow ∧
      ∀ g', SameProductions g g' → g'.lookahead.follow = g.lookahead.follow := by
  have hexact := hasExactFollow hlhs hend
  have hends : ∀ n > g.nonterminals * g.terminals, _ := fun _ => iterate_followRound hlhs hend
  refine ⟨⟨g.firstSets, (iterate_firstRound hlhs).2.2, hends⟩, hexact,
    fun g' h => h.follow_eq hexact (hasExactFollow (h.lhs_lt hlhs) ?_)⟩
  rw [h.terminalSymbols_eq, h.endMark_eq]
  exact hend

/-- Behind a `Mark` the start symbol stands, which vanishes before `stop`; so `stop` can follow the
mark, and the end cannot. -/
theorem follow_exact_startBehind :
    (∀ p ∈ Gallery.startBehind.productions, p.lhs < Gallery.startBehind.nonterminals) ∧
      Gallery.startBehind.endMark ∈ Gallery.startBehind.terminalSymbols ∧
      (∃ f follow,
        (Marked.round Gallery.startBehind.firstPass)^[16]
          ⟨Gallery.startBehind.firstStart, true⟩ = ⟨f, false⟩ ∧
        (Marked.round (Gallery.startBehind.followPass f))^[7]
          ⟨Gallery.startBehind.followStart, true⟩ = ⟨follow, false⟩ ∧
        follow[2]? = some [3]) ∧
      Gallery.startBehind.CanFollow 2 3 ∧ ¬ Gallery.startBehind.CanFollow 2 4 := by
  have hlhs : ∀ p ∈ Gallery.startBehind.productions, p.lhs < Gallery.startBehind.nonterminals := by
    decide +kernel
  have hend : Gallery.startBehind.endMark ∈ Gallery.startBehind.terminalSymbols := by
    decide +kernel
  obtain ⟨⟨f, hfirst, hfollow⟩, hexact, -⟩ := follow_exact hlhs hend
  obtain ⟨set, hset, -, hmem⟩ := hexact.follow 2 (by decide +kernel)
  obtain rfl : set = [3] := by
    have hvalue : Gallery.startBehind.lookahead.follow[2]? = some [3] := by decide +kernel
    exact Option.some.inj (hset.symm.trans hvalue)
  refine ⟨hlhs, hend, ⟨f, _, hfirst 16 (by decide), hfollow 7 (by decide), hset⟩,
    ((hmem 3).mp (by simp)).2, fun hcan => ?_⟩
  have hfour : 4 ∈ [3] := (hmem 4).mpr ⟨by decide +kernel, hcan⟩
  simp at hfour

end Argand.Grammar
