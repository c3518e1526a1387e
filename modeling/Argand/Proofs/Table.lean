-- SUMMARY: What a table that was built says, cell by cell.
import Argand.Table
import Argand.Proofs.Automaton
import Argand.Proofs.Lookahead

/-!
# Cells of a built table

Building succeeds when the productions are well listed (`production_of_build`,
`start_of_build`) and no cell has two acts. Then a cell holds an act exactly when the automaton and
the FOLLOW sets call for it: there is one equivalence for each kind of act.
-/
namespace Argand

/-! ## Well-listed productions -/

namespace Grammar

variable {g : Grammar} {t : Table} {p : Production} {n s s' X : Nat} {a : Item}
  {items : List Item} {moves : List (Nat × Nat)} {act : Act} {l : Lookahead}

/-- The symbol that the start production stands for. -/
def goal (g : Grammar) : Nat :=
  (g.productions[0]?.bind fun p => p.rhs.head?).getD 0

theorem malformed?_of_build (h : Table.build g = .ok t) : g.malformed? = none := by
  unfold Table.build at h
  split at h
  · simp at h
  · assumption

/-- Every production has the number of its place and a nonterminal to its left. -/
theorem production_of_build (h : Table.build g = .ok t) (hp : g.productions[n]? = some p) :
    p.id = n ∧ p.lhs < g.nonterminals := by
  have hmal := malformed?_of_build h
  unfold malformed? at hmal
  split at hmal
  · simp at hmal
  · rename_i hnone
    have hdefect := List.findSome?_eq_none_iff.mp hnone (p, n)
      (List.mem_zipIdx_iff_getElem?.mpr hp)
    unfold defect? at hdefect
    split at hdefect
    · simp at hdefect
    · rename_i hid
      split at hdefect
      · rename_i hlhs
        exact ⟨not_not.mp hid, by simpa [isNonterminal] using hlhs⟩
      · simp at hdefect

theorem lhs_lt_of_build (h : Table.build g = .ok t) (hp : p ∈ g.productions) :
    p.lhs < g.nonterminals := by
  obtain ⟨n, hn⟩ := List.getElem?_of_mem hp
  exact (production_of_build h hn).2

/-- Production 0 goes from the start symbol to the goal. -/
theorem start_of_build (h : Table.build g = .ok t) : g.productions[0]? = some ⟨0, 0, [g.goal]⟩ := by
  have hmal := malformed?_of_build h
  unfold malformed? at hmal
  split at hmal
  · simp at hmal
  · split at hmal
    · rename_i hstart
      unfold hasStart at hstart
      split at hstart
      · rename_i p rest hprods
        have hp : g.productions[0]? = some p := by simp [hprods]
        have hid := (production_of_build h hp).1
        rw [Bool.and_eq_true, beq_iff_eq, beq_iff_eq, List.length_eq_one_iff] at hstart
        obtain ⟨hlhs, S, hrhs⟩ := hstart
        have hgoal : g.goal = S := by simp [goal, hp, hrhs]
        rw [hp, hgoal]
        cases p
        simp_all
      · simp at hstart
    · simp at hmal

theorem length_pos_of_build (h : Table.build g = .ok t) : 0 < g.productions.length :=
  (List.getElem?_eq_some_iff.mp (start_of_build h)).1

theorem nonterminals_pos_of_build (h : Table.build g = .ok t) : 0 < g.nonterminals :=
  (production_of_build h (start_of_build h)).2

/-! ## Acts -/

theorem isComplete_iff :
    g.isComplete a = true ↔
      ∃ p, g.productions[a.production]? = some p ∧ a = ⟨a.production, p.rhs.length + 1⟩ := by
  unfold isComplete
  cases hp : g.productions[a.production]? with
  | none => simp
  | some p => cases a; simp [Production.symbols]

theorem mem_reductions :
    n ∈ g.reductions l items X ↔
      ∃ p, g.productions[n]? = some p ∧ ⟨n, p.rhs.length + 1⟩ ∈ items ∧ n ≠ 0 ∧
        X ∈ l.followOf p.lhs := by
  simp only [reductions, List.mem_filterMap]
  constructor
  · rintro ⟨a, ha, hif⟩
    split at hif
    · rename_i hcond
      rw [Bool.and_eq_true, isComplete_iff] at hcond
      obtain ⟨⟨p, hp, heq⟩, hne⟩ := hcond
      obtain ⟨q, hq, hX⟩ := Option.bind_eq_some_iff.mp hif
      obtain rfl : p = q := Option.some.inj (hp.symm.trans hq)
      split at hX
      · rename_i hfollow
        obtain rfl := Option.some.inj hX
        exact ⟨p, hp, heq ▸ ha, by simpa using hne, List.contains_iff_mem.mp hfollow⟩
      · simp at hX
    · simp at hif
  · rintro ⟨p, hp, ha, hne, hX⟩
    refine ⟨_, ha, ?_⟩
    rw [if_pos (by simp [isComplete_iff, hp, hne])]
    simp [hp, hX]

theorem accept_mem_acts :
    .accept ∈ g.acts l items moves X ↔
      X = g.endMark ∧ ∃ a ∈ items, g.isComplete a = true ∧ a.production = 0 := by
  simp only [acts, List.mem_append, List.mem_ite_nil_right, List.mem_ite_nil_left, List.mem_map]
  simp

theorem shift_mem_acts :
    .shift s ∈ g.acts l items moves X ↔ g.nonterminals ≤ X ∧ moves.lookup X = some s := by
  simp only [acts, List.mem_append, List.mem_ite_nil_right, List.mem_ite_nil_left, List.mem_map]
  simp [isNonterminal]

theorem reduce_mem_acts :
    .reduce n ∈ g.acts l items moves X ↔ n ∈ g.reductions l items X := by
  simp only [acts, List.mem_append, List.mem_ite_nil_right, List.mem_ite_nil_left, List.mem_map]
  simp

theorem goto_mem_acts :
    .goto s ∈ g.acts l items moves X ↔ X < g.nonterminals ∧ moves.lookup X = some s := by
  simp only [acts, List.mem_append, List.mem_ite_nil_right, List.mem_ite_nil_left, List.mem_map]
  simp [isNonterminal]

end Grammar

/-! ## Cells -/

namespace Table

open Grammar

variable {g : Grammar} {t : Table} {p : Production} {n s s' X : Nat} {act : Act}

theorem exists_build (h : (build g).toOption.isSome = true) : ∃ t, build g = .ok t := by
  cases hbuild : build g with
  | ok t => exact ⟨t, rfl⟩
  | error e => simp [hbuild, Except.toOption] at h

/-- A table is known when its rows are. -/
theorem build_of_rows {rows : List (List (Option Act))}
    (h : (build g).toOption.map Table.rows = some rows) : build g = .ok ⟨rows⟩ := by
  cases hbuild : build g with
  | ok t =>
      obtain rfl : t.rows = rows := by simpa [hbuild, Except.toOption] using h
      rfl
  | error e => simp [hbuild, Except.toOption] at h

/-- Where going through a list succeeds, the function succeeds at every member. -/
theorem mapM_eq_ok {α β ε : Type} {f : α → Except ε β} {l : List α} {r : List β}
    (h : l.mapM f = .ok r) :
    r.length = l.length ∧
      ∀ (i : Nat) (x : α), l[i]? = some x → ∃ y, r[i]? = some y ∧ f x = .ok y := by
  induction l generalizing r with
  | nil =>
      obtain rfl : r = [] := by simpa [pure, Except.pure, eq_comm] using h
      simp
  | cons x rest ih =>
      rw [List.mapM_cons] at h
      cases hx : f x with
      | error e => simp [hx, bind, Except.bind] at h
      | ok y =>
          cases hrest : rest.mapM f with
          | error e => simp [hx, hrest, bind, Except.bind] at h
          | ok ys =>
              obtain rfl : r = y :: ys := by
                simpa [hx, hrest, bind, Except.bind, pure, Except.pure, eq_comm] using h
              obtain ⟨hlen, hget⟩ := ih hrest
              refine ⟨by simp [hlen], fun i z hz => ?_⟩
              cases i with
              | zero => exact ⟨y, rfl, by simpa using (by simpa using hz : x = z) ▸ hx⟩
              | succ i => exact hget i z (by simpa using hz)

private theorem mem_iff_of_onlyAct {acts : List Act} {o : Option Act}
    (h : g.onlyAct s X acts = .ok o) : act ∈ acts ↔ o = some act := by
  unfold onlyAct at h
  split at h
  · obtain rfl := Except.ok.inj h
    simp
  · obtain rfl := Except.ok.inj h
    simp [eq_comm]
  · simp at h

/-- The cells of a built table hold the only act that there is. -/
theorem lookup_eq_some_iff (h : build g = .ok t) :
    t.lookup s X = some act ↔
      s < g.automaton.states.length ∧ X ∈ g.symbols ∧
        act ∈ g.acts g.lookahead (g.itemsAt s) (g.automaton.moves.getD s []) X := by
  have hlen := (explored_automaton (length_pos_of_build h)).2
  have hbuild : ofCells g (g.cells g.automaton g.lookahead) = .ok t := by
    unfold build at h
    rwa [malformed?_of_build h] at h
  unfold ofCells at hbuild
  cases hrows : (g.cells g.automaton g.lookahead).zipIdx.mapM fun row =>
      row.1.zipIdx.mapM fun cell => g.onlyAct row.2 cell.2 cell.1 with
  | error e => simp [hrows, bind, Except.bind] at hbuild
  | ok rows =>
      obtain rfl : t = ⟨rows⟩ := by
        simpa [hrows, bind, Except.bind, pure, Except.pure, eq_comm] using hbuild
      obtain ⟨hrowsLen, hrow⟩ := mapM_eq_ok hrows
      have hcells : ∀ {s}, s < g.automaton.states.length →
          (g.cells g.automaton g.lookahead)[s]? = some (g.symbols.map
            (g.acts g.lookahead (g.itemsAt s) (g.automaton.moves.getD s []))) := fun {s} hs => by
        have hmoves := List.getElem?_eq_getElem (hlen.symm ▸ hs)
        rw [cells, List.getElem?_zipWith, List.getElem?_eq_getElem hs, hmoves,
          itemsAt_eq (List.getElem?_eq_getElem hs), List.getD_eq_getElem?_getD, hmoves]
        rfl
      have hcount : rows.length = g.automaton.states.length := by
        rw [hrowsLen, List.length_zipIdx, cells, List.length_zipWith, hlen, Nat.min_self]
      by_cases hs : s < g.automaton.states.length
      · obtain ⟨row, hrowGet, hrowOk⟩ := hrow s _ (by
          rw [List.getElem?_zipIdx, hcells hs, Option.map_some, Nat.zero_add])
        obtain ⟨hrowLen, hcell⟩ := mapM_eq_ok hrowOk
        have hrowD : rows.getD s [] = row := by
          rw [List.getD_eq_getElem?_getD, hrowGet, Option.getD_some]
        simp only [lookup, hrowD, List.getD_eq_getElem?_getD, hs, true_and]
        by_cases hX : X < g.symbolCount
        · obtain ⟨o, ho, hact⟩ := hcell X _ (by
            rw [List.getElem?_zipIdx, List.getElem?_map, symbols, List.getElem?_range hX]
            rfl)
          rw [ho, Option.getD_some, mem_symbols]
          simp only [hX, true_and]
          exact (mem_iff_of_onlyAct hact).symm
        · have hnone : row[X]? = none := by
            rw [List.getElem?_eq_none_iff, hrowLen]
            simpa [symbols] using hX
          simp [hnone, mem_symbols, hX]
      · have hnone : rows[s]? = none := by
          rw [List.getElem?_eq_none_iff, hcount]
          omega
        simp [lookup, List.getD_eq_getElem?_getD, hnone, hs]

theorem lookup_shift_iff (h : build g = .ok t) :
    t.lookup s X = some (.shift s') ↔ g.nonterminals ≤ X ∧ g.automaton.move? s X = some s' := by
  rw [lookup_eq_some_iff h, shift_mem_acts]
  refine ⟨fun ⟨_, _, hX, hmove⟩ => ⟨hX, hmove⟩, fun ⟨hX, hmove⟩ => ?_⟩
  obtain ⟨hsym, hs, -⟩ := move?_eq_some (length_pos_of_build h) hmove
  exact ⟨hs, hsym, hX, hmove⟩

theorem lookup_goto_iff (h : build g = .ok t) :
    t.lookup s X = some (.goto s') ↔ X < g.nonterminals ∧ g.automaton.move? s X = some s' := by
  rw [lookup_eq_some_iff h, goto_mem_acts]
  refine ⟨fun ⟨_, _, hX, hmove⟩ => ⟨hX, hmove⟩, fun ⟨hX, hmove⟩ => ?_⟩
  obtain ⟨hsym, hs, -⟩ := move?_eq_some (length_pos_of_build h) hmove
  exact ⟨hs, hsym, hX, hmove⟩

private theorem lt_of_mem_itemsAt {a : Item} (ha : a ∈ g.itemsAt s) :
    s < g.automaton.states.length := by
  by_contra hs
  rw [itemsAt, List.getD_eq_getElem?_getD, List.getElem?_eq_none_iff.mpr (by omega)] at ha
  simp at ha

theorem lookup_reduce_iff (h : build g = .ok t) :
    t.lookup s X = some (.reduce n) ↔
      ∃ p, g.productions[n]? = some p ∧ ⟨n, p.rhs.length + 1⟩ ∈ g.itemsAt s ∧ n ≠ 0 ∧
        X ∈ g.symbols ∧ X ∈ g.lookahead.followOf p.lhs := by
  rw [lookup_eq_some_iff h, reduce_mem_acts, mem_reductions]
  constructor
  · rintro ⟨-, hX, p, hp, hitem, hne, hfollow⟩
    exact ⟨p, hp, hitem, hne, hX, hfollow⟩
  · rintro ⟨p, hp, hitem, hne, hX, hfollow⟩
    exact ⟨lt_of_mem_itemsAt hitem, hX, p, hp, hitem, hne, hfollow⟩

/-- A state accepts on the end mark when the start production is complete. -/
theorem lookup_accept_iff (h : build g = .ok t) :
    t.lookup s X = some .accept ↔ X = g.endMark ∧ X ∈ g.symbols ∧ ⟨0, 2⟩ ∈ g.itemsAt s := by
  rw [lookup_eq_some_iff h, accept_mem_acts]
  have hstart := start_of_build h
  constructor
  · rintro ⟨-, hX, rfl, a, ha, hcomplete, hzero⟩
    obtain ⟨p, hp, heq⟩ := isComplete_iff.mp hcomplete
    rw [hzero] at hp heq
    obtain rfl := Option.some.inj (hstart.symm.trans hp)
    exact ⟨rfl, hX, heq ▸ ha⟩
  · rintro ⟨rfl, hX, ha⟩
    exact ⟨lt_of_mem_itemsAt ha, hX, rfl, _, ha, isComplete_iff.mpr ⟨_, hstart, rfl⟩, rfl⟩

end Table
end Argand
