-- SUMMARY: Building a table fails on the first production that is badly listed, then on the first cell with several acts.
import Argand.Proofs.Table

/-!
# How building ends

Building looks at the productions in order, then at the first of them, then at the cells row by
row. It fails with the first thing that is wrong: a production that is not where or what it should
be (`build_of_not_isListed`), a missing start production (`build_of_not_hasStart`), or a cell with
more than one act. Where the productions are well listed it gives a table or names the first such
cell (`build_of_isWellListed`).
-/
namespace Argand

/-! ## Productions in order -/

/-- The first member of a list for which a function has a value gives the value. -/
private theorem findSome?_of_first {α β : Type} {f : α → Option β} {l : List α} {n : Nat} {x : α}
    {b : β} (hx : l[n]? = some x) (hfx : f x = some b)
    (hfirst : ∀ m y, m < n → l[m]? = some y → f y = none) : l.findSome? f = some b := by
  induction l generalizing n with
  | nil => simp at hx
  | cons y rest ih =>
      cases n with
      | zero =>
          obtain rfl : y = x := by simpa using hx
          rw [List.findSome?_cons, hfx]
      | succ n =>
          rw [List.findSome?_cons, hfirst 0 y (Nat.succ_pos n) rfl]
          exact ih (by simpa using hx) fun m z hm hz =>
            hfirst (m + 1) z (Nat.succ_lt_succ hm) (by simpa using hz)

namespace Grammar

variable {g : Grammar} {p : Production} {n s X : Nat}

/-- The production has the number of its place and a nonterminal to its left. -/
def IsListed (g : Grammar) (n : Nat) (p : Production) : Prop :=
  p.id = n ∧ p.lhs < g.nonterminals

/-- Every production is where and what it should be, and production 0 goes from the start symbol to
a single symbol. -/
structure IsWellListed (g : Grammar) : Prop where
  listed {n : Nat} {p : Production} : g.productions[n]? = some p → g.IsListed n p
  start : ∃ S, g.productions[0]? = some ⟨0, 0, [S]⟩

theorem IsWellListed.lhs_lt (h : g.IsWellListed) (hp : p ∈ g.productions) :
    p.lhs < g.nonterminals := by
  obtain ⟨n, hn⟩ := List.getElem?_of_mem hp
  exact (h.listed hn).2

theorem defect?_of_isListed (h : g.IsListed n p) : g.defect? n p = none := by
  obtain ⟨hid, hlhs⟩ := h
  simp [defect?, isNonterminal, hid, hlhs]

/-- A production that is badly listed is out of order, or else it has a terminal to its left. -/
theorem defect?_of_not_isListed (h : ¬ g.IsListed n p) :
    g.defect? n p = some (.production n
      (if p.id ≠ n then "listed out of order" else "left-hand side is a terminal")) := by
  unfold IsListed at h
  unfold defect? isNonterminal
  split
  · rfl
  · rename_i hid
    have hlhs : ¬ p.lhs < g.nonterminals := fun hlt => h ⟨not_not.mp hid, hlt⟩
    simp [hlhs]

theorem hasStart_iff :
    g.hasStart = true ↔ ∃ p S, g.productions[0]? = some p ∧ p.lhs = 0 ∧ p.rhs = [S] := by
  unfold hasStart
  split
  · rename_i p rest hprods
    simp [hprods, List.length_eq_one_iff]
  · rename_i hprods
    simp [hprods]

/-- The first production that is badly listed stops building. -/
theorem build_of_not_isListed (hp : g.productions[n]? = some p) (h : ¬ g.IsListed n p)
    (hfirst : ∀ m q, m < n → g.productions[m]? = some q → g.IsListed m q) :
    Table.build g = .error (.production n
      (if p.id ≠ n then "listed out of order" else "left-hand side is a terminal")) := by
  have hfind : (g.productions.zipIdx.findSome? fun p => g.defect? p.2 p.1) =
      some (.production n
        (if p.id ≠ n then "listed out of order" else "left-hand side is a terminal")) := by
    refine findSome?_of_first (n := n) (x := (p, n)) (by simp [List.getElem?_zipIdx, hp])
      (defect?_of_not_isListed h) fun m y hm hy => ?_
    obtain ⟨q, hq, rfl⟩ : ∃ q, g.productions[m]? = some q ∧ (q, m) = y := by
      simpa [List.getElem?_zipIdx] using hy
    exact defect?_of_isListed (hfirst m q hm hq)
  rw [Table.build, malformed?, hfind]

private theorem findSome?_defect? (h : ∀ n p, g.productions[n]? = some p → g.IsListed n p) :
    (g.productions.zipIdx.findSome? fun p => g.defect? p.2 p.1) = none :=
  List.findSome?_eq_none_iff.mpr fun p hp =>
    defect?_of_isListed (h p.2 p.1 (List.mem_zipIdx_iff_getElem?.mp hp))

/-- A missing start production stops building where every production is well listed. -/
theorem build_of_not_hasStart (h : ∀ n p, g.productions[n]? = some p → g.IsListed n p)
    (hstart : ¬ ∃ p S, g.productions[0]? = some p ∧ p.lhs = 0 ∧ p.rhs = [S]) :
    Table.build g = .error (.production 0 "must be Start -> S") := by
  have hfalse : g.hasStart = false := by
    rw [Bool.eq_false_iff, ne_eq, hasStart_iff]
    exact hstart
  rw [Table.build, malformed?, findSome?_defect? h]
  simp [hfalse]

theorem isWellListed_of_start (h : ∀ n p, g.productions[n]? = some p → g.IsListed n p)
    (hstart : ∃ p S, g.productions[0]? = some p ∧ p.lhs = 0 ∧ p.rhs = [S]) : g.IsWellListed := by
  obtain ⟨⟨id, lhs, rhs⟩, S, hp, rfl, rfl⟩ := hstart
  obtain rfl : id = 0 := (h 0 _ hp).1
  exact ⟨h _ _, S, hp⟩

theorem malformed?_eq_none_iff : g.malformed? = none ↔ g.IsWellListed := by
  constructor
  · intro h
    unfold malformed? at h
    split at h
    · simp at h
    · rename_i hnone
      have hlisted : ∀ n p, g.productions[n]? = some p → g.IsListed n p := by
        intro n p hp
        by_contra hnot
        have hdefect := List.findSome?_eq_none_iff.mp hnone (p, n)
          (List.mem_zipIdx_iff_getElem?.mpr hp)
        simp [defect?_of_not_isListed hnot] at hdefect
      refine isWellListed_of_start hlisted (hasStart_iff.mp ?_)
      by_contra hstart
      simp [hstart] at h
  · intro h
    obtain ⟨S, hS⟩ := h.start
    have hstart : g.hasStart = true := hasStart_iff.mpr ⟨_, S, hS, rfl, rfl⟩
    rw [malformed?, findSome?_defect? fun n p => h.listed]
    simp [hstart]

theorem IsWellListed.length_pos (h : g.IsWellListed) : 0 < g.productions.length := by
  obtain ⟨S, hS⟩ := h.start
  exact (List.getElem?_eq_some_iff.mp hS).1

/-! ## Cells in order -/

/-- The acts that the automaton and the FOLLOW sets call for in a state on `X`. -/
def actsAt (g : Grammar) (s X : Nat) : List Act :=
  g.acts g.lookahead (g.itemsAt s) (g.automaton.moves.getD s []) X

/-- How the acts of a cell are named in an error. -/
def actsText (acts : List Act) : String :=
  String.join (acts.map fun act => act.text ++ " ")

theorem onlyAct_of_length_le {acts : List Act} (h : acts.length ≤ 1) :
    ∃ o, g.onlyAct s X acts = .ok o := by
  match acts with
  | [] => exact ⟨none, rfl⟩
  | [act] => exact ⟨some act, rfl⟩
  | _ :: _ :: _ => simp at h

theorem onlyAct_of_lt_length {acts : List Act} (h : 1 < acts.length) :
    g.onlyAct s X acts = .error (.conflict s (g.usedLabel X) (actsText acts)) := by
  match acts with
  | [] => simp at h
  | [act] => simp at h
  | _ :: _ :: _ => rfl

end Grammar

/-- Going through a list with a function that can fail either succeeds or fails at the first member
where the function does. -/
private theorem mapM_cases {α β ε : Type} (f : α → Except ε β) (l : List α) :
    (∃ r, l.mapM f = .ok r) ∨
      ∃ (n : Nat) (x : α) (e : ε), l[n]? = some x ∧ f x = .error e ∧ l.mapM f = .error e ∧
        ∀ m y, m < n → l[m]? = some y → ∃ z, f y = .ok z := by
  induction l with
  | nil => exact .inl ⟨[], rfl⟩
  | cons x rest ih =>
      rw [List.mapM_cons]
      cases hx : f x with
      | error e => exact .inr ⟨0, x, e, rfl, hx, rfl, by simp⟩
      | ok z =>
          rcases ih with ⟨r, hr⟩ | ⟨n, y, e, hy, hfy, hrest, hfirst⟩
          · exact .inl ⟨z :: r, by simp [hr, bind, Except.bind, pure, Except.pure]⟩
          · refine .inr ⟨n + 1, y, e, by simpa using hy, hfy, by simp [hrest, bind, Except.bind],
              fun m y' hm hy' => ?_⟩
            cases m with
            | zero => exact ⟨z, by simpa using (by simpa using hy' : x = y') ▸ hx⟩
            | succ m => exact hfirst m y' (Nat.lt_of_succ_lt_succ hm) (by simpa using hy')

namespace Grammar

variable {g : Grammar}

theorem getElem?_cells {s : Nat} (hprod : 0 < g.productions.length)
    (hs : s < g.automaton.states.length) :
    (g.cells g.automaton g.lookahead)[s]? = some (g.symbols.map (g.actsAt s)) := by
  have hmoves := List.getElem?_eq_getElem ((explored_automaton hprod).2.symm ▸ hs)
  rw [cells, List.getElem?_zipWith, List.getElem?_eq_getElem hs, hmoves]
  simp [actsAt, itemsAt_eq (List.getElem?_eq_getElem hs), List.getD_eq_getElem?_getD, hmoves]

/-- A row is read until a cell has several acts. -/
private theorem row_cases (g : Grammar) (s : Nat) :
    (∃ r, ((g.symbols.map (g.actsAt s)).zipIdx.mapM fun cell => g.onlyAct s cell.2 cell.1) =
        .ok r ∧ ∀ X ∈ g.symbols, (g.actsAt s X).length ≤ 1) ∨
      ∃ X ∈ g.symbols, 1 < (g.actsAt s X).length ∧
        ((g.symbols.map (g.actsAt s)).zipIdx.mapM fun cell => g.onlyAct s cell.2 cell.1) =
          .error (.conflict s (g.usedLabel X) (actsText (g.actsAt s X))) ∧
        ∀ X' < X, (g.actsAt s X').length ≤ 1 := by
  have hcell : ∀ {X : Nat} {cell : List Act × Nat},
      (g.symbols.map (g.actsAt s)).zipIdx[X]? = some cell ↔
        X ∈ g.symbols ∧ cell = (g.actsAt s X, X) := fun {X cell} => by
    rw [mem_symbols, List.getElem?_zipIdx, List.getElem?_map, symbols]
    by_cases hX : X < g.symbolCount
    · simp [hX, eq_comm]
    · simp [hX]
  have hle : ∀ {X : Nat} {o : Option Act}, g.onlyAct s X (g.actsAt s X) = .ok o →
      (g.actsAt s X).length ≤ 1 := fun {X o} ho => by
    by_contra hlt
    simp [onlyAct_of_lt_length (Nat.lt_of_not_le hlt)] at ho
  rcases mapM_cases (fun cell : List Act × Nat => g.onlyAct s cell.2 cell.1)
      (g.symbols.map (g.actsAt s)).zipIdx with ⟨r, hr⟩ | ⟨X, cell, e, hget, he, hrow, hfirst⟩
  · refine .inl ⟨r, hr, fun X hX => ?_⟩
    obtain ⟨o, -, ho⟩ := (Table.mapM_eq_ok hr).2 X _ (hcell.mpr ⟨hX, rfl⟩)
    exact hle ho
  · obtain ⟨hX, rfl⟩ := hcell.mp hget
    have hlt : 1 < (g.actsAt s X).length := by
      by_contra hge
      obtain ⟨o, ho⟩ := onlyAct_of_length_le (g := g) (s := s) (X := X) (Nat.le_of_not_lt hge)
      exact absurd (ho.symm.trans he) (by simp)
    obtain rfl := Except.error.inj ((onlyAct_of_lt_length hlt).symm.trans he)
    refine .inr ⟨X, hX, hlt, hrow, fun X' hX' => ?_⟩
    have hmem : X' ∈ g.symbols := mem_symbols.mpr (Nat.lt_trans hX' (mem_symbols.mp hX))
    obtain ⟨o, ho⟩ := hfirst X' _ hX' (hcell.mpr ⟨hmem, rfl⟩)
    exact hle ho

/-- Where the productions are well listed there is a table, or the first cell with several acts is
named. -/
theorem build_of_isWellListed (h : g.IsWellListed) :
    (∃ t, Table.build g = .ok t) ∨ ∃ s X, s < g.automaton.states.length ∧ X ∈ g.symbols ∧
      1 < (g.actsAt s X).length ∧
      Table.build g = .error (.conflict s (g.usedLabel X) (actsText (g.actsAt s X))) ∧
      ∀ s' X', s' < s ∨ s' = s ∧ X' < X → X' ∈ g.symbols → (g.actsAt s' X').length ≤ 1 := by
  have hbuild : Table.build g = Table.ofCells g (g.cells g.automaton g.lookahead) := by
    rw [Table.build, malformed?_eq_none_iff.mpr h]
  have hcount : (g.cells g.automaton g.lookahead).length = g.automaton.states.length := by
    rw [cells, List.length_zipWith, (explored_automaton h.length_pos).2, Nat.min_self]
  have hrow : ∀ {s : Nat} {row : List (List Act) × Nat},
      (g.cells g.automaton g.lookahead).zipIdx[s]? = some row →
        s < g.automaton.states.length ∧ row = (g.symbols.map (g.actsAt s), s) :=
    fun {s row} hget => by
      rw [List.getElem?_zipIdx] at hget
      have hs : s < g.automaton.states.length := by
        by_contra hge
        simp [List.getElem?_eq_none_iff.mpr (hcount.le.trans (Nat.le_of_not_lt hge))] at hget
      rw [getElem?_cells h.length_pos hs] at hget
      exact ⟨hs, by simpa [eq_comm] using hget⟩
  rw [hbuild, Table.ofCells]
  rcases mapM_cases
      (fun row : List (List Act) × Nat => row.1.zipIdx.mapM fun cell =>
        g.onlyAct row.2 cell.2 cell.1)
      (g.cells g.automaton g.lookahead).zipIdx with
      ⟨rows, hrows⟩ | ⟨s, row, e, hget, he, hrows, hfirst⟩
  · exact .inl ⟨⟨rows⟩, by simp [hrows, bind, Except.bind, pure, Except.pure]⟩
  · obtain ⟨hs, rfl⟩ := hrow hget
    rcases row_cases g s with ⟨r, hr, -⟩ | ⟨X, hX, hlt, herr, hbefore⟩
    · exact absurd (hr.symm.trans he) (by simp)
    · obtain rfl := Except.error.inj (herr.symm.trans he)
      refine .inr ⟨s, X, hs, hX, hlt, by simp [hrows, bind, Except.bind], ?_⟩
      rintro s' X' (hs' | ⟨rfl, hX'⟩) hmem
      · have hget' := getElem?_cells h.length_pos (Nat.lt_trans hs' hs)
        obtain ⟨r, hr⟩ := hfirst s' (g.symbols.map (g.actsAt s'), s') hs'
          (by simp [List.getElem?_zipIdx, hget'])
        rcases row_cases g s' with ⟨-, -, hle⟩ | ⟨X'', -, -, herr', -⟩
        · exact hle X' hmem
        · exact absurd (herr'.symm.trans hr) (by simp)
      · exact hbefore X' hX'

end Grammar
end Argand
