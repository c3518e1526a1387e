-- SUMMARY: A table is built for exactly the SLR(1) grammars, and the first thing that is wrong is reported.
import Argand.Gallery.Grammars
import Argand.Proofs.Drive
import Argand.Proofs.Follow
import Argand.Proofs.Validity

/-!
# Which grammars have a table

After a string of symbols and with a terminal ahead, the valid items call for moves: a shift if the
terminal stands right after a dot, and a reduction for every completed production of which it is a
lookahead. A grammar is SLR(1) when never two moves are called for (`IsSlr`). The cells of the
automaton's states hold these moves, one act for each (`calls_iff`), and cells on nonterminals never
hold two acts. Building therefore decides whether a grammar is SLR(1) (`build_decides`).
-/
namespace Argand

/-- The move that an act stands for. To accept is to reduce the start production, and a goto goes
with a reduction. -/
def Act.move? : Act → Option Move
  | .accept => some (.reduce 0)
  | .shift _ => some .shift
  | .reduce n => some (.reduce n)
  | .goto _ => none

namespace Grammar

variable {g : Grammar} {α : List Nat} {a : Item} {p : Production} {n s s' t X : Nat}
  {items : List Item} {m : Move} {act act' : Act}

/-! ## What the valid items call for -/

/-- The lookaheads of a completed production: what can follow its left-hand side; for the start
production the end mark alone. -/
def IsLookahead (g : Grammar) (n t : Nat) : Prop :=
  n = 0 ∧ t = g.endMark ∨ n ≠ 0 ∧ ∃ p, g.productions[n]? = some p ∧ g.CanFollow p.lhs t

/-- The moves that the items valid for `α` call for when `t` is ahead. -/
inductive Calls (g : Grammar) (α : List Nat) (t : Nat) : Move → Prop where
  | shift {n : Nat} {pre post : List Nat} :
      g.IsValidItem α n pre (t :: post) → Calls g α t .shift
  | reduce {n : Nat} {rhs : List Nat} :
      g.IsValidItem α n rhs [] → g.IsLookahead n t → Calls g α t (.reduce n)

/-- Two moves are called for. -/
def Clashes (g : Grammar) (α : List Nat) (t : Nat) : Prop :=
  ∃ m m', g.Calls α t m ∧ g.Calls α t m' ∧ m ≠ m'

/-- Never are two moves called for. -/
def IsSlr (g : Grammar) : Prop :=
  ∀ α t, t ∈ g.terminalSymbols → ¬ g.Clashes α t

/-! ## Cells hold distinct acts -/

theorem ascending_itemsAt (hprod : 0 < g.productions.length) (s : Nat) :
    Ascending (g.itemsAt s) := by
  by_cases hs : s < g.automaton.states.length
  · rw [itemsAt_eq (List.getElem?_eq_getElem hs)]
    exact ((explored_automaton hprod).1.itemSets _ (List.getElem_mem hs)).1
  · simp [itemsAt, List.getD_eq_getElem?_getD, List.getElem?_eq_none_iff.mpr (Nat.le_of_not_lt hs),
      Ascending]

/-- Of each production only one item is complete, so it is reduced once. -/
theorem nodup_reductions {l : Lookahead} (h : Ascending items) :
    (g.reductions l items X).Nodup := by
  refine h.filterMap _ fun a a' hbefore n hn n' hn' heq => ?_
  have hcomplete : ∀ {b : Item} {k : Nat},
      (if (g.isComplete b && b.production != 0) = true then
        (g.productions[b.production]?).bind fun p =>
          if (l.followOf p.lhs).contains X then some b.production else none
      else none) = some k → g.isComplete b = true ∧ b.production = k := by
    intro b k hk
    split at hk
    · rename_i hcond
      obtain ⟨p, -, hp⟩ := Option.bind_eq_some_iff.mp hk
      split at hp
      · exact ⟨(Bool.and_eq_true _ _ ▸ hcond).1, Option.some.inj hp⟩
      · simp at hp
    · simp at hk
  obtain ⟨ha, rfl⟩ := hcomplete hn
  obtain ⟨ha', rfl⟩ := hcomplete hn'
  obtain ⟨p, hp, heqa⟩ := isComplete_iff.mp ha
  obtain ⟨p', hp', heqa'⟩ := isComplete_iff.mp ha'
  rw [heq] at hp heqa
  obtain rfl : p = p' := Option.some.inj (hp.symm.trans hp')
  rw [heqa.trans heqa'.symm, Item.before_irrefl] at hbefore
  cases hbefore

theorem nodup_acts {l : Lookahead} {moves : List (Nat × Nat)} (h : Ascending items) :
    (g.acts l items moves X).Nodup := by
  have hlookup : ∀ f : Nat → Act, ((moves.lookup X).toList.map f).Nodup := fun f => by
    cases moves.lookup X <;> simp
  have hreduce : ((g.reductions l items X).map Act.reduce).Nodup :=
    (nodup_reductions h).map fun _ _ heq => Act.reduce.inj heq
  unfold acts
  rw [List.nodup_append, List.nodup_append, List.nodup_append]
  refine ⟨⟨⟨?_, ?_, ?_⟩, hreduce, ?_⟩, ?_, ?_⟩
  · split <;> simp
  · split
    · simp
    · exact hlookup _
  · split <;> split <;> simp
  · split <;> split <;> simp [or_imp, forall_and]
  · split
    · exact hlookup _
    · simp
  · split <;> split <;> simp [or_imp, forall_and]

/-- Cells on nonterminals hold a goto at most, since lookaheads are terminals. -/
theorem length_actsAt_le_of_nonterminal (hend : g.endMark ∈ g.terminalSymbols)
    (hX : X < g.nonterminals) : (g.actsAt s X).length ≤ 1 := by
  have hne : X ≠ g.endMark := fun heq => by
    have := (mem_terminalSymbols.mp hend).1
    omega
  have hreductions : g.reductions g.lookahead (g.itemsAt s) X = [] := by
    refine List.eq_nil_iff_forall_not_mem.mpr fun n hn => ?_
    obtain ⟨p, -, -, -, hfollow⟩ := mem_reductions.mp hn
    have hterm := ((mem_followOf hend).mp hfollow).2.1
    have := (mem_terminalSymbols.mp hterm).1
    omega
  simp [actsAt, acts, hne, isNonterminal, hX, hreductions]

/-! ## Cells and valid items -/

section

variable (hlisted : g.IsWellListed) (hend : g.endMark ∈ g.terminalSymbols)
include hlisted hend

/-- The acts of a state on a terminal are the moves that the valid items call for, for every string
that leads to the state. -/
theorem calls_iff (hwalk : g.automaton.walk? 0 α = some s) (ht : t ∈ g.terminalSymbols) :
    g.Calls α t m ↔ ∃ act ∈ g.actsAt s t, act.move? = some m := by
  have hprod := hlisted.length_pos
  have hlhs : ∀ p ∈ g.productions, p.lhs < g.nonterminals := fun p => hlisted.lhs_lt
  have hcollects := collects_of_walk? hprod hlhs hwalk
  obtain ⟨S, hS⟩ := hlisted.start
  constructor
  · rintro (@⟨n, pre, post, hitem⟩ | @⟨n, rhs, hitem, hlookahead⟩)
    · obtain ⟨⟨p, hp, hrhs⟩, hvalid⟩ := (isValidItem_iff hS).mp hitem
      obtain ⟨s', hmove⟩ := exists_move? hprod (lt_of_walk? hprod hwalk)
        (mem_symbols_of_terminal ht) ((hcollects _).mpr hvalid) (next?_of_split hp hrhs)
      exact ⟨.shift s', shift_mem_acts.mpr ⟨(mem_terminalSymbols.mp ht).1, hmove⟩, rfl⟩
    · obtain ⟨⟨p, hp, hrhs⟩, hvalid⟩ := (isValidItem_iff hS).mp hitem
      obtain rfl : p.rhs = rhs := by simpa using hrhs
      have hmem := (hcollects _).mpr hvalid
      rcases hlookahead with ⟨rfl, rfl⟩ | ⟨hne, q, hq, hfollow⟩
      · exact ⟨.accept, accept_mem_acts.mpr
          ⟨rfl, _, hmem, isComplete_iff.mpr ⟨p, hp, rfl⟩, rfl⟩, rfl⟩
      · obtain rfl : p = q := Option.some.inj (hp.symm.trans hq)
        have hfollow' := (mem_followOf_iff hlhs hend).mpr ⟨(hlisted.listed hp).2, ht, hfollow⟩
        exact ⟨.reduce n, reduce_mem_acts.mpr (mem_reductions.mpr ⟨p, hp, hmem, hne, hfollow'⟩),
          rfl⟩
  · rintro ⟨act, hact, hmove⟩
    have hitem : ∀ {n : Nat} {p : Production} {pre post : List Nat},
        g.productions[n]? = some p → p.rhs = pre ++ post →
        ⟨n, pre.length + 1⟩ ∈ g.itemsAt s → g.IsValidItem α n pre post :=
      fun hp hrhs hmem => (isValidItem_iff hS).mpr ⟨⟨_, hp, hrhs⟩, (hcollects _).mp hmem⟩
    cases act with
    | accept =>
        obtain rfl := Option.some.inj hmove
        obtain ⟨rfl, a, ha, hcomplete, hzero⟩ := accept_mem_acts.mp hact
        obtain ⟨p, hp, heq⟩ := isComplete_iff.mp hcomplete
        rw [hzero] at hp heq
        exact .reduce (hitem hp (List.append_nil _).symm (heq ▸ ha)) (.inl ⟨rfl, rfl⟩)
    | shift s' =>
        obtain rfl := Option.some.inj hmove
        have hmove' : g.automaton.move? s t = some s' := (shift_mem_acts.mp hact).2
        obtain ⟨⟨n, d⟩, ha, hnext⟩ := Path.exists_next_of_move? (σ := [s]) hprod hmove'
        have hvalid := (hcollects _).mp ha
        obtain ⟨pre, post, hdot, β, p, hchain, hp, hrhs, rfl⟩ := hvalid.isValidItem hS
        obtain rfl : d = pre.length + 1 := hdot
        obtain ⟨rest, rfl⟩ := eq_cons_of_next? hp hrhs hnext
        exact .shift ⟨β, p, hchain, hp, hrhs, rfl⟩
    | reduce n =>
        obtain rfl := Option.some.inj hmove
        obtain ⟨p, hp, hmem, hne, hfollow⟩ := mem_reductions.mp (reduce_mem_acts.mp hact)
        exact .reduce (hitem hp (List.append_nil _).symm hmem)
          (.inr ⟨hne, p, hp, ((mem_followOf_iff hlhs hend).mp hfollow).2.2⟩)
    | goto s' => cases hmove

omit hlisted hend in
/-- In a cell no two acts stand for one move. -/
theorem eq_of_move?_eq (hact : act ∈ g.actsAt s X) (hact' : act' ∈ g.actsAt s X)
    (hmove : act.move? = some m) (hmove' : act'.move? = some m) : act = act' := by
  cases m with
  | shift =>
      have hshift : ∀ act : Act, act.move? = some .shift → ∃ s', act = .shift s' := fun act h => by
        cases act <;> simp_all [Act.move?]
      obtain ⟨s₁, rfl⟩ := hshift act hmove
      obtain ⟨s₂, rfl⟩ := hshift act' hmove'
      have heq := (shift_mem_acts.mp hact).2.symm.trans (shift_mem_acts.mp hact').2
      rw [Option.some.inj heq]
  | reduce n =>
      -- The start production is never reduced, but accepts.
      have hreduce : ∀ act ∈ g.actsAt s X, act.move? = some (.reduce n) →
          act = if n = 0 then .accept else .reduce n := by
        intro act hmem h
        cases act with
        | accept =>
            obtain rfl : 0 = n := by simpa [Act.move?] using h
            rfl
        | shift s' => simp [Act.move?] at h
        | goto s' => simp [Act.move?] at h
        | reduce k =>
            obtain rfl : k = n := by simpa [Act.move?] using h
            obtain ⟨p, -, -, hne, -⟩ := mem_reductions.mp (reduce_mem_acts.mp hmem)
            rw [if_neg hne]
      rw [hreduce act hact hmove, hreduce act' hact' hmove']

/-- Two moves are called for where a cell holds several acts. -/
theorem clashes_iff (hwalk : g.automaton.walk? 0 α = some s) (ht : t ∈ g.terminalSymbols) :
    g.Clashes α t ↔ 1 < (g.actsAt s t).length := by
  constructor
  · rintro ⟨m, m', hcalls, hcalls', hne⟩
    obtain ⟨act, hact, hmove⟩ := (calls_iff hlisted hend hwalk ht).mp hcalls
    obtain ⟨act', hact', hmove'⟩ := (calls_iff hlisted hend hwalk ht).mp hcalls'
    by_contra hle
    match hcell : g.actsAt s t with
    | [] => simp [hcell] at hact
    | [only] =>
        obtain rfl : act = only := by simpa [hcell] using hact
        obtain rfl : act' = act := by simpa [hcell] using hact'
        exact hne (Option.some.inj (hmove.symm.trans hmove'))
    | _ :: _ :: _ => simp [hcell] at hle
  · intro hlt
    have hmove : ∀ act ∈ g.actsAt s t, ∃ m, act.move? = some m := by
      intro act hact
      cases act with
      | goto s' =>
          have hnonterm := (goto_mem_acts.mp hact).1
          have := (mem_terminalSymbols.mp ht).1
          omega
      | _ => exact ⟨_, rfl⟩
    have hnodup : (g.actsAt s t).Nodup := nodup_acts (ascending_itemsAt hlisted.length_pos s)
    match hcell : g.actsAt s t with
    | [] => simp [hcell] at hlt
    | [only] => simp [hcell] at hlt
    | act :: act' :: rest =>
        have hact : act ∈ g.actsAt s t := by simp [hcell]
        have hact' : act' ∈ g.actsAt s t := by simp [hcell]
        obtain ⟨m, hm⟩ := hmove act hact
        obtain ⟨m', hm'⟩ := hmove act' hact'
        refine ⟨m, m', (calls_iff hlisted hend hwalk ht).mpr ⟨act, hact, hm⟩,
          (calls_iff hlisted hend hwalk ht).mpr ⟨act', hact', hm'⟩, fun heq => ?_⟩
        rw [hcell] at hnodup
        have hsame := eq_of_move?_eq hact hact' hm (heq ▸ hm')
        simp [hsame] at hnodup

/-! ## Building decides -/

variable (hsymbols : ∀ p ∈ g.productions, ∀ X ∈ p.rhs, X ∈ g.symbols)
include hsymbols

omit hend in
/-- A string after which two moves are called for leads to a state. -/
theorem Clashes.exists_walk? (h : g.Clashes α t) : ∃ s, g.automaton.walk? 0 α = some s := by
  obtain ⟨S, hS⟩ := hlisted.start
  obtain ⟨m, m', hcalls, -⟩ := h
  rcases hcalls with ⟨hitem⟩ | ⟨hitem, -⟩
  all_goals
    exact Grammar.exists_walk? hlisted.length_pos (fun p => hlisted.lhs_lt) hsymbols
      ((isValidItem_iff hS).mp hitem).2

/-- A cell with several acts is on a terminal, in a state to which a string leads. -/
theorem exists_clashes (hs : s < g.automaton.states.length) (hX : X ∈ g.symbols)
    (hlt : 1 < (g.actsAt s X).length) :
    X ∈ g.terminalSymbols ∧ ∃ α, g.automaton.walk? 0 α = some s ∧ g.Clashes α X := by
  have ht : X ∈ g.terminalSymbols := by
    refine mem_terminalSymbols.mpr ⟨?_, mem_symbols.mp hX⟩
    by_contra hnonterm
    have := length_actsAt_le_of_nonterminal (s := s) hend (Nat.lt_of_not_le hnonterm)
    omega
  obtain ⟨α, hwalk⟩ :=
    exists_walk?_eq hlisted.length_pos (fun p => hlisted.lhs_lt) hsymbols hs
  exact ⟨ht, α, hwalk, (clashes_iff hlisted hend hwalk ht).mpr hlt⟩

theorem exists_table_iff : (∃ t, Table.build g = .ok t) ↔ g.IsSlr := by
  constructor
  · rintro ⟨table, hbuild⟩ α t ht hclashes
    obtain ⟨s, hwalk⟩ := hclashes.exists_walk? hlisted hsymbols
    obtain ⟨m, m', hcalls, hcalls', hne⟩ := hclashes
    obtain ⟨act, hact, hmove⟩ := (calls_iff hlisted hend hwalk ht).mp hcalls
    obtain ⟨act', hact', hmove'⟩ := (calls_iff hlisted hend hwalk ht).mp hcalls'
    have hs := lt_of_walk? hlisted.length_pos hwalk
    have hX := mem_symbols_of_terminal ht
    have hlookup := (Table.lookup_eq_some_iff hbuild).mpr ⟨hs, hX, hact⟩
    have hlookup' := (Table.lookup_eq_some_iff hbuild).mpr ⟨hs, hX, hact'⟩
    obtain rfl := Option.some.inj (hlookup.symm.trans hlookup')
    exact hne (Option.some.inj (hmove.symm.trans hmove'))
  · intro hslr
    rcases build_of_isWellListed hlisted with htable | ⟨s, X, hs, hX, hlt, -⟩
    · exact htable
    · obtain ⟨ht, α, -, hclashes⟩ := exists_clashes hlisted hend hsymbols hs hX hlt
      exact absurd hclashes (hslr α X ht)

/-- Without a table, the conflict reported is the first one: in the first state, and there on the
first terminal, for which two moves are called for. -/
theorem exists_first_clash (h : ¬ g.IsSlr) :
    ∃ s α t, g.automaton.walk? 0 α = some s ∧ t ∈ g.terminalSymbols ∧ g.Clashes α t ∧
      Table.build g = .error (.conflict s (g.usedLabel t) (actsText (g.actsAt s t))) ∧
      (∀ m, g.Calls α t m ↔ ∃ act ∈ g.actsAt s t, act.move? = some m) ∧
      ∀ s' β t', g.automaton.walk? 0 β = some s' → t' ∈ g.terminalSymbols → g.Clashes β t' →
        s < s' ∨ s = s' ∧ t ≤ t' := by
  rcases build_of_isWellListed hlisted with
      htable | ⟨s, X, hs, hX, hlt, herror, hfirst⟩
  · exact absurd ((exists_table_iff hlisted hend hsymbols).mp htable) h
  · obtain ⟨ht, α, hwalk, hclashes⟩ := exists_clashes hlisted hend hsymbols hs hX hlt
    refine ⟨s, α, X, hwalk, ht, hclashes, herror, fun m => calls_iff hlisted hend hwalk ht, ?_⟩
    intro s' β t' hwalk' ht' hclashes'
    by_contra hbefore
    have hle := hfirst s' t' (by omega) (mem_symbols_of_terminal ht')
    have hlt' := (clashes_iff hlisted hend hwalk' ht').mp hclashes'
    omega

end

/-- Building reports the first production that is badly listed; else a missing start production;
else it gives a table exactly if the grammar is SLR(1), and reports the first clash if it is not. -/
theorem build_decides (g : Grammar) :
    (∀ n p, g.productions[n]? = some p → ¬ g.IsListed n p →
      (∀ m q, m < n → g.productions[m]? = some q → g.IsListed m q) →
      Table.build g = .error (.production n
        (if p.id ≠ n then "listed out of order" else "left-hand side is a terminal"))) ∧
    ((∀ n p, g.productions[n]? = some p → g.IsListed n p) →
      (¬ ∃ p S, g.productions[0]? = some p ∧ p.lhs = 0 ∧ p.rhs = [S]) →
      Table.build g = .error (.production 0 "must be Start -> S")) ∧
    ((∀ n p, g.productions[n]? = some p → g.IsListed n p) →
      (∃ p S, g.productions[0]? = some p ∧ p.lhs = 0 ∧ p.rhs = [S]) →
      g.endMark ∈ g.terminalSymbols → (∀ p ∈ g.productions, ∀ X ∈ p.rhs, X ∈ g.symbols) →
      ((∃ t, Table.build g = .ok t) ↔ g.IsSlr) ∧
      (¬ g.IsSlr → ∃ s α t, g.automaton.walk? 0 α = some s ∧ t ∈ g.terminalSymbols ∧
        g.Clashes α t ∧
        Table.build g = .error (.conflict s (g.usedLabel t) (actsText (g.actsAt s t))) ∧
        (∀ m, g.Calls α t m ↔ ∃ act ∈ g.actsAt s t, act.move? = some m) ∧
        ∀ s' β t', g.automaton.walk? 0 β = some s' → t' ∈ g.terminalSymbols → g.Clashes β t' →
          s < s' ∨ s = s' ∧ t ≤ t')) := by
  refine ⟨fun n p => build_of_not_isListed, build_of_not_hasStart,
    fun hall hstart hend hsymbols => ?_⟩
  have hlisted := isWellListed_of_start hall hstart
  exact ⟨exists_table_iff hlisted hend hsymbols, exists_first_clash hlisted hend hsymbols⟩

/-- Productions out of order and a missing start production are reported. Lists are SLR(1);
assignments to what a pointer points to are not. -/
theorem build_decides_gallery :
    Table.build Gallery.disorder = .error (.production 1 "listed out of order") ∧
      Table.build Gallery.noStart = .error (.production 0 "must be Start -> S") ∧
      Gallery.list.IsSlr ∧ ¬ Gallery.notSlr.IsSlr := by
  have hlisted : ∀ g : Grammar,
      (∀ x ∈ g.productions.zipIdx, x.1.id = x.2 ∧ x.1.lhs < g.nonterminals) →
      ∀ n p, g.productions[n]? = some p → g.IsListed n p := fun g h n p hp =>
    h (p, n) (List.mem_zipIdx_iff_getElem?.mpr hp)
  refine ⟨?_, ?_, ?_, ?_⟩
  · refine (build_decides Gallery.disorder).1 1 ⟨2, 1, [1, 2, 3]⟩ (by decide +kernel)
      (fun h => absurd h.1 (by decide)) fun m q hm hq => ?_
    obtain rfl : m = 0 := by omega
    obtain rfl : ⟨0, 0, [1]⟩ = q := Option.some.inj (hq ▸ by decide +kernel)
    exact ⟨rfl, by decide +kernel⟩
  · refine (build_decides Gallery.noStart).2.1 (hlisted _ (by decide +kernel)) ?_
    rintro ⟨p, S, hp, hlhs, -⟩
    obtain rfl : ⟨0, 1, [3]⟩ = p := Option.some.inj (hp ▸ by decide +kernel)
    cases hlhs
  · obtain ⟨t, hbuild⟩ := Table.exists_build (g := Gallery.list) (by decide +kernel)
    exact ((build_decides Gallery.list).2.2 (hlisted _ (by decide +kernel))
      ⟨⟨0, 0, [1]⟩, 1, by decide +kernel, rfl, rfl⟩ (by decide +kernel)
      (by decide +kernel)).1.mp ⟨t, hbuild⟩
  · intro hslr
    obtain ⟨t, hbuild⟩ := ((build_decides Gallery.notSlr).2.2 (hlisted _ (by decide +kernel))
      ⟨⟨0, 0, [1]⟩, 1, by decide +kernel, rfl, rfl⟩ (by decide +kernel)
      (by decide +kernel)).1.mpr hslr
    have hnone : (Table.build Gallery.notSlr).toOption.isSome = false := by decide +kernel
    simp [hbuild, Except.toOption] at hnone

end Grammar
end Argand
