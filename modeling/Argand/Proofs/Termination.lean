-- SUMMARY: Over a productive grammar the reductions come to an end; over another they need not.
import Argand.Gallery.Drill
import Argand.Proofs.Follow
import Argand.Proofs.Stacks
import Argand.Proofs.Viable
import Mathlib.Data.Set.Finite.Lattice

/-!
# The end of the reductions

Reductions by empty productions make the stacks grow, and a table may call for them on a symbol that
can never follow there. What bounds them is that each symbol derives a string of terminals. The
stack then goes on to a sentence, and the moves made so far are made on its next symbol as well
(`Drives.exists_path`). There they are among the moves through the sentence, and one sentence
for each next symbol is enough (`Drives.bddAbove`). Where a symbol derives no string of terminals
the reductions may go on for ever (`endless_barren`), and so they may where the start symbol occurs
again, as it is never reduced there (`endless_startBehind`).
-/
open Argand.Parser (top)

namespace Argand

/-! ## What comes next in a sentential form -/

namespace Grammar

variable {g : Grammar} {t : Table} {v z : List Nat} {A : Nat}

/-- What comes next in a sentential form of the goal, or else the end mark, can follow a symbol. -/
theorem canFollow_headD (hbuild : Table.build g = .ok t)
    (h : g.Derives [g.goal] (v ++ A :: z)) : g.CanFollow A (z.headD g.endMark) := by
  have hgoal : g.Derives [0] [g.goal] :=
    derives_production (List.mem_of_getElem? (start_of_build hbuild))
  cases z with
  | nil => exact .inr ⟨rfl, v, hgoal.trans h⟩
  | cons Y z => exact .inl ⟨0, v, z, nonterminals_pos_of_build hbuild, hgoal.trans h⟩

theorem headD_mem_terminalSymbols (hend : g.endMark ∈ g.terminalSymbols)
    (hz : ∀ Y ∈ z, Y ∈ g.terminalSymbols) : z.headD g.endMark ∈ g.terminalSymbols := by
  cases z with
  | nil => exact hend
  | cons Y z => exact hz Y List.mem_cons_self

/-- All nonterminals of `startBehind` derive the empty string. -/
theorem isProductive_startBehind : Gallery.startBehind.IsProductive := by
  have hstart : ⟨0, 0, [1]⟩ ∈ Gallery.startBehind.productions := by decide +kernel
  have hlist : ⟨1, 1, []⟩ ∈ Gallery.startBehind.productions := by decide +kernel
  have hmark : ⟨3, 2, []⟩ ∈ Gallery.startBehind.productions := by decide +kernel
  refine isProductive_of_nonterminals (by decide +kernel) fun A hA => ⟨[], ?_, by simp⟩
  have hthree : Gallery.startBehind.nonterminals = 3 := rfl
  obtain rfl | rfl | rfl : A = 0 ∨ A = 1 ∨ A = 2 := by omega
  · exact (derives_production hstart).trans (derives_production hlist)
  · exact derives_production hlist
  · exact derives_production hmark

end Grammar

/-! ## Drives over a string -/

namespace Drives

open Grammar

variable {g : Grammar} {t : Table} {α σ σ' u z : List Nat} {x : Nat} {ms : List Move}
  (hbuild : Table.build g = .ok t)
include hbuild

/-- Only terminals are shifted. -/
theorem terminals_of_drives (h : Drives g t σ u x ms σ') : ∀ X ∈ u, X ∈ g.terminalSymbols := by
  induction h with
  | done => simp
  | shift hlookup _ ih =>
      obtain ⟨hge, hmove⟩ := (Table.lookup_shift_iff hbuild).mp hlookup
      have hlt := mem_symbols.mp (move?_eq_some (length_pos_of_build hbuild) hmove).1
      exact List.forall_mem_cons.mpr ⟨mem_terminalSymbols.mpr ⟨hge, hlt⟩, ih⟩
  | reduce _ _ _ _ ih => exact ih

/-- From a path a drive leads to a path again, whose symbols derive those of the first path and what
was shifted. Where terminals complete them to a sentential form, the drive makes the same moves on
the first of these terminals. -/
theorem exists_path (hend : g.endMark ∈ g.terminalSymbols) (h : Drives g t σ u x ms σ')
    (hpath : g.automaton.Path α σ) :
    ∃ α', g.automaton.Path α' σ' ∧ g.Derives α'.reverse (α.reverse ++ u) ∧
      ∀ z, (∀ Y ∈ z, Y ∈ g.terminalSymbols) → g.Derives [g.goal] (α'.reverse ++ z) →
        Drives g t σ u (z.headD g.endMark) ms σ' := by
  have hprod := length_pos_of_build hbuild
  have hzero := List.mem_of_getElem? (start_of_build hbuild)
  induction h generalizing α with
  | done σ x => exact ⟨α, hpath, by simpa using Derives.refl α.reverse, fun z _ _ => .done σ _⟩
  | shift hlookup _ ih =>
      obtain ⟨α', hpath', hder, hdrive⟩ :=
        ih (hpath.push ((Table.lookup_shift_iff hbuild).mp hlookup).2)
      exact ⟨α', hpath', by simpa using hder, fun z hz hgoal => .shift hlookup (hdrive z hz hgoal)⟩
  | @reduce σ σ' u x n s p ms hlookup hp hgoto _ ih =>
      obtain ⟨q, hq, hitem, hne, -⟩ := (Table.lookup_reduce_iff hbuild).mp hlookup
      obtain rfl : p = q := Option.some.inj (hp.symm.trans hq)
      obtain ⟨q, hq, -, -, hprefix, -⟩ := Path.recognised hprod hpath hitem
      obtain rfl : p = q := Option.some.inj (hp.symm.trans hq)
      simp only [Nat.add_sub_cancel, List.take_length] at hprefix
      obtain ⟨β, rfl⟩ := hprefix
      have hdrop : (p.rhs.reverse ++ β).drop p.rhs.length = β := List.drop_left' (by simp)
      have hbelow := hpath.drop (k := p.rhs.length) (by simp)
      rw [hdrop] at hbelow
      obtain ⟨α', hpath', hder, hdrive⟩ :=
        ih (hbelow.push ((Table.lookup_goto_iff hbuild).mp hgoto).2)
      have hder' : g.Derives α'.reverse (β.reverse ++ p.lhs :: u) := by simpa using hder
      refine ⟨α', hpath', ?_, fun z hz hgoal => .reduce ?_ hp hgoto (hdrive z hz hgoal)⟩
      · have hstep := Step.expand β.reverse u (List.mem_of_getElem? hp)
        simpa using hder'.step hstep
      · cases u with
        | cons X u => exact hlookup
        | nil =>
            have hnext := headD_mem_terminalSymbols hend hz
            have hform : g.Derives [g.goal] (β.reverse ++ p.lhs :: z) := by
              simpa using hgoal.trans (hder'.append (.refl z))
            have hfollow := (mem_followOf_iff (fun q => lhs_lt_of_build hbuild) hend).mpr
              ⟨(production_of_build hbuild hp).2, hnext, canFollow_headD hbuild hform⟩
            exact (Table.lookup_reduce_iff hbuild).mpr
              ⟨p, hp, hitem, hne, mem_symbols_of_terminal hnext, hfollow⟩

variable (hend : g.endMark ∈ g.terminalSymbols) (hstart : ∀ p ∈ g.productions, 0 ∉ p.rhs)
include hend hstart

/-- The moves through a sentence bound those of every drive over its beginning. -/
theorem length_le_of_sentence (h : g.IsSentence (u ++ z)) :
    ∃ N, ∀ ms σ', Drives g t [0] u (z.headD g.endMark) ms σ' → ms.length ≤ N := by
  obtain ⟨ms, σ, hdrive, haccept⟩ := h.exists_drive hbuild hend hstart
  refine ⟨ms.length, fun ms' σ' h' => ?_⟩
  rcases h'.compare hdrive rfl with ⟨rest, rfl, -⟩ | ⟨-, rest, rfl, hrest⟩
  · simp
  · simp [hrest.eq_nil_of_accept haccept]

/-- There is a bound for the drives over a string with a next symbol that is right for it. -/
private theorem bddAbove_of_next (u : List Nat) (y : Nat) :
    BddAbove {n | ∃ z ms σ', g.IsSentence (u ++ z) ∧ z.headD g.endMark = y ∧
      Drives g t [0] u y ms σ' ∧ ms.length = n} := by
  by_cases hex : ∃ z, g.IsSentence (u ++ z) ∧ z.headD g.endMark = y
  · obtain ⟨z, hz, rfl⟩ := hex
    obtain ⟨N, hN⟩ := length_le_of_sentence hbuild hend hstart hz
    refine ⟨N, ?_⟩
    rintro _ ⟨z', ms, σ', -, -, hdrive, rfl⟩
    exact hN ms σ' hdrive
  · refine ⟨0, ?_⟩
    rintro _ ⟨z, ms, σ', hz, hy, -⟩
    exact absurd ⟨z, hz, hy⟩ hex

/-- Over a productive grammar there is a bound for all drives over a string. -/
theorem bddAbove (hproductive : g.IsProductive) (u : List Nat) :
    BddAbove {n | ∃ x ms σ', Drives g t [0] u x ms σ' ∧ ms.length = n} := by
  have hzero := start_of_build hbuild
  -- One bound for each of the symbols that can come next.
  refine ((g.terminalSymbols.finite_toSet.bddAbove_biUnion).mpr fun y _ =>
    bddAbove_of_next hbuild hend hstart u y).mono ?_
  rintro _ ⟨x, ms, σ', hdrive, rfl⟩
  obtain ⟨α, hpath, hder, hright⟩ := exists_path hbuild hend hdrive .start
  obtain ⟨γ, hγ⟩ := Path.exists_derives (length_pos_of_build hbuild) hpath hzero
  obtain ⟨z, hz, hterm⟩ := exists_terminals_of_derives hzero hproductive hγ
  have hform : g.Derives [g.goal] (α.reverse ++ z) := hγ.trans ((Derives.refl _).append hz)
  have hsentence : g.IsSentence (u ++ z) :=
    ⟨hform.trans (hder.append (.refl z)),
      List.forall_mem_append.mpr ⟨terminals_of_drives hbuild hdrive, hterm⟩⟩
  exact Set.mem_biUnion (headD_mem_terminalSymbols hend hterm)
    ⟨z, ms, σ', hsentence, rfl, hright z hterm hform, rfl⟩

end Drives

/-! ## Moves and counts -/

namespace Tree

variable {τ : Type} {g : Grammar} {kind : τ → Nat} {tr : Tree τ} {ts : List (Tree τ)}

theorem length_moves_forest
    (h : ∀ tr ∈ ts, tr.moves.length = tr.yield.length + tr.nodes.length) :
    (ts.flatMap moves).length = (ts.flatMap yield).length + (ts.flatMap nodes).length := by
  induction ts with
  | nil => rfl
  | cons tr ts ih =>
      have hhead := h tr List.mem_cons_self
      have hrest := ih fun tr' htr' => h tr' (List.mem_cons_of_mem _ htr')
      simp only [List.flatMap_cons, List.length_append]
      omega

/-- A tree is built by a shift for each leaf and a reduction for each inner node. -/
theorem IsDerivation.length_moves (h : tr.IsDerivation g kind) :
    tr.moves.length = tr.yield.length + tr.nodes.length := by
  induction h with
  | leaf x => simp
  | node _ _ _ ih => simp [length_moves_forest ih, Nat.add_assoc]

end Tree

namespace Parser

variable {τ σ ε : Type} {P : Parser τ σ ε} {c c' : Config τ σ} {p₀ p : Progress τ σ} {u : List τ}
  {fs : List (Tree τ)} {x : τ} {rest : List (Delivery τ)}
  {J : List τ → List (Tree τ) → σ → Prop}

/-- Shifts and reductions count the moves. -/
theorem Reading.counts_eq (h : P.Reading J p₀ c u fs) :
    c.progress.counts.shifts + c.progress.counts.reductions =
      p₀.counts.shifts + p₀.counts.reductions + (fs.reverse.flatMap Tree.moves).length := by
  have hlen := Tree.length_moves_forest fun f (hf : f ∈ fs.reverse) =>
    (h.derivations f (List.mem_reverse.mp hf)).length_moves
  have hnodes : (fs.reverse.flatMap Tree.nodes).length = (fs.flatMap Tree.nodes).length := by
    simp [List.length_flatMap]
  rw [hlen, h.yield, hnodes, h.counts]
  dsimp only
  omega

/-- Each step that does not end the sentence is counted. -/
theorem counts_of_running (h : P.step c = .running c') :
    c'.progress.counts.shifts + c'.progress.counts.reductions =
      c.progress.counts.shifts + c.progress.counts.reductions + 1 := by
  rcases running_cases h with ⟨s, x, rest, -, hinput, rfl⟩ | ⟨n, p, s, ts, context, -, -, -, -, rfl⟩
  · simp only [shifted, Progress.fetch, hinput, Progress.countShift]
    omega
  · rfl

/-- The step that ends the sentence is not counted. -/
theorem counts_of_finished {result : Except (Fault ε) τ}
    (h : P.step c = .finished result p) : p.counts = c.progress.counts := by
  rcases finished_cases h with
      ⟨s, e, rest, -, -, -, rfl⟩ | ⟨s, -, hfetch, -⟩ | ⟨n, r, ts, context, -, -, rfl⟩ | rfl
  · rfl
  · rcases hinput : c.progress.input with _ | ⟨x | _ | e, rest⟩ <;>
      simp only [Progress.fetch, hinput, Prod.mk.injEq, reduceCtorEq, true_and, false_and] at hfetch
    all_goals rw [← hfetch]
  · rfl
  · rfl

/-! ## Sentences over productive grammars -/

section

variable (hbuild : Table.build P.grammar = .ok P.table) (hkeeps : P.KeepsProductions)
  (hend : P.grammar.endMark ∈ P.grammar.terminalSymbols)
  (hstart : ∀ p ∈ P.grammar.productions, 0 ∉ p.rhs) (hproductive : P.grammar.IsProductive)
include hbuild hkeeps hend hstart hproductive

/-- The steps of a sentence are bounded. -/
theorem exists_bound (hinput : p₀.input = .token x :: rest) :
    ∃ N, ∀ c, P.Reaches (initial x p₀.fetch.2) c →
      c.progress.counts.shifts + c.progress.counts.reductions ≤
        p₀.counts.shifts + p₀.counts.reductions + N := by
  -- What was shifted begins the input, and there is one bound for each such beginning.
  have htoken : Function.Injective (List.map (Delivery.token : τ → Delivery τ)) :=
    List.map_injective_iff.mpr fun _ _ => Delivery.token.inj
  have hfinite : {u : List τ | u.map Delivery.token ∈ p₀.input.inits}.Finite :=
    p₀.input.inits.finite_toSet.preimage htoken.injOn
  obtain ⟨N, hN⟩ := hfinite.bddAbove_biUnion.mpr fun u _ =>
    Drives.bddAbove hbuild hend hstart hproductive (u.map P.kind)
  refine ⟨N, fun c hreaches => ?_⟩
  obtain ⟨u, fs, hreading⟩ := hreaches.exists_reading hbuild hkeeps hinput
  have hprefix : u.map Delivery.token ∈ p₀.input.inits := by
    rw [List.mem_inits, hreading.input]
    simp
  have hle := hN (Set.mem_biUnion hprefix ⟨_, _, _, hreading.drive, rfl⟩)
  rw [hreading.counts_eq]
  omega

/-- The run from each configuration that comes up has a result. -/
theorem Reaches.exists_run (hinput : p₀.input = .token x :: rest)
    (h : P.Reaches (initial x p₀.fetch.2) c) : ∃ result p, P.run c = some (result, p) := by
  obtain ⟨N, hN⟩ := exists_bound hbuild hkeeps hend hstart hproductive hinput
  obtain ⟨k, hk⟩ : ∃ k, p₀.counts.shifts + p₀.counts.reductions + N <
      c.progress.counts.shifts + c.progress.counts.reductions + k :=
    ⟨p₀.counts.shifts + p₀.counts.reductions + N + 1, by omega⟩
  -- No more than `k` steps are left within the bound.
  induction k generalizing c with
  | zero => exact absurd (hN c h) (by omega)
  | succ k ih =>
      cases hstep : P.step c with
      | finished result p => exact ⟨result, p, run_of_finished hstep⟩
      | running c' =>
          have hcount := counts_of_running hstep
          obtain ⟨result, p, hrun⟩ := ih (h.step hstep) (by omega)
          exact ⟨result, p, (run_of_running hstep).trans hrun⟩

/-- Over a productive grammar the steps of a sentence are bounded, so that its reductions come to an
end. -/
theorem next_ends (hterm : ∀ x, .token x ∈ p₀.input → P.kind x ∈ P.grammar.terminalSymbols) :
    (∀ x rest, p₀.input = .token x :: rest → ∃ N, ∀ c, P.Reaches (initial x p₀.fetch.2) c →
      c.progress.counts.shifts + c.progress.counts.reductions ≤
        p₀.counts.shifts + p₀.counts.reductions + N) ∧
    (P.next p₀).1 ≠ .error (.table .endless) := by
  refine ⟨fun x rest => exists_bound hbuild hkeeps hend hstart hproductive, fun hnext => ?_⟩
  obtain ⟨-, x, rest, hinput, hnone⟩ :=
    endless_of_next hbuild hkeeps hterm (Prod.ext hnext rfl)
  obtain ⟨result, p, hrun⟩ :=
    Reaches.exists_run hbuild hkeeps hend hstart hproductive hinput (.refl _)
  cases hnone.symm.trans hrun

end

/-- An atom and a list that is not closed are read in a bounded number of steps. -/
theorem next_ends_list :
    ∃ table, Table.build Gallery.list = .ok table ∧
      let P := Gallery.drillParser Gallery.list table ⟨none, 0, 0, false⟩
      let p₀ : Progress Gallery.Node (List Gallery.DrillEntry) := .start
        [.token ⟨5, "", none⟩, .token ⟨3, "", none⟩, .token ⟨6, "", none⟩] []
      (∃ N, ∀ c, P.Reaches (initial ⟨5, "", none⟩ p₀.fetch.2) c →
        c.progress.counts.reductions ≤ N) ∧
        (P.next p₀).1 ≠ .error (.table .endless) := by
  obtain ⟨table, hbuild⟩ := Table.exists_build (g := Gallery.list) (by decide +kernel)
  refine ⟨table, hbuild, ?_⟩
  intro P p₀
  have hkeeps : P.KeepsProductions := keepsProductions_drill _ _ rfl
  have hproductive : Gallery.list.IsProductive :=
    Grammar.isProductive_of_nonterminals (by decide +kernel) Grammar.exists_terminals_list
  have hterm : ∀ x, .token x ∈ p₀.input → P.kind x ∈ Gallery.list.terminalSymbols :=
    terminals_drill _ _ [⟨5, "", none⟩, ⟨3, "", none⟩, ⟨6, "", none⟩] (by decide +kernel) []
  have hend : Gallery.list.endMark ∈ Gallery.list.terminalSymbols := by decide +kernel
  have hstart : ∀ p ∈ Gallery.list.productions, 0 ∉ p.rhs := by decide +kernel
  obtain ⟨hbound, hends⟩ := next_ends hbuild hkeeps hend hstart hproductive hterm
  obtain ⟨N, hN⟩ := hbound _ _ rfl
  refine ⟨⟨N, fun c hreaches => ?_⟩, hends⟩
  have hle := hN c hreaches
  simp only [p₀, Progress.start] at hle
  omega

/-! ## Reductions without end -/

/-- A run that never leaves some configurations, all of which go on, has no result. -/
theorem run_eq_none_of_invariant {I : Config τ σ → Prop}
    (hI : ∀ c, I c → ∃ c', P.step c = .running c' ∧ I c') (h : I c) : P.run c = none := by
  cases hrun : P.run c with
  | none => rfl
  | some r =>
      refine absurd h (run.partial_correctness P (fun c _ => ¬ I c) ?_ c r hrun)
      intro loop ih c r hr hc
      obtain ⟨c', hstep, hc'⟩ := hI c hc
      rw [hstep] at hr
      exact ih c' r hr hc'

/-- On the symbol `y` each of the states calls for an empty production, which leads to one of them
again. -/
def Circles (P : Parser τ σ ε) (y : Nat) (S : List Nat) : Prop :=
  ∀ s ∈ S, ∃ n p s', P.table.lookup s y = some (.reduce n) ∧
    P.grammar.productions[n]? = some p ∧ p.rhs = [] ∧
    P.table.lookup s p.lhs = some (.goto s') ∧ s' ∈ S

/-- The hook puts a token on the stack for each empty production. -/
def FillsEmpty (P : Parser τ σ ε) : Prop :=
  ∀ (n : Nat) (p : Production) (x : τ) (ts : Stack τ) (context : σ),
    P.grammar.productions[n]? = some p → p.rhs = [] →
    ∃ y context', P.reduce n x ts context = (.ok (), y :: ts, context')

/-- The next token is a `y`, and the last state is one of `S`. -/
def IsCaught (P : Parser τ σ ε) (y : Nat) (S : List Nat) (c : Config τ σ) : Prop :=
  P.kind c.lookahead = y ∧ ∃ s states, c.states = s :: states ∧ s ∈ S

/-- A drill that does not fail puts a token on the stack for each empty production. -/
theorem fillsEmpty_drill (g : Grammar) (table : Table) :
    (Gallery.drillParser g table ⟨none, 0, 0, false⟩).FillsEmpty := by
  intro n p x ts context hp hempty
  have hp' : g.productions[n]? = some p := hp
  simp [Gallery.drillParser, Gallery.drillReduce, Gallery.Conduct.pop, Stack.popN, hp', hempty]

section

variable {y : Nat} {S : List Nat} (hcircles : P.Circles y S) (hfills : P.FillsEmpty)
include hcircles hfills

/-- A caught parser makes one more reduction, is caught again, and has the same token ahead. -/
theorem IsCaught.step (h : P.IsCaught y S c) :
    ∃ c', P.step c = .running c' ∧ P.IsCaught y S c' ∧ c'.lookahead = c.lookahead ∧
      c'.progress.counts =
        { c.progress.counts with reductions := c.progress.counts.reductions + 1 } := by
  obtain ⟨hkind, s, states, hstates, hs⟩ := h
  obtain ⟨n, p, s', hreduce, hp, hempty, hgoto, hs'⟩ := hcircles s hs
  obtain ⟨z, context, hhook⟩ := hfills n p c.lookahead c.tokens c.progress.context hp hempty
  have hstep : P.step c = .running ⟨s' :: c.states, z :: c.tokens, c.lookahead,
      Progress.countReduction { c.progress with context }⟩ := by
    simp [Parser.step, reduceBy, gotoAfter, top, hstates, hkind, hreduce, hhook, hp, hempty, hgoto]
  exact ⟨_, hstep, ⟨hkind, s', c.states, rfl, hs'⟩, rfl, rfl⟩

/-- A caught parser makes any number of reductions on the same token. -/
theorem IsCaught.exists_reductions (h : P.IsCaught y S c) (N : Nat) :
    ∃ c', P.Reaches c c' ∧ P.IsCaught y S c' ∧ c'.lookahead = c.lookahead ∧
      c'.progress.counts =
        { c.progress.counts with reductions := c.progress.counts.reductions + N } := by
  induction N with
  | zero => exact ⟨c, .refl c, h, rfl, rfl⟩
  | succ N ih =>
      obtain ⟨c', hreaches, hcaught, hlookahead, hcounts⟩ := ih
      obtain ⟨c'', hstep, hcaught', hlookahead', hcounts'⟩ := hcaught.step hcircles hfills
      exact ⟨c'', hreaches.step hstep, hcaught', hlookahead'.trans hlookahead, by
        rw [hcounts', hcounts, Nat.add_assoc]⟩

/-- A caught parser has no result. -/
theorem IsCaught.run_eq_none (h : P.IsCaught y S c) : P.run c = none := by
  refine run_eq_none_of_invariant (fun c hc => ?_) h
  obtain ⟨c', hstep, hc', -⟩ := hc.step hcircles hfills
  exact ⟨c', hstep, hc'⟩

/-- A sentence in which the parser is caught does not end. -/
theorem endless_of_caught (hinput : p₀.input = .token x :: rest)
    (hreaches : P.Reaches (initial x p₀.fetch.2) c) (h : P.IsCaught y S c) :
    (P.next p₀).1 = .error (.table .endless) := by
  have hnone : P.run (initial x p₀.fetch.2) = none :=
    hreaches.run_eq.trans (h.run_eq_none hcircles hfills)
  rw [next_of_run_eq_none hinput hnone]

end

/-- Behind `a` the parser for `barren` looks for an `A`, which begins with a `B`; a `B` may be empty
before `t`, and so one `B` after the other is made on the token `t`, without end. -/
theorem endless_barren :
    ∃ table, Table.build Gallery.barren = .ok table ∧
      let P := Gallery.drillParser Gallery.barren table ⟨none, 0, 0, false⟩
      let p₀ : Progress Gallery.Node (List Gallery.DrillEntry) := .start
        [.token ⟨5, "", none⟩, .token ⟨4, "", none⟩, .token ⟨6, "", none⟩] []
      P.KeepsProductions ∧
      (∀ x, .token x ∈ p₀.input → P.kind x ∈ Gallery.barren.terminalSymbols) ∧
      (∀ N, ∃ c, P.Reaches (initial ⟨5, "", none⟩ p₀.fetch.2) c ∧ c.lookahead.symbol = 4 ∧
        c.progress.counts = ⟨2, 1, N⟩) ∧
      (P.next p₀).1 = .error (.table .endless) := by
  have hbuild : Table.build Gallery.barren = .ok ⟨
    [[none, some (.goto 1), none, some (.goto 2), some (.reduce 4), some (.shift 3), none],
      [none, none, none, none, none, none, some .accept],
      [none, none, none, none, some (.shift 4), none, none],
      [none, none, some (.goto 5), some (.goto 6), some (.reduce 4), none, none],
      [none, none, none, none, none, none, some (.reduce 1)],
      [none, none, none, none, none, none, some (.reduce 2)],
      [none, none, some (.goto 7), some (.goto 6), some (.reduce 4), none, none],
      [none, none, none, none, none, none, some (.reduce 3)]]⟩ :=
    Table.build_of_rows (by decide +kernel)
  refine ⟨_, hbuild, ?_⟩
  intro P p₀
  have hcircles : P.Circles 4 [3, 6] := by
    intro s hs
    refine ⟨4, ⟨4, 3, []⟩, 6, ?_, rfl, rfl, ?_, by simp⟩
    all_goals
      obtain rfl | rfl : s = 3 ∨ s = 6 := by simpa using hs
      all_goals rfl
  have hfills : P.FillsEmpty := fillsEmpty_drill _ _
  obtain ⟨c, hreaches, hcaught, hcounts⟩ : ∃ c, P.Reaches (initial ⟨5, "", none⟩ p₀.fetch.2) c ∧
      P.IsCaught 4 [3, 6] c ∧ c.progress.counts = ⟨2, 1, 0⟩ :=
    ⟨_, .step (.refl _) rfl, ⟨rfl, 3, [0], rfl, by simp⟩, rfl⟩
  refine ⟨keepsProductions_drill _ _ rfl, ?_, fun N => ?_,
    endless_of_caught hcircles hfills rfl hreaches hcaught⟩
  · exact terminals_drill _ _ [⟨5, "", none⟩, ⟨4, "", none⟩, ⟨6, "", none⟩] (by decide +kernel) []
  · obtain ⟨c', hmore, ⟨hkind, -⟩, -, hcounts'⟩ := hcaught.exists_reductions hcircles hfills N
    exact ⟨c', hreaches.trans hmore, hkind, by simp [hcounts', hcounts]⟩

/-- It is not enough that the grammar is productive. The parser for `startBehind` looks for a `Start`
behind a `Mark`, makes an empty list for it on the token `stop`, and as nothing is reduced to this
`Start`, the list goes on with a `Mark` and one more `Start`. -/
theorem endless_startBehind :
    ∃ table, Table.build Gallery.startBehind = .ok table ∧ Gallery.startBehind.IsProductive ∧
      let P := Gallery.drillParser Gallery.startBehind table ⟨none, 0, 0, false⟩
      let p₀ : Progress Gallery.Node (List Gallery.DrillEntry) := .start
        [.token ⟨3, "", none⟩, .token ⟨4, "", none⟩] []
      P.KeepsProductions ∧
      (∀ x, .token x ∈ p₀.input → P.kind x ∈ Gallery.startBehind.terminalSymbols) ∧
      (P.next p₀).1 = .error (.table .endless) := by
  have hbuild : Table.build Gallery.startBehind = .ok ⟨
    [[none, some (.goto 1), none, some (.reduce 1), some (.reduce 1)],
      [none, none, some (.goto 2), some (.reduce 3), some .accept],
      [some (.goto 3), some (.goto 1), none, some (.reduce 1), some (.reduce 1)],
      [none, none, none, some (.shift 4), none],
      [none, none, none, some (.reduce 2), some (.reduce 2)]]⟩ :=
    Table.build_of_rows (by decide +kernel)
  refine ⟨_, hbuild, Grammar.isProductive_startBehind, ?_⟩
  intro P p₀
  have hcircles : P.Circles 3 [0, 1, 2] := by
    intro s hs
    obtain rfl | rfl | rfl : s = 0 ∨ s = 1 ∨ s = 2 := by simpa using hs
    · exact ⟨1, ⟨1, 1, []⟩, 1, rfl, rfl, rfl, rfl, by simp⟩
    · exact ⟨3, ⟨3, 2, []⟩, 2, rfl, rfl, rfl, rfl, by simp⟩
    · exact ⟨1, ⟨1, 1, []⟩, 1, rfl, rfl, rfl, rfl, by simp⟩
  refine ⟨keepsProductions_drill _ _ rfl, ?_,
    endless_of_caught hcircles (fillsEmpty_drill _ _) rfl (.refl _) ⟨rfl, 0, [], rfl, by simp⟩⟩
  exact terminals_drill _ _ [⟨3, "", none⟩, ⟨4, "", none⟩] (by decide +kernel) []

end Parser
end Argand
