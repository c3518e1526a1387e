-- SUMMARY: The two stacks of a parser keep step, so that no step finds them too short or without a goto.
import Argand.Gallery.Drill
import Argand.Gallery.Grammars
import Argand.Proofs.Reading

/-!
# The two stacks keep step

The engine keeps the states and the hook keeps the tokens. As long as the hook replaces right-hand
sides by left-hand sides, and the tokens delivered are terminals, the states are those that the
automaton passes over the kinds of the tokens (`Aligned`). A reduction that the table calls for
then finds its right-hand side on top of the tokens, and neither stack is ever too short, nor is a
goto missing (`aligned_and_never_short`).
-/
open Argand.Parser (top)

namespace Argand

namespace Parser

variable {τ σ ε : Type}

/-! ## What the hook has to do -/

/-- On top of the stack stand tokens for the symbols of a right-hand side, the last on top. -/
def Spells (P : Parser τ σ ε) (ts : Stack τ) (rhs : List Nat) : Prop :=
  (ts.take rhs.length).reverse.map P.kind = rhs

/-- Called when a right-hand side is on top of the stack, the hook either fails with an error of its
own, which is no fault of the table, or puts one token for the left-hand side in its place. Nothing
is asked for the start production, which is never reduced. -/
def KeepsProductions (P : Parser τ σ ε) : Prop :=
  ∀ (n : Nat) (p : Production) (x : τ) (ts : Stack τ) (context : σ),
    n ≠ 0 → P.grammar.productions[n]? = some p → P.Spells ts p.rhs →
    (∃ e ts' context', P.reduce n x ts context = (.error e, ts', context') ∧
      ∀ fault, e ≠ .table fault) ∨
    ∃ y context', P.reduce n x ts context = (.ok (), y :: ts.drop p.rhs.length, context') ∧
      P.kind y = p.lhs

/-- A drill that removes no more than the right-hand side keeps to its productions. -/
theorem keepsProductions_drill (g : Grammar) (table : Table) {conduct : Gallery.Conduct}
    (hextra : conduct.extra = 0) : (Gallery.drillParser g table conduct).KeepsProductions := by
  intro n q x ts noted _ hq hspells
  have hq' : g.productions[n]? = some q := hq
  have hlen : q.rhs.length ≤ ts.length := by
    have hcount := congrArg List.length hspells
    simp only [List.length_map, List.length_reverse, List.length_take] at hcount
    omega
  simp only [Gallery.drillParser, Gallery.drillReduce, hextra, ite_self, Nat.add_zero, hq']
  split
  · exact .inl ⟨_, _, _, rfl, by simp⟩
  · right
    cases hpop : conduct.oneByOne with
    | false => simp [Gallery.Conduct.pop, hpop, Stack.popN, hlen]
    | true => simp [Gallery.Conduct.pop, hpop, Gallery.popEach, hlen]

/-- What is to be asked of the tokens of a drill. -/
theorem terminals_drill {g : Grammar} (table : Table) (conduct : Gallery.Conduct)
    (xs : List Gallery.Node) (h : ∀ x ∈ xs, x.symbol ∈ g.terminalSymbols)
    (noted : List Gallery.DrillEntry) :
    ∀ x, .token x ∈ (Progress.start (xs.map .token) noted).input →
      (Gallery.drillParser g table conduct).kind x ∈ g.terminalSymbols := by
  intro x hx
  obtain ⟨y, hy, heq⟩ := List.mem_map.mp hx
  obtain rfl := Delivery.token.inj heq
  exact h y hy

/-! ## Keeping step -/

/-- There is one state more than there are tokens, state 0 is at the bottom, and each other state is
where the automaton moves from the state below it over the kind of the token between them. The
stacks have their tops first, so what is `i`-th from below is `i`-th in the reversed stack. -/
structure Aligned (P : Parser τ σ ε) (c : Config τ σ) : Prop where
  length_states : c.states.length = c.tokens.length + 1
  bottom : c.states.reverse[0]? = some 0
  move (i : Nat) (x : τ) : c.tokens.reverse[i]? = some x →
    ∃ s t, c.states.reverse[i]? = some s ∧ c.states.reverse[i + 1]? = some t ∧
      P.grammar.automaton.move? s (P.kind x) = some t

end Parser

namespace Automaton.Path

variable {a : Automaton} {α σ : List Nat}

theorem bottom_eq (h : a.Path α σ) : σ.reverse[0]? = some 0 := by
  induction h with
  | start => rfl
  | @move α σ s t X hpath hmove ih =>
      rw [List.reverse_cons, List.getElem?_append_left (by simp)]
      exact ih

/-- A path from below: its `i`-th move is over the `i`-th symbol. -/
theorem move_of_getElem? (h : a.Path α σ) {i X : Nat} (hX : α.reverse[i]? = some X) :
    ∃ s t, σ.reverse[i]? = some s ∧ σ.reverse[i + 1]? = some t ∧ a.move? s X = some t := by
  induction h with
  | start => simp at hX
  | @move α σ s t Y hpath hmove ih =>
      have hlen : α.length = σ.length := by simpa using hpath.length_eq.symm
      rw [List.reverse_cons] at hX
      rw [List.reverse_cons (a := t)]
      rcases Nat.lt_or_ge i α.length with hi | hi
      · rw [List.getElem?_append_left (by simpa using hi)] at hX
        rw [List.getElem?_append_left (by simp; omega),
          List.getElem?_append_left (by simp; omega)]
        exact ih hX
      · obtain ⟨rfl, rfl⟩ : i = α.length ∧ Y = X := by
          rw [List.getElem?_append_right (by simpa using hi), List.getElem?_singleton] at hX
          split at hX
          · rename_i hzero
            rw [List.length_reverse] at hzero
            exact ⟨by omega, Option.some.inj hX⟩
          · simp at hX
        refine ⟨s, t, ?_, ?_, hmove⟩
        · rw [List.getElem?_append_left (by simp; omega), List.reverse_cons,
            List.getElem?_append_right (by simp; omega)]
          simp [hlen]
        · rw [List.getElem?_append_right (by simp; omega)]
          simp [hlen]

end Automaton.Path

namespace Parser

variable {τ σ ε : Type} {P : Parser τ σ ε} {c c' : Config τ σ} {p₀ p : Progress τ σ} {u : List τ}
  {fs : List (Tree τ)} {n : Nat} {x : τ} {rest : List (Delivery τ)}

/-- The tokens have the kinds of the trees that they stand for. -/
def SameKinds (P : Parser τ σ ε) (ts : List τ) (fs : List (Tree τ)) (_ : σ) : Prop :=
  ts.map P.kind = fs.map (Tree.root P.kind)

/-- On a stack for the trees of a right-hand side, the right-hand side is on top. -/
theorem SameKinds.spells {ts : List τ} {cs : List (Tree τ)} {context : σ} {q : Production}
    (h : P.SameKinds ts (cs.reverse ++ fs) context) (hroots : cs.map (Tree.root P.kind) = q.rhs) :
    P.Spells ts q.rhs := by
  have hcount : q.rhs.length = cs.length := by rw [← hroots, List.length_map]
  rw [Spells, List.map_reverse, List.map_take, h, List.map_append, hcount,
    List.take_left' (by simp), List.map_reverse, List.reverse_reverse, hroots]

/-- A hook that keeps to its productions keeps the kinds of tokens and trees the same. -/
theorem KeepsProductions.tracks (h : P.KeepsProductions) : P.Tracks P.SameKinds where
  kinds := id
  shift := fun x hts => by simpa [SameKinds] using hts
  reduce := by
    intro ts ts' fs cs context context' n q x hne hq hroots hts hhook
    rcases h n q x ts context hne hq (hts.spells hroots) with
        ⟨e, ts'', context'', heq, -⟩ | ⟨y, context'', heq, hkind⟩
    · cases heq.symm.trans hhook
    · obtain ⟨rfl, rfl⟩ : y :: ts.drop q.rhs.length = ts' ∧ context'' = context' := by
        simpa using heq.symm.trans hhook
      have hcount : q.rhs.length = cs.length := by rw [← hroots, List.length_map]
      have hrest : (ts.drop q.rhs.length).map P.kind = fs.map (Tree.root P.kind) := by
        rw [List.map_drop, hts, List.map_append, hcount, List.drop_left' (by simp)]
      simp [SameKinds, hkind, hrest]

/-! ## Steps -/

section

variable (hbuild : Table.build P.grammar = .ok P.table) (h : P.Reading P.SameKinds p₀ c u fs)
include hbuild h

omit hbuild in
theorem Reading.aligned : P.Aligned c := by
  have hpath : P.grammar.automaton.Path (c.tokens.map P.kind) c.states := h.tracked ▸ h.path
  refine ⟨by simpa using hpath.length_eq, hpath.bottom_eq, fun i x hx => ?_⟩
  refine hpath.move_of_getElem? ?_
  rw [← List.map_reverse, List.getElem?_map, hx, Option.map_some]

/-- Where the table calls for a reduction, its right-hand side is on top of the tokens. -/
theorem Reading.spells
    (hlookup : P.table.lookup (top c.states) (P.kind c.lookahead) = some (.reduce n)) :
    ∃ q, P.grammar.productions[n]? = some q ∧ P.Spells c.tokens q.rhs := by
  obtain ⟨q, cs, fs', hq, hfs, hroots, -⟩ := h.exists_children hbuild hlookup
  exact ⟨q, hq, SameKinds.spells (hfs ▸ h.tracked) hroots⟩

/-- A step does not end with a fault of the table. -/
theorem Reading.ne_table_of_finished (hkeeps : P.KeepsProductions)
    (hterm : P.kind c.lookahead ∈ P.grammar.terminalSymbols) {result : Except (Fault ε) τ}
    (hstep : P.step c = .finished result p) (fault : TableError) :
    result ≠ .error (.table fault) := by
  cases hlookup : P.table.lookup (top c.states) (P.kind c.lookahead) with
  | none =>
      obtain ⟨rfl, -⟩ : _ = result ∧ _ := by simpa [step_error hlookup] using hstep
      simp [syntaxError]
  | some act =>
      cases act with
      | goto s =>
          -- Only nonterminals have gotos.
          have hlt := ((Table.lookup_goto_iff hbuild).mp hlookup).1
          have hge := (Grammar.mem_terminalSymbols.mp hterm).1
          omega
      | shift s =>
          simp only [step, hlookup, shift] at hstep
          split at hstep
          · obtain ⟨rfl, -⟩ := StepResult.finished.inj hstep
            simp
          · obtain ⟨rfl, -⟩ := StepResult.finished.inj hstep
            simp [syntaxError]
          · cases hstep
      | reduce n =>
          obtain ⟨q, cs, fs', hq, hfs, hroots, hne, -, s, hgoto⟩ :=
            h.exists_children hbuild hlookup
          have hspells : P.Spells c.tokens q.rhs := SameKinds.spells (hfs ▸ h.tracked) hroots
          rcases hkeeps n q c.lookahead c.tokens c.progress.context hne hq hspells with
              ⟨e, ts, context, hhook, hown⟩ | ⟨y, context, hhook, -⟩
          · obtain ⟨rfl, -⟩ : _ = result ∧ _ := by
              simpa [step_reduce_failed hlookup hhook] using hstep
            simpa using hown fault
          · have hrunning :=
              (h.step_reduce hkeeps.tracks hbuild hlookup hq hfs hroots hgoto hhook).1
            cases hrunning.symm.trans hstep
      | accept =>
          -- The completed start production has moved over a token.
          have hprod := Grammar.length_pos_of_build hbuild
          obtain ⟨-, -, hitem⟩ := (Table.lookup_accept_iff hbuild).mp hlookup
          obtain ⟨q, hq, -, -, hprefix, -⟩ := Grammar.Path.recognised hprod h.path hitem
          obtain rfl := Option.some.inj ((Grammar.start_of_build hbuild).symm.trans hq)
          rw [← h.tracked] at hprefix
          simp only [step, hlookup, accept] at hstep
          split at hstep
          · obtain ⟨rfl, -⟩ := StepResult.finished.inj hstep
            simp
          · rename_i hnil
            simp [hnil] at hprefix

end

/-! ## Runs -/

section

variable (hbuild : Table.build P.grammar = .ok P.table) (hkeeps : P.KeepsProductions)
include hbuild hkeeps

/-- In every configuration that comes up the tokens stand for trees. -/
theorem Reaches.exists_reading (hinput : p₀.input = .token x :: rest)
    (h : P.Reaches (initial x p₀.fetch.2) c) : ∃ u fs, P.Reading P.SameKinds p₀ c u fs :=
  (reading_initial rfl hinput).of_reaches hkeeps.tracks hbuild h

/-- A run over terminal tokens does not end with a fault of the table. -/
theorem ne_table_of_run
    (hterm : ∀ x, .token x ∈ p₀.input → P.kind x ∈ P.grammar.terminalSymbols)
    (hinput : p₀.input = .token x :: rest) {result : Except (Fault ε) τ}
    (hrun : P.run (initial x p₀.fetch.2) = some (result, p)) (fault : TableError) :
    result ≠ .error (.table fault) := by
  obtain ⟨c, u, fs, hreading, hstep⟩ :=
    (reading_initial rfl hinput).exists_last hkeeps.tracks hbuild hrun
  have hlookahead : P.kind c.lookahead ∈ P.grammar.terminalSymbols :=
    hterm _ (by simp [hreading.input])
  exact hreading.ne_table_of_finished hbuild hkeeps hlookahead hstep fault

/-- A fault of the table while terminal tokens are read is a run without end. -/
theorem endless_of_next
    (hterm : ∀ x, .token x ∈ p₀.input → P.kind x ∈ P.grammar.terminalSymbols)
    {fault : TableError} (hnext : P.next p₀ = (.error (.table fault), p)) :
    fault = .endless ∧ ∃ x rest, p₀.input = .token x :: rest ∧
      P.run (initial x p₀.fetch.2) = none := by
  match hinput : p₀.input with
  | [] => simp [next, Progress.fetch, hinput] at hnext
  | .nothing :: _ => simp [next, Progress.fetch, hinput] at hnext
  | .failed e :: _ => simp [next, Progress.fetch, hinput] at hnext
  | .token x :: rest =>
      rcases hrun : P.run (initial x p₀.fetch.2) with _ | ⟨e | y, p'⟩
      · rw [next_of_run_eq_none hinput hrun] at hnext
        cases hnext
        exact ⟨rfl, x, rest, rfl, hrun⟩
      · rw [next_of_run hinput hrun] at hnext
        cases hnext
        exact absurd rfl (ne_table_of_run hbuild hkeeps hterm hinput hrun fault)
      · rw [next_of_run hinput hrun] at hnext
        cases hnext

/-- Reading terminal tokens gives no fault of the table, unless the reductions never end. -/
theorem next_ne_table
    (hterm : ∀ x, .token x ∈ p₀.input → P.kind x ∈ P.grammar.terminalSymbols)
    {fault : TableError} (hnext : P.next p₀ = (.error (.table fault), p)) : fault = .endless :=
  (endless_of_next hbuild hkeeps hterm hnext).1

/-- While a sentence of terminal tokens is read the stacks keep step, each reduction finds its
right-hand side on top, and so neither stack is ever too short, nor is a goto missing. -/
theorem aligned_and_never_short
    (hterm : ∀ x, .token x ∈ p₀.input → P.kind x ∈ P.grammar.terminalSymbols) :
    (∀ x rest c, p₀.input = .token x :: rest → P.Reaches (initial x p₀.fetch.2) c →
      P.Aligned c ∧ ∀ n,
        P.table.lookup (top c.states) (P.kind c.lookahead) = some (.reduce n) →
        ∃ q, P.grammar.productions[n]? = some q ∧ P.Spells c.tokens q.rhs) ∧
    (P.next p₀).1 ≠ .error (.table .underflow) ∧
    ∀ s label, (P.next p₀).1 ≠ .error (.table (.missingGoto s label)) := by
  refine ⟨fun x rest c hinput hreaches => ?_, fun hnext => ?_, fun s label hnext => ?_⟩
  · obtain ⟨u, fs, hreading⟩ := hreaches.exists_reading hbuild hkeeps hinput
    exact ⟨hreading.aligned, fun n => hreading.spells hbuild⟩
  · cases next_ne_table hbuild hkeeps hterm (Prod.ext hnext rfl)
  · cases next_ne_table hbuild hkeeps hterm (Prod.ext hnext rfl)

end

/-- A list is opened, and the lexer fails before it is closed. The hook would fail too, but only at
its third reduction. -/
theorem aligned_and_never_short_open_list :
    ∃ table, Table.build Gallery.list = .ok table ∧
      let P := Gallery.drillParser Gallery.list table ⟨some 2, 0, 0, true⟩
      let p₀ : Progress Gallery.Node (List Gallery.DrillEntry) := .start
        [.token ⟨3, "", none⟩, .token ⟨5, "", none⟩, .failed ⟨2, "?"⟩, .token ⟨4, "", none⟩] []
      (∀ c, P.Reaches (initial ⟨3, "", none⟩ p₀.fetch.2) c → P.Aligned c) ∧
        (P.next p₀).1 ≠ .error (.table .underflow) := by
  obtain ⟨table, hbuild⟩ := Table.exists_build (g := Gallery.list) (by decide +kernel)
  refine ⟨table, hbuild, ?_⟩
  intro P p₀
  have hkeeps : P.KeepsProductions := keepsProductions_drill _ _ rfl
  have hterminals : ∀ X ∈ [3, 5, 4], X ∈ Gallery.list.terminalSymbols := by decide +kernel
  have hterm : ∀ x, .token x ∈ p₀.input → P.kind x ∈ Gallery.list.terminalSymbols := by
    intro x hx
    obtain rfl | rfl | rfl : x = ⟨3, "", none⟩ ∨ x = ⟨5, "", none⟩ ∨ x = ⟨4, "", none⟩ := by
      simpa [p₀, Progress.start] using hx
    · exact hterminals 3 (by decide)
    · exact hterminals 5 (by decide)
    · exact hterminals 4 (by decide)
  obtain ⟨hsteps, hunderflow, -⟩ := aligned_and_never_short (P := P) hbuild hkeeps hterm
  exact ⟨fun c hreaches => (hsteps _ _ c rfl hreaches).1, hunderflow⟩

end Parser
end Argand
