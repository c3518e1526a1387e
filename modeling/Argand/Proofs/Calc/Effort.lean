-- SUMMARY: A line takes at most five reductions for each shift, and one more.
import Argand.Proofs.Calc.Payload

/-!
# The work for a line

Reductions take no input, and a single number is reduced six times before it is a line. What pays
for them are the weights of the symbols: a token comes with a weight of at most six, and each
reduction takes off at least one for every tree that it joins. So a tree over `k` tokens has at most
`5 * k + 1` inner nodes, less the weight of its root (`length_nodes_add_weight_le`). On the stack
every root but the finished line has a weight left, which makes the bound hold for all trees
together (`reductions_le`), at every point of a run and at its end (`work_bounded`).
-/

namespace Argand.Calc

open Grammar

/-! ## Trees -/

section

variable {kind : Token → Nat} {f : Tree Token} {fs : List (Tree Token)}

/-- What the trees have left to pay with is the weight of their roots. -/
theorem length_nodes_forest_le
    (h : ∀ f ∈ fs, f.nodes.length + weight (f.root kind) ≤ 5 * f.yield.length + 1) :
    (fs.flatMap Tree.nodes).length + totalWeight (fs.map (Tree.root kind)) ≤
      5 * (fs.flatMap Tree.yield).length + fs.length := by
  induction fs with
  | nil => simp [totalWeight]
  | cons f fs ih =>
      have hhead := h f List.mem_cons_self
      have hrest := ih fun f' hf' => h f' (List.mem_cons_of_mem _ hf')
      simp only [List.flatMap_cons, List.length_append, List.map_cons, List.length_cons,
        totalWeight]
      omega

/-- A tree over `k` tokens has at most `5 * k + 1` inner nodes, less the weight of its root. -/
theorem length_nodes_add_weight_le (h : f.IsDerivation grammar kind) (hroot : f.root kind ≠ 0) :
    f.nodes.length + weight (f.root kind) ≤ 5 * f.yield.length + 1 := by
  induction h with
  | leaf x => simpa using weight_le (kind x)
  | @node p cs hp hroots _ ih =>
      have hcs : ∀ c ∈ cs, c.root kind ≠ 0 := fun c hc hzero =>
        start_not_mem_rhs p hp (hroots ▸ hzero ▸ List.mem_map_of_mem hc)
      have hforest := length_nodes_forest_le fun c hc => ih c hc (hcs c hc)
      have hlen : cs.length = p.rhs.length := by rw [← hroots, List.length_map]
      -- The phrase itself costs one, and takes off one for each of its parts.
      obtain ⟨g, hg, rfl⟩ : ∃ g : Phrase, g ≠ .start ∧ p = g.production := by
        obtain ⟨n, hn⟩ := List.getElem?_of_mem hp
        obtain ⟨g, -, -, rfl⟩ := phrase_of_production hn
        exact ⟨g, by rintro rfl; exact hroot rfl, rfl⟩
      have hweight : weight g.production.lhs + g.production.rhs.length ≤
          totalWeight g.production.rhs := by
        simpa [Phrase.production] using weight_lhs_add_le hg
      rw [hroots] at hforest
      simp only [Tree.nodes_node, Tree.root_node, Tree.yield_node, List.length_append,
        List.length_singleton]
      omega

end

/-! ## Stacks -/

section

variable {table : Table} {p₀ : Progress Token Bindings} {c : Config Token Bindings} {u : List Token}
  {fs : List (Tree Token)} {J : List Token → List (Tree Token) → Bindings → Prop}

/-- While a line is read, at most five reductions were made for each shift, and one more. -/
theorem reductions_le (hbuild : Table.build grammar = .ok table)
    (h : (parser table).Reading J p₀ c u fs) :
    (fs.flatMap Tree.nodes).length ≤ 5 * u.length + 1 := by
  have hprod := length_pos_of_build hbuild
  have hroots : ∀ f ∈ fs, f.root (parser table).kind ≠ 0 := by
    intro f hf hzero
    obtain ⟨p, hp, hmem⟩ := Path.mem_rhs hprod h.path _ (List.mem_map_of_mem hf)
    exact start_not_mem_rhs p hp (hzero ▸ hmem)
  have hforest := length_nodes_forest_le fun f hf =>
    length_nodes_add_weight_le (h.derivations f hf) (hroots f hf)
  have hyield : (fs.flatMap Tree.yield).length = u.length := by
    rw [← h.yield]
    simp [List.length_flatMap]
  rw [hyield] at hforest
  by_cases hline : grammar.goal ∈ fs.map (Tree.root (parser table).kind)
  · -- The line has no weight, but it is alone.
    obtain ⟨f, rfl⟩ := h.eq_singleton_of_goal hbuild start_not_mem_rhs goal_not_mem_rhs hline
    simp only [List.length_singleton] at hforest
    omega
  · have hpos : ∀ X ∈ fs.map (Tree.root (parser table).kind), 0 < weight X := by
      intro X hX
      refine weight_pos ?_ fun hgoal => hline (hgoal ▸ hX)
      obtain ⟨f, hf, rfl⟩ := List.mem_map.mp hX
      exact hroots f hf
    have hlen := length_le_totalWeight hpos
    simp only [List.length_map] at hlen
    omega

end

/-! ## Runs -/

/-- One token more was fetched than shifted, and for each shift at most five reductions were made,
and one more. -/
structure IsBounded (counts : ParseCounts) : Prop where
  tokens : counts.tokens = counts.shifts + 1
  reductions : counts.reductions ≤ 5 * counts.shifts + 1

variable {table : Table} {bs : List UInt8} {env : Bindings} {x : Token}
  {rest : List (Delivery Token)} {c : Config Token Bindings}

/-- The counts are bounded whenever a line that has begun is between two steps. -/
theorem isBounded_of_reaches (hbuild : Table.build grammar = .ok table)
    (hinput : deliveriesOf bs = .token x :: rest)
    (h : (parser table).Reaches
      (Parser.initial x (Progress.start (deliveriesOf bs) env).fetch.2) c) :
    IsBounded c.progress.counts := by
  have hinput' : (Progress.start (deliveriesOf bs) env).input = .token x :: rest := hinput
  obtain ⟨u, fs, hreading⟩ := h.exists_reading (P := parser table) hbuild
    (keepsProductions_phrases table) hinput'
  have hcounts : c.progress.counts =
      ⟨u.length + 1, u.length, (fs.flatMap Tree.nodes).length⟩ := by
    simpa [Progress.start] using hreading.counts
  rw [hcounts]
  exact ⟨rfl, reductions_le hbuild hreading⟩

/-- No fault of a line is one of the grammar. -/
theorem ofFault_ne_grammar {e : Fault SemanticError} (h : IsFaultOfLine e) (g : TableError) :
    Error.ofFault e ≠ .grammar g := by
  intro hgrammar
  rcases h.ofFault_cases with ⟨l, heq⟩ | ⟨found, offset, heq⟩ | ⟨s, heq⟩ <;>
    cases heq.symm.trans hgrammar

/-- The first call on a line comes to an end. Once the first token has come, one token more has been
fetched than shifted, and there are at most five reductions for each shift, and one more, at every
point of the run and when it has ended, with a value or with an error. If an error comes instead of
the first token, nothing is counted. -/
theorem work_bounded (bs : List UInt8) (env : Bindings) :
    ∃ table, table? = .ok table ∧
      (∀ x rest, deliveriesOf bs = .token x :: rest →
        (∃ result p, (parser table).run
          (Parser.initial x (Progress.start (deliveriesOf bs) env).fetch.2) = some (result, p) ∧
          (Reader.ofBytes bs env).next.2.progress = p ∧ IsBounded p.counts) ∧
        ∀ c, (parser table).Reaches
          (Parser.initial x (Progress.start (deliveriesOf bs) env).fetch.2) c →
          IsBounded c.progress.counts) ∧
      (∀ e rest, deliveriesOf bs = .failed e :: rest →
        (Reader.ofBytes bs env).next.2.progress.counts = ⟨0, 0, 0⟩) ∧
      ((∃ x rest, deliveriesOf bs = .token x :: rest) ∨
        ∃ e rest, deliveriesOf bs = .failed e :: rest) ∧
      (Reader.ofBytes bs env).next.1 ≠ .error (.grammar .endless) := by
  obtain ⟨table, hbuild⟩ := exists_table
  have hprogress : (Reader.ofBytes bs env).progress = .start (deliveriesOf bs) env := rfl
  have hnext := next_eq (r := Reader.ofBytes bs env) hbuild
  rw [hprogress] at hnext
  have hdelivered : (Progress.start (deliveriesOf bs) env).input <:+ deliveriesOf bs :=
    List.suffix_refl _
  obtain ⟨ds, hds, hall⟩ := exists_deliveries bs
  refine ⟨table, hbuild, fun x rest hinput => ⟨?_, fun c => isBounded_of_reaches hbuild hinput⟩,
    fun e rest hinput => ?_, (failed_or_token hall hds).symm, ?_⟩
  · obtain ⟨result, p, hrun, -⟩ := run_faultless hbuild hdelivered hinput
    obtain ⟨c, hreaches, hstep⟩ := Parser.exists_last_of_run hrun
    refine ⟨result, p, hrun, ?_, ?_⟩
    · rw [hnext, Parser.next_of_run hinput hrun]
      rfl
    · rw [Parser.counts_of_finished hstep]
      exact isBounded_of_reaches hbuild hinput hreaches
  · rw [hnext]
    simp [Parser.next, Progress.fetch, Progress.start, hinput, Reader.moveTo]
  · have hfaultless := next_faultless hbuild hdelivered
    intro hendless
    rw [hnext] at hendless
    cases hresult : ((parser table).next (.start (deliveriesOf bs) env)).1 with
    | ok t => simp [hresult, Except.mapError] at hendless
    | error e =>
        have hfault : IsFaultOfLine e := by simpa [hresult] using hfaultless
        exact ofFault_ne_grammar hfault .endless
          (by simpa [hresult, Except.mapError] using hendless)

end Argand.Calc
