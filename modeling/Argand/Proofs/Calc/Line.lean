-- SUMMARY: Reading one line: which reductions are made before a token, and how they end.
import Argand.Proofs.Calc.Stack

/-!
# Reading a line, token by token

Before a token is shifted the parser makes all reductions that the token calls for. They come to an
end, because each makes the symbols on the stack lighter, and none fails unless the last token is a
name without value (`exists_rest`). That name is looked up as soon as something that can follow an
operand comes (`run_unbound`).
-/
open Argand.Parser (top)

namespace Argand.Calc

open Grammar

/-! ## Behind an identifier -/

section

variable {table : Table} {α σ : List Nat} {a : Item}
  (hbuild : Table.build grammar = .ok table) (hpath : grammar.automaton.Path α σ)
include hbuild hpath

theorem predict_phrase {f g : Phrase} (h : ⟨f.index, 1⟩ ∈ grammar.itemsAt (top σ))
    (hhead : f.production.rhs.head? = some g.production.lhs) :
    ⟨g.index, 1⟩ ∈ grammar.itemsAt (top σ) := by
  have hprod := length_pos_of_build hbuild
  have hproduction : ∀ f : Phrase, grammar.productions[f.index]? = some f.production := by
    intro f
    cases f <;> rfl
  have hlhs := (production_of_build hbuild (hproduction g)).2
  exact Path.predict hprod hpath h ((next?_initial (hproduction f)).trans hhead) hlhs
    (hproduction g)

/-- Where an identifier can stand, it can stand for its value. -/
theorem name_mem_of_next (ha : a ∈ grammar.itemsAt (top σ))
    (hnext : grammar.next? a = some Symbol.ident.index) :
    ⟨Phrase.name.index, 1⟩ ∈ grammar.itemsAt (top σ) := by
  have hprod := length_pos_of_build hbuild
  obtain ⟨p, hp, hX⟩ := next?_eq_some_iff.mp hnext
  obtain ⟨f, hindex, -, rfl⟩ := phrase_of_production hp
  have hplace : ∀ f ∈ Phrase.all, ∀ d < f.production.symbols.length,
      f.production.symbols[d]? = some Symbol.ident.index →
      (f = .assign ∨ f = .name) ∧ d = 1 := by decide
  obtain ⟨hf, hdot⟩ := hplace f (by cases f <;> decide) a.dot
    (List.getElem?_eq_some_iff.mp hX).1 hX
  obtain ⟨n, d⟩ := a
  simp only at hindex hdot hX hp
  subst hindex hdot
  rcases hf with rfl | rfl
  · rcases Path.predicted hprod hpath ha hp with ⟨hzero, -⟩ | ⟨b, hb, hline⟩
    · exact absurd hzero (by decide)
    · have heval : ⟨Phrase.eval.index, 1⟩ ∈ grammar.itemsAt (top σ) :=
        Path.predict (p := Phrase.eval.production) hprod hpath hb hline (by decide) rfl
      have hterm := predict_phrase (g := .exprTerm) hbuild hpath heval rfl
      have hfactor := predict_phrase (g := .termFactor) hbuild hpath hterm rfl
      have hinner := predict_phrase (g := .factorInner) hbuild hpath hfactor rfl
      have hunit := predict_phrase (g := .innerUnit) hbuild hpath hinner rfl
      exact predict_phrase (g := .name) hbuild hpath hunit rfl
  · exact ha

end

/-! ## Reductions before a token -/

variable {table : Table} {env₀ : Bindings} {p₀ : Progress Token Bindings}
  {c c' : Config Token Bindings} {u : List Token} {fs : List (Tree Token)} {n : Nat}

/-- How heavy the symbols on the stack are. -/
def stackWeight (fs : List (Tree Token)) : Nat :=
  totalWeight (fs.map (Tree.root fun t => t.kind.index))

/-- The parser waits for the same token, with the same tokens behind it. -/
structure SameAhead (c c' : Config Token Bindings) : Prop where
  lookahead : c'.lookahead = c.lookahead
  input : c'.progress.input = c.progress.input

section

variable (hbuild : Table.build grammar = .ok table)
  (h : (parser table).Reading (Tracked env₀) p₀ c u fs)
include hbuild h

/-- A line is alone on the stack. -/
theorem line_alone (hmem : Symbol.line.index ∈ fs.map (Tree.root fun t => t.kind.index)) :
    ∃ f, fs = [f] :=
  h.eq_singleton_of_goal hbuild start_not_mem_rhs goal_not_mem_rhs hmem

/-- While lexical tokens are read, the stack is settled. -/
theorem settled_of_reading (hlex : ∀ x ∈ u, x.IsLexical) :
    Settled env₀ c.tokens fs c.progress.context := by
  refine h.tracked.2 (fun x hx => hlex x ?_) fun f hf heq => ?_
  · rw [← h.yield]
    simpa using hx
  · have hmem := List.mem_map_of_mem (f := Tree.root fun t : Token => t.kind.index)
      (List.mem_of_mem_tail hf)
    rw [heq] at hmem
    obtain ⟨g, rfl⟩ := line_alone hbuild h hmem
    simp at hf

/-- Before a line is finished the bindings are those from before it. -/
theorem context_eq_of_noLine (hlex : ∀ x ∈ u, x.IsLexical) (hline : NoLine fs) :
    c.progress.context = env₀ :=
  (settled_of_reading hbuild h hlex).unchanged fun t ht =>
    kind_ne_line h.tracked.1 hline t (List.mem_of_mem_head? ht)

/-- With a line on the stack the table accepts the end. -/
theorem lookup_accept_of_line {f : Tree Token} (hfs : fs = [f])
    (hroot : f.root (fun t => t.kind.index) = Symbol.line.index)
    (hend : c.lookahead.kind = .finish) :
    table.lookup (top c.states) c.lookahead.kind.index = some .accept := by
  have hpath := h.path
  rw [hfs, List.map_singleton] at hpath
  generalize hα : [f.root (parser table).kind] = α at hpath
  generalize hσ : c.states = σ at hpath
  cases hpath with
  | start => cases hα
  | move hpath hmove =>
      obtain ⟨rfl, rfl⟩ := List.cons.inj hα
      cases hpath
      rw [hend]
      refine lookup_accept_of_move? hbuild endMark_mem_terminalSymbols ?_
      rw [goal_grammar, ← hroot]
      exact hmove

/-- A reduction makes the stack lighter and leaves a nonterminal on top, which is a line only where
the table then accepts; it fails only for a name without value. -/
theorem step_reduce_cases (hlex : ∀ x ∈ u, x.IsLexical) (hline : NoLine fs)
    (hlookup : table.lookup (top c.states) c.lookahead.kind.index = some (.reduce n)) :
    (∃ c' fs', (parser table).step c = .running c' ∧
        (parser table).Reading (Tracked env₀) p₀ c' u fs' ∧ SameAhead c c' ∧
        stackWeight fs' < stackWeight fs ∧
        (∀ t ∈ c'.tokens.head?, t.kind.index < grammar.nonterminals) ∧
        (NoLine fs' ∨
          table.lookup (top c'.states) c'.lookahead.kind.index = some .accept)) ∨
      ∃ t s, c.tokens.head? = some t ∧ IsUnbound env₀ t s ∧
        followsOperand c.lookahead.kind = true := by
  obtain ⟨p, cs, fs', hp, rfl, hroots, hn, hfollow, s, hgoto⟩ := h.exists_children hbuild hlookup
  obtain ⟨f, parts, ts, rfl, hindex, rfl, hts, hparts, hlen, -⟩ :=
    exists_parts hp hroots h.tracked.1
  have hf := index_ne_zero hn
  have hsettled := settled_of_reading hbuild h hlex
  rw [hts] at hsettled
  obtain ⟨-, ⟨z, happly, -⟩ | ⟨rfl, t, s, rfl, hunbound⟩⟩ :=
    hsettled.succeeds_or_unbound hf hparts hlen
  · left
    have hcount : parts.length = f.rhs.length := by rw [← hparts, List.length_map]
    have henv := context_eq_of_noLine hbuild h hlex hline
    obtain ⟨env, hhook⟩ : ∃ env, (parser table).reduce f.index c.lookahead c.tokens
        c.progress.context = (.ok (), phraseToken f parts z :: ts, env) := by
      refine ⟨if f.lhs = .line then assigned env₀ (cs.map Tree.yield).flatten z else env₀, ?_⟩
      change reduce f.index c.lookahead c.tokens c.progress.context = _
      rw [hts, henv, reduce_eq hindex hcount, happly]
    obtain ⟨hstep, hreading⟩ :=
      h.step_reduce tracks_tracked hbuild hlookup hp rfl hroots hgoto hhook
    refine ⟨_, _, hstep, hreading, ⟨rfl, rfl⟩, ?_, ?_, ?_⟩
    · have hweight := weight_lhs_lt hf
      have hroots' : cs.map (Tree.root fun t => t.kind.index) = f.rhs.map Symbol.index := hroots
      simp only [stackWeight, List.map_cons, totalWeight, List.map_append, List.map_reverse,
        totalWeight_append, totalWeight_reverse, hroots', Tree.root_node, Phrase.production]
      omega
    · intro t ht
      obtain rfl : phraseToken f parts z = t := by simpa [Parser.reduced] using ht
      exact (production_of_build hbuild hp).2
    · by_cases hlhs : f.lhs = .line
      · right
        have hroot : (Tree.node f.production cs).root (fun t : Token => t.kind.index) =
            Symbol.line.index := by
          simp [Phrase.production, hlhs]
        obtain ⟨g, hg⟩ := line_alone hbuild hreading (by simp [hroot])
        obtain ⟨rfl, -⟩ := List.cons.inj hg
        have hend : c.lookahead.kind = .finish := eq_finish_of_mem_followOf_line (by
          rw [← hlhs]
          exact hfollow)
        exact lookup_accept_of_line hbuild hreading hg hroot hend
      · left
        intro g hg
        rcases List.mem_cons.mp hg with rfl | hg
        · intro heq
          exact hlhs (Symbol.index_inj (by simpa [Phrase.production] using heq))
        · exact hline g (by simp [hg])
  · right
    exact ⟨t, s, by rw [hts]; rfl, hunbound, mem_followOf_unit.mp hfollow⟩

/-- Unless the last token is a name without value that is looked up now, the run goes on to where no
reduction is called for, or the table accepts. -/
theorem exists_rest (hlex : ∀ x ∈ u, x.IsLexical) (hline : NoLine fs)
    (hbound : ∀ t s, c.tokens.head? = some t → IsUnbound env₀ t s →
      followsOperand c.lookahead.kind = false) :
    ∃ c' fs', (parser table).run c = (parser table).run c' ∧
      (parser table).Reading (Tracked env₀) p₀ c' u fs' ∧ SameAhead c c' ∧
      (table.lookup (top c'.states) c'.lookahead.kind.index = some .accept ∨
        NoLine fs' ∧
          ∀ n, table.lookup (top c'.states) c'.lookahead.kind.index ≠ some (.reduce n)) := by
  induction hweight : stackWeight fs using Nat.strongRecOn generalizing c fs with
  | ind k ih =>
      by_cases hreduce :
          ∃ n, table.lookup (top c.states) c.lookahead.kind.index = some (.reduce n)
      · obtain ⟨n, hlookup⟩ := hreduce
        obtain ⟨c', fs', hstep, hreading, hsame, hless, htop, hcases⟩ |
            ⟨t, s, ht, hunbound, hfollow⟩ := step_reduce_cases hbuild h hlex hline hlookup
        · have hrun := Parser.run_of_running hstep
          rcases hcases with hline' | haccept
          · have hbound' : ∀ t s, c'.tokens.head? = some t → IsUnbound env₀ t s →
                followsOperand c'.lookahead.kind = false := by
              intro t s ht hunbound
              have hlt := htop t ht
              rw [hunbound.1] at hlt
              exact absurd hlt (by decide)
            obtain ⟨c'', fs'', hrun', hreading', hsame', hrest⟩ :=
              ih _ (hweight ▸ hless) hreading hline' hbound' rfl
            exact ⟨c'', fs'', hrun.trans hrun', hreading', ⟨hsame'.1.trans hsame.1,
              hsame'.2.trans hsame.2⟩, hrest⟩
          · exact ⟨c', fs', hrun, hreading, hsame, .inl haccept⟩
        · rw [hbound t s ht hunbound] at hfollow
          cases hfollow
      · exact ⟨c, fs, rfl, h, ⟨rfl, rfl⟩, .inr ⟨hline, fun n hn => hreduce ⟨n, hn⟩⟩⟩

/-- A name without value is an error once something comes that can follow an operand. -/
theorem run_unbound {x : Token} {ts : List Token} {s : String} (hlex : ∀ x ∈ u, x.IsLexical)
    (hline : NoLine fs) (htokens : c.tokens = x :: ts) (hunbound : IsUnbound env₀ x s)
    (hfollow : followsOperand c.lookahead.kind = true) :
    (parser table).run c =
      some (.error (.hook (.unbound s)), { c.progress with context := env₀ }) := by
  have hprod := length_pos_of_build hbuild
  have henv := context_eq_of_noLine hbuild h hlex hline
  -- The state on top has the completed name.
  have hitem : ⟨Phrase.name.index, 2⟩ ∈ grammar.itemsAt (top c.states) := by
    have hkinds := h.tracked.1
    rw [htokens, List.map_cons, hunbound.1] at hkinds
    have hpath := h.path
    change grammar.automaton.Path (fs.map (Tree.root fun t => t.kind.index)) c.states at hpath
    rw [← hkinds] at hpath
    generalize hσ : c.states = σ at hpath
    cases hpath with
    | @move α σ r t X hpath hmove =>
        obtain ⟨a, ha, hnext⟩ := Path.exists_next_of_move? (σ := r :: σ) hprod hmove
        have hname := name_mem_of_next hbuild hpath ha hnext
        rw [top, List.headD_cons, (move?_eq_some hprod hmove).2.2.2.1]
        exact advance_mem_goto hname rfl
  have hlookup : table.lookup (top c.states) c.lookahead.kind.index =
      some (.reduce Phrase.name.index) := by
    exact (Table.lookup_reduce_iff hbuild).mpr ⟨Phrase.name.production, rfl, hitem, by decide,
      Symbol.index_mem_symbols _, mem_followOf_unit.mpr hfollow⟩
  have hhook : (parser table).reduce Phrase.name.index c.lookahead c.tokens c.progress.context =
      (.error (.hook (.unbound s)), ts, env₀) := by
    have happly : apply .name [x] env₀ = (.error (.unbound s), env₀) := by
      simp [apply, valueOf, nameAt, hunbound.2.1, Bindings.lookup, hunbound.2.2, bind, Except.bind]
    have hreduce : reduce Phrase.name.index c.lookahead ([x].reverse ++ ts) env₀ = _ :=
      reduce_eq rfl rfl
    rw [happly] at hreduce
    rw [htokens, henv]
    exact hreduce
  exact Parser.run_of_finished (Parser.step_reduce_failed hlookup hhook)

end

end Argand.Calc
