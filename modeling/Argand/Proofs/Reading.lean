-- SUMMARY: What holds of a parser between two steps, and what its next step can be.
import Argand.Proofs.Drive

/-!
# Configurations while a sentence is read

While a parser with a built table reads, its token stack stands for a row of derivation trees. The
trees have the tokens shifted so far as their leaves, their symbols label a path of the automaton to
the states on the stack, and the moves that build them have led there. `Reading` is this invariant.
There is one lemma for each act that the table can call for, which says what the step does and that
the invariant is kept.
-/
open Argand.Parser (top)

namespace Argand

variable {τ σ ε : Type}

/-! ## Runs -/

namespace Parser

variable {P : Parser τ σ ε} {c c' : Config τ σ} {result : Except (Fault ε) τ} {p : Progress τ σ}

theorem run_of_running (h : P.step c = .running c') : P.run c = P.run c' := by
  rw [run, h]

theorem run_of_finished (h : P.step c = .finished result p) : P.run c = some (result, p) := by
  rw [run, h]

/-- The configuration after a shift over which the token `x` was fetched. -/
def shifted (s : Nat) (c : Config τ σ) (x : τ) : Config τ σ :=
  ⟨s :: c.states, c.lookahead :: c.tokens, x, c.progress.fetch.2.countShift⟩

/-- The configuration after a reduction with a goto to `s`. -/
def reduced (s : Nat) (p : Production) (c : Config τ σ) (tokens : List τ) (context : σ) :
    Config τ σ :=
  ⟨s :: c.states.drop p.rhs.length, tokens, c.lookahead,
    { c.progress with context }.countReduction⟩

/-- A step that does not end the sentence shifts over a token that has come, or reduces a production
where the hook succeeds and there is a goto. -/
theorem running_cases (hstep : P.step c = .running c') :
    (∃ s x rest, P.table.lookup (top c.states) (P.kind c.lookahead) = some (.shift s) ∧
      c.progress.input = .token x :: rest ∧ c' = shifted s c x) ∨
    ∃ n p s ts context, P.table.lookup (top c.states) (P.kind c.lookahead) = some (.reduce n) ∧
      P.reduce n c.lookahead c.tokens c.progress.context = (.ok (), ts, context) ∧
      P.grammar.productions[n]? = some p ∧
      P.table.lookup (top (c.states.drop p.rhs.length)) p.lhs = some (.goto s) ∧
      c' = reduced s p c ts context := by
  unfold step at hstep
  split at hstep
  · rename_i s hlookup
    left
    rcases hinput : c.progress.input with _ | ⟨x | _ | _, rest⟩ <;>
      simp only [shift, Progress.fetch, hinput] at hstep
    · cases hstep
    · refine ⟨s, x, rest, hlookup, rfl, ?_⟩
      simpa [shifted, Progress.fetch, hinput, eq_comm] using hstep
    · cases hstep
    · cases hstep
  · rename_i n hlookup
    right
    simp only [reduceBy] at hstep
    split at hstep
    · cases hstep
    · rename_i ts context hhook
      split at hstep
      · cases hstep
      · rename_i p hp
        by_cases hlen : c.states.length < p.rhs.length + 1
        · simp [gotoAfter, hlen] at hstep
        · cases hgoto : P.table.lookup (top (c.states.drop p.rhs.length)) p.lhs with
          | none => simp [gotoAfter, hlen, hgoto] at hstep
          | some act =>
              cases act with
              | goto s =>
                  refine ⟨n, p, s, ts, context, hlookup, hhook, hp, hgoto, ?_⟩
                  simpa [gotoAfter, hlen, hgoto, reduced, eq_comm] using hstep
              | _ => simp [gotoAfter, hlen, hgoto] at hstep
  · unfold accept at hstep
    split at hstep <;> cases hstep
  · cases hstep
  · cases hstep

/-- What a step that ends the sentence leaves behind. Where a token was to be shifted, an error or
nothing came; a reduction may change the context; and otherwise all is as it was. -/
theorem finished_cases (hstep : P.step c = .finished result p) :
    (∃ s e rest, P.table.lookup (top c.states) (P.kind c.lookahead) = some (.shift s) ∧
      c.progress.input = .failed e :: rest ∧ result = .error (.lexical e) ∧
      p = { c.progress with input := rest }) ∨
    (∃ s, P.table.lookup (top c.states) (P.kind c.lookahead) = some (.shift s) ∧
      c.progress.fetch = (.nothing, p) ∧ result = .error (P.syntaxError c.lookahead)) ∨
    (∃ n r ts context, P.table.lookup (top c.states) (P.kind c.lookahead) = some (.reduce n) ∧
      P.reduce n c.lookahead c.tokens c.progress.context = (r, ts, context) ∧
      p = { c.progress with context }) ∨
    p = c.progress := by
  unfold step at hstep
  split at hstep
  · rename_i s hlookup
    rcases hinput : c.progress.input with _ | ⟨x | _ | e, rest⟩ <;>
      simp only [shift, Progress.fetch, hinput] at hstep
    · obtain ⟨rfl, rfl⟩ := StepResult.finished.inj hstep
      exact .inr (.inl ⟨s, hlookup, by simp [Progress.fetch, hinput], rfl⟩)
    · cases hstep
    · obtain ⟨rfl, rfl⟩ := StepResult.finished.inj hstep
      exact .inr (.inl ⟨s, hlookup, by simp [Progress.fetch, hinput], rfl⟩)
    · obtain ⟨rfl, rfl⟩ := StepResult.finished.inj hstep
      exact .inl ⟨s, e, rest, hlookup, rfl, rfl, rfl⟩
  · rename_i n hlookup
    right; right; left
    rcases hhook : P.reduce n c.lookahead c.tokens c.progress.context with ⟨r, ts, context⟩
    refine ⟨n, r, ts, context, hlookup, hhook, ?_⟩
    simp only [reduceBy, hhook] at hstep
    split at hstep
    · rename_i heq
      cases heq
      exact (StepResult.finished.inj hstep).2.symm
    · rename_i heq
      cases heq
      split at hstep
      · exact (StepResult.finished.inj hstep).2.symm
      · split at hstep
        · exact (StepResult.finished.inj hstep).2.symm
        · cases hstep
  · unfold accept at hstep
    split at hstep
    all_goals exact .inr (.inr (.inr (StepResult.finished.inj hstep).2.symm))
  · exact .inr (.inr (.inr (StepResult.finished.inj hstep).2.symm))
  · exact .inr (.inr (.inr (StepResult.finished.inj hstep).2.symm))

/-- The configurations that come up from `c` on, step by step, while a sentence is read. -/
inductive Reaches (P : Parser τ σ ε) : Config τ σ → Config τ σ → Prop where
  | refl (c : Config τ σ) : Reaches P c c
  | step {c c' c'' : Config τ σ} : Reaches P c c' → P.step c' = .running c'' → Reaches P c c''

theorem Reaches.run_eq (h : P.Reaches c c') : P.run c = P.run c' := by
  induction h with
  | refl => rfl
  | step _ hstep ih => exact ih.trans (run_of_running hstep)

theorem Reaches.trans {c'' : Config τ σ} (h : P.Reaches c c') (h' : P.Reaches c' c'') :
    P.Reaches c c'' := by
  induction h' with
  | refl => exact h
  | step _ hlast ih => exact ih.step hlast

/-- A run with a result ends where it has come to. -/
theorem exists_last_of_run (hrun : P.run c = some (result, p)) :
    ∃ c', P.Reaches c c' ∧ P.step c' = .finished result p := by
  refine run.partial_correctness P
    (fun c r => ∃ c', P.Reaches c c' ∧ P.step c' = .finished r.1 r.2) ?_ c (result, p) hrun
  intro loop ih c r hr
  cases hstep : P.step c with
  | finished result p =>
      simp only [hstep, Option.some.injEq] at hr
      exact ⟨c, .refl c, by rw [hstep, ← hr]⟩
  | running c' =>
      simp only [hstep] at hr
      obtain ⟨c'', hreaches, hlast⟩ := ih c' r hr
      exact ⟨c'', (Reaches.step (.refl c) hstep).trans hreaches, hlast⟩

/-- A relation between token stacks, trees with the last first, and contexts that shifts keep and
reductions keep when they succeed. -/
structure Tracks (P : Parser τ σ ε) (J : List τ → List (Tree τ) → σ → Prop) : Prop where
  kinds {ts : List τ} {fs : List (Tree τ)} {context : σ} :
    J ts fs context → ts.map P.kind = fs.map (Tree.root P.kind)
  shift {ts : List τ} {fs : List (Tree τ)} {context : σ} (x : τ) :
    J ts fs context → J (x :: ts) (.leaf x :: fs) context
  reduce {ts ts' : List τ} {fs cs : List (Tree τ)} {context context' : σ} {n : Nat}
      {p : Production} {x : τ} :
    n ≠ 0 → P.grammar.productions[n]? = some p → cs.map (Tree.root P.kind) = p.rhs →
    J ts (cs.reverse ++ fs) context → P.reduce n x ts context = (.ok (), ts', context') →
    J ts' (.node p cs :: fs) context'

/-! ## The invariant -/

/-- From the progress `p₀`, before the first token was fetched, the parser has come to the
configuration `c`: it has shifted the tokens `u`, and its stack stands for the trees `fs`, the last
first. -/
structure Reading (P : Parser τ σ ε) (J : List τ → List (Tree τ) → σ → Prop) (p₀ : Progress τ σ)
    (c : Config τ σ) (u : List τ) (fs : List (Tree τ)) : Prop where
  input : p₀.input = (u ++ [c.lookahead]).map .token ++ c.progress.input
  tracked : J c.tokens fs c.progress.context
  path : P.grammar.automaton.Path (fs.map (Tree.root P.kind)) c.states
  derivations : ∀ f ∈ fs, f.IsDerivation P.grammar P.kind
  yield : fs.reverse.flatMap Tree.yield = u
  drive : Drives P.grammar P.table [0] (u.map P.kind) (P.kind c.lookahead)
    (fs.reverse.flatMap Tree.moves) c.states
  counts : c.progress.counts = ⟨p₀.counts.tokens + (u.length + 1), p₀.counts.shifts + u.length,
    p₀.counts.reductions + (fs.flatMap Tree.nodes).length⟩

variable {J : List τ → List (Tree τ) → σ → Prop} {p₀ : Progress τ σ} {u : List τ}
  {fs : List (Tree τ)} {n s : Nat} {x : τ} {rest : List (Delivery τ)}

/-- What holds of the first configuration. -/
theorem reading_initial (hJ : J [] [] p₀.context) (hfetch : p₀.input = .token x :: rest) :
    P.Reading J p₀ (initial x p₀.fetch.2) [] [] where
  input := by simp [initial, Progress.fetch, hfetch]
  tracked := by simpa [initial, Progress.fetch, hfetch] using hJ
  path := .start
  derivations := by simp
  yield := rfl
  drive := .done [0] _
  counts := by simp [initial, Progress.fetch, hfetch]

variable (htracks : P.Tracks J) (h : P.Reading J p₀ c u fs)
include htracks h

/-! ## Shifts -/

theorem Reading.step_shift_token (hbuild : Table.build P.grammar = .ok P.table)
    (hlookup : P.table.lookup (top c.states) (P.kind c.lookahead) = some (.shift s))
    (hfetch : c.progress.input = .token x :: rest) :
    P.step c = .running (shifted s c x) ∧
      P.Reading J p₀ (shifted s c x) (u ++ [c.lookahead]) (.leaf c.lookahead :: fs) := by
  constructor
  · simp [step, hlookup, shift, shifted, Progress.fetch, hfetch]
  · have hmove := ((Table.lookup_shift_iff hbuild).mp hlookup).2
    have hshift : Drives P.grammar P.table c.states [P.kind c.lookahead] (P.kind x) [.shift]
        (s :: c.states) := .shift hlookup (.done _ _)
    refine ⟨?_, ?_, h.path.push hmove, ?_, ?_, ?_, ?_⟩
    · simpa [shifted, Progress.fetch, hfetch, Progress.countShift] using h.input
    · simpa [shifted, Progress.fetch, hfetch, Progress.countShift] using
        htracks.shift c.lookahead h.tracked
    · intro f hf
      rcases List.mem_cons.mp hf with rfl | hf
      · exact .leaf _
      · exact h.derivations f hf
    · simp [h.yield]
    · simpa [shifted] using h.drive.trans hshift rfl
    · simp [shifted, Progress.fetch, hfetch, Progress.countShift, h.counts, Nat.add_assoc]

omit htracks h in
theorem step_shift_failed {e : LexError}
    (hlookup : P.table.lookup (top c.states) (P.kind c.lookahead) = some (.shift s))
    (hfetch : c.progress.input = .failed e :: rest) :
    P.step c = .finished (.error (.lexical e)) { c.progress with input := rest } := by
  simp [step, hlookup, shift, Progress.fetch, hfetch]

omit htracks h in
theorem step_error
    (hlookup : P.table.lookup (top c.states) (P.kind c.lookahead) = none) :
    P.step c = .finished (.error (P.syntaxError c.lookahead)) c.progress := by
  simp [step, hlookup]

/-! ## Reductions -/

omit htracks in
/-- Where the table calls for a reduction, the last trees stand for its right-hand side. -/
theorem Reading.exists_children (hbuild : Table.build P.grammar = .ok P.table)
    (hlookup : P.table.lookup (top c.states) (P.kind c.lookahead) = some (.reduce n)) :
    ∃ (p : Production) (cs fs' : List (Tree τ)),
      P.grammar.productions[n]? = some p ∧ fs = cs.reverse ++ fs' ∧
      cs.map (Tree.root P.kind) = p.rhs ∧ n ≠ 0 ∧
      P.kind c.lookahead ∈ P.grammar.lookahead.followOf p.lhs ∧
      ∃ s, P.table.lookup (top (c.states.drop p.rhs.length)) p.lhs = some (.goto s) := by
  have hprod := Grammar.length_pos_of_build hbuild
  obtain ⟨p, hp, hitem, hne, -, hfollow⟩ := (Table.lookup_reduce_iff hbuild).mp hlookup
  obtain ⟨q, hq, -, -, hprefix, hinitial⟩ := Grammar.Path.recognised hprod h.path hitem
  obtain rfl : p = q := Option.some.inj (hp.symm.trans hq)
  simp only [Nat.add_sub_cancel, List.take_length] at hprefix hinitial
  obtain ⟨α, hα⟩ := hprefix
  obtain ⟨top', fs', rfl, hroots, hrest⟩ := List.map_eq_append_iff.mp hα.symm
  have hlen : p.rhs.length ≤ ((top' ++ fs').map (Tree.root P.kind)).length := by
    rw [← hα]
    simp
  refine ⟨p, top'.reverse, fs', hp, by simp, by simp [hroots], hne, hfollow, ?_⟩
  rcases Grammar.Path.predicted hprod (h.path.drop hlen) hinitial hp with
      ⟨hzero, -⟩ | ⟨b, hb, hnext⟩
  · exact absurd hzero hne
  · have hlhs := (Grammar.production_of_build hbuild hp).2
    obtain ⟨s, hmove⟩ := Grammar.exists_move? hprod
      (Grammar.Path.top_lt hprod (h.path.drop hlen)) (Grammar.mem_symbols_of_nonterminal hlhs) hb
      hnext
    exact ⟨s, (Table.lookup_goto_iff hbuild).mpr ⟨hlhs, hmove⟩⟩

theorem Reading.step_reduce (hbuild : Table.build P.grammar = .ok P.table) {p : Production}
    {cs fs' : List (Tree τ)} {ts : List τ} {context : σ}
    (hlookup : P.table.lookup (top c.states) (P.kind c.lookahead) = some (.reduce n))
    (hp : P.grammar.productions[n]? = some p) (hfs : fs = cs.reverse ++ fs')
    (hroots : cs.map (Tree.root P.kind) = p.rhs)
    (hgoto : P.table.lookup (top (c.states.drop p.rhs.length)) p.lhs = some (.goto s))
    (hhook : P.reduce n c.lookahead c.tokens c.progress.context = (.ok (), ts, context)) :
    P.step c = .running (reduced s p c ts context) ∧
      P.Reading J p₀ (reduced s p c ts context) u (.node p cs :: fs') := by
  have hcount : p.rhs.length = cs.length := by rw [← hroots, List.length_map]
  have hlen : ¬ c.states.length < p.rhs.length + 1 := by
    rw [h.path.length_eq, hfs, hcount]
    simp
  constructor
  · simp [step, hlookup, reduceBy, hhook, hp, gotoAfter, hlen, hgoto, reduced]
  · have hdrop : (fs.map (Tree.root P.kind)).drop p.rhs.length = fs'.map (Tree.root P.kind) := by
      rw [hfs, hcount, List.map_append, List.drop_left' (by simp)]
    have hpath := h.path.drop (k := p.rhs.length) (by rw [hfs, hcount]; simp)
    rw [hdrop] at hpath
    have hmove := ((Table.lookup_goto_iff hbuild).mp hgoto).2
    have hreduce : Drives P.grammar P.table c.states [] (P.kind c.lookahead) [.reduce n]
        (s :: c.states.drop p.rhs.length) := .reduce (u := []) hlookup hp hgoto (.done _ _)
    refine ⟨h.input, ?_, hpath.push hmove, ?_, ?_, ?_, ?_⟩
    · have hne := ((Table.lookup_reduce_iff hbuild).mp hlookup).choose_spec.2.2.1
      exact htracks.reduce hne hp hroots (hfs ▸ h.tracked) hhook
    · intro f hf
      rcases List.mem_cons.mp hf with rfl | hf
      · exact .node (List.mem_of_getElem? hp) hroots fun c hc => h.derivations c (by simp [hfs, hc])
      · exact h.derivations f (by simp [hfs, hf])
    · simpa [hfs] using h.yield
    · have hid := (Grammar.production_of_build hbuild hp).1
      simpa [reduced, hfs, hid] using h.drive.trans hreduce rfl
    · simp only [reduced, Progress.countReduction, h.counts, hfs, List.flatMap_append,
        List.flatMap_cons, Tree.nodes_node, List.length_append, List.length_singleton,
        List.length_flatMap, List.map_reverse, List.sum_reverse, ParseCounts.mk.injEq, true_and]
      omega

omit htracks h in
theorem step_reduce_failed {e : Fault ε} {ts : List τ} {context : σ}
    (hlookup : P.table.lookup (top c.states) (P.kind c.lookahead) = some (.reduce n))
    (hhook : P.reduce n c.lookahead c.tokens c.progress.context = (.error e, ts, context)) :
    P.step c = .finished (.error e) { c.progress with context } := by
  simp [step, hlookup, reduceBy, hhook]

/-! ## Acceptance -/

omit htracks in
/-- Where the table accepts, the last tree is one of the goal, which is awaited below it. -/
theorem Reading.exists_goal_of_accept (hbuild : Table.build P.grammar = .ok P.table)
    (hlookup : P.table.lookup (top c.states) (P.kind c.lookahead) = some .accept) :
    P.kind c.lookahead = P.grammar.endMark ∧ ∃ f fs', fs = f :: fs' ∧
      f.root P.kind = P.grammar.goal ∧ ⟨0, 1⟩ ∈ P.grammar.itemsAt (top (c.states.drop 1)) := by
  have hprod := Grammar.length_pos_of_build hbuild
  obtain ⟨hkind, -, hitem⟩ := (Table.lookup_accept_iff hbuild).mp hlookup
  obtain ⟨q, hq, -, -, hprefix, hinitial⟩ := Grammar.Path.recognised hprod h.path hitem
  obtain rfl := Option.some.inj ((Grammar.start_of_build hbuild).symm.trans hq)
  obtain ⟨α, hα⟩ := hprefix
  obtain ⟨f, fs', rfl, hroot, -⟩ := List.map_eq_cons_iff.mp hα.symm
  exact ⟨hkind, f, fs', rfl, hroot, hinitial⟩

/-- Where the table accepts, the stack stands for one tree of the goal. -/
theorem Reading.step_accept (hbuild : Table.build P.grammar = .ok P.table)
    (hstart : ∀ p ∈ P.grammar.productions, 0 ∉ p.rhs)
    (hlookup : P.table.lookup (top c.states) (P.kind c.lookahead) = some .accept) :
    P.kind c.lookahead = P.grammar.endMark ∧ ∃ f x, fs = [f] ∧ c.tokens = [x] ∧
      f.root P.kind = P.grammar.goal ∧ P.step c = .finished (.ok x) c.progress := by
  have hprod := Grammar.length_pos_of_build hbuild
  obtain ⟨hkind, f, fs', rfl, hroot, hinitial⟩ := h.exists_goal_of_accept hbuild hlookup
  -- Only at the start is the start item predicted by nothing.
  have hnil : fs' = [] := by
    rcases Grammar.Path.predicted hprod (h.path.drop (k := 1) (by simp)) hinitial
        (Grammar.start_of_build hbuild) with ⟨-, hnil⟩ | ⟨b, hb, hnext⟩
    · simpa using hnil
    · obtain ⟨p, hp, hmem⟩ :=
        Grammar.Path.next_mem_rhs hprod (h.path.drop (k := 1) (by simp)) hb hnext
      exact absurd hmem (hstart p hp)
  subst hnil
  obtain ⟨x, hx⟩ : ∃ x, c.tokens = [x] := by
    have hkinds := congrArg List.length (htracks.kinds h.tracked)
    simpa [List.length_eq_one_iff] using hkinds
  refine ⟨hkind, f, x, rfl, hx, hroot, ?_⟩
  simp [step, hlookup, accept, hx]

omit htracks in
/-- Where only the start production uses the goal, a tree of the goal is alone on the stack. -/
theorem Reading.eq_singleton_of_goal (hbuild : Table.build P.grammar = .ok P.table)
    (hstart : ∀ p ∈ P.grammar.productions, 0 ∉ p.rhs)
    (hgoal : ∀ p ∈ P.grammar.productions, p.lhs ≠ 0 → P.grammar.goal ∉ p.rhs)
    (hmem : P.grammar.goal ∈ fs.map (Tree.root P.kind)) : ∃ f, fs = [f] := by
  have hzero := Grammar.start_of_build hbuild
  obtain ⟨γ, hder⟩ := Grammar.Path.exists_derives (Grammar.length_pos_of_build hbuild) h.path hzero
  rcases hder.eq_or_goal_not_mem hzero hstart hgoal with heq | hnot
  · have hlen := congrArg List.length heq
    have hpos := List.length_pos_of_mem hmem
    simp only [List.length_append, List.length_reverse, List.length_singleton, List.length_map]
      at hlen hpos
    exact List.length_eq_one_iff.mp (by omega)
  · exact absurd (List.mem_append_left γ (List.mem_reverse.mpr hmem)) hnot

/-! ## Whole runs -/

/-- A shift that does not end the sentence keeps the invariant. -/
theorem Reading.of_running_shift (hbuild : Table.build P.grammar = .ok P.table)
    (hlookup : P.table.lookup (top c.states) (P.kind c.lookahead) = some (.shift s))
    (hstep : P.step c = .running c') : ∃ fs', P.Reading J p₀ c' (u ++ [c.lookahead]) fs' := by
  rcases running_cases hstep with
      ⟨s', x, rest, hshift, hinput, rfl⟩ | ⟨n, p, s', ts, context, hreduce, -⟩
  · exact ⟨_, (h.step_shift_token htracks hbuild hshift hinput).2⟩
  · cases hlookup.symm.trans hreduce

/-- A reduction that does not end the sentence keeps the invariant. -/
theorem Reading.of_running_reduce (hbuild : Table.build P.grammar = .ok P.table)
    (hlookup : P.table.lookup (top c.states) (P.kind c.lookahead) = some (.reduce n))
    (hstep : P.step c = .running c') : ∃ fs', P.Reading J p₀ c' u fs' := by
  rcases running_cases hstep with
      ⟨s, x, rest, hshift, -⟩ | ⟨m, p, s, ts, context, hreduce, hhook, hp, hgoto, rfl⟩
  · cases hlookup.symm.trans hshift
  · obtain ⟨q, cs, fs', hq, hfs, hroots, -⟩ := h.exists_children hbuild hreduce
    obtain rfl := Option.some.inj (hp.symm.trans hq)
    exact ⟨_, (h.step_reduce htracks hbuild hreduce hp hfs hroots hgoto hhook).2⟩

omit htracks h in
/-- Only shifts and reductions do not end the sentence. -/
theorem lookup_of_running (hstep : P.step c = .running c') :
    (∃ s, P.table.lookup (top c.states) (P.kind c.lookahead) = some (.shift s)) ∨
      ∃ n, P.table.lookup (top c.states) (P.kind c.lookahead) = some (.reduce n) := by
  rcases running_cases hstep with ⟨s, -, -, hlookup, -⟩ | ⟨n, -, -, -, -, hlookup, -⟩
  · exact .inl ⟨s, hlookup⟩
  · exact .inr ⟨n, hlookup⟩

/-- A step that does not end the sentence keeps the invariant. -/
theorem Reading.of_running (hbuild : Table.build P.grammar = .ok P.table)
    (hstep : P.step c = .running c') : ∃ u' fs', P.Reading J p₀ c' u' fs' := by
  rcases lookup_of_running hstep with ⟨s, hlookup⟩ | ⟨n, hlookup⟩
  · obtain ⟨fs', hreading⟩ := h.of_running_shift htracks hbuild hlookup hstep
    exact ⟨_, fs', hreading⟩
  · obtain ⟨fs', hreading⟩ := h.of_running_reduce htracks hbuild hlookup hstep
    exact ⟨u, fs', hreading⟩

/-- The invariant holds of all that comes up. -/
theorem Reading.of_reaches (hbuild : Table.build P.grammar = .ok P.table)
    (hreaches : P.Reaches c c') : ∃ u' fs', P.Reading J p₀ c' u' fs' := by
  induction hreaches with
  | refl => exact ⟨u, fs, h⟩
  | step _ hstep ih =>
      obtain ⟨u', fs', h'⟩ := ih
      exact h'.of_running htracks hbuild hstep

/-- A run with a result has a last configuration, where the invariant holds. -/
theorem Reading.exists_last (hbuild : Table.build P.grammar = .ok P.table)
    (hrun : P.run c = some (result, p)) :
    ∃ c' u' fs', P.Reading J p₀ c' u' fs' ∧ P.step c' = .finished result p := by
  obtain ⟨c', hreaches, hstep⟩ := exists_last_of_run hrun
  obtain ⟨u', fs', h'⟩ := h.of_reaches htracks hbuild hreaches
  exact ⟨c', u', fs', h', hstep⟩

omit htracks h in
/-- Only acceptance ends a sentence with a token. -/
theorem lookup_of_finished_ok (hstep : P.step c = .finished (.ok x) p) :
    P.table.lookup (top c.states) (P.kind c.lookahead) = some .accept := by
  unfold step at hstep
  split at hstep
  · unfold shift at hstep
    split at hstep <;> cases hstep
  · unfold reduceBy at hstep
    split at hstep
    · cases hstep
    · split at hstep
      · cases hstep
      · split at hstep <;> cases hstep
  · assumption
  · cases hstep
  · cases hstep

omit htracks h in
/-- What the hook reports is reported by a reduction. -/
theorem exists_reduce_of_finished_hook {e : ε}
    (hstep : P.step c = .finished (.error (.hook e)) p) :
    ∃ n ts context, P.table.lookup (top c.states) (P.kind c.lookahead) = some (.reduce n) ∧
      P.reduce n c.lookahead c.tokens c.progress.context = (.error (.hook e), ts, context) := by
  unfold step at hstep
  split at hstep
  · unfold shift at hstep
    split at hstep <;> cases hstep
  · rename_i n hlookup
    simp only [reduceBy] at hstep
    split at hstep
    · rename_i e' ts context hhook
      obtain rfl : e' = .hook e := by simpa using (StepResult.finished.inj hstep).1
      exact ⟨n, ts, context, hlookup, hhook⟩
    · split at hstep
      · cases hstep
      · split at hstep <;> cases hstep
  · unfold accept at hstep
    split at hstep <;> cases hstep
  · cases hstep
  · cases hstep

/-- Where no reduction fails, a run follows every drive over the tokens ahead. -/
theorem Reading.run_of_drive (hbuild : Table.build P.grammar = .ok P.table)
    (hsucceeds : ∀ {n : Nat} {p : Production} {x : τ} {ts : List τ} {cs fs : List (Tree τ)}
      {context : σ}, P.grammar.productions[n]? = some p →
      cs.map (Tree.root P.kind) = p.rhs → J ts (cs.reverse ++ fs) context →
      ∃ ts' context', P.reduce n x ts context = (.ok (), ts', context'))
    {w : List Nat} {y : Nat} {ms : List Move} {σ' : List Nat}
    (hdrive : Drives P.grammar P.table c.states w y ms σ') {v more : List τ} {last : τ}
    (hv : v.map P.kind = w) (hlast : P.kind last = y) (hahead : c.lookahead :: more = v ++ [last])
    (hinput : c.progress.input = more.map .token ++ rest) :
    ∃ c' fs', P.run c = P.run c' ∧ P.Reading J p₀ c' (u ++ v) fs' ∧ c'.states = σ' ∧
      c'.lookahead = last ∧ c'.progress.input = rest := by
  generalize hstates : c.states = σ₀ at hdrive
  induction hdrive generalizing c u fs v more with
  | done =>
      obtain rfl : v = [] := List.map_eq_nil_iff.mp hv
      obtain ⟨hla, rfl⟩ : c.lookahead = last ∧ more = [] := by simpa using hahead
      exact ⟨c, fs, rfl, by simpa using h, hstates, hla, by simpa using hinput⟩
  | @shift σ₀ σ' w y X s ms hlookup _ ih =>
      obtain ⟨z, v, rfl, rfl, htail⟩ := List.map_eq_cons_iff.mp hv
      obtain ⟨rfl, hmore⟩ : c.lookahead = z ∧ more = v ++ [last] := by simpa using hahead
      obtain ⟨x, more', rfl⟩ : ∃ x more', more = x :: more' := by
        cases more with
        | nil => simp at hmore
        | cons x more' => exact ⟨x, more', rfl⟩
      obtain ⟨hstep, hreading⟩ := h.step_shift_token htracks hbuild
        (hstates ▸ hlookup) (by simpa using hinput)
      have hahead' : (shifted s c x).lookahead :: more' = v ++ [last] := hmore
      obtain ⟨c', fs', hrun, hreading', hrest⟩ := ih hreading htail hlast hahead'
        (by simp [shifted, Progress.fetch, hinput, Progress.countShift]) (by rw [← hstates]; rfl)
      exact ⟨c', fs', (run_of_running hstep).trans hrun, by simpa using hreading', hrest⟩
  | @reduce σ₀ σ' w y n s p ms hlookup hp hgoto _ ih =>
      have hhead : w.headD y = P.kind c.lookahead := by
        cases v with
        | nil =>
            obtain ⟨hla, -⟩ : c.lookahead = last ∧ more = [] := by simpa using hahead
            simp [← hv, hla, hlast]
        | cons z v =>
            obtain ⟨hla, -⟩ : c.lookahead = z ∧ more = v ++ [last] := by simpa using hahead
            simp [← hv, hla]
      rw [hhead, ← hstates] at hlookup
      obtain ⟨q, cs, fs', hq, hfs, hroots, -⟩ := h.exists_children hbuild hlookup
      obtain rfl := Option.some.inj (hp.symm.trans hq)
      obtain ⟨ts, context, hhook⟩ := hsucceeds (x := c.lookahead) hp hroots (hfs ▸ h.tracked)
      obtain ⟨hstep, hreading⟩ :=
        h.step_reduce htracks hbuild hlookup hp hfs hroots (hstates ▸ hgoto) hhook
      obtain ⟨c', fs'', hrun, hrest⟩ := ih hreading hv hlast hahead hinput (by rw [← hstates]; rfl)
      exact ⟨c', fs'', (run_of_running hstep).trans hrun, hrest⟩

/-! ## Sentences -/

omit h in
/-- A sentence with a value was read to an end mark, and its value stands for one tree of the goal.
-/
theorem exists_reading_of_next_ok (hbuild : Table.build P.grammar = .ok P.table)
    (hstart : ∀ p ∈ P.grammar.productions, 0 ∉ p.rhs) (hJ : J [] [] p₀.context)
    (hnext : P.next p₀ = (.ok (some x), p)) :
    ∃ c u f, P.Reading J p₀ c u [f] ∧ c.tokens = [x] ∧ c.progress = p ∧
      P.kind c.lookahead = P.grammar.endMark ∧ f.root P.kind = P.grammar.goal := by
  obtain ⟨y, rest, hinput⟩ : ∃ y rest, p₀.input = .token y :: rest := by
    match hinput : p₀.input with
    | [] => simp [next, Progress.fetch, hinput] at hnext
    | .nothing :: _ => simp [next, Progress.fetch, hinput] at hnext
    | .failed e :: _ => simp [next, Progress.fetch, hinput] at hnext
    | .token y :: rest => exact ⟨y, rest, rfl⟩
  have hrun : P.run (initial y p₀.fetch.2) = some (.ok x, p) := by
    simp only [next, Progress.fetch, hinput] at hnext ⊢
    split at hnext
    · rename_i result p' hrun
      cases result with
      | error e => simp [Except.map] at hnext
      | ok x' =>
          obtain ⟨rfl, rfl⟩ : x' = x ∧ p' = p := by simpa [Except.map] using hnext
          exact hrun
    · simp at hnext
  obtain ⟨c, u, fs, hreading, hstep⟩ :=
    (reading_initial hJ hinput).exists_last htracks hbuild hrun
  obtain ⟨hkind, f, x', rfl, htokens, hroot, hstep'⟩ :=
    hreading.step_accept htracks hbuild hstart (lookup_of_finished_ok hstep)
  obtain ⟨rfl, rfl⟩ : x = x' ∧ p = c.progress := by
    rw [hstep] at hstep'
    simpa using hstep'
  exact ⟨c, u, f, hreading, htokens, rfl, hkind, hroot⟩

omit h htracks in
/-- The value of a sentence is what the run from its first token gives. -/
theorem next_of_run (hfetch : p₀.input = .token x :: rest)
    (hrun : P.run (initial x p₀.fetch.2) = some (result, p)) :
    P.next p₀ = (result.map some, p) := by
  simp only [Progress.fetch, hfetch] at hrun
  simp [next, Progress.fetch, hfetch, hrun]

omit h htracks in
/-- A sentence whose run has no result is an endless one. -/
theorem next_of_run_eq_none (hfetch : p₀.input = .token x :: rest)
    (hrun : P.run (initial x p₀.fetch.2) = none) :
    P.next p₀ = (.error (.table .endless), p₀.fetch.2) := by
  simp only [Progress.fetch, hfetch] at hrun ⊢
  simp [next, Progress.fetch, hfetch, hrun]

end Parser
end Argand
