-- SUMMARY: Each call takes a run of deliveries and goes on like a fresh parser on what is left.
import Argand.Proofs.Endings

/-!
# Calls one after the other

A call begins with empty stacks, so all it knows of earlier calls is the input that they left, the
context, and the counts, which nothing looks at. It therefore does what a fresh parser does
(`next_after`). What it takes from the input is a run of deliveries: the tokens shifted and the one
ahead, and behind them an error if one came where a token was to be shifted (`exists_takes`).
-/
open Argand.Parser (top)

namespace Argand

variable {τ σ ε : Type}

/-! ## Work done before -/

/-- The counts of some work and of further work. -/
def ParseCounts.add (k k' : ParseCounts) : ParseCounts :=
  ⟨k.tokens + k'.tokens, k.shifts + k'.shifts, k.reductions + k'.reductions⟩

/-- The same progress after work with the counts `k`. -/
def Progress.after (k : ParseCounts) (p : Progress τ σ) : Progress τ σ :=
  { p with counts := k.add p.counts }

/-- The same configuration after work with the counts `k`. -/
def Config.after (k : ParseCounts) (c : Config τ σ) : Config τ σ :=
  { c with progress := c.progress.after k }

/-- The same result of a step after work with the counts `k`. -/
def StepResult.after (k : ParseCounts) : StepResult τ σ ε → StepResult τ σ ε
  | .running c => .running (c.after k)
  | .finished result p => .finished result (p.after k)

namespace Progress

variable (k : ParseCounts) (p : Progress τ σ)

@[simp] theorem input_after : (p.after k).input = p.input := rfl

@[simp] theorem context_after : (p.after k).context = p.context := rfl

theorem fetch_after : (p.after k).fetch = (p.fetch.1, p.fetch.2.after k) := by
  rcases hinput : p.input with _ | ⟨x | _ | e, rest⟩ <;> simp [fetch, hinput] <;> rfl

/-- Any progress is that of a fresh parser after the work so far. -/
theorem eq_after_start : p = (start p.input p.context).after p.counts := rfl

end Progress

namespace Parser

variable {P : Parser τ σ ε} {c c' : Config τ σ} {p₀ p : Progress τ σ} {k : ParseCounts}
  {result : Except (Fault ε) τ} {u : List τ} {x : τ} {rest : List (Delivery τ)}

/-! ## Calls after calls -/

theorem shift_after (P : Parser τ σ ε) (k : ParseCounts) (s : Nat) (c : Config τ σ) :
    P.shift s (c.after k) = (P.shift s c).after k := by
  rcases hinput : c.progress.input with _ | ⟨x | _ | e, rest⟩ <;>
    simp [shift, Config.after, Progress.fetch, hinput, StepResult.after] <;> rfl

theorem reduceBy_after (P : Parser τ σ ε) (k : ParseCounts) (n : Nat) (c : Config τ σ) :
    P.reduceBy n (c.after k) = (P.reduceBy n c).after k := by
  simp only [reduceBy, Config.after, Progress.context_after]
  rcases P.reduce n c.lookahead c.tokens c.progress.context with ⟨e | _, ts, context⟩
  · rfl
  · rcases P.grammar.productions[n]? with _ | q
    · rfl
    · rcases hgoto : P.gotoAfter q c.states with e | states <;>
        simp only [hgoto] <;> rfl

theorem accept_after (k : ParseCounts) (c : Config τ σ) :
    (accept (c.after k) : StepResult τ σ ε) = (accept c).after k := by
  rcases htokens : c.tokens with _ | ⟨t, ts⟩ <;> simp only [accept, Config.after, htokens] <;> rfl

/-- A step does not look at the counts. -/
theorem step_after (P : Parser τ σ ε) (k : ParseCounts) (c : Config τ σ) :
    P.step (c.after k) = (P.step c).after k := by
  have hlookup : P.table.lookup (top (c.after k).states) (P.kind (c.after k).lookahead) =
      P.table.lookup (top c.states) (P.kind c.lookahead) := rfl
  unfold step
  rw [hlookup]
  split
  · exact P.shift_after k _ c
  · exact P.reduceBy_after k _ c
  · exact accept_after k c
  · rfl
  · rfl

theorem Reaches.after (h : P.Reaches c c') : P.Reaches (c.after k) (c'.after k) := by
  induction h with
  | refl => exact .refl _
  | step _ hstep ih => exact ih.step (by rw [step_after, hstep, StepResult.after])

/-- What comes up after earlier work comes up without it. -/
theorem Reaches.exists_of_after {d : Config τ σ} (h : P.Reaches (c.after k) d) :
    ∃ c', d = c'.after k ∧ P.Reaches c c' := by
  induction h with
  | refl => exact ⟨c, rfl, .refl c⟩
  | step _ hstep ih =>
      obtain ⟨c', rfl, hreaches⟩ := ih
      rw [step_after] at hstep
      cases hnext : P.step c' with
      | finished result p =>
          rw [hnext] at hstep
          cases hstep
      | running c'' =>
          rw [hnext] at hstep
          exact ⟨c'', (StepResult.running.inj hstep).symm, hreaches.step hnext⟩

theorem run_after (P : Parser τ σ ε) (k : ParseCounts) (c : Config τ σ) :
    P.run (c.after k) = (P.run c).map fun r => (r.1, r.2.after k) := by
  cases hrun : P.run c with
  | some r =>
      obtain ⟨c', hreaches, hstep⟩ := exists_last_of_run hrun
      exact hreaches.after.run_eq.trans (run_of_finished (by rw [step_after, hstep, StepResult.after]))
  | none =>
      cases hafter : P.run (c.after k) with
      | none => rfl
      | some r =>
          -- A run that ends after earlier work would end without it.
          obtain ⟨d, hreaches, hstep⟩ := exists_last_of_run hafter
          obtain ⟨c', rfl, hreaches'⟩ := hreaches.exists_of_after
          rw [step_after] at hstep
          cases hnext : P.step c' with
          | running c'' =>
              rw [hnext] at hstep
              cases hstep
          | finished result p => cases hrun.symm.trans (hreaches'.run_eq.trans (run_of_finished hnext))

/-- A call gives what it gives to a fresh parser with the same input and context, and leaves the
same input and context behind. -/
theorem next_after (P : Parser τ σ ε) (k : ParseCounts) (p : Progress τ σ) :
    P.next (p.after k) = ((P.next p).1, (P.next p).2.after k) := by
  rcases hinput : p.input with _ | ⟨x | _ | e, rest⟩
  · simp [next, Progress.fetch, hinput]
  · have hinput' : (p.after k).input = .token x :: rest := hinput
    have hinitial : initial x (p.after k).fetch.2 = (initial x p.fetch.2).after k := by
      rw [Progress.fetch_after]
      rfl
    cases hrun : P.run (initial x p.fetch.2) with
    | none =>
        rw [next_of_run_eq_none hinput hrun, next_of_run_eq_none hinput' (by
          rw [hinitial, run_after, hrun]; rfl), Progress.fetch_after]
    | some r =>
        rw [next_of_run hinput hrun, next_of_run hinput' (by
          rw [hinitial, run_after, hrun]; rfl)]
  · simp [next, Progress.fetch, hinput]
    rfl
  · simp [next, Progress.fetch, hinput]
    rfl

/-! ## What a call takes -/

/-- What a call takes, over how many shifts, and its result. It takes nothing where nothing is left,
or an error that comes first, or the tokens shifted and the one ahead, and behind these an error that
came where the last one was to be shifted. -/
inductive Takes : List (Delivery τ) → Nat → Except (Fault ε) (Option τ) → Prop where
  | nothing : Takes [] 0 (.ok none)
  | failed (e : LexError) : Takes [.failed e] 0 (.error (.lexical e))
  | sentence (u : List τ) (x : τ) (result : Except (Fault ε) τ) :
      Takes ((u ++ [x]).map .token) u.length (result.map some)
  | cutOff (u : List τ) (x : τ) (e : LexError) :
      Takes ((u ++ [x]).map .token ++ [.failed e]) u.length (.error (.lexical e))

/-- Only where nothing is left is nothing taken, and nothing comes of it. -/
theorem Takes.eq_nil_iff {taken : List (Delivery τ)} {n : Nat} {r : Except (Fault ε) (Option τ)}
    (h : Takes taken n r) : taken = [] ↔ r = .ok none := by
  cases h with
  | nothing => simp
  | failed e => simp
  | sentence u x result => cases result <;> simp [Except.map]
  | cutOff u x e => simp

/-- The tokens shifted and the one ahead were the next ones of the input. -/
theorem ReachesOver.input_eq (h : P.ReachesOver c u c') :
    .token c.lookahead :: c.progress.input =
        (u ++ [c'.lookahead]).map .token ++ c'.progress.input ∧
      c'.progress.counts.shifts = c.progress.counts.shifts + u.length := by
  induction h with
  | refl => exact ⟨rfl, rfl⟩
  | shift _ hlookup hstep ih =>
      rcases running_cases hstep with
          ⟨s, x, rest, -, hinput, rfl⟩ | ⟨n, p, s, ts, context, hreduce, -⟩
      · obtain ⟨hsplit, hshifts⟩ := ih
        constructor
        · rw [hsplit]
          simp [shifted, Progress.fetch, hinput, Progress.countShift]
        · simp only [shifted, Progress.fetch, hinput, Progress.countShift, hshifts,
            List.length_append, List.length_singleton]
          omega
      · cases hlookup.symm.trans hreduce
  | reduce _ hlookup hstep ih =>
      rcases running_cases hstep with
          ⟨s, x, rest, hshift, -⟩ | ⟨n, p, s, ts, context, -, -, -, -, rfl⟩
      · cases hlookup.symm.trans hshift
      · exact ih

/-- A call takes the next deliveries of the input, and its shifts are counted. -/
theorem exists_takes (P : Parser τ σ ε) (hnothing : Delivery.nothing ∉ p₀.input) :
    ∃ taken n, p₀.input = taken ++ (P.next p₀).2.input ∧ Takes taken n (P.next p₀).1 ∧
      (P.next p₀).2.counts.shifts = p₀.counts.shifts + n := by
  rcases hinput : p₀.input with _ | ⟨x | _ | e, rest⟩
  · exact ⟨[], 0, by simp [next, Progress.fetch, hinput], by
      simpa [next, Progress.fetch, hinput] using Takes.nothing, by
      simp [next, Progress.fetch, hinput]⟩
  · rcases hrun : P.run (initial x p₀.fetch.2) with _ | ⟨result, p⟩
    · rw [next_of_run_eq_none hinput hrun]
      exact ⟨[.token x], 0, by simp [Progress.fetch, hinput],
        .sentence [] x (.error (.table .endless)), by simp [Progress.fetch, hinput]⟩
    · rw [next_of_run hinput hrun]
      obtain ⟨c, hreaches, hstep⟩ := exists_last_of_run hrun
      obtain ⟨u, hover⟩ := reaches_iff_exists_over.mp hreaches
      obtain ⟨hsplit, hshifts⟩ := hover.input_eq
      simp only [initial, Progress.fetch, hinput] at hsplit hshifts
      have hsentence : p.input = c.progress.input →
          p.counts.shifts = c.progress.counts.shifts →
          ∃ taken n, .token x :: rest = taken ++ p.input ∧
            Takes taken n (result.map some) ∧ p.counts.shifts = p₀.counts.shifts + n :=
        fun hrest hcounts => ⟨_, _, by rw [hrest, hsplit], .sentence u c.lookahead result,
          by rw [hcounts, hshifts]⟩
      rcases finished_cases hstep with
          ⟨s, e, rest', -, hfailed, rfl, rfl⟩ | ⟨s, -, hfetch, -⟩ |
            ⟨m, r, ts, context, -, -, rfl⟩ | rfl
      · exact ⟨_, _, by rw [hsplit, hfailed]; simp, .cutOff u c.lookahead e, hshifts⟩
      · -- Where nothing came, nothing was left.
        rcases hleft : c.progress.input with _ | ⟨y | _ | e, rest'⟩ <;>
          simp only [Progress.fetch, hleft, Prod.mk.injEq, reduceCtorEq, true_and, false_and]
            at hfetch
        · exact hsentence (by rw [← hfetch]) (by rw [← hfetch])
        · refine absurd ?_ hnothing
          rw [hinput, hsplit, hleft]
          simp
      · exact hsentence rfl rfl
      · exact hsentence rfl rfl
  · simp [hinput] at hnothing
  · exact ⟨[.failed e], 0, by simp [next, Progress.fetch, hinput], by
      simpa [next, Progress.fetch, hinput] using Takes.failed e, by
      simp [next, Progress.fetch, hinput]⟩

end Parser
end Argand
