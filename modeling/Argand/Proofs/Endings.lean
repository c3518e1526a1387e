-- SUMMARY: Where the reading of a sentence ends: errors name the first wrong token, acceptance comes after a sentence.
import Argand.Proofs.Stacks
import Argand.Proofs.Viable

/-!
# Where a sentence ends

A run ends on a token for which the table has no act, or where the table accepts. The first kind of
end comes as early as it can: the token named is the first with which the input no longer begins a
sentence, however many reductions were made on it (`error_is_earliest`). At the second kind what was
shifted ends with a sentence, and it is one if the start symbol does not occur again
(`accepts_after_sentence`); otherwise a part of the input can be taken for the whole
(`accepts_part_of_startInRhs`).
-/
open Argand.Parser (top)

namespace Argand

/-! ## Brackets -/

namespace Grammar

/-- Brackets come in pairs. -/
theorem Derives.count_startInRhs {u v : List Nat} (h : Gallery.startInRhs.Derives u v)
    (hu : u.count 2 = u.count 3) : v.count 2 = v.count 3 := by
  have hpairs : ∀ p ∈ Gallery.startInRhs.productions,
      p.rhs.count 2 = p.rhs.count 3 ∧ p.lhs ≠ 2 ∧ p.lhs ≠ 3 := by
    decide +kernel
  induction h with
  | refl => exact hu
  | step _ hstep ih =>
      obtain @⟨p, x, y, hp⟩ := hstep
      obtain ⟨hrhs, hopen, hclose⟩ := hpairs p hp
      have hbefore : x.count 2 + y.count 2 = x.count 3 + y.count 3 := by
        simpa [List.count_cons, hopen, hclose] using ih
      simp only [List.count_append, hrhs]
      omega

end Grammar

namespace Parser

variable {τ σ ε : Type} {P : Parser τ σ ε} {c c' : Config τ σ} {p₀ p : Progress τ σ}
  {u : List τ} {x : τ} {rest : List (Delivery τ)} {result : Except (Fault ε) τ}

/-! ## What was shifted on the way -/

/-- The configurations that come up from `c` on, each with the tokens shifted until then. -/
inductive ReachesOver (P : Parser τ σ ε) (c : Config τ σ) : List τ → Config τ σ → Prop where
  | refl : ReachesOver P c [] c
  | shift {u : List τ} {c' c'' : Config τ σ} {s : Nat} : ReachesOver P c u c' →
      P.table.lookup (top c'.states) (P.kind c'.lookahead) = some (.shift s) →
      P.step c' = .running c'' → ReachesOver P c (u ++ [c'.lookahead]) c''
  | reduce {u : List τ} {c' c'' : Config τ σ} {n : Nat} : ReachesOver P c u c' →
      P.table.lookup (top c'.states) (P.kind c'.lookahead) = some (.reduce n) →
      P.step c' = .running c'' → ReachesOver P c u c''

/-- What comes up is what comes up with some tokens shifted. -/
theorem reaches_iff_exists_over : P.Reaches c c' ↔ ∃ u, P.ReachesOver c u c' := by
  constructor
  · intro h
    induction h with
    | refl => exact ⟨[], .refl⟩
    | step _ hstep ih =>
        obtain ⟨u, hu⟩ := ih
        rcases lookup_of_running hstep with ⟨s, hlookup⟩ | ⟨n, hlookup⟩
        · exact ⟨_, hu.shift hlookup hstep⟩
        · exact ⟨u, hu.reduce hlookup hstep⟩
  · rintro ⟨u, h⟩
    induction h with
    | refl => exact .refl c
    | shift _ _ hstep ih => exact ih.step hstep
    | reduce _ _ hstep ih => exact ih.step hstep

/-- A sentence has the value that the last step of its run gives. -/
theorem ReachesOver.next_eq (hinput : p₀.input = .token x :: rest)
    (h : P.ReachesOver (initial x p₀.fetch.2) u c) (hstep : P.step c = .finished result p) :
    P.next p₀ = (result.map some, p) :=
  next_of_run hinput ((reaches_iff_exists_over.mpr ⟨u, h⟩).run_eq.trans (run_of_finished hstep))

section

variable (hbuild : Table.build P.grammar = .ok P.table) (hkeeps : P.KeepsProductions)
include hbuild hkeeps

/-- The trees that the tokens stand for have the tokens shifted as their leaves. -/
theorem ReachesOver.exists_reading (hinput : p₀.input = .token x :: rest)
    (h : P.ReachesOver (initial x p₀.fetch.2) u c) : ∃ fs, P.Reading P.SameKinds p₀ c u fs := by
  induction h with
  | refl => exact ⟨[], reading_initial rfl hinput⟩
  | shift _ hlookup hstep ih =>
      obtain ⟨fs, hreading⟩ := ih
      exact hreading.of_running_shift hkeeps.tracks hbuild hlookup hstep
  | reduce _ hlookup hstep ih =>
      obtain ⟨fs, hreading⟩ := ih
      exact hreading.of_running_reduce hkeeps.tracks hbuild hlookup hstep

/-! ## Errors -/

/-- A token for which the table has no act is named as the unexpected one. No sentence followed by
the end mark begins with the tokens shifted and this one, and if all nonterminals derive strings of
terminals some sentence does begin with the tokens shifted. -/
theorem error_is_earliest (hend : P.grammar.endMark ∈ P.grammar.terminalSymbols)
    (hstart : ∀ p ∈ P.grammar.productions, 0 ∉ p.rhs)
    (hterm : ∀ x, .token x ∈ p₀.input → P.kind x ∈ P.grammar.terminalSymbols)
    (hinput : p₀.input = .token x :: rest) (hreaches : P.ReachesOver (initial x p₀.fetch.2) u c)
    (hnone : P.table.lookup (top c.states) (P.kind c.lookahead) = none) :
    p₀.input = (u ++ [c.lookahead]).map .token ++ c.progress.input ∧
    P.next p₀ = (.error (P.syntaxError c.lookahead), c.progress) ∧
    ¬ P.grammar.IsViable ((u ++ [c.lookahead]).map P.kind) ∧
    ((∀ p ∈ P.grammar.productions, ∀ X ∈ p.rhs, X ∈ P.grammar.symbols) →
      (∀ A < P.grammar.nonterminals,
        ∃ w, P.grammar.Derives [A] w ∧ ∀ X ∈ w, X ∈ P.grammar.terminalSymbols) →
      ∃ w, P.grammar.IsSentence (u.map P.kind ++ w)) := by
  obtain ⟨fs, hreading⟩ := hreaches.exists_reading hbuild hkeeps hinput
  refine ⟨hreading.input, hreaches.next_eq hinput (step_error hnone), fun hviable => ?_,
    fun hsymbols hproductive => ?_⟩
  · -- On a viable token there would be an act.
    rcases hreading.exists_act_of_isViable hbuild hend hstart hviable with
        ⟨s, hact⟩ | ⟨n, hact⟩ | hact
    all_goals cases hnone.symm.trans hact
  · refine hreading.exists_sentence hbuild
      (Grammar.isProductive_of_nonterminals hsymbols hproductive) fun y hy => hterm y (by
        simp [hreading.input, hy])

omit hbuild hkeeps in
/-- An atom that is closed without having been opened: two reductions are made on the wrong token
before it is named. -/
theorem error_is_earliest_close :
    ∃ table, Table.build Gallery.list = .ok table ∧
      let P := Gallery.drillParser Gallery.list table ⟨none, 0, 0, false⟩
      let p₀ : Progress Gallery.Node (List Gallery.DrillEntry) := .start
        [.token ⟨5, "", none⟩, .token ⟨4, "", some ⟨1, 2⟩⟩, .token ⟨6, "", none⟩] []
      ∃ p, P.next p₀ = (.error (.syntactic ⟨"close", some ⟨1, 2⟩⟩), p) ∧
        p.counts = ⟨2, 1, 3⟩ ∧ ¬ Gallery.list.IsViable [5, 4] ∧
        ∃ w, Gallery.list.IsSentence (5 :: w) := by
  have hbuild : Table.build Gallery.list = .ok ⟨
    [[none, some (.goto 1), none, some (.reduce 1), some (.reduce 1), some (.reduce 1),
        some (.reduce 1)],
      [none, none, some (.goto 2), some (.shift 3), none, some (.shift 4), some .accept],
      [none, none, none, some (.reduce 2), some (.reduce 2), some (.reduce 2), some (.reduce 2)],
      [none, some (.goto 5), none, some (.reduce 1), some (.reduce 1), some (.reduce 1),
        some (.reduce 1)],
      [none, none, none, some (.reduce 3), some (.reduce 3), some (.reduce 3), some (.reduce 3)],
      [none, none, some (.goto 2), some (.shift 3), some (.shift 6), some (.shift 4), none],
      [none, none, none, some (.reduce 4), some (.reduce 4), some (.reduce 4), some (.reduce 4)]]⟩ :=
    Table.build_of_rows (by decide +kernel)
  refine ⟨_, hbuild, ?_⟩
  intro P p₀
  have hkeeps : P.KeepsProductions := keepsProductions_drill _ _ rfl
  have hterm : ∀ x, .token x ∈ p₀.input → P.kind x ∈ Gallery.list.terminalSymbols :=
    terminals_drill _ _ [⟨5, "", none⟩, ⟨4, "", some ⟨1, 2⟩⟩, ⟨6, "", none⟩] (by decide +kernel) []
  obtain ⟨c, hreaches, hstates, hlookahead, hcounts⟩ : ∃ c,
      P.ReachesOver (initial ⟨5, "", none⟩ p₀.fetch.2) [⟨5, "", none⟩] c ∧ c.states = [1, 0] ∧
      c.lookahead = ⟨4, "", some ⟨1, 2⟩⟩ ∧ c.progress.counts = ⟨2, 1, 3⟩ := by
    have hempty := ReachesOver.refl (P := P) (c := initial ⟨5, "", none⟩ p₀.fetch.2)
    have hbegun := hempty.reduce (n := 1) rfl rfl
    have hatom := hbegun.shift (s := 4) rfl rfl
    have hitem := hatom.reduce (n := 3) rfl rfl
    have hlist := hitem.reduce (n := 2) rfl rfl
    exact ⟨_, hlist, rfl, rfl, rfl⟩
  have hnone : P.table.lookup (top c.states) (P.kind c.lookahead) = none := by
    rw [hstates, hlookahead]
    rfl
  obtain ⟨-, hnext, hviable, hprefix⟩ := error_is_earliest hbuild hkeeps (by decide +kernel)
    (by decide +kernel) hterm rfl hreaches hnone
  rw [hlookahead] at hnext hviable
  exact ⟨c.progress, hnext, hcounts, hviable, hprefix (by decide +kernel)
    Grammar.exists_terminals_list⟩

/-! ## Acceptance -/

/-- Where the table accepts, a token of the goal is on top of the stack and the tokens shifted end
with a sentence for it; the tokens below stand for the rest. If the start symbol is in no right-hand
side, the token is alone, and what was shifted is a sentence. -/
theorem accepts_after_sentence
    (hterm : ∀ x, .token x ∈ p₀.input → P.kind x ∈ P.grammar.terminalSymbols)
    (hinput : p₀.input = .token x :: rest) (hreaches : P.ReachesOver (initial x p₀.fetch.2) u c)
    (haccept : P.table.lookup (top c.states) (P.kind c.lookahead) = some .accept) :
    p₀.input = (u ++ [c.lookahead]).map .token ++ c.progress.input ∧
    P.kind c.lookahead = P.grammar.endMark ∧
    ∃ (y : τ) (ts v w : List τ), c.tokens = y :: ts ∧ P.kind y = P.grammar.goal ∧ u = v ++ w ∧
      P.grammar.IsSentence (w.map P.kind) ∧
      P.grammar.Derives (ts.reverse.map P.kind) (v.map P.kind) ∧
      P.next p₀ = (.ok (some y), c.progress) ∧
      ((∀ p ∈ P.grammar.productions, 0 ∉ p.rhs) → ts = [] ∧ v = []) := by
  obtain ⟨fs, hreading⟩ := hreaches.exists_reading hbuild hkeeps hinput
  obtain ⟨hkind, f, fs', rfl, hroot, -⟩ := hreading.exists_goal_of_accept hbuild haccept
  obtain ⟨y, ts, htokens, hy, hts⟩ :
      ∃ y ts, c.tokens = y :: ts ∧ P.kind y = f.root P.kind ∧
        ts.map P.kind = fs'.map (Tree.root P.kind) :=
    List.map_eq_cons_iff.mp (by simpa [SameKinds] using hreading.tracked)
  have hstep : P.step c = .finished (.ok y) c.progress := by
    simp [step, haccept, accept, htokens]
  have hyield : u = fs'.reverse.flatMap Tree.yield ++ f.yield := by
    simpa using hreading.yield.symm
  have hbelow := Tree.derives_forest fun f' (hf' : f' ∈ fs'.reverse) =>
    (hreading.derivations f' (List.mem_cons_of_mem _ (List.mem_reverse.mp hf'))).derives
  refine ⟨hreading.input, hkind, y, ts, fs'.reverse.flatMap Tree.yield, f.yield, htokens,
    hy.trans hroot, hyield, ⟨?_, ?_⟩, ?_, hreaches.next_eq hinput hstep, fun hstart => ?_⟩
  · exact hroot ▸ (hreading.derivations f List.mem_cons_self).derives
  · refine List.forall_mem_map.mpr fun z hz => hterm z ?_
    simp [hreading.input, hyield, hz]
  · rwa [List.map_reverse, ← hts, ← List.map_reverse] at hbelow
  · obtain ⟨-, f', x', hfs, htokens', -⟩ :=
      hreading.step_accept hkeeps.tracks hbuild hstart haccept
    obtain ⟨-, rfl⟩ := List.cons.inj (htokens.symm.trans htokens')
    obtain ⟨-, rfl⟩ := List.cons.inj hfs
    exact ⟨rfl, rfl⟩

omit hbuild hkeeps in
/-- A single number is a sum. -/
theorem accepts_after_sentence_number :
    ∃ table, Table.build Gallery.sum = .ok table ∧
      let P := Gallery.drillParser Gallery.sum table ⟨none, 0, 0, false⟩
      let p₀ : Progress Gallery.Node (List Gallery.DrillEntry) := .start
        [.token ⟨3, "", none⟩, .token ⟨4, "", none⟩] []
      ∃ y p, P.next p₀ = (.ok (some y), p) ∧ y.symbol = 1 ∧ Gallery.sum.IsSentence [3] := by
  have hbuild : Table.build Gallery.sum = .ok ⟨
    [[none, some (.goto 1), none, some (.shift 2), none],
      [none, none, some (.shift 3), none, some .accept],
      [none, none, some (.reduce 2), none, some (.reduce 2)],
      [none, none, none, some (.shift 4), none],
      [none, none, some (.reduce 1), none, some (.reduce 1)]]⟩ :=
    Table.build_of_rows (by decide +kernel)
  refine ⟨_, hbuild, ?_⟩
  intro P p₀
  have hkeeps : P.KeepsProductions := keepsProductions_drill _ _ rfl
  have hterm : ∀ x, .token x ∈ p₀.input → P.kind x ∈ Gallery.sum.terminalSymbols :=
    terminals_drill _ _ [⟨3, "", none⟩, ⟨4, "", none⟩] (by decide +kernel) []
  have hbegun := ReachesOver.refl (P := P) (c := initial ⟨3, "", none⟩ p₀.fetch.2)
  have hnumber := hbegun.shift (s := 2) rfl rfl
  have hsum := hnumber.reduce (n := 2) rfl rfl
  obtain ⟨-, -, y, ts, v, w, -, hy, hsplit, hsentence, -, hnext, halone⟩ :=
    accepts_after_sentence hbuild hkeeps hterm rfl hsum rfl
  obtain ⟨rfl, rfl⟩ := halone (by decide +kernel)
  obtain rfl : [⟨3, "", none⟩] = w := hsplit
  exact ⟨y, _, hnext, hy, hsentence⟩

omit hbuild hkeeps in
/-- A bracket that is not closed: behind the end mark of the part inside it the table accepts, with
the bracket still on the stack. What was shifted is no sentence. -/
theorem accepts_part_of_startInRhs :
    ∃ table, Table.build Gallery.startInRhs = .ok table ∧
      let P := Gallery.drillParser Gallery.startInRhs table ⟨none, 0, 0, false⟩
      let p₀ : Progress Gallery.Node (List Gallery.DrillEntry) := .start
        [.token ⟨2, "", none⟩, .token ⟨4, "", none⟩, .token ⟨5, "", none⟩] []
      P.KeepsProductions ∧
      (∀ x, .token x ∈ p₀.input → P.kind x ∈ Gallery.startInRhs.terminalSymbols) ∧
      ∃ u c, P.ReachesOver (initial ⟨2, "", none⟩ p₀.fetch.2) u c ∧
        P.table.lookup (top c.states) (P.kind c.lookahead) = some .accept ∧
        c.tokens.map P.kind = [1, 2] ∧
        ¬ Gallery.startInRhs.Derives [Gallery.startInRhs.goal] (u.map P.kind) := by
  have hbuild : Table.build Gallery.startInRhs = .ok ⟨
    [[none, some (.goto 1), some (.shift 2), none, some (.shift 3), none],
      [none, none, none, none, none, some .accept],
      [some (.goto 4), some (.goto 1), some (.shift 2), none, some (.shift 3), none],
      [none, none, none, some (.reduce 2), none, some (.reduce 2)],
      [none, none, none, some (.shift 5), none, none],
      [none, none, none, some (.reduce 1), none, some (.reduce 1)]]⟩ :=
    Table.build_of_rows (by decide +kernel)
  refine ⟨_, hbuild, ?_⟩
  intro P p₀
  refine ⟨keepsProductions_drill _ _ rfl, ?_, ?_⟩
  · exact terminals_drill _ _ [⟨2, "", none⟩, ⟨4, "", none⟩, ⟨5, "", none⟩] (by decide +kernel) []
  · have hbegun := ReachesOver.refl (P := P) (c := initial ⟨2, "", none⟩ p₀.fetch.2)
    have hopened := hbegun.shift (s := 2) rfl rfl
    have hinside := hopened.shift (s := 3) rfl rfl
    have hpart := hinside.reduce (n := 2) rfl rfl
    refine ⟨_, _, hpart, rfl, rfl, fun hder => ?_⟩
    have hcount := hder.count_startInRhs rfl
    cases hcount

end

end Parser
end Argand
