-- SUMMARY: The error of a line is the first fault that a scan from left to right comes to.
import Argand.Proofs.Calc.Line

/-!
# The first fault

Three things can be wrong with a line, and they are found in the order of its tokens: the lexer
fails, a name without value turns out to be an operand, or a token cannot go on a sentence.
`firstFault` looks for them from left to right. A run of the parser comes to the same fault, with
the bindings as they were, or it accepts the whole line (`run_cases`).
-/
open Argand.Parser (top)

namespace Argand.Calc

open Grammar

/-! ## Faults -/

/-- Where a token begins. -/
def Token.offset (t : Token) : Nat :=
  (t.span.map Span.start).getD 0

/-- The symbols that tokens stand for, as the grammar numbers them. -/
def symbolsOf (ts : List Token) : List Nat :=
  ts.map fun t => t.kind.index

/-- The name of an identifier that has no value. -/
def unboundName? (env : Bindings) (t : Token) : Option String :=
  if t.kind = .ident then t.name?.filter fun s => (env.get? s).isNone else none

/-- The name right before the token, if it has no value and the token makes it an operand. -/
def unboundBefore? (env : Bindings) (read : List Token) (t : Token) : Option String :=
  if followsOperand t.kind then read.getLast?.bind (unboundName? env) else none

open Classical in
/-- The first fault among the deliveries to come, after the tokens read. With each token the name
before it is looked at first, then the token itself. -/
noncomputable def firstFault (env : Bindings) (read : List Token) :
    List (Delivery Token) → Option Error
  | [] => none
  | .nothing :: _ => none
  | .failed e :: _ => some (.lexical e)
  | .token t :: rest =>
    match unboundBefore? env read t with
    | some s => some (.semantic (.unbound s))
    | none =>
      if grammar.IsViable (symbolsOf (read ++ [t])) then firstFault env (read ++ [t]) rest
      else some (.syntactic t.kind.label t.offset)

theorem unboundName?_eq_some_iff {env : Bindings} {t : Token} {s : String} :
    unboundName? env t = some s ↔ IsUnbound env t s := by
  simp [unboundName?, IsUnbound, Option.filter_eq_some_iff]

theorem label_grammar (X : Symbol) : grammar.label X.index = X.label := by
  cases X <;> rfl

/-! ## Acts on a token -/

section

variable {table : Table} {env₀ : Bindings} {p₀ : Progress Token Bindings}
  {c : Config Token Bindings} {u : List Token} {fs : List (Tree Token)}
  (hbuild : Table.build grammar = .ok table)
  (h : (parser table).Reading (Tracked env₀) p₀ c u fs)
include hbuild h

theorem not_shift_finish {s : Nat} (hend : c.lookahead.kind = .finish) :
    table.lookup (top c.states) c.lookahead.kind.index ≠ some (.shift s) := by
  intro hlookup
  have hprod := length_pos_of_build hbuild
  obtain ⟨a, ha, hnext⟩ :=
    Path.exists_next_of_move? hprod ((Table.lookup_shift_iff hbuild).mp hlookup).2
  obtain ⟨p, hp, hmem⟩ := Path.next_mem_rhs hprod h.path ha hnext
  rw [hend] at hmem
  exact endMark_not_mem_rhs p hp hmem

/-- Where the table accepts, a sentence has been read. -/
theorem sentence_of_accept (hlex : ∀ x ∈ u, x.IsLexical)
    (haccept : table.lookup (top c.states) c.lookahead.kind.index = some .accept) :
    c.lookahead.kind = .finish ∧ grammar.IsSentence (symbolsOf u) := by
  obtain ⟨hkind, f, -, hfs, -, hroot, -⟩ :=
    h.step_accept tracks_tracked hbuild start_not_mem_rhs haccept
  refine ⟨Symbol.index_inj hkind, h.derives_of_accept hfs hroot, fun X hX => ?_⟩
  obtain ⟨x, hx, rfl⟩ := List.mem_map.mp hX
  exact (hlex x hx).terminal

/-- After the reductions the parser shifts the token or accepts, if some sentence goes on like this,
and otherwise has no act. -/
theorem exists_act (hlex : ∀ x ∈ u, x.IsLexical)
    (hterm : c.lookahead.kind.index ∈ grammar.terminalSymbols) (hline : NoLine fs)
    (hbound : unboundBefore? env₀ u c.lookahead = none) (hfresh : c.tokens.head? = u.getLast?) :
    ∃ c' fs', (parser table).run c = (parser table).run c' ∧
      (parser table).Reading (Tracked env₀) p₀ c' u fs' ∧ SameAhead c c' ∧
      (¬ grammar.IsViable (symbolsOf (u ++ [c.lookahead])) ∧ NoLine fs' ∧
          table.lookup (top c'.states) c'.lookahead.kind.index = none ∨
        grammar.IsViable (symbolsOf (u ++ [c.lookahead])) ∧
          ((NoLine fs' ∧
              ∃ s, table.lookup (top c'.states) c'.lookahead.kind.index = some (.shift s)) ∨
            table.lookup (top c'.states) c'.lookahead.kind.index = some .accept)) := by
  have hbound' : ∀ t s, c.tokens.head? = some t → IsUnbound env₀ t s →
      followsOperand c.lookahead.kind = false := by
    intro t s ht hunbound
    rw [← Bool.not_eq_true]
    intro hfollow
    rw [unboundBefore?, if_pos hfollow, ← hfresh, ht, Option.bind_some,
      unboundName?_eq_some_iff.mpr hunbound] at hbound
    cases hbound
  obtain ⟨c', fs', hrun, hreading, hsame, hcases⟩ := exists_rest hbuild h hlex hline hbound'
  refine ⟨c', fs', hrun, hreading, hsame, ?_⟩
  rw [← hsame.lookahead] at hterm ⊢
  have hviable : table.lookup (top c'.states) c'.lookahead.kind.index = some .accept →
      grammar.IsViable (symbolsOf (u ++ [c'.lookahead])) := by
    intro haccept
    obtain ⟨hend, hsentence⟩ := sentence_of_accept hbuild hreading hlex haccept
    rw [symbolsOf, List.map_append, List.map_singleton, hend]
    exact hsentence.isViable
  rcases hcases with haccept | ⟨hline', hreduce⟩
  · exact .inr ⟨hviable haccept, .inr haccept⟩
  · match hlookup : table.lookup (top c'.states) c'.lookahead.kind.index with
    | none =>
        refine .inl ⟨fun hviable => ?_, hline', rfl⟩
        have hact := hreading.exists_act_of_isViable (P := parser table) hbuild
          endMark_mem_terminalSymbols start_not_mem_rhs hviable
        change (∃ s, table.lookup (top c'.states) c'.lookahead.kind.index = _) ∨
          (∃ n, table.lookup (top c'.states) c'.lookahead.kind.index = _) ∨
          table.lookup (top c'.states) c'.lookahead.kind.index = _ at hact
        simp [hlookup] at hact
    | some (.shift s) =>
        refine .inr ⟨?_, .inl ⟨hline', s, rfl⟩⟩
        refine hreading.isViable_of_shift (P := parser table) hbuild isProductive_grammar ?_ hlookup
        intro x hx
        rcases List.mem_append.mp hx with hx | hx
        · exact (hlex x hx).terminal
        · exact List.mem_singleton.mp hx ▸ hterm
    | some (.reduce n) => exact absurd hlookup (hreduce n)
    | some (.goto s) =>
        have hlt := ((Table.lookup_goto_iff hbuild).mp hlookup).1
        exact absurd hlt (Nat.not_lt.mpr (mem_terminalSymbols.mp hterm).1)
    | some .accept => exact .inr ⟨hviable hlookup, .inr rfl⟩

end

/-! ## Runs -/

/-- The run ends with this fault, and with the bindings from before the line. -/
def FailsWith (table : Table) (env₀ : Bindings) (c : Config Token Bindings) (e : Error) : Prop :=
  ∃ fault p, (parser table).run c = some (.error fault, p) ∧ Error.ofFault fault = e ∧
    p.context = env₀

/-- The run ends where the table accepts the whole line of `total` bytes. -/
def AcceptsLine (table : Table) (env₀ : Bindings) (p₀ : Progress Token Bindings) (total : Nat)
    (c : Config Token Bindings) : Prop :=
  ∃ c' w fs, (parser table).run c = (parser table).run c' ∧
    (parser table).Reading (Tracked env₀) p₀ c' w fs ∧ (∀ x ∈ w, x.IsLexical) ∧
    c'.lookahead = endToken total ∧ c'.progress.input = [] ∧
    table.lookup (top c'.states) c'.lookahead.kind.index = some .accept

theorem FailsWith.of_run_eq {table : Table} {env₀ : Bindings} {c c' : Config Token Bindings}
    {e : Error} (h : FailsWith table env₀ c' e)
    (hrun : (parser table).run c = (parser table).run c') : FailsWith table env₀ c e := by
  obtain ⟨fault, p, hfails, hrest⟩ := h
  exact ⟨fault, p, hrun.trans hfails, hrest⟩

theorem AcceptsLine.of_run_eq {table : Table} {env₀ : Bindings} {p₀ : Progress Token Bindings}
    {c c' : Config Token Bindings} {total : Nat} (h : AcceptsLine table env₀ p₀ total c')
    (hrun : (parser table).run c = (parser table).run c') : AcceptsLine table env₀ p₀ total c := by
  obtain ⟨c'', w, fs, haccepts, hrest⟩ := h
  exact ⟨c'', w, fs, hrun.trans haccepts, hrest⟩

section

variable {table : Table} {env₀ : Bindings} {p₀ : Progress Token Bindings}
  {c : Config Token Bindings} {u : List Token} {fs : List (Tree Token)} {total : Nat}
  {ds : List (Delivery Token)} (hbuild : Table.build grammar = .ok table)
  (h : (parser table).Reading (Tracked env₀) p₀ c u fs) (hlex : ∀ x ∈ u, x.IsLexical)
  (hline : NoLine fs)
include hbuild h hlex hline

/-- After a shift the token shifted is the last one. -/
theorem run_shift {s : Nat} {x : Token} {rest : List (Delivery Token)}
    (hla : c.lookahead.IsLexical)
    (hshift : table.lookup (top c.states) c.lookahead.kind.index = some (.shift s))
    (hinput : c.progress.input = .token x :: rest) :
    ∃ c', (parser table).run c = (parser table).run c' ∧
      (parser table).Reading (Tracked env₀) p₀ c' (u ++ [c.lookahead]) (.leaf c.lookahead :: fs) ∧
      (∀ y ∈ u ++ [c.lookahead], y.IsLexical) ∧ NoLine (.leaf c.lookahead :: fs) ∧
      c'.tokens.head? = (u ++ [c.lookahead]).getLast? ∧ c'.lookahead = x ∧
      c'.progress.input = rest := by
  obtain ⟨hstep, hreading⟩ := h.step_shift_token tracks_tracked hbuild hshift hinput
  refine ⟨_, Parser.run_of_running hstep, hreading, ?_, ?_, ?_, rfl, ?_⟩
  · intro y hy
    rcases List.mem_append.mp hy with hy | hy
    · exact hlex y hy
    · exact List.mem_singleton.mp hy ▸ hla
  · intro g hg
    rcases List.mem_cons.mp hg with rfl | hg
    · intro heq
      have hle := hla.le_index
      rw [Tree.root_leaf] at heq
      rw [heq] at hle
      exact absurd hle (by decide)
    · exact hline g hg
  · simp [Parser.shifted]
  · simp [Parser.shifted, Progress.fetch, hinput, Progress.countShift]

variable (hfresh : c.tokens.head? = u.getLast?)
include hfresh

/-- A token that the scan finds fault with ends the run with this fault; after another token both
go on. -/
theorem fault_or_act (hterm : c.lookahead.kind.index ∈ grammar.terminalSymbols) :
    (∃ e, (∀ rest, firstFault env₀ u (.token c.lookahead :: rest) = some e) ∧
        FailsWith table env₀ c e) ∨
      (∀ rest, firstFault env₀ u (.token c.lookahead :: rest) =
        firstFault env₀ (u ++ [c.lookahead]) rest) ∧
      ∃ c' fs', (parser table).run c = (parser table).run c' ∧
        (parser table).Reading (Tracked env₀) p₀ c' u fs' ∧ SameAhead c c' ∧
        ((NoLine fs' ∧
            ∃ s, table.lookup (top c'.states) c'.lookahead.kind.index = some (.shift s)) ∨
          table.lookup (top c'.states) c'.lookahead.kind.index = some .accept) := by
  cases hbound : unboundBefore? env₀ u c.lookahead with
  | some s =>
      refine .inl ⟨.semantic (.unbound s), fun rest => by simp [firstFault, hbound], ?_⟩
      unfold unboundBefore? at hbound
      split at hbound
      · rename_i hfollow
        obtain ⟨x, hx, hname⟩ := Option.bind_eq_some_iff.mp hbound
        obtain ⟨ts, hts⟩ := List.head?_eq_some_iff.mp (hfresh.trans hx)
        have hunbound := unboundName?_eq_some_iff.mp hname
        exact ⟨_, _, run_unbound hbuild h hlex hline hts hunbound hfollow, rfl, rfl⟩
      · cases hbound
  | none =>
      obtain ⟨c', fs', hrun, hreading, hsame, ⟨hviable, hline', hlookup⟩ | ⟨hviable, hact⟩⟩ :=
        exists_act hbuild h hlex hterm hline hbound hfresh
      · refine .inl ⟨.syntactic c.lookahead.kind.label c.lookahead.offset, fun rest => ?_, ?_⟩
        · simp [firstFault, hbound, hviable]
        · have henv := context_eq_of_noLine hbuild hreading hlex hline'
          have hstep := Parser.step_error (P := parser table) hlookup
          have hfails := hrun.trans (Parser.run_of_finished hstep)
          refine ⟨_, _, hfails, ?_, henv⟩
          rw [hsame.lookahead]
          simp only [Parser.syntaxError, Error.ofFault, Error.ofSyntax, Token.offset, parser,
            label_grammar]
      · refine .inr ⟨fun rest => ?_, c', fs', hrun, hreading, hsame, hact⟩
        simp [firstFault, hbound, hviable]

/-- A run comes to the first fault of the deliveries, or it accepts the line. -/
theorem run_cases (hds : ∀ d ∈ ds, IsLexicalDelivery d)
    (hahead : .token c.lookahead :: c.progress.input = ds ++ [.token (endToken total)]) :
    (∃ e, firstFault env₀ u (.token c.lookahead :: c.progress.input) = some e ∧
        FailsWith table env₀ c e) ∨
      firstFault env₀ u (.token c.lookahead :: c.progress.input) = none ∧
        AcceptsLine table env₀ p₀ total c := by
  induction ds generalizing c u fs with
  | nil =>
      obtain ⟨hla, hinput⟩ : c.lookahead = endToken total ∧ c.progress.input = [] := by
        simpa using hahead
      have hterm : c.lookahead.kind.index ∈ grammar.terminalSymbols := by
        rw [hla]
        exact endMark_mem_terminalSymbols
      rcases fault_or_act hbuild h hlex hline hfresh hterm with
          ⟨e, hfault, hfails⟩ | ⟨hfault, c', fs', hrun, hreading, hsame, hact⟩
      · exact .inl ⟨e, hfault _, hfails⟩
      · refine .inr ⟨by rw [hfault, hinput, firstFault], c', u, fs', hrun, hreading, hlex,
          hsame.lookahead.trans hla, hsame.input.trans hinput, ?_⟩
        rcases hact with ⟨-, s, hshift⟩ | haccept
        · have hend : c'.lookahead.kind = .finish := by rw [hsame.lookahead, hla]; rfl
          exact absurd hshift (not_shift_finish hbuild hreading hend)
        · exact haccept
  | cons d ds ih =>
      obtain ⟨rfl, hinput⟩ : .token c.lookahead = d ∧
          c.progress.input = ds ++ [.token (endToken total)] := by simpa using hahead
      have hla : c.lookahead.IsLexical := by
        rcases hds _ List.mem_cons_self with ⟨e, he⟩ | ⟨t, ht, hlexical⟩
        · cases he
        · exact Delivery.token.inj ht ▸ hlexical
      rcases fault_or_act hbuild h hlex hline hfresh hla.terminal with
          ⟨e, hfault, hfails⟩ | ⟨hfault, c', fs', hrun, hreading, hsame, hact⟩
      · exact .inl ⟨e, hfault _, hfails⟩
      · rw [hfault]
        rcases hact with ⟨hline', s, hshift⟩ | haccept
        · have hds' : ∀ d ∈ ds, IsLexicalDelivery d := fun d hd => hds d (List.mem_cons_of_mem _ hd)
          rcases failed_or_token hds' hinput with ⟨e, rest, hfailed⟩ | ⟨x, rest, htoken⟩
          · have henv := context_eq_of_noLine hbuild hreading hlex hline'
            have hstep := Parser.step_shift_failed (P := parser table) hshift
              (hsame.input.trans hfailed)
            have hfails := hrun.trans (Parser.run_of_finished hstep)
            refine .inl ⟨.lexical e, ?_, ?_⟩
            · rw [hfailed, firstFault]
            · exact ⟨_, _, hfails, rfl, henv⟩
          · have hla' : c'.lookahead.IsLexical := hsame.lookahead ▸ hla
            obtain ⟨c'', hrun', hreading', hlex', hline'', hfresh', hx, hrest⟩ :=
              run_shift hbuild hreading hlex hline' hla' hshift (hsame.input.trans htoken)
            have hahead' : .token c''.lookahead :: c''.progress.input =
                ds ++ [.token (endToken total)] := by
              rw [hx, hrest, ← htoken, hinput]
            have hgoes := ih hreading' hlex' hline'' hfresh' hds' hahead'
            rw [hx, hrest, ← htoken, hsame.lookahead] at hgoes
            exact hgoes.imp (fun ⟨e, he, hfails⟩ => ⟨e, he, hfails.of_run_eq (hrun.trans hrun')⟩)
              fun ⟨hnone, haccepts⟩ => ⟨hnone, haccepts.of_run_eq (hrun.trans hrun')⟩
        · have hend := (sentence_of_accept hbuild hreading hlex haccept).1
          exact absurd (hsame.lookahead ▸ hend) hla.ne_finish

end

end Argand.Calc
