-- SUMMARY: A parser shifts only tokens that keep what it has read the beginning of a sentence, and rejects no such token.
import Argand.Gallery.Grammars
import Argand.Proofs.Reading

/-!
# Viable prefixes

A string is viable when it begins a sentence followed by the end mark. As long as the tokens shifted
and the token ahead are viable the table has an act (`Reading.exists_act_of_isViable`), and it calls
for a shift only then (`Reading.isViable_of_shift`).
-/
open Argand.Parser (top)

namespace Argand

/-! ## Sentences -/

namespace Grammar

variable {g : Grammar} {u v w : List Nat}

/-- A string of terminals that the goal derives. -/
def IsSentence (g : Grammar) (w : List Nat) : Prop :=
  g.Derives [g.goal] w ∧ ∀ X ∈ w, X ∈ g.terminalSymbols

/-- The string begins a sentence followed by the end mark. -/
def IsViable (g : Grammar) (u : List Nat) : Prop :=
  ∃ w, g.IsSentence w ∧ u <+: w ++ [g.endMark]

/-- Every symbol of a right-hand side derives a string of terminals. -/
def IsProductive (g : Grammar) : Prop :=
  ∀ p ∈ g.productions, ∀ X ∈ p.rhs, ∃ w, g.Derives [X] w ∧ ∀ Y ∈ w, Y ∈ g.terminalSymbols

theorem IsViable.mono (h : g.IsViable v) (huv : u <+: v) : g.IsViable u := by
  obtain ⟨w, hw, hvw⟩ := h
  exact ⟨w, hw, huv.trans hvw⟩

theorem IsSentence.isViable (h : g.IsSentence w) : g.IsViable (w ++ [g.endMark]) :=
  ⟨w, h, List.prefix_rfl⟩

/-- A string of symbols that derive strings of terminals derives one. -/
theorem exists_derives_terminals
    (h : ∀ X ∈ u, ∃ w, g.Derives [X] w ∧ ∀ Y ∈ w, Y ∈ g.terminalSymbols) :
    ∃ w, g.Derives u w ∧ ∀ Y ∈ w, Y ∈ g.terminalSymbols := by
  induction u with
  | nil => exact ⟨[], .refl _, by simp⟩
  | cons X rest ih =>
      obtain ⟨w, hw, hterm⟩ := h X List.mem_cons_self
      obtain ⟨w', hw', hterm'⟩ := ih fun Y hY => h Y (List.mem_cons_of_mem _ hY)
      refine ⟨w ++ w', hw.append hw', fun Y hY => ?_⟩
      rcases List.mem_append.mp hY with hY | hY
      · exact hterm Y hY
      · exact hterm' Y hY

/-- A grammar is productive if all its nonterminals derive strings of terminals. -/
theorem isProductive_of_nonterminals (hsymbols : ∀ p ∈ g.productions, ∀ X ∈ p.rhs, X ∈ g.symbols)
    (h : ∀ A < g.nonterminals, ∃ w, g.Derives [A] w ∧ ∀ X ∈ w, X ∈ g.terminalSymbols) :
    g.IsProductive := by
  intro p hp X hX
  rcases Nat.lt_or_ge X g.nonterminals with hlt | hge
  · exact h X hlt
  · have hterm : X ∈ g.terminalSymbols :=
      mem_terminalSymbols.mpr ⟨hge, mem_symbols.mp (hsymbols p hp X hX)⟩
    exact ⟨[X], .refl [X], by simpa using hterm⟩

/-- All nonterminals of the grammar of lists derive strings of terminals. -/
theorem exists_terminals_list : ∀ A < Gallery.list.nonterminals,
    ∃ w, Gallery.list.Derives [A] w ∧ ∀ X ∈ w, X ∈ Gallery.list.terminalSymbols := by
  have hstart : ⟨0, 0, [1]⟩ ∈ Gallery.list.productions := by decide +kernel
  have hempty : ⟨1, 1, []⟩ ∈ Gallery.list.productions := by decide +kernel
  have hatom : ⟨3, 2, [5]⟩ ∈ Gallery.list.productions := by decide +kernel
  intro A hA
  have hthree : Gallery.list.nonterminals = 3 := rfl
  obtain rfl | rfl | rfl : A = 0 ∨ A = 1 ∨ A = 2 := by omega
  · exact ⟨[], (derives_production hstart).trans (derives_production hempty), by simp⟩
  · exact ⟨[], derives_production hempty, by simp⟩
  · exact ⟨[5], derives_production hatom, by decide +kernel⟩

section

variable (hstart : g.productions[0]? = some ⟨0, 0, [g.goal]⟩) (hproductive : g.IsProductive)
include hstart hproductive

/-- In a productive grammar the end of a sentential form derives a string of terminals. -/
theorem exists_terminals_of_derives (h : g.Derives [g.goal] (u ++ v)) :
    ∃ w, g.Derives v w ∧ ∀ X ∈ w, X ∈ g.terminalSymbols := by
  have hgoal := hproductive _ (List.mem_of_getElem? hstart)
  exact exists_derives_terminals fun X hX =>
    h.forall_mem hgoal hproductive X (List.mem_append_right u hX)

/-- Some sentence begins with each string that begins a sentential form of a productive grammar. -/
theorem exists_sentence_of_derives (hu : ∀ X ∈ u, X ∈ g.terminalSymbols)
    (h : g.Derives [g.goal] (u ++ v)) : ∃ w, g.IsSentence (u ++ w) := by
  obtain ⟨w, hw, hterm⟩ := exists_terminals_of_derives hstart hproductive h
  exact ⟨w, h.trans ((Derives.refl u).append hw), List.forall_mem_append.mpr ⟨hu, hterm⟩⟩

end

/-- A built table is driven through every sentence, and then accepts. -/
theorem IsSentence.exists_drive {t : Table} (hbuild : Table.build g = .ok t)
    (hend : g.endMark ∈ g.terminalSymbols) (hstart : ∀ p ∈ g.productions, 0 ∉ p.rhs)
    (h : g.IsSentence w) :
    ∃ ms σ, Drives g t [0] w g.endMark ms σ ∧ t.lookup (top σ) g.endMark = some .accept := by
  obtain ⟨hder, hterm⟩ := h
  have hder' : g.Derives [g.goal] (w.map id) := by simpa using hder
  obtain ⟨tr, htr, hroot, hyield⟩ := Tree.derives_iff_exists_tree.mp hder'
  obtain ⟨σ, hdrive, haccept⟩ :=
    htr.exists_drive hbuild hend hstart hroot (by simpa [hyield] using hterm)
  exact ⟨tr.moves, σ, by simpa [hyield] using hdrive, haccept⟩

end Grammar

/-! ## Acts on viable tokens -/

namespace Parser

open Grammar

variable {τ σ ε : Type} {P : Parser τ σ ε} {J : List τ → List (Tree τ) → σ → Prop}
  {p₀ : Progress τ σ} {c : Config τ σ} {u : List τ} {fs : List (Tree τ)} {s : Nat}
  (hbuild : Table.build P.grammar = .ok P.table) (h : P.Reading J p₀ c u fs)
include hbuild h

/-- The table has an act on a token with which some sentence can go on. -/
theorem Reading.exists_act_of_isViable (hend : P.grammar.endMark ∈ P.grammar.terminalSymbols)
    (hstart : ∀ p ∈ P.grammar.productions, 0 ∉ p.rhs)
    (hviable : P.grammar.IsViable ((u ++ [c.lookahead]).map P.kind)) :
    (∃ s, P.table.lookup (top c.states) (P.kind c.lookahead) = some (.shift s)) ∨
      (∃ n, P.table.lookup (top c.states) (P.kind c.lookahead) = some (.reduce n)) ∨
      P.table.lookup (top c.states) (P.kind c.lookahead) = some .accept := by
  obtain ⟨w, hw, hprefix⟩ := hviable
  -- The drive through the sentence passes the states of this configuration.
  obtain ⟨ms, σ', hdrive, haccept⟩ := hw.exists_drive hbuild hend hstart
  rw [List.map_append, List.map_singleton] at hprefix
  obtain ⟨v, hv⟩ := hprefix
  rw [List.append_assoc, List.singleton_append] at hv
  rcases List.eq_nil_or_concat v with rfl | ⟨v', z, rfl⟩
  · obtain ⟨rfl, hla⟩ := List.append_inj' hv rfl
    have hla : P.kind c.lookahead = P.grammar.endMark := by simpa using hla
    have hdrive' :
        Drives P.grammar P.table [0] (u.map P.kind ++ []) P.grammar.endMark ms σ' := by
      simpa using hdrive
    rw [hla]
    rcases h.drive.compare hdrive' hla with ⟨rest, -, hrest⟩ | ⟨-, rest, -, hrest⟩
    · rcases hrest.lookup_of_nil with heq | hreduce
      · exact .inr (.inr (heq ▸ haccept))
      · exact .inr (.inl hreduce)
    · rcases hrest.lookup_of_nil with heq | ⟨n, hreduce⟩
      · exact .inr (.inr (heq ▸ haccept))
      · cases haccept.symm.trans hreduce
  · have hv' : (u.map P.kind ++ P.kind c.lookahead :: v') ++ [z] = w ++ [P.grammar.endMark] := by
      simpa using hv
    obtain ⟨rfl, -⟩ := List.append_inj' hv' rfl
    rcases h.drive.compare hdrive rfl with ⟨rest, -, hrest⟩ | ⟨hnil, -⟩
    · rcases hrest.lookup_of_cons with hshift | hreduce
      · exact .inl hshift
      · exact .inr (.inl hreduce)
    · cases hnil

omit hbuild in
/-- The trees on the stack derive the tokens shifted, in every context. -/
theorem Reading.derives_read {v : List Nat}
    (hder : P.grammar.Derives [P.grammar.goal] ((fs.map (Tree.root P.kind)).reverse ++ v)) :
    P.grammar.Derives [P.grammar.goal] (u.map P.kind ++ v) := by
  have hforest := Tree.derives_forest fun f (hf : f ∈ fs.reverse) =>
    (h.derivations f (List.mem_reverse.mp hf)).derives
  rw [h.yield, List.map_reverse] at hforest
  exact hder.trans (hforest.append (.refl v))

/-- What was shifted begins a sentence. -/
theorem Reading.exists_sentence (hproductive : P.grammar.IsProductive)
    (hterm : ∀ x ∈ u, P.kind x ∈ P.grammar.terminalSymbols) :
    ∃ w, P.grammar.IsSentence (u.map P.kind ++ w) := by
  have hzero := start_of_build hbuild
  obtain ⟨γ, hder⟩ := Path.exists_derives (length_pos_of_build hbuild) h.path hzero
  exact exists_sentence_of_derives hzero hproductive (by simpa using hterm) (h.derives_read hder)

/-- A shift keeps the tokens read the beginning of a sentence. -/
theorem Reading.isViable_of_shift (hproductive : P.grammar.IsProductive)
    (hterm : ∀ x ∈ u ++ [c.lookahead], P.kind x ∈ P.grammar.terminalSymbols)
    (hlookup : P.table.lookup (top c.states) (P.kind c.lookahead) = some (.shift s)) :
    P.grammar.IsViable ((u ++ [c.lookahead]).map P.kind) := by
  have hzero := start_of_build hbuild
  have hpath := h.path.push ((Table.lookup_shift_iff hbuild).mp hlookup).2
  obtain ⟨γ, hder⟩ := Path.exists_derives (length_pos_of_build hbuild) hpath hzero
  have hread := h.derives_read (v := P.kind c.lookahead :: γ) (by simpa using hder)
  obtain ⟨w, hw⟩ := exists_sentence_of_derives (v := γ) hzero hproductive
    (u := (u ++ [c.lookahead]).map P.kind) (List.forall_mem_map.mpr hterm) (by simpa using hread)
  exact hw.isViable.mono ((List.prefix_append _ _).trans (List.prefix_append _ _))

omit hbuild in
/-- What was shifted before the table accepts is a sentence. -/
theorem Reading.derives_of_accept {f : Tree τ} (hfs : fs = [f])
    (hroot : f.root P.kind = P.grammar.goal) :
    P.grammar.Derives [P.grammar.goal] (u.map P.kind) := by
  have hder := (h.derivations f (by simp [hfs])).derives
  have hyield := h.yield
  rw [hfs] at hyield
  rw [hroot] at hder
  simpa [← hyield] using hder

end Parser
end Argand
