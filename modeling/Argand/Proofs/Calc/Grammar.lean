-- SUMMARY: Facts about the grammar of the calculator on which reading lines rests.
import Argand.Calc.Reader
import Argand.Proofs.Viable

/-!
# The calculator's grammar

The grammar has a table, every symbol derives some tokens, and reductions make the symbols on the
stack lighter, so that they come to an end. What can follow an operand decides when a name is looked
up, and only the end can follow a line.
-/
namespace Argand.Calc

open Grammar

/-! ## Symbols and phrases -/

theorem Symbol.index_inj {X Y : Symbol} (h : X.index = Y.index) : X = Y := by
  have heq := congrArg Symbol.ofIndex? h
  rw [Symbol.ofIndex?_index, Symbol.ofIndex?_index] at heq
  exact Option.some.inj heq

theorem Symbol.map_index_inj {u v : List Symbol} (h : u.map Symbol.index = v.map Symbol.index) :
    u = v :=
  List.map_injective_iff.mpr (fun _ _ => Symbol.index_inj) h

theorem Symbol.index_mem_symbols (X : Symbol) : X.index ∈ grammar.symbols := by
  cases X <;> decide

theorem phrase_of_production {n : Nat} {p : Production} (h : grammar.productions[n]? = some p) :
    ∃ f : Phrase, f.index = n ∧ Phrase.ofIndex? n = some f ∧ p = f.production := by
  obtain ⟨f, hf, rfl⟩ : ∃ f, Phrase.all[n]? = some f ∧ f.production = p := by
    simpa [grammar] using h
  refine ⟨f, ?_, hf, rfl⟩
  have hall : ∀ m < Phrase.all.length, Phrase.all[m]?.map Phrase.index = some m := by decide
  have hn := hall n (List.getElem?_eq_some_iff.mp hf).1
  simpa [hf] using hn

theorem index_ne_zero {f : Phrase} (h : f.index ≠ 0) : f ≠ .start := by
  rintro rfl
  exact h rfl

/-! ## The table -/

set_option maxRecDepth 100000 in
/-- The table can be built, and these are the terminals that can follow an operand and a line.
Building finds what can follow, so one evaluation shows all of it. -/
theorem isSome_build_and_followOf :
    (Table.build grammar).toOption.isSome = true ∧
      grammar.lookahead.followOf Symbol.unit.index =
        [Symbol.plus, .minus, .asterisk, .slash, .rparen, .finish].map Symbol.index ∧
      grammar.lookahead.followOf Symbol.line.index = [Symbol.finish.index] := by
  decide +kernel

theorem exists_table : ∃ table, table? = .ok table :=
  Table.exists_build isSome_build_and_followOf.1

theorem goal_grammar : grammar.goal = Symbol.line.index := rfl

theorem start_not_mem_rhs : ∀ p ∈ grammar.productions, 0 ∉ p.rhs := by
  decide

theorem endMark_not_mem_rhs : ∀ p ∈ grammar.productions, grammar.endMark ∉ p.rhs := by
  decide

/-- Only the start production uses the line. -/
theorem goal_not_mem_rhs : ∀ p ∈ grammar.productions, p.lhs ≠ 0 → grammar.goal ∉ p.rhs := by
  decide

theorem line_not_mem_rhs {f : Phrase} (h : f ≠ .start) : Symbol.line ∉ f.rhs := by
  revert h
  cases f <;> decide

theorem endMark_mem_terminalSymbols : grammar.endMark ∈ grammar.terminalSymbols := by
  decide

/-- Behind an operand stands an operator, a closing parenthesis or the end. -/
def followsOperand : Symbol → Bool
  | .plus | .minus | .asterisk | .slash | .rparen | .finish => true
  | _ => false

theorem mem_followOf_unit {X : Symbol} :
    X.index ∈ grammar.lookahead.followOf Symbol.unit.index ↔ followsOperand X = true := by
  rw [isSome_build_and_followOf.2.1]
  cases X <;> decide

theorem eq_finish_of_mem_followOf_line {X : Symbol}
    (h : X.index ∈ grammar.lookahead.followOf Symbol.line.index) : X = .finish := by
  rw [isSome_build_and_followOf.2.2, List.mem_singleton] at h
  exact Symbol.index_inj h

/-! ## Productivity -/

theorem derives_phrase (f : Phrase) : grammar.Derives [f.lhs.index] (f.rhs.map Symbol.index) := by
  have hmem : f.production ∈ grammar.productions := by
    cases f <;> decide
  exact derives_production hmem

theorem isProductive_grammar : grammar.IsProductive := by
  have hunit : grammar.Derives [Symbol.unit.index] [Symbol.number.index] := derives_phrase .number
  have hinner := (derives_phrase .innerUnit).trans hunit
  have hfactor := (derives_phrase .factorInner).trans hinner
  have hterm := (derives_phrase .termFactor).trans hfactor
  have hexpr := (derives_phrase .exprTerm).trans hterm
  have hline := (derives_phrase .eval).trans hexpr
  have hsymbols : ∀ X : Symbol, X ≠ .start →
      ∃ w, grammar.Derives [X.index] w ∧ ∀ Y ∈ w, Y ∈ grammar.terminalSymbols := by
    have hnumber : ∀ Y ∈ [Symbol.number.index], Y ∈ grammar.terminalSymbols := by decide
    intro X hX
    cases X with
    | start => exact absurd rfl hX
    | line => exact ⟨_, hline, hnumber⟩
    | expr => exact ⟨_, hexpr, hnumber⟩
    | term => exact ⟨_, hterm, hnumber⟩
    | factor => exact ⟨_, hfactor, hnumber⟩
    | innerFactor => exact ⟨_, hinner, hnumber⟩
    | unit => exact ⟨_, hunit, hnumber⟩
    | _ => exact ⟨_, .refl _, by decide⟩
  intro p hp X hX
  obtain ⟨f, -, rfl⟩ := List.mem_map.mp hp
  obtain ⟨Y, hY, rfl⟩ := List.mem_map.mp hX
  refine hsymbols Y ?_
  rintro rfl
  revert hY
  cases f <;> decide

/-! ## Weights -/

/-- Symbols are the lighter, the nearer they are to the line. -/
def weight : Nat → Nat
  | 0 => 0
  | X + 1 => min X 6

/-- The weight of some symbols together. -/
def totalWeight : List Nat → Nat
  | [] => 0
  | X :: w => weight X + totalWeight w

@[simp] theorem totalWeight_append (v w : List Nat) :
    totalWeight (v ++ w) = totalWeight v + totalWeight w := by
  induction v with
  | nil => simp [totalWeight]
  | cons X v ih => simp [totalWeight, ih, Nat.add_assoc]

@[simp] theorem totalWeight_reverse (w : List Nat) : totalWeight w.reverse = totalWeight w := by
  induction w with
  | nil => rfl
  | cons X w ih => simp [totalWeight, ih, Nat.add_comm]

theorem weight_le (X : Nat) : weight X ≤ 6 := by
  cases X with
  | zero => exact Nat.zero_le 6
  | succ X => exact Nat.min_le_right X 6

/-- Only the start symbol and the line weigh nothing. -/
theorem weight_pos {X : Nat} (hstart : X ≠ 0) (hgoal : X ≠ grammar.goal) : 0 < weight X := by
  rw [goal_grammar] at hgoal
  obtain ⟨Y, rfl⟩ := Nat.exists_eq_succ_of_ne_zero hstart
  have hY : Y ≠ 0 := by
    rintro rfl
    exact hgoal rfl
  simp only [weight]
  omega

theorem length_le_totalWeight {w : List Nat} (h : ∀ X ∈ w, 0 < weight X) :
    w.length ≤ totalWeight w := by
  induction w with
  | nil => exact Nat.le_refl 0
  | cons X w ih =>
      have hhead := h X List.mem_cons_self
      have hrest := ih fun Y hY => h Y (List.mem_cons_of_mem _ hY)
      simp only [List.length_cons, totalWeight]
      omega

/-- A phrase takes off at least one for each of its parts. -/
theorem weight_lhs_add_le {f : Phrase} (h : f ≠ .start) :
    weight f.lhs.index + f.rhs.length ≤ totalWeight (f.rhs.map Symbol.index) := by
  revert h
  cases f <;> decide

theorem weight_lhs_lt {f : Phrase} (h : f ≠ .start) :
    weight f.lhs.index < totalWeight (f.rhs.map Symbol.index) := by
  have hle := weight_lhs_add_le h
  have hpos : 0 < f.rhs.length := by cases f <;> decide
  omega

end Argand.Calc
