-- SUMMARY: What the reductions of the calculator do to values and bindings.
import Argand.Proofs.Calc.Descent
import Argand.Proofs.Calc.Grammar
import Argand.Proofs.Lexing
import Mathlib.Data.List.Forall2

/-!
# Reductions by phrases

A token on the stack is a piece of the line: a lexical token, or the value of the tokens under a
nonterminal. A reduction makes one piece of several. It fails for one reason only, that a name has
no value, and it changes the bindings only where it completes an assignment.
-/
namespace Argand.Calc

open Descent

/-! ## Pieces -/

/-- The token stands for the tokens `w`: it carries their value, or it is the only one of them. -/
def IsPiece (env : Bindings) (t : Token) (w : List Token) : Prop :=
  (∃ z, t.number? = some z ∧ Evaluates env t.kind w z) ∨ t.IsLexical ∧ w = [t]

/-- The bindings after a line with a value. -/
def assigned (env : Bindings) (w : List Token) (z : Complex) : Bindings :=
  match target? w with
  | some s => env.set s z
  | none => env

variable {env : Bindings} {t : Token} {w : List Token} {parts : List Token}
  {ws : List (List Token)} {z : Complex}

theorem Evaluates.index_lt {X : Symbol} (h : Evaluates env X w z) :
    X.index < grammar.nonterminals := by
  cases h <;> decide

theorem Token.IsLexical.le_index (h : t.IsLexical) : grammar.nonterminals ≤ t.kind.index :=
  (Grammar.mem_terminalSymbols.mp h.terminal).1

theorem IsPiece.value (h : IsPiece env t w) (ht : t.kind.index < grammar.nonterminals) :
    ∃ z, t.number? = some z ∧ Evaluates env t.kind w z := by
  rcases h with hvalue | ⟨hlex, -⟩
  · exact hvalue
  · exact absurd ht (Nat.not_lt.mpr hlex.le_index)

theorem IsPiece.lexical (h : IsPiece env t w) (ht : grammar.nonterminals ≤ t.kind.index) :
    t.IsLexical ∧ w = [t] := by
  rcases h with ⟨z, -, hz⟩ | hlex
  · exact absurd ht (Nat.not_le.mpr hz.index_lt)
  · exact hlex

/-! ## Phrases over pieces -/

/-- The phrase has a value over these parts, which the grammar gives to their tokens. -/
def Succeeds (f : Phrase) (env : Bindings) (parts : List Token) (ws : List (List Token)) : Prop :=
  ∃ z, apply f parts env =
      (.ok z, if f.lhs = .line then assigned env ws.flatten z else env) ∧
    Evaluates env f.lhs ws.flatten z

/-- The only part is a name without value. -/
def IsUnbound (env : Bindings) (t : Token) (s : String) : Prop :=
  t.kind = .ident ∧ t.name? = some s ∧ env.get? s = none

variable {A B C D : Symbol}

private theorem parts_one (h : List.Forall₂ (IsPiece env) parts ws)
    (hkinds : parts.map Token.kind = [A]) :
    ∃ a u, parts = [a] ∧ ws = [u] ∧ a.kind = A ∧ IsPiece env a u := by
  obtain ⟨a, rfl, ha⟩ := List.map_eq_singleton_iff.mp hkinds
  obtain ⟨u, _, hu, hnil, rfl⟩ := List.forall₂_cons_left_iff.mp h
  obtain rfl := List.forall₂_nil_left_iff.mp hnil
  exact ⟨a, u, rfl, rfl, ha, hu⟩

private theorem parts_cons {Xs : List Symbol} (h : List.Forall₂ (IsPiece env) parts ws)
    (hkinds : parts.map Token.kind = A :: Xs) :
    ∃ a u parts' ws', parts = a :: parts' ∧ ws = u :: ws' ∧ a.kind = A ∧ IsPiece env a u ∧
      List.Forall₂ (IsPiece env) parts' ws' ∧ parts'.map Token.kind = Xs := by
  obtain ⟨a, parts', rfl, ha, hrest⟩ := List.map_eq_cons_iff.mp hkinds
  obtain ⟨u, ws', hu, hpieces, rfl⟩ := List.forall₂_cons_left_iff.mp h
  exact ⟨a, u, parts', ws', rfl, rfl, ha, hu, hpieces, hrest⟩

private theorem succeeds_of_valueOf {f : Phrase} (hf : f.lhs ≠ .line)
    (h : Evaluates env f.lhs w z) (hw : ws.flatten = w) (hvalue : valueOf f parts env = .ok z) :
    Succeeds f env parts ws := by
  refine ⟨z, ?_, hw ▸ h⟩
  have happly : apply f parts env = (valueOf f parts env, env) := by
    cases f with
    | assign => exact absurd rfl hf
    | _ => rfl
  rw [happly, hvalue, if_neg hf]

/-- A phrase over one part hands its value on. -/
private theorem succeeds_chain {f : Phrase} (hf : f.lhs ≠ .line)
    (hA : A.index < grammar.nonterminals)
    (hvalue : ∀ a x, a.number? = some x → valueOf f [a] env = .ok x)
    (hrule : ∀ u x, Evaluates env A u x → Evaluates env f.lhs u x)
    (h : List.Forall₂ (IsPiece env) parts ws) (hkinds : parts.map Token.kind = [A]) :
    Succeeds f env parts ws := by
  obtain ⟨a, u, rfl, rfl, ha, hpiece⟩ := parts_one h hkinds
  obtain ⟨x, hx, hu⟩ := hpiece.value (by rw [ha]; exact hA)
  exact succeeds_of_valueOf hf (hrule u x (ha ▸ hu)) (by simp) (hvalue a x hx)

/-- A phrase over pieces has a value, unless it is a name without one. -/
theorem succeeds_or_unbound {f : Phrase} (hf : f ≠ .start)
    (h : List.Forall₂ (IsPiece env) parts ws) (hkinds : parts.map Token.kind = f.rhs) :
    Succeeds f env parts ws ∨ f = .name ∧ ∃ t s, parts = [t] ∧ IsUnbound env t s := by
  cases f with
  | start => exact absurd rfl hf
  | assign =>
      obtain ⟨a, u, _, _, rfl, rfl, ha, hname, h, hkinds⟩ := parts_cons h hkinds
      obtain ⟨b, v, _, _, rfl, rfl, hb, hequals, h, hkinds⟩ := parts_cons h hkinds
      obtain ⟨c, w, rfl, rfl, hc, hexpr⟩ := parts_one h hkinds
      obtain ⟨hlex, rfl⟩ := hname.lexical (by rw [ha]; decide)
      obtain ⟨-, rfl⟩ := hequals.lexical (by rw [hb]; decide)
      obtain ⟨z, hz, hw⟩ := hexpr.value (by rw [hc]; decide)
      obtain ⟨s, hs⟩ := hlex.name ha
      have hs : a.name? = some s := by simp [Token.name?, hs]
      have htarget : target? (a :: b :: w) = some s := by
        simp [target?, isAssignment, ha, hb, hs]
      refine .inl ⟨z, ?_, by simpa [Phrase.lhs] using Evaluates.assign ha hb (hc ▸ hw)⟩
      simp [apply, assignment, numberAt, nameAt, hz, hs, assigned, htarget, Phrase.lhs]
  | eval =>
      obtain ⟨a, u, rfl, rfl, ha, hexpr⟩ := parts_one h hkinds
      obtain ⟨z, hz, hu⟩ := hexpr.value (by rw [ha]; decide)
      rw [ha] at hu
      have hassign := (body_eq_self fun t ht => (hu.isOrdinary (by simp) t ht).1).1
      refine .inl ⟨z, ?_, by simpa [Phrase.lhs] using Evaluates.eval hu⟩
      simp [apply, valueOf, numberAt, hz, assigned, target?, hassign]
  | add | sub =>
      obtain ⟨a, u, _, _, rfl, rfl, ha, hleft, h, hkinds⟩ := parts_cons h hkinds
      obtain ⟨b, v, _, _, rfl, rfl, hb, hop, h, hkinds⟩ := parts_cons h hkinds
      obtain ⟨c, w, rfl, rfl, hc, hright⟩ := parts_one h hkinds
      obtain ⟨x, hx, hu⟩ := hleft.value (by rw [ha]; decide)
      obtain ⟨-, rfl⟩ := hop.lexical (by rw [hb]; decide)
      obtain ⟨y, hy, hw⟩ := hright.value (by rw [hc]; decide)
      refine .inl (succeeds_of_valueOf (by decide)
        (.sum (ha ▸ hu) (congrArg additive? hb) (hc ▸ hw)) (by simp) ?_)
      simp [valueOf, numberAt, hx, hy]
      rfl
  | exprTerm =>
      exact .inl (succeeds_chain (by decide) (by decide)
        (fun a x hx => by simp [valueOf, numberAt, hx]) (fun _ _ => .expr) h hkinds)
  | mul | div =>
      obtain ⟨a, u, _, _, rfl, rfl, ha, hleft, h, hkinds⟩ := parts_cons h hkinds
      obtain ⟨b, v, _, _, rfl, rfl, hb, hop, h, hkinds⟩ := parts_cons h hkinds
      obtain ⟨c, w, rfl, rfl, hc, hright⟩ := parts_one h hkinds
      obtain ⟨x, hx, hu⟩ := hleft.value (by rw [ha]; decide)
      obtain ⟨-, rfl⟩ := hop.lexical (by rw [hb]; decide)
      obtain ⟨y, hy, hw⟩ := hright.value (by rw [hc]; decide)
      refine .inl (succeeds_of_valueOf (by decide)
        (.product (ha ▸ hu) (congrArg multiplicative? hb) (hc ▸ hw)) (by simp) ?_)
      simp [valueOf, numberAt, hx, hy]
      rfl
  | termFactor =>
      exact .inl (succeeds_chain (by decide) (by decide)
        (fun a x hx => by simp [valueOf, numberAt, hx]) (fun _ _ => .term) h hkinds)
  | factorInner =>
      exact .inl (succeeds_chain (by decide) (by decide)
        (fun a x hx => by simp [valueOf, numberAt, hx]) (fun _ _ => .factor) h hkinds)
  | plus | neg =>
      obtain ⟨a, u, _, _, rfl, rfl, ha, hsign, h, hkinds⟩ := parts_cons h hkinds
      obtain ⟨b, v, rfl, rfl, hb, hinner⟩ := parts_one h hkinds
      obtain ⟨-, rfl⟩ := hsign.lexical (by rw [ha]; decide)
      obtain ⟨x, hx, hv⟩ := hinner.value (by rw [hb]; decide)
      refine .inl (succeeds_of_valueOf (by decide)
        (.sign (congrArg sign? ha) (hb ▸ hv)) (by simp) ?_)
      simp [valueOf, numberAt, hx]
  | innerUnit =>
      exact .inl (succeeds_chain (by decide) (by decide)
        (fun a x hx => by simp [valueOf, numberAt, hx]) (fun _ _ => .inner) h hkinds)
  | paren =>
      obtain ⟨a, u, _, _, rfl, rfl, ha, hopen, h, hkinds⟩ := parts_cons h hkinds
      obtain ⟨b, v, _, _, rfl, rfl, hb, hexpr, h, hkinds⟩ := parts_cons h hkinds
      obtain ⟨c, w, rfl, rfl, hc, hclose⟩ := parts_one h hkinds
      obtain ⟨-, rfl⟩ := hopen.lexical (by rw [ha]; decide)
      obtain ⟨x, hx, hv⟩ := hexpr.value (by rw [hb]; decide)
      obtain ⟨-, rfl⟩ := hclose.lexical (by rw [hc]; decide)
      have hvalue : valueOf .paren [a, b, c] env = .ok x := by simp [valueOf, numberAt, hx]
      exact .inl (succeeds_of_valueOf (by decide) (.paren ha (hb ▸ hv) hc) (by simp) hvalue)
  | abs | arg | norm | conj =>
      obtain ⟨a, u, _, _, rfl, rfl, ha, hfunction, h, hkinds⟩ := parts_cons h hkinds
      obtain ⟨b, v, _, _, rfl, rfl, hb, hopen, h, hkinds⟩ := parts_cons h hkinds
      obtain ⟨c, w, _, _, rfl, rfl, hc, hexpr, h, hkinds⟩ := parts_cons h hkinds
      obtain ⟨d, x, rfl, rfl, hd, hclose⟩ := parts_one h hkinds
      obtain ⟨-, rfl⟩ := hfunction.lexical (by rw [ha]; decide)
      obtain ⟨-, rfl⟩ := hopen.lexical (by rw [hb]; decide)
      obtain ⟨y, hy, hw⟩ := hexpr.value (by rw [hc]; decide)
      obtain ⟨-, rfl⟩ := hclose.lexical (by rw [hd]; decide)
      refine .inl (succeeds_of_valueOf (by decide)
        (.function (congrArg function? ha) hb (hc ▸ hw) hd) (by simp) ?_)
      simp [valueOf, numberAt, hy]
  | number | imaginary =>
      obtain ⟨a, u, rfl, rfl, ha, hliteral⟩ := parts_one h hkinds
      obtain ⟨hlex, rfl⟩ := hliteral.lexical (by rw [ha]; decide)
      obtain ⟨x, hx⟩ := hlex.number (by simp [ha])
      have hx : a.number? = some x := by simp [Token.number?, hx]
      have hoperand : operand? env a = some x := by simp [operand?, ha, hx]
      refine .inl (succeeds_of_valueOf (by decide) (.operand hoperand) (by simp) ?_)
      simp [valueOf, numberAt, hx]
  | name =>
      obtain ⟨a, u, rfl, rfl, ha, hname⟩ := parts_one h hkinds
      obtain ⟨hlex, rfl⟩ := hname.lexical (by rw [ha]; decide)
      obtain ⟨s, hs⟩ := hlex.name ha
      have hs : a.name? = some s := by simp [Token.name?, hs]
      cases hget : env.get? s with
      | none => exact .inr ⟨rfl, a, s, rfl, ha, hs, hget⟩
      | some x =>
          have hoperand : operand? env a = some x := by simp [operand?, ha, hs, hget]
          refine .inl (succeeds_of_valueOf (by decide) (.operand hoperand) (by simp) ?_)
          simp only [valueOf, nameAt, List.getElem?_cons_zero, Option.bind_some, hs]
          simp [bind, Except.bind, Bindings.lookup, hget]

end Argand.Calc
