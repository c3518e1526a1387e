-- SUMMARY: The grammar's way of giving tokens a value agrees with recursive descent.
import Argand.Calc.Descent

/-!
# Values by the grammar and by descent

`Evaluates` gives values to strings of tokens along the productions of the grammar, which build
chains of operators from the left. Recursive descent reads the same strings from the front. Both
agree (`Evaluates.reads`): on a string for an expression, descent comes to the same value whatever
stands behind it, as long as that does not go on with a product.
-/
namespace Argand.Calc

open Descent

/-! ## Values by the grammar -/

/-- Under some bindings the tokens stand for a symbol with this value. -/
inductive Evaluates (env : Bindings) : Symbol → List Token → Complex → Prop where
  | assign {x e : Token} {u : List Token} {z : Complex} :
      x.kind = .ident → e.kind = .equals → Evaluates env .expr u z →
      Evaluates env .line (x :: e :: u) z
  | eval {u : List Token} {z : Complex} : Evaluates env .expr u z → Evaluates env .line u z
  | sum {u v : List Token} {t : Token} {op : Complex → Complex → Complex} {x y : Complex} :
      Evaluates env .expr u x → additive? t.kind = some op → Evaluates env .term v y →
      Evaluates env .expr (u ++ t :: v) (op x y)
  | expr {u : List Token} {z : Complex} : Evaluates env .term u z → Evaluates env .expr u z
  | product {u v : List Token} {t : Token} {op : Complex → Complex → Complex} {x y : Complex} :
      Evaluates env .term u x → multiplicative? t.kind = some op → Evaluates env .factor v y →
      Evaluates env .term (u ++ t :: v) (op x y)
  | term {u : List Token} {z : Complex} : Evaluates env .factor u z → Evaluates env .term u z
  | sign {t : Token} {u : List Token} {f : Complex → Complex} {x : Complex} :
      sign? t.kind = some f → Evaluates env .innerFactor u x → Evaluates env .factor (t :: u) (f x)
  | factor {u : List Token} {z : Complex} :
      Evaluates env .innerFactor u z → Evaluates env .factor u z
  | function {t l r : Token} {u : List Token} {f : Complex → Complex} {x : Complex} :
      function? t.kind = some f → l.kind = .lparen → Evaluates env .expr u x → r.kind = .rparen →
      Evaluates env .innerFactor (t :: l :: u ++ [r]) (f x)
  | paren {l r : Token} {u : List Token} {z : Complex} :
      l.kind = .lparen → Evaluates env .expr u z → r.kind = .rparen →
      Evaluates env .innerFactor (l :: u ++ [r]) z
  | inner {u : List Token} {z : Complex} : Evaluates env .unit u z → Evaluates env .innerFactor u z
  | operand {t : Token} {z : Complex} : operand? env t = some z → Evaluates env .unit [t] z

variable {env : Bindings} {X : Symbol} {w : List Token} {z : Complex}

/-! ## Tokens that have values -/

/-- The token is no equals sign, and has a value if it is an identifier. -/
def IsOrdinary (env : Bindings) (t : Token) : Prop :=
  t.kind ≠ .equals ∧ (t.kind = .ident → ∃ z, operand? env t = some z)

theorem isOrdinary_of_ne {t : Token} (hequals : t.kind ≠ .equals) (hident : t.kind ≠ .ident) :
    IsOrdinary env t :=
  ⟨hequals, fun h => absurd h hident⟩

/-- Everything but the beginning of an assignment has a value. -/
theorem Evaluates.isOrdinary (h : Evaluates env X w z) (hX : X ≠ .line) :
    ∀ t ∈ w, IsOrdinary env t := by
  induction h with
  | assign | eval => exact absurd rfl hX
  | expr _ ih | term _ ih | factor _ ih | inner _ ih => exact ih (by simp)
  | sum _ hop _ ihu ihv =>
      intro t ht
      obtain ht | rfl | ht : t ∈ _ ∨ t = _ ∨ t ∈ _ := by simpa using ht
      · exact ihu (by simp) t ht
      · apply isOrdinary_of_ne <;> intro heq <;> simp [heq, additive?] at hop
      · exact ihv (by simp) t ht
  | product _ hop _ ihu ihv =>
      intro t ht
      obtain ht | rfl | ht : t ∈ _ ∨ t = _ ∨ t ∈ _ := by simpa using ht
      · exact ihu (by simp) t ht
      · apply isOrdinary_of_ne <;> intro heq <;> simp [heq, multiplicative?] at hop
      · exact ihv (by simp) t ht
  | sign hf _ ih =>
      intro t ht
      rcases List.mem_cons.mp ht with rfl | ht
      · apply isOrdinary_of_ne <;> intro heq <;> simp [heq, sign?] at hf
      · exact ih (by simp) t ht
  | function hf hl _ hr ih =>
      intro t ht
      obtain rfl | rfl | ht | rfl : t = _ ∨ t = _ ∨ t ∈ _ ∨ t = _ := by simpa using ht
      · apply isOrdinary_of_ne <;> intro heq <;> simp [heq, function?] at hf
      · exact isOrdinary_of_ne (by simp [hl]) (by simp [hl])
      · exact ih (by simp) t ht
      · exact isOrdinary_of_ne (by simp [hr]) (by simp [hr])
  | paren hl _ hr ih =>
      intro t ht
      obtain rfl | ht | rfl : t = _ ∨ t ∈ _ ∨ t = _ := by simpa using ht
      · exact isOrdinary_of_ne (by simp [hl]) (by simp [hl])
      · exact ih (by simp) t ht
      · exact isOrdinary_of_ne (by simp [hr]) (by simp [hr])
  | operand ht =>
      intro t ht'
      obtain rfl := List.mem_singleton.mp ht'
      refine ⟨?_, fun _ => ⟨_, ht⟩⟩
      intro heq
      simp [heq, operand?] at ht

/-- Tokens without an equals sign are all part of the value. -/
theorem body_eq_self (h : ∀ t ∈ w, t.kind ≠ .equals) : isAssignment w = false ∧ body w = w := by
  have hassign : isAssignment w = false := by
    match w with
    | [] => rfl
    | [_] => rfl
    | x :: e :: rest => simp [isAssignment, h e (by simp)]
  exact ⟨hassign, by simp [body, hassign]⟩

/-- All identifiers in the value of a line have values. -/
theorem Evaluates.isOrdinary_body (h : Evaluates env .line w z) :
    ∀ t ∈ body w, IsOrdinary env t := by
  cases h with
  | assign hx he hu =>
      have hbody := hu.isOrdinary (by simp)
      simpa [body, isAssignment, hx, he] using hbody
  | eval hu =>
      have hordinary := hu.isOrdinary (by simp)
      rw [(body_eq_self fun t ht => (hordinary t ht).1).2]
      exact hordinary

/-! ## Agreement -/

/-- How descent reads tokens that stand for a symbol, with others behind them. -/
def ReadsAs (env : Bindings) (X : Symbol) (w : List Token) (z : Complex) : Prop :=
  match X with
  | .line => Descent.line ⟨env⟩ w = some z
  | .expr => ∀ rest : List Token, (∀ t ∈ rest.head?, multiplicative? t.kind = none) →
      Descent.expr ⟨env⟩ (w ++ rest) = sums ⟨env⟩ z rest
  | .term => ∀ rest, Descent.term ⟨env⟩ (w ++ rest) = products ⟨env⟩ z rest
  | .factor => ∀ rest, Descent.factor ⟨env⟩ (w ++ rest) = some (z, rest)
  | _ => (∃ t v, w = t :: v ∧ sign? t.kind = none) ∧
      ∀ rest, Descent.inner ⟨env⟩ (w ++ rest) = some (z, rest)

theorem sums_eq_self {rest : List Token} (h : ∀ t ∈ rest.head?, additive? t.kind = none) :
    sums ⟨env⟩ z rest = some (z, rest) := by
  cases rest with
  | nil => rw [sums]
  | cons t rest => rw [sums]; simp [h t (by simp)]

theorem products_eq_self {rest : List Token} (h : ∀ t ∈ rest.head?, multiplicative? t.kind = none) :
    products ⟨env⟩ z rest = some (z, rest) := by
  cases rest with
  | nil => rw [products]
  | cons t rest => rw [products]; simp [h t (by simp)]

theorem ReadsAs.expr_eq (h : ReadsAs env .expr w z) : Descent.expr ⟨env⟩ w = some (z, []) := by
  have hexpr := h [] (by simp)
  rwa [List.append_nil, sums] at hexpr

theorem bracketed_eq {l r : Token} {u : List Token} (hl : l.kind = .lparen) (hr : r.kind = .rparen)
    (h : ReadsAs env .expr u z) (rest : List Token) :
    bracketed ⟨env⟩ (l :: (u ++ r :: rest)) = some (z, rest) := by
  have hexpr : Descent.expr ⟨env⟩ (u ++ r :: rest) = some (z, r :: rest) := by
    rw [h (r :: rest) (by simp [hr, multiplicative?])]
    exact sums_eq_self (by simp [hr, additive?])
  simp [bracketed, hl, hr, hexpr]

theorem multiplicative?_of_additive? {X : Symbol} {op : Complex → Complex → Complex}
    (h : additive? X = some op) : multiplicative? X = none := by
  cases X <;> simp [additive?, multiplicative?] at h ⊢

/-- Descent gives tokens the value that the grammar gives them. -/
theorem Evaluates.reads (h : Evaluates env X w z) : ReadsAs env X w z := by
  induction h with
  | @assign x e u z hx he hu ih =>
      simp [ReadsAs, Descent.line, body, isAssignment, hx, he, ih.expr_eq]
  | @eval u z hu ih =>
      have hbody := (body_eq_self fun t ht => (hu.isOrdinary (by simp) t ht).1).2
      simp [ReadsAs, Descent.line, hbody, ih.expr_eq]
  | @sum u v t op x y _ hop _ ihu ihv =>
      intro rest hrest
      have hterm : Descent.term ⟨env⟩ (v ++ rest) = some (y, rest) :=
        (ihv rest).trans (products_eq_self hrest)
      rw [List.append_assoc, List.cons_append,
        ihu (t :: (v ++ rest)) (by simp [multiplicative?_of_additive? hop]), sums]
      simp [hop, hterm]
  | @expr u z _ ih =>
      intro rest hrest
      rw [Descent.expr, ih rest, products_eq_self hrest]
      rfl
  | @product u v t op x y _ hop _ ihu ihv =>
      intro rest
      rw [List.append_assoc, List.cons_append, ihu (t :: (v ++ rest)), products]
      simp [hop, ihv rest]
  | @term u z _ ih =>
      intro rest
      rw [Descent.term, ih rest]
      rfl
  | @sign t u f x hf _ ih =>
      intro rest
      rw [List.cons_append, Descent.factor]
      simp [hf, ih.2 rest]
  | @factor u z _ ih =>
      intro rest
      obtain ⟨⟨t, v, rfl, hsign⟩, hinner⟩ := ih
      rw [← hinner rest, List.cons_append, Descent.factor]
      simp [hsign]
  | @function t l r u f x hf hl _ hr ih =>
      refine ⟨⟨t, l :: u ++ [r], rfl, ?_⟩, fun rest => ?_⟩
      · revert hf
        cases t.kind <;> simp [function?, sign?]
      · rw [List.cons_append, List.cons_append, Descent.inner]
        simp [hf, bracketed_eq hl hr ih rest]
  | @paren l r u z hl _ hr ih =>
      refine ⟨⟨l, u ++ [r], rfl, by simp [hl, sign?]⟩, fun rest => ?_⟩
      rw [List.cons_append, List.cons_append, Descent.inner]
      simp [hl, function?, bracketed_eq hl hr ih rest]
  | inner _ ih => exact ih
  | @operand t z ht =>
      obtain ⟨hsign, hfun, hparen⟩ : sign? t.kind = none ∧ function? t.kind = none ∧
          t.kind ≠ .lparen := by
        revert ht
        unfold operand?
        cases t.kind <;> simp [sign?, function?]
      refine ⟨⟨t, [], rfl, hsign⟩, fun rest => ?_⟩
      rw [List.singleton_append, Descent.inner]
      simp [hfun, hparen, ht]

end Argand.Calc
