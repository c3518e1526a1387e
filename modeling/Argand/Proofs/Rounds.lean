-- SUMMARY: Loops that make rounds over a value and stop after the first round that changes nothing.
import Mathlib.Logic.Function.Iterate
import Mathlib.Order.Basic

/-!
# Rounds until nothing changes

A value is changed in place, step by step, and each change raises a flag. A loop lowers the flag
before each round and goes on while the last round has raised it. When every change makes the value
larger and its size is bounded, the loop ends with a value that a whole round leaves alone
(`iterate_round`); and a round that leaves the value alone consists of steps that do so
(`Grows.foldl_fixed`).
-/
namespace Argand

/-- A value, and whether it has been changed since the flag was lowered. -/
structure Marked (α : Type) where
  value : α
  changed : Bool

namespace Marked

variable {α β : Type} {size : α → Nat} {m m' m'' : Marked α} {l : List β}
  {step : Marked α → β → Marked α}

/-- Change the value and raise the flag, if there is something to change. -/
def update (change? : α → Option α) (m : Marked α) : Marked α :=
  match change? m.value with
  | some a => ⟨a, true⟩
  | none => m

/-- Lower the flag and make a round, if the last one has raised the flag. -/
def round (pass : Marked α → Marked α) (m : Marked α) : Marked α :=
  if m.changed then pass ⟨m.value, false⟩ else m

/-! ## Growing -/

/-- Nothing has happened, or the value has become larger and the flag is up. -/
def Grows (size : α → Nat) (m m' : Marked α) : Prop :=
  m' = m ∨ m'.changed = true ∧ size m.value < size m'.value

namespace Grows

theorem refl (m : Marked α) : Grows size m m :=
  .inl rfl

theorem trans (h : Grows size m m') (h' : Grows size m' m'') : Grows size m m'' := by
  rcases h' with rfl | ⟨hchanged', hlt'⟩
  · exact h
  · rcases h with rfl | ⟨-, hlt⟩
    · exact .inr ⟨hchanged', hlt'⟩
    · exact .inr ⟨hchanged', Nat.lt_trans hlt hlt'⟩

theorem ite {c : Prop} [Decidable c] (h : Grows size m m') :
    Grows size m (if c then m' else m) := by
  split
  · exact h
  · exact .refl m

/-- What comes back to where it began has stayed there all along. -/
theorem stays (h : Grows size m m') (h' : Grows size m' m'') (hback : m'' = m) : m' = m := by
  subst hback
  rcases h with rfl | ⟨-, hlt⟩
  · rfl
  · rcases h' with rfl | ⟨-, hlt'⟩
    · rfl
    · exact absurd hlt' (Nat.lt_asymm hlt)

theorem foldl (h : ∀ m x, Grows size m (step m x)) (m : Marked α) (l : List β) :
    Grows size m (l.foldl step m) := by
  induction l generalizing m with
  | nil => exact .refl m
  | cons x l ih => exact (h m x).trans (ih (step m x))

/-- Steps that lead back to where they began do nothing each. -/
theorem foldl_fixed (h : ∀ m x, Grows size m (step m x)) (hfixed : l.foldl step m = m) :
    ∀ x ∈ l, step m x = m := by
  induction l with
  | nil => simp
  | cons x l ih =>
      rw [List.foldl_cons] at hfixed
      have hfirst : step m x = m := (h m x).stays (foldl h (step m x) l) hfixed
      rw [hfirst] at hfixed
      exact List.forall_mem_cons.mpr ⟨hfirst, ih hfixed⟩

end Grows

/-! ## Single changes -/

variable {change? : α → Option α}

theorem grows_update (h : ∀ a b, change? a = some b → size a < size b) (m : Marked α) :
    Grows size m (m.update change?) := by
  unfold update
  split
  · exact .inr ⟨rfl, h _ _ ‹_›⟩
  · exact .refl m

/-- A change that changes nothing has nothing to change. -/
theorem eq_none_of_update (h : ∀ a b, change? a = some b → size a < size b)
    (hfixed : m.update change? = m) : change? m.value = none := by
  cases hchange : change? m.value with
  | none => rfl
  | some a =>
      have hlt := h _ _ hchange
      rw [update, hchange] at hfixed
      rw [← hfixed] at hlt
      exact absurd hlt (Nat.lt_irrefl _)

theorem update_keeps {P : α → Prop} (h : ∀ b, change? m.value = some b → P b) (hm : P m.value) :
    P (m.update change?).value := by
  unfold update
  split
  · exact h _ ‹_›
  · exact hm

theorem foldl_keeps {P : α → Prop} (h : ∀ m, ∀ x ∈ l, P m.value → P (step m x).value)
    (hm : P m.value) : P (l.foldl step m).value := by
  induction l generalizing m with
  | nil => exact hm
  | cons x l ih =>
      exact ih (fun m y hy => h m y (List.mem_cons_of_mem _ hy)) (h m x List.mem_cons_self hm)

/-! ## The loop -/

variable {P : α → Prop} {pass : Marked α → Marked α} {bound : Nat}

theorem round_lowered (a : α) : round pass ⟨a, false⟩ = ⟨a, false⟩ := rfl

/-- The loop ends, with a value that a whole round leaves alone and that has what rounds keep. -/
theorem iterate_round (hgrows : ∀ m, Grows size m (pass m))
    (hkeeps : ∀ m, P m.value → P (pass m).value) (hbound : ∀ a, P a → size a ≤ bound) {a : α}
    (ha : P a) :
    ∃ b, P b ∧ pass ⟨b, false⟩ = ⟨b, false⟩ ∧
      ∀ n > bound - size a, (round pass)^[n] ⟨a, true⟩ = ⟨b, false⟩ := by
  -- A round that changes the value brings it nearer to the bound.
  induction hk : bound - size a using Nat.strongRecOn generalizing a with
  | ind k ih =>
    have hround : round pass ⟨a, true⟩ = pass ⟨a, false⟩ := rfl
    rcases hgrows ⟨a, false⟩ with hfixed | ⟨hchanged, hlt⟩
    · refine ⟨a, ha, hfixed, fun n hn => ?_⟩
      obtain ⟨n, rfl⟩ := Nat.exists_eq_succ_of_ne_zero (Nat.ne_zero_of_lt hn)
      rw [Function.iterate_succ_apply, hround, hfixed]
      exact Function.iterate_fixed (round_lowered a) n
    · have hlt : size a < size (pass ⟨a, false⟩).value := hlt
      have hkept := hkeeps ⟨a, false⟩ ha
      have hle := hbound _ hkept
      have hvalue : pass ⟨a, false⟩ = ⟨(pass ⟨a, false⟩).value, true⟩ := by rw [← hchanged]
      obtain ⟨b, hb, hfixed, hends⟩ := ih _ (by omega) hkept rfl
      refine ⟨b, hb, hfixed, fun n hn => ?_⟩
      obtain ⟨n, rfl⟩ := Nat.exists_eq_succ_of_ne_zero (Nat.ne_zero_of_lt hn)
      rw [Function.iterate_succ_apply, hround, hvalue]
      exact hends n (by omega)

end Marked
end Argand
