-- SUMMARY: Byte ranges of a line.

/-!
# Spans

A span is the half-open range of byte offsets that a piece of a line covers. Joining spans gives
the smallest range that covers them all, whatever their order.
-/
namespace Argand

/-- The bytes from `start` up to, but not including, `stop`. -/
structure Span where
  start : Nat
  stop : Nat
deriving DecidableEq, Inhabited

namespace Span

/-- The smallest span that covers both. -/
def merge (a b : Span) : Span :=
  ⟨min a.start b.start, max a.stop b.stop⟩

def isEmpty (a : Span) : Bool :=
  a.start == a.stop

/-- The number of bytes covered. -/
def length (a : Span) : Nat :=
  a.stop - a.start

/-- Extend a span, if there is one, by a further one, if there is one. -/
def join : Option Span → Option Span → Option Span
  | some a, some b => some (a.merge b)
  | some a, none => some a
  | none, b => b

/-- The smallest span that covers every span of the list, if it has one. -/
def hull (spans : List (Option Span)) : Option Span :=
  spans.foldl join none

/-- A span as it stands in messages. -/
def text : Option Span → String
  | none => "None"
  | some a =>
    "Some(Span \x7b start: " ++ toString a.start ++ ", end: " ++ toString a.stop ++ " \x7d)"

/-! ## Laws -/

theorem merge_comm (a b : Span) : a.merge b = b.merge a := by
  simp [merge, Nat.min_comm, Nat.max_comm]

theorem merge_assoc (a b c : Span) : (a.merge b).merge c = a.merge (b.merge c) := by
  simp [merge, Nat.min_assoc, Nat.max_assoc]

theorem merge_self (a : Span) : a.merge a = a := by
  simp [merge]

theorem join_none_right (a : Option Span) : join a none = a := by
  cases a <;> rfl

theorem join_none_left (a : Option Span) : join none a = a := by
  cases a <;> rfl

theorem join_assoc (a b c : Option Span) : join (join a b) c = join a (join b c) := by
  cases a <;> cases b <;> cases c <;> simp [join, merge_assoc]

theorem hull_cons (a : Option Span) (spans : List (Option Span)) :
    hull (a :: spans) = join a (hull spans) := by
  have hfold : ∀ b, spans.foldl join b = join b (hull spans) := by
    induction spans with
    | nil => exact fun b => (join_none_right b).symm
    | cons c spans ih =>
        intro b
        rw [hull, List.foldl_cons, List.foldl_cons, join_none_left, ih c, ih (join b c), join_assoc]
  exact (hfold _).trans (by rw [join_none_left])

theorem hull_append (xs ys : List (Option Span)) :
    hull (xs ++ ys) = join (hull xs) (hull ys) := by
  induction xs with
  | nil => exact (join_none_left _).symm
  | cons a xs ih => rw [List.cons_append, hull_cons, hull_cons, ih, join_assoc]

/-- Joining piece by piece gives the same as joining all at once. -/
theorem hull_flatten (pieces : List (List (Option Span))) :
    hull pieces.flatten = hull (pieces.map hull) := by
  induction pieces with
  | nil => rfl
  | cons piece pieces ih => rw [List.flatten_cons, hull_append, List.map_cons, hull_cons, ih]

end Span
end Argand
