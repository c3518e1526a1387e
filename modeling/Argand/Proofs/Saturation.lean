-- SUMMARY: A saturation is the least set of candidates that is closed under its rule.
import Argand.Saturation
import Mathlib.Data.List.Basic

/-!
# Saturations are least closed sets

`saturate_closed` says that a candidate which follows from the result is in the result, and
`saturate_induction` that a property of everything that follows from members with the property
holds of the whole result. No rule has to be monotone for either. The rounds come to an end by
themselves, not because they are used up: one more would add nothing (`saturateOnce_saturate`).
-/
namespace Argand

variable {α : Type} [DecidableEq α] {candidates found : List α} {follows : List α → α → Bool}
  {x : α} {rounds : Nat}

/-! ## Rounds -/

theorem mem_saturateOnce :
    x ∈ saturateOnce candidates follows found ↔
      x ∈ candidates ∧ (x ∈ found ∨ follows found x = true) := by
  simp [saturateOnce]

/-- What has been found, in the order of the candidates. -/
def InOrder (candidates found : List α) : Prop :=
  candidates.filter (fun x => found.contains x) = found

theorem InOrder.sublist (h : InOrder candidates found) : found.Sublist candidates := by
  rw [← h]
  exact List.filter_sublist

theorem inOrder_nil : InOrder candidates [] := by
  simp [InOrder]

theorem inOrder_saturateOnce : InOrder candidates (saturateOnce candidates follows found) := by
  unfold InOrder
  conv_rhs => rw [saturateOnce]
  apply List.filter_congr
  intro x hx
  rw [Bool.eq_iff_iff]
  simp [mem_saturateOnce, hx]

/-- Nothing is lost in a round. -/
theorem InOrder.sublist_saturateOnce (h : InOrder candidates found) :
    found.Sublist (saturateOnce candidates follows found) := by
  conv_lhs => rw [← h]
  apply List.monotone_filter_right
  intro x hx
  simp_all

theorem InOrder.subset_saturateFrom (h : InOrder candidates found) :
    found ⊆ saturateFrom candidates follows rounds found := by
  induction rounds generalizing found with
  | zero => exact fun _ hx => hx
  | succ rounds ih =>
      simp only [saturateFrom]
      split
      · exact fun _ hx => hx
      · exact List.Subset.trans h.sublist_saturateOnce.subset (ih inOrder_saturateOnce)

/-! ## Closedness -/

/-- With a round left for every candidate not yet found, the last round adds nothing. -/
private theorem InOrder.saturateFrom_closed (h : InOrder candidates found)
    (hrounds : candidates.length ≤ found.length + rounds) (hx : x ∈ candidates)
    (hfollows : follows (saturateFrom candidates follows rounds found) x = true) :
    x ∈ saturateFrom candidates follows rounds found := by
  induction rounds generalizing found with
  | zero =>
      have heq : found = candidates := h.sublist.eq_of_length_le (by simpa using hrounds)
      simpa [saturateFrom, heq] using hx
  | succ rounds ih =>
      simp only [saturateFrom] at hfollows ⊢
      split at hfollows
      · rename_i hlen
        have heq : found = saturateOnce candidates follows found :=
          h.sublist_saturateOnce.eq_of_length hlen.symm
        rw [if_pos hlen, heq]
        exact mem_saturateOnce.mpr ⟨hx, .inr hfollows⟩
      · rename_i hlen
        rw [if_neg hlen]
        have hle : found.length ≤ (saturateOnce candidates follows found).length :=
          h.sublist_saturateOnce.length_le
        exact ih inOrder_saturateOnce (by omega) hfollows

theorem saturate_closed (hx : x ∈ candidates)
    (hfollows : follows (saturate candidates follows) x = true) :
    x ∈ saturate candidates follows :=
  inOrder_nil.saturateFrom_closed (by simp) hx hfollows

private theorem InOrder.inOrder_saturateFrom (h : InOrder candidates found) :
    InOrder candidates (saturateFrom candidates follows rounds found) := by
  induction rounds generalizing found with
  | zero => exact h
  | succ rounds ih =>
      simp only [saturateFrom]
      split
      · exact h
      · exact ih inOrder_saturateOnce

/-- Another round adds nothing. -/
theorem saturateOnce_saturate :
    saturateOnce candidates follows (saturate candidates follows) =
      saturate candidates follows := by
  have horder : InOrder candidates (saturate candidates follows) := inOrder_nil.inOrder_saturateFrom
  conv_rhs => rw [← horder]
  refine List.filter_congr fun x hx => ?_
  rw [Bool.eq_iff_iff, Bool.or_eq_true]
  exact ⟨fun h => h.elim id fun hfollows => List.contains_iff_mem.mpr (saturate_closed hx hfollows),
    .inl⟩

/-! ## Leastness -/

private theorem InOrder.saturateFrom_induction {P : α → Prop} (h : InOrder candidates found)
    (hfound : ∀ y ∈ found, P y)
    (hstep : ∀ known, (∀ y ∈ known, y ∈ saturateFrom candidates follows rounds found ∧ P y) →
      ∀ y ∈ candidates, follows known y = true → P y) :
    ∀ y ∈ saturateFrom candidates follows rounds found, P y := by
  induction rounds generalizing found with
  | zero => exact hfound
  | succ rounds ih =>
      simp only [saturateFrom] at hstep ⊢
      split
      · exact hfound
      · rename_i hlen
        rw [if_neg hlen] at hstep
        refine ih inOrder_saturateOnce (fun y hy => ?_) hstep
        obtain ⟨hcand, hold | hnew⟩ := mem_saturateOnce.mp hy
        · exact hfound y hold
        · refine hstep found (fun z hz => ⟨?_, hfound z hz⟩) y hcand hnew
          exact inOrder_saturateOnce.subset_saturateFrom (h.sublist_saturateOnce.subset hz)

/-- What holds of everything that follows from members of which it holds, holds of all members. -/
theorem saturate_induction {P : α → Prop}
    (hstep : ∀ known, (∀ y ∈ known, y ∈ saturate candidates follows ∧ P y) →
      ∀ y ∈ candidates, follows known y = true → P y) :
    ∀ y ∈ saturate candidates follows, P y :=
  inOrder_nil.saturateFrom_induction (by simp) hstep

end Argand
