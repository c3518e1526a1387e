-- SUMMARY: Looking ahead finds the longest match of the bytes ahead and the first rule for it.
import Argand.Proofs.Derivative
import Argand.Rules

/-!
# Longest matches

`IsLongest` says what looking ahead should find: the greatest length of a prefix that some rule
matches, and the first rule in order that matches this prefix. Following the rules by a byte leaves
what they match after it, in the same order (`firstMatch_step_iff`), so that whatever is read, the
matches of the bytes still ahead are those that are left to be found (`longest_lookFrom_cases`).
-/
namespace Argand.Rules

variable {ρ : Type} {rules : Rules ρ} {alternatives : List (ρ × Pattern)} {a : ρ × Pattern}
  {bs w : List UInt8} {b : UInt8} {n m : Nat} {r r' : ρ}

/-! ## First matches, rule by rule -/

theorem not_matchedBy_nil : ¬ (⟨[]⟩ : Rules ρ).MatchedBy w := by
  rintro ⟨a, ha, -⟩
  cases ha

theorem matchedBy_cons_iff :
    MatchedBy ⟨a :: alternatives⟩ w ↔ a.2.Matches w ∨ MatchedBy ⟨alternatives⟩ w := by
  simp [MatchedBy]

theorem not_firstMatch_nil : ¬ (⟨[]⟩ : Rules ρ).FirstMatch w r := by
  rintro ⟨before, p, after, heq, -⟩
  simp at heq

/-- The first match belongs to the first rule, or that one does not match. -/
theorem firstMatch_cons_iff :
    FirstMatch ⟨a :: alternatives⟩ w r ↔
      a.2.Matches w ∧ a.1 = r ∨ ¬ a.2.Matches w ∧ FirstMatch ⟨alternatives⟩ w r := by
  constructor
  · rintro ⟨before, p, after, heq, hp, hbefore⟩
    rcases List.cons_eq_append_iff.mp heq with ⟨rfl, hcons⟩ | ⟨before', rfl, rfl⟩
    · obtain ⟨rfl, -⟩ := List.cons.inj hcons
      exact .inl ⟨hp, rfl⟩
    · refine .inr ⟨hbefore a List.mem_cons_self, before', p, after, rfl, hp, fun c hc => ?_⟩
      exact hbefore c (List.mem_cons_of_mem a hc)
  · rintro (⟨ha, rfl⟩ | ⟨ha, before, p, after, rfl, hp, hbefore⟩)
    · exact ⟨[], a.2, alternatives, rfl, ha, by simp⟩
    · exact ⟨a :: before, p, after, rfl, hp, List.forall_mem_cons.mpr ⟨ha, hbefore⟩⟩

/-- Some rule is the first that matches if any matches. -/
theorem exists_firstMatch_iff : (∃ r, rules.FirstMatch w r) ↔ rules.MatchedBy w := by
  obtain ⟨alternatives⟩ := rules
  induction alternatives with
  | nil => simp [not_firstMatch_nil, not_matchedBy_nil]
  | cons a alternatives ih =>
      rw [matchedBy_cons_iff, ← ih]
      by_cases ha : a.2.Matches w <;> simp [firstMatch_cons_iff, ha]

/-- Only one rule is the first that matches. -/
theorem FirstMatch.eq (h : rules.FirstMatch w r) (h' : rules.FirstMatch w r') : r = r' := by
  obtain ⟨alternatives⟩ := rules
  induction alternatives with
  | nil => exact absurd h not_firstMatch_nil
  | cons a alternatives ih =>
      rcases firstMatch_cons_iff.mp h with ⟨ha, rfl⟩ | ⟨ha, hrest⟩ <;>
        rcases firstMatch_cons_iff.mp h' with ⟨ha', rfl⟩ | ⟨ha', hrest'⟩
      · rfl
      · exact absurd ha ha'
      · exact absurd ha' ha
      · exact ih hrest hrest'

/-! ## Following the rules -/

theorem step_cons :
    step ⟨a :: alternatives⟩ b =
      if (a.2.deriv b).isVoid then step ⟨alternatives⟩ b
      else ⟨(a.1, a.2.deriv b) :: (step ⟨alternatives⟩ b).alternatives⟩ := by
  simp only [step, List.map_cons, List.filter_cons]
  cases (a.2.deriv b).isVoid <;> rfl

/-- Rules that can no longer match may be dropped: the first match after a byte stays the first. -/
theorem firstMatch_step_iff : (rules.step b).FirstMatch w r ↔ rules.FirstMatch (b :: w) r := by
  obtain ⟨alternatives⟩ := rules
  induction alternatives with
  | nil => exact ⟨fun h => absurd h not_firstMatch_nil, fun h => absurd h not_firstMatch_nil⟩
  | cons a alternatives ih =>
      rw [step_cons, firstMatch_cons_iff]
      split
      · rename_i hvoid
        have hnone : ¬ a.2.Matches (b :: w) :=
          fun h => Pattern.isVoid_iff.mp hvoid w (Pattern.matches_deriv_iff.mpr h)
        rw [ih]
        simp [hnone]
      · rw [firstMatch_cons_iff, Pattern.matches_deriv_iff]
        exact or_congr_right (and_congr_right fun _ => ih)

theorem matchedBy_step_iff : (rules.step b).MatchedBy w ↔ rules.MatchedBy (b :: w) := by
  simp only [← exists_firstMatch_iff, firstMatch_step_iff]

/-- The winner is the first rule that matches nothing more. -/
theorem winner?_eq_some_iff : rules.winner? = some r ↔ rules.FirstMatch [] r := by
  obtain ⟨alternatives⟩ := rules
  induction alternatives with
  | nil => simp [winner?, not_firstMatch_nil]
  | cons a alternatives ih =>
      rw [firstMatch_cons_iff, ← Pattern.nullable_iff, ← ih]
      simp only [winner?, List.find?_cons]
      cases a.2.nullable <;> simp

theorem winner?_eq_none_iff : rules.winner? = none ↔ ¬ rules.MatchedBy [] := by
  rw [← exists_firstMatch_iff]
  simp only [← winner?_eq_some_iff, ← Option.isSome_iff_exists, Option.not_isSome_iff_eq_none]

/-! ## Prefixes that are matched -/

/-- The longest prefix of the bytes that some rule matches has length `n`, and `r` is the first
rule that matches it. -/
structure IsLongest (rules : Rules ρ) (bs : List UInt8) (n : Nat) (r : ρ) : Prop where
  le_length : n ≤ bs.length
  firstMatch : rules.FirstMatch (bs.take n) r
  longest : ∀ m, n < m → m ≤ bs.length → ¬ rules.MatchedBy (bs.take m)

/-- No prefix of the bytes is matched by any rule. -/
def MatchesNoPrefix (rules : Rules ρ) (bs : List UInt8) : Prop :=
  ∀ m, m ≤ bs.length → ¬ rules.MatchedBy (bs.take m)

theorem IsLongest.matchedBy (h : rules.IsLongest bs n r) : rules.MatchedBy (bs.take n) :=
  exists_firstMatch_iff.mp ⟨r, h.firstMatch⟩

/-- A longest match is no shorter than any match. -/
theorem IsLongest.le (h : rules.IsLongest bs n r) (hm : m ≤ bs.length)
    (hmatched : rules.MatchedBy (bs.take m)) : m ≤ n :=
  Nat.le_of_not_lt fun hlt => h.longest m hlt hm hmatched

/-- A first match is the longest where none has more of what follows. -/
theorem FirstMatch.isLongest (h : rules.FirstMatch w r)
    (hmore : ∀ b v, b :: v <+: bs → ¬ rules.MatchedBy (w ++ b :: v)) :
    rules.IsLongest (w ++ bs) w.length r := by
  refine ⟨by simp, by rwa [List.take_left' rfl], fun m hlt hle => ?_⟩
  obtain ⟨k, rfl⟩ := Nat.exists_eq_add_of_lt hlt
  rw [List.length_append, Nat.add_assoc] at hle
  obtain ⟨b, v, rfl⟩ := List.exists_cons_of_length_pos (by omega : 0 < bs.length)
  rw [Nat.add_assoc, List.take_length_add_append, List.take_succ_cons]
  exact hmore b _ (List.take_prefix (k + 1) (b :: v))

/-- Bytes have one longest match at most. -/
theorem IsLongest.unique (h : rules.IsLongest bs n r) (h' : rules.IsLongest bs m r') :
    n = m ∧ r = r' := by
  obtain rfl := Nat.le_antisymm (h'.le h.le_length h.matchedBy) (h.le h'.le_length h'.matchedBy)
  exact ⟨rfl, h.firstMatch.eq h'.firstMatch⟩

theorem matchesNoPrefix_nil_iff : rules.MatchesNoPrefix [] ↔ ¬ rules.MatchedBy [] := by
  simp [MatchesNoPrefix]

theorem matchesNoPrefix_cons_iff :
    rules.MatchesNoPrefix (b :: bs) ↔ ¬ rules.MatchedBy [] ∧ (rules.step b).MatchesNoPrefix bs := by
  simp only [MatchesNoPrefix, matchedBy_step_iff]
  constructor
  · exact fun h => ⟨h 0 (Nat.zero_le _), fun m hm => h (m + 1) (Nat.succ_le_succ hm)⟩
  · rintro ⟨hnil, hcons⟩ m hm
    cases m with
    | zero => exact hnil
    | succ m => exact hcons m (Nat.le_of_succ_le_succ hm)

/-- The longest match of what follows a byte, with the byte before it. -/
theorem IsLongest.cons (h : (rules.step b).IsLongest bs n r) :
    rules.IsLongest (b :: bs) (n + 1) r := by
  refine ⟨Nat.succ_le_succ h.le_length, firstMatch_step_iff.mp h.firstMatch, fun m hlt hle => ?_⟩
  obtain ⟨m, rfl⟩ := Nat.exists_eq_succ_of_ne_zero (by omega : m ≠ 0)
  have hnone := h.longest m (Nat.lt_of_succ_lt_succ hlt) (Nat.le_of_succ_le_succ hle)
  rwa [matchedBy_step_iff] at hnone

/-- The empty prefix is the longest match where nothing longer is matched. -/
theorem isLongest_zero (hfirst : rules.FirstMatch [] r)
    (hnone : (rules.step b).MatchesNoPrefix bs) : rules.IsLongest (b :: bs) 0 r := by
  refine ⟨Nat.zero_le _, hfirst, fun m hlt hle => ?_⟩
  obtain ⟨m, rfl⟩ := Nat.exists_eq_succ_of_ne_zero (by omega : m ≠ 0)
  have hstep := hnone m (Nat.le_of_succ_le_succ hle)
  rwa [matchedBy_step_iff] at hstep

/-- Dead rules match nothing, however many bytes are ahead. -/
theorem matchesNoPrefix_of_isDead (h : rules.isDead = true) : rules.MatchesNoPrefix bs := by
  rintro m - ⟨a, ha, -⟩
  rw [List.isEmpty_iff.mp h] at ha
  cases ha

/-! ## Looking ahead -/

/-- Looking ahead finds the longest match of the bytes ahead, or keeps what was found before. -/
theorem longest_lookFrom_cases (rules : Rules ρ) (n : Nat) (best : Option (Nat × ρ))
    (bs : List UInt8) :
    (∃ m r, rules.IsLongest bs m r ∧ (rules.lookFrom n best bs).longest = some (n + m, r)) ∨
      (rules.MatchesNoPrefix bs ∧ (rules.lookFrom n best bs).longest = best) := by
  induction bs generalizing rules n best with
  | nil =>
      rw [lookFrom]
      split
      · rename_i r hwinner
        have hfirst := winner?_eq_some_iff.mp hwinner
        refine .inl ⟨0, r, ⟨Nat.le_refl _, hfirst, fun m hlt hle => ?_⟩, rfl⟩
        exact absurd hlt (Nat.not_lt.mpr hle)
      · rename_i hwinner
        exact .inr ⟨matchesNoPrefix_nil_iff.mpr (winner?_eq_none_iff.mp hwinner), rfl⟩
  | cons b bs ih =>
      rw [lookFrom]
      split
      · rename_i r hwinner
        have hfirst := winner?_eq_some_iff.mp hwinner
        rcases ih (rules.step b) (n + 1) (some (n, r)) with
          ⟨m, r', hm, hlongest⟩ | ⟨hnone, hlongest⟩
        · exact .inl ⟨m + 1, r', hm.cons, by rw [hlongest, Nat.add_right_comm, Nat.add_assoc]⟩
        · exact .inl ⟨0, r, isLongest_zero hfirst hnone, hlongest⟩
      · rename_i hwinner
        have hempty := winner?_eq_none_iff.mp hwinner
        split
        · rename_i hdead
          have hnone : (rules.step b).MatchesNoPrefix bs := matchesNoPrefix_of_isDead hdead
          exact .inr ⟨matchesNoPrefix_cons_iff.mpr ⟨hempty, hnone⟩, rfl⟩
        · rcases ih (rules.step b) (n + 1) best with ⟨m, r, hm, hlongest⟩ | ⟨hnone, hlongest⟩
          · exact .inl ⟨m + 1, r, hm.cons, by rw [hlongest, Nat.add_right_comm, Nat.add_assoc]⟩
          · exact .inr ⟨matchesNoPrefix_cons_iff.mpr ⟨hempty, hnone⟩, hlongest⟩

/-- Looking ahead finds the longest match. -/
theorem longest_look_eq_some_iff :
    (rules.look bs).longest = some (n, r) ↔ rules.IsLongest bs n r := by
  rcases longest_lookFrom_cases rules 0 none bs with ⟨m, r', hm, hlongest⟩ | ⟨hnone, hlongest⟩
  · rw [look, hlongest, Nat.zero_add, Option.some.injEq, Prod.mk.injEq]
    constructor
    · rintro ⟨rfl, rfl⟩
      exact hm
    · exact hm.unique
  · rw [look, hlongest]
    exact ⟨nofun, fun h => absurd h.matchedBy (hnone n h.le_length)⟩

/-- Looking ahead finds nothing where no prefix is matched. -/
theorem longest_look_eq_none_iff :
    (rules.look bs).longest = none ↔ rules.MatchesNoPrefix bs := by
  rcases longest_lookFrom_cases rules 0 none bs with ⟨m, r, hm, hlongest⟩ | ⟨hnone, hlongest⟩
  · rw [look, hlongest]
    exact ⟨nofun, fun h => absurd hm.matchedBy (h m hm.le_length)⟩
  · exact ⟨fun _ => hnone, fun _ => hlongest⟩

end Argand.Rules
