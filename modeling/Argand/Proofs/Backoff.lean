-- SUMMARY: How far a scan reads beyond its match: bounds for patterns, for rules and for lexers.
import Argand.Proofs.Pushback

/-!
# Bounded back-off

Every beginning of a match may be a match itself, or lag behind one: the last match within it, or
its beginning, is some bytes back. How many at most can be computed from a pattern (`Pattern.lag?`),
and for rules it need not be a rule's own match that comes before (`Rules.LagsBy`). A scan reads on
while what it has read begins a match, and one byte further, so where beginnings lag by at most `k`
bytes it pushes back no more than `k + 1` of them (`Cursor.length_pushbacks_le`). The bytes that are
to be read again are then bounded too, however often they were pushed back (`IsBoundedBy.scan`).
-/
namespace Argand

/-! ## Patterns -/

namespace Pattern

variable {p q : Pattern} {s : ByteSet} {L L' : List UInt8 → Prop} {x v w : List UInt8} {k m : Nat}

/-- Every beginning of a match is nothing or in `L`, but for `k` bytes at most at its end. -/
def LagsBy (p : Pattern) (L : List UInt8 → Prop) (k : Nat) : Prop :=
  ∀ x v, p.Matches (x ++ v) → ∃ y z, x = y ++ z ∧ (y = [] ∨ L y) ∧ z.length ≤ k

namespace LagsBy

theorem mono (h : p.LagsBy L k) (hL : ∀ w, L w → w = [] ∨ L' w) (hk : k ≤ m) :
    p.LagsBy L' m := by
  intro x v hmatches
  obtain ⟨y, z, rfl, hy, hz⟩ := h x v hmatches
  refine ⟨y, z, rfl, ?_, Nat.le_trans hz hk⟩
  rcases hy with hy | hy
  · exact .inl hy
  · exact hL y hy

/-- What matches less lags no more. -/
theorem of_matches (h : q.LagsBy L k) (hsub : ∀ w, p.Matches w → q.Matches w) : p.LagsBy L k :=
  fun x v hmatches => h x v (hsub _ hmatches)

/-- Short matches lag by their length. -/
theorem of_length_le (h : ∀ w, p.Matches w → w.length ≤ k) : p.LagsBy L k := by
  intro x v hmatches
  have hlength := h _ hmatches
  rw [List.length_append] at hlength
  exact ⟨[], x, rfl, .inl rfl, by omega⟩

/-- A sequence whose first part does not fall behind, and neither does its second one. -/
theorem seq (hp : p.LagsBy L k) (hmiddle : ∀ w, p.Matches w → w = [] ∨ L w)
    (hq : q.LagsBy q.Matches k) (hend : ∀ w, (Pattern.seq p q).Matches w → L w) :
    (Pattern.seq p q).LagsBy L k := by
  intro x v hmatches
  obtain ⟨u, t, hut, hu, ht⟩ := matches_seq_iff.mp hmatches
  rcases List.append_eq_append_iff.mp hut with ⟨u', rfl, rfl⟩ | ⟨x', rfl, rfl⟩
  · exact hp x u' hu
  · obtain ⟨y, z, rfl, hy, hz⟩ := hq x' v ht
    refine ⟨u ++ y, z, by rw [List.append_assoc], ?_, hz⟩
    rcases hy with rfl | hy
    · rw [List.append_nil]
      exact hmiddle u hu
    · exact .inr (hend _ (.seq hu hy))

/-- A sequence whose first part is short. -/
theorem seq_of_length_le (hp : ∀ w, p.Matches w → w.length ≤ m) (hq : q.LagsBy q.Matches k) :
    (Pattern.seq p q).LagsBy (Pattern.seq p q).Matches (m + k) := by
  intro x v hmatches
  obtain ⟨u, t, hut, hu, ht⟩ := matches_seq_iff.mp hmatches
  have hlength := hp u hu
  rcases List.append_eq_append_iff.mp hut with ⟨u', rfl, rfl⟩ | ⟨x', rfl, rfl⟩
  · rw [List.length_append] at hlength
    exact ⟨[], x, rfl, .inl rfl, by omega⟩
  · obtain ⟨y, z, rfl, rfl | hy, hz⟩ := hq x' v ht
    · exact ⟨[], u ++ z, rfl, .inl rfl, by rw [List.length_append]; omega⟩
    · exact ⟨u ++ y, z, by rw [List.append_assoc], .inr (.seq hu hy), by omega⟩

theorem alt (hp : p.LagsBy L k) (hq : q.LagsBy L k) : (Pattern.alt p q).LagsBy L k := by
  intro x v hmatches
  rcases matches_alt_iff.mp hmatches with h | h
  · exact hp x v h
  · exact hq x v h

theorem star (hp : p.LagsBy p.Matches k) : (Pattern.star p).LagsBy (Pattern.star p).Matches k := by
  intro x v hmatches
  generalize hr : Pattern.star p = r, hw : x ++ v = w at hmatches
  induction hmatches generalizing x with
  | starNil =>
      obtain ⟨rfl, -⟩ := List.append_eq_nil_iff.mp hw
      exact ⟨[], [], rfl, .inl rfl, Nat.zero_le _⟩
  | @starCons p' u t hu ht _ ih =>
      obtain rfl := Pattern.star.inj hr
      rcases List.append_eq_append_iff.mp hw with ⟨u', rfl, -⟩ | ⟨x', rfl, hrest⟩
      · -- The beginning ends within the first part.
        obtain ⟨y, z, rfl, rfl | hy, hz⟩ := hp x u' hu
        · exact ⟨[], z, rfl, .inl rfl, hz⟩
        · have hone := Matches.starCons hy .starNil
          rw [List.append_nil] at hone
          exact ⟨y, z, rfl, .inr hone, hz⟩
      · obtain ⟨y, z, rfl, hy, hz⟩ := ih x' rfl hrest.symm
        refine ⟨u ++ y, z, by rw [List.append_assoc], .inr (.starCons hu ?_), hz⟩
        rcases hy with rfl | hy
        · exact .starNil
        · exact hy
  | _ => cases hr

end LagsBy

/-! ## Bounds computed -/

/-- The length of the longest match, if there is one. -/
def width? : Pattern → Option Nat
  | void => some 0
  | empty => some 0
  | byte _ => some 1
  | seq p q => do return (← p.width?) + (← q.width?)
  | alt p q => do return Nat.max (← p.width?) (← q.width?)
  | star _ => none

/-- By how many bytes beginnings of matches lag behind matches, if there is a bound. -/
def lag? : Pattern → Option Nat
  | void => some 0
  | empty => some 0
  | byte _ => some 0
  | seq p q =>
    if q.nullable then do return Nat.max (← p.lag?) (← q.lag?)
    else do return (← p.width?) + (← q.lag?)
  | alt p q => do return Nat.max (← p.lag?) (← q.lag?)
  | star p => p.lag?

/-- Two bounds that are both there, put together. -/
theorem bind_eq_some_iff₂ {a b : Option Nat} {f : Nat → Nat → Nat} :
    (do return f (← a) (← b)) = some k ↔ ∃ m n, a = some m ∧ b = some n ∧ f m n = k := by
  cases a <;> cases b <;> simp

theorem length_le_of_width? (h : p.width? = some m) (hw : p.Matches w) : w.length ≤ m := by
  induction hw generalizing m with
  | empty => exact Nat.zero_le _
  | byte _ =>
      obtain rfl := Option.some.inj h
      exact Nat.le_refl 1
  | seq _ _ ihu ihv =>
      obtain ⟨a, b, ha, hb, rfl⟩ := bind_eq_some_iff₂.mp h
      rw [List.length_append]
      exact Nat.add_le_add (ihu ha) (ihv hb)
  | altLeft _ ih =>
      obtain ⟨a, b, ha, -, rfl⟩ := bind_eq_some_iff₂.mp h
      exact Nat.le_trans (ih ha) (Nat.le_max_left a b)
  | altRight _ ih =>
      obtain ⟨a, b, -, hb, rfl⟩ := bind_eq_some_iff₂.mp h
      exact Nat.le_trans (ih hb) (Nat.le_max_right a b)
  | starNil | starCons => cases h

/-- The bound computed is one. -/
theorem lagsBy_of_lag? (h : p.lag? = some k) : p.LagsBy p.Matches k := by
  induction p generalizing k with
  | void => exact .of_length_le fun w hw => (matches_void_iff.mp hw).elim
  | empty => exact .of_length_le fun w hw => by simp [matches_empty_iff.mp hw]
  | byte s =>
      intro x v hmatches
      obtain ⟨b, hb, heq⟩ := matches_byte_iff.mp hmatches
      rcases List.append_eq_singleton_iff.mp heq with ⟨rfl, -⟩ | ⟨rfl, -⟩
      · exact ⟨[], [], rfl, .inl rfl, Nat.zero_le _⟩
      · exact ⟨[b], [], rfl, .inr (.byte hb), Nat.zero_le _⟩
  | seq p q ihp ihq =>
      rw [lag?] at h
      split at h
      · rename_i hnull
        obtain ⟨a, b, ha, hb, rfl⟩ := bind_eq_some_iff₂.mp h
        -- What the first part matches, the sequence matches without a second one.
        have hleft : ∀ w, p.Matches w → w = [] ∨ (seq p q).Matches w := fun w hw => by
          have hboth := Matches.seq hw (nullable_iff.mp hnull)
          rw [List.append_nil] at hboth
          exact .inr hboth
        exact .seq ((ihp ha).mono hleft (Nat.le_max_left a b)) hleft
          ((ihq hb).mono (fun _ => .inr) (Nat.le_max_right a b)) fun _ => id
      · obtain ⟨a, b, ha, hb, rfl⟩ := bind_eq_some_iff₂.mp h
        exact .seq_of_length_le (fun _ => length_le_of_width? ha) (ihq hb)
  | alt p q ihp ihq =>
      obtain ⟨a, b, ha, hb, rfl⟩ := bind_eq_some_iff₂.mp h
      exact .alt ((ihp ha).mono (fun _ hw => .inr (.altLeft hw)) (Nat.le_max_left a b))
        ((ihq hb).mono (fun _ hw => .inr (.altRight hw)) (Nat.le_max_right a b))
  | star p ih => exact .star (ih h)

end Pattern

/-! ## Rules -/

namespace Rules

variable {ρ : Type} {rules : Rules ρ} {best : Option (Nat × ρ)} {b : UInt8} {bs : List UInt8}
  {j k n m : Nat} {r : ρ}

/-- Every beginning of a match is nothing or is matched, but for `k` bytes at most at its end. -/
def LagsBy (rules : Rules ρ) (k : Nat) : Prop :=
  ∀ a ∈ rules.alternatives, a.2.LagsBy rules.MatchedBy k

/-- Rules that are not dead after a byte match something that begins with it. -/
theorem exists_matchedBy_of_not_isDead (h : ¬ (rules.step b).isDead = true) :
    ∃ v, rules.MatchedBy (b :: v) := by
  obtain ⟨a, ha⟩ := List.exists_mem_of_ne_nil _ fun hnil => h (List.isEmpty_iff.mpr hnil)
  have hvoid : ¬ a.2.isVoid = true := by simpa using (List.mem_filter.mp ha).2
  obtain ⟨v, hv⟩ := Classical.not_forall_not.mp (mt Pattern.isVoid_iff.mpr hvoid)
  exact ⟨v, matchedBy_step_iff.mp ⟨a, ha, hv⟩⟩

/-- Before the last byte read, what was read begins a match, or it is a match with one byte behind
it. -/
theorem begins_of_bytesRead (h : (rules.lookFrom n best bs).bytesRead = n + (j + 2)) :
    (∃ v, rules.MatchedBy (bs.take (j + 1) ++ v)) ∨ rules.MatchedBy (bs.take j) := by
  induction bs generalizing rules n best j with
  | nil =>
      rw [lookFrom] at h
      split at h <;> simp at h
  | cons b bs ih =>
      -- Reading went on after `b`, because of a match before it or of one that it belongs to.
      obtain ⟨best', hread, hfirst⟩ : ∃ best',
          ((rules.step b).lookFrom (n + 1) best' bs).bytesRead = n + (j + 2) ∧
            ((∃ v, rules.MatchedBy (b :: v)) ∨ rules.MatchedBy []) := by
        rw [lookFrom] at h
        split at h
        · rename_i r hwinner
          exact ⟨_, h, .inr (exists_firstMatch_iff.mp ⟨r, winner?_eq_some_iff.mp hwinner⟩)⟩
        · split at h
          · simp at h
          · rename_i hdead
            exact ⟨_, h, .inl (exists_matchedBy_of_not_isDead hdead)⟩
      cases j with
      | zero => exact hfirst
      | succ j =>
          have hnext := ih (n := n + 1) (j := j) (by rw [hread]; omega)
          simpa only [matchedBy_step_iff, List.take_succ_cons, List.cons_append] using hnext

/-- A match is looked for no further than the lag and one byte behind it. -/
theorem LagsBy.bytesRead_le (h : rules.LagsBy k) (hk : 0 < k)
    (hlongest : (rules.look bs).longest = some (m, r)) :
    (rules.look bs).bytesRead ≤ m + (k + 1) := by
  have hlength := rules.bytesRead_look_le bs
  have hmax := longest_look_eq_some_iff.mp hlongest
  by_contra hgt
  obtain ⟨j, hj⟩ : ∃ j, (rules.look bs).bytesRead = j + 2 :=
    ⟨(rules.look bs).bytesRead - 2, by omega⟩
  rcases begins_of_bytesRead (n := 0) (by rw [Nat.zero_add]; exact hj) with
    ⟨v, a, ha, hv⟩ | hmatched
  · obtain ⟨y, z, hyz, hy, hz⟩ := h a ha _ v hv
    have hsum : j + 1 = y.length + z.length := by
      rw [← List.length_append, ← hyz, List.length_take]
      omega
    rcases hy with rfl | hy
    · rw [List.length_nil] at hsum
      omega
    · have hprefix : y <+: bs :=
        (List.prefix_append y z).trans (hyz ▸ List.take_prefix (j + 1) bs)
      have hle := hmax.le hprefix.length_le (List.prefix_iff_eq_take.mp hprefix ▸ hy)
      omega
  · have hle := hmax.le (by omega) hmatched
    omega

end Rules

/-! ## Scans -/

namespace Cursor

variable {ρ : Type} {rules : Rules ρ} {c : Cursor} {k : Nat}

/-- No more is pushed back than was read behind the match. -/
theorem length_pushbacks_le (h : rules.LagsBy k) (hk : 0 < k) (c : Cursor) :
    (c.pushbacks rules).length ≤ k + 1 := by
  rw [pushbacks_eq, List.length_map, List.length_range, Sighting.kept]
  cases hlongest : (rules.look c.ahead).longest with
  | some found =>
      have hread := h.bytesRead_le (m := found.1) (r := found.2) hk hlongest
      exact Nat.sub_le_iff_le_add'.mpr hread
  | none =>
      rw [Nat.sub_self]
      exact Nat.zero_le _

/-- At most `k` bytes wait to be read again, and for each scan at most `k` were pushed back. -/
structure IsBoundedBy (c : Cursor) (k : Nat) : Prop where
  pushed_le : c.pushed.length ≤ k
  unreads_le : c.counts.unreads ≤ k * c.counts.scans

theorem isBoundedBy_ofBytes (bs : List UInt8) (k : Nat) : (ofBytes bs).IsBoundedBy k :=
  ⟨Nat.zero_le _, Nat.zero_le _⟩

/-- A scan reads all bytes that wait before it reads others, so those that wait afterwards are those
that it has pushed back, or some that waited before. -/
theorem IsBoundedBy.scan (h : c.IsBoundedBy (k + 1)) (hlag : rules.LagsBy k) (hk : 0 < k) :
    (c.scan rules).2.IsBoundedBy (k + 1) := by
  have hback := length_pushbacks_le hlag hk c
  rw [pushbacks_eq, List.length_map, List.length_range] at hback
  have hkept := rules.kept_look_le c.ahead
  have hread := rules.bytesRead_look_le c.ahead
  obtain ⟨hpushed, hunreads⟩ := h
  rw [scan_snd]
  refine ⟨?_, ?_⟩
  · rw [length_pushed_moved hread]
    omega
  · simp only [moved, Nat.mul_succ]
    omega

variable (hlag : rules.LagsBy k) (hk : 0 < k)
include hlag hk

/-- Between scans little waits to be read again. -/
theorem isBoundedBy_used (bs : List UInt8) (uses : List Use) :
    ((ofBytes bs).used rules uses).IsBoundedBy (k + 1) :=
  used_of_keeps (P := (IsBoundedBy · (k + 1))) (fun _ h => h.scan hlag hk)
    (fun _ _ h => ⟨h.pushed_le, h.unreads_le⟩) (isBoundedBy_ofBytes bs _) uses

end Cursor

/-- Between calls little waits to be read again. -/
theorem Lexer.isBoundedBy_called {ρ τ : Type} {lexer : Lexer ρ τ} {k : Nat}
    (hlag : lexer.rules.LagsBy k) (hk : 0 < k) (bs : List UInt8) (n : Nat) :
    (lexer.called n (.ofBytes bs)).cursor.IsBoundedBy (k + 1) :=
  cursor_called (P := (Cursor.IsBoundedBy · (k + 1))) (fun _ h => h.scan hlag hk)
    (Cursor.isBoundedBy_ofBytes bs _) n

end Argand
