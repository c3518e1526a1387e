-- SUMMARY: Nullability, voidness and derivatives decide what a pattern matches.
import Argand.Pattern

/-!
# Derivatives of patterns

One equivalence for each kind of pattern says what it matches. From them: a pattern is nullable
when it matches the empty string (`nullable_iff`), it is void when it matches nothing
(`isVoid_iff`), and its derivative by `b` matches what may follow `b` (`matches_deriv_iff`), the
constructors that drop void and empty parts leaving the matches as they are. Every byte of a match is
in one of the sets that the pattern is built from (`Matches.exists_mem_sets`).
-/
namespace Argand

/-! ## Sets of bytes -/

/-- A set is void when it has no byte. -/
theorem ByteSet.isVoid_iff {s : ByteSet} : s.isVoid = true ↔ ∀ b, s.contains b = false := by
  simp only [isVoid, contains, List.all_eq_true, decide_eq_true_eq, List.any_eq_false,
    Bool.and_eq_true, not_and]
  constructor
  · intro h b r hr hlo hhi
    exact absurd (UInt8.lt_of_le_of_lt (UInt8.le_trans hlo hhi) (h r hr)) (UInt8.lt_irrefl _)
  · intro h r hr
    exact UInt8.not_le.mp fun hle => h r.1 r hr (UInt8.le_refl _) hle

theorem ByteSet.contains_single {b c : UInt8} : (single b).contains c = true ↔ c = b := by
  simp only [single, contains, List.any_cons, List.any_nil, Bool.or_false, Bool.and_eq_true,
    decide_eq_true_eq]
  constructor
  · rintro ⟨hle, hge⟩
    exact UInt8.le_antisymm hge hle
  · rintro rfl
    exact ⟨UInt8.le_refl _, UInt8.le_refl _⟩

/-- A set of characters has the bytes of these characters. -/
theorem ByteSet.contains_oneOf {cs : List Char} {b : UInt8} :
    (oneOf cs).contains b = true ↔ b ∈ cs.map fun c => c.toNat.toUInt8 := by
  simp only [oneOf, contains, List.any_map, List.any_eq_true, Function.comp_apply, Bool.and_eq_true,
    decide_eq_true_eq, List.mem_map]
  constructor
  · rintro ⟨c, hc, hle, hge⟩
    exact ⟨c, hc, UInt8.le_antisymm hle hge⟩
  · rintro ⟨c, hc, rfl⟩
    exact ⟨c, hc, UInt8.le_refl _, UInt8.le_refl _⟩

namespace Pattern

variable {p q : Pattern} {s : ByteSet} {b : UInt8} {w : List UInt8}

/-! ## What each kind of pattern matches -/

theorem matches_void_iff : void.Matches w ↔ False :=
  ⟨nofun, False.elim⟩

theorem matches_empty_iff : empty.Matches w ↔ w = [] := by
  constructor
  · rintro ⟨⟩
    rfl
  · rintro rfl
    exact .empty

theorem matches_byte_iff : (byte s).Matches w ↔ ∃ b, s.contains b = true ∧ w = [b] := by
  constructor
  · intro h
    cases h with
    | byte hb => exact ⟨_, hb, rfl⟩
  · rintro ⟨b, h, rfl⟩
    exact .byte h

theorem matches_seq_iff :
    (seq p q).Matches w ↔ ∃ u v, w = u ++ v ∧ p.Matches u ∧ q.Matches v := by
  constructor
  · intro h
    cases h with
    | seq hp hq => exact ⟨_, _, rfl, hp, hq⟩
  · rintro ⟨u, v, rfl, hp, hq⟩
    exact .seq hp hq

theorem matches_alt_iff : (alt p q).Matches w ↔ p.Matches w ∨ q.Matches w := by
  constructor
  · intro h
    cases h with
    | altLeft hp => exact .inl hp
    | altRight hq => exact .inr hq
  · exact fun h => h.elim .altLeft .altRight

/-- A sequence takes a byte with its first part, or with its second part after nothing. -/
theorem matches_seq_cons_iff :
    (seq p q).Matches (b :: w) ↔
      (∃ u v, w = u ++ v ∧ p.Matches (b :: u) ∧ q.Matches v) ∨
        p.Matches [] ∧ q.Matches (b :: w) := by
  rw [matches_seq_iff]
  constructor
  · rintro ⟨u, v, huv, hp, hq⟩
    rcases List.cons_eq_append_iff.mp huv with ⟨rfl, rfl⟩ | ⟨u', rfl, rfl⟩
    · exact .inr ⟨hp, hq⟩
    · exact .inl ⟨u', v, rfl, hp, hq⟩
  · rintro (⟨u, v, rfl, hp, hq⟩ | ⟨hp, hq⟩)
    · exact ⟨b :: u, v, rfl, hp, hq⟩
    · exact ⟨[], b :: w, rfl, hp, hq⟩

/-- A repetition takes a byte with the first of its parts that is not empty. -/
theorem matches_star_cons_iff :
    (star p).Matches (b :: w) ↔
      ∃ u v, w = u ++ v ∧ p.Matches (b :: u) ∧ (star p).Matches v := by
  constructor
  · intro h
    generalize hr : star p = r, hx : b :: w = x at h
    -- Parts that match nothing are skipped, hence the induction on the match.
    induction h with
    | starCons hu hv _ ih =>
        obtain rfl := star.inj hr
        rcases List.cons_eq_append_iff.mp hx with ⟨rfl, rfl⟩ | ⟨u', rfl, rfl⟩
        · exact ih rfl rfl
        · exact ⟨u', _, rfl, hu, hv⟩
    | starNil => cases hx
    | _ => cases hr
  · rintro ⟨u, v, rfl, hu, hv⟩
    exact .starCons hu hv

/-- An option takes a match or nothing. -/
theorem matches_opt_iff : p.opt.Matches w ↔ p.Matches w ∨ w = [] := by
  rw [opt, matches_alt_iff, matches_empty_iff]

/-- A class repeated takes any bytes of the class. -/
theorem matches_star_byte_iff : (star (byte s)).Matches w ↔ ∀ b ∈ w, s.contains b = true := by
  induction w with
  | nil => simpa using .starNil
  | cons b w ih =>
      rw [matches_star_cons_iff, List.forall_mem_cons, ← ih]
      constructor
      · rintro ⟨u, v, rfl, hu, hv⟩
        obtain ⟨b', hb, hcons⟩ := matches_byte_iff.mp hu
        obtain ⟨rfl, rfl⟩ := List.cons.inj hcons
        exact ⟨hb, hv⟩
      · rintro ⟨hb, hw⟩
        exact ⟨[], w, rfl, .byte hb, hw⟩

/-- A class repeated once or more takes bytes of the class, one at least. -/
theorem matches_plus_byte_iff :
    (plus (byte s)).Matches w ↔ w ≠ [] ∧ ∀ b ∈ w, s.contains b = true := by
  rw [plus, matches_seq_iff]
  simp only [matches_star_byte_iff, matches_byte_iff]
  constructor
  · rintro ⟨u, v, rfl, ⟨b, hb, rfl⟩, hv⟩
    exact ⟨List.cons_ne_nil b v, List.forall_mem_cons.mpr ⟨hb, hv⟩⟩
  · rintro ⟨hne, hw⟩
    obtain ⟨b, v, rfl⟩ := List.exists_cons_of_ne_nil hne
    obtain ⟨hb, hv⟩ := List.forall_mem_cons.mp hw
    exact ⟨[b], v, rfl, ⟨b, hb, rfl⟩, hv⟩

/-- A literal takes its own bytes. -/
theorem matches_bytes_iff {bs : List UInt8} : (bytes bs).Matches w ↔ w = bs := by
  induction bs generalizing w with
  | nil => exact matches_empty_iff
  | cons b bs ih =>
      cases bs with
      | nil => simp [bytes, all, matches_byte_iff, ByteSet.contains_single]
      | cons c bs =>
          have hseq : bytes (b :: c :: bs) = seq (byte (.single b)) (bytes (c :: bs)) := rfl
          rw [hseq, matches_seq_iff]
          simp [matches_byte_iff, ByteSet.contains_single, ih]

/-! ## Bytes of a match -/

/-- The sets of bytes that a pattern is built from. -/
def sets : Pattern → List ByteSet
  | void => []
  | empty => []
  | byte s => [s]
  | seq p q => p.sets ++ q.sets
  | alt p q => p.sets ++ q.sets
  | star p => p.sets

/-- Every byte of a match is in a set of the pattern. -/
theorem Matches.exists_mem_sets (h : p.Matches w) :
    ∀ b ∈ w, ∃ s ∈ p.sets, s.contains b = true := by
  have hleft : ∀ {l m : List ByteSet} {b : UInt8}, (∃ s ∈ l, s.contains b = true) →
      ∃ s ∈ l ++ m, s.contains b = true :=
    fun ⟨s, hs, hb⟩ => ⟨s, List.mem_append_left _ hs, hb⟩
  have hright : ∀ {l m : List ByteSet} {b : UInt8}, (∃ s ∈ m, s.contains b = true) →
      ∃ s ∈ l ++ m, s.contains b = true :=
    fun ⟨s, hs, hb⟩ => ⟨s, List.mem_append_right _ hs, hb⟩
  induction h with
  | empty | starNil => nofun
  | byte hs => exact fun b hb => ⟨_, List.mem_singleton.mpr rfl, List.mem_singleton.mp hb ▸ hs⟩
  | seq _ _ ihu ihv =>
      exact fun b hb => (List.mem_append.mp hb).elim (hleft <| ihu b ·) (hright <| ihv b ·)
  | altLeft _ ih => exact fun b hb => hleft (ih b hb)
  | altRight _ ih => exact fun b hb => hright (ih b hb)
  | starCons _ _ ihu ihv => exact fun b hb => (List.mem_append.mp hb).elim (ihu b) (ihv b)

/-! ## Nullable and void patterns -/

/-- A pattern is nullable when it matches the empty string. -/
theorem nullable_iff : p.nullable = true ↔ p.Matches [] := by
  induction p with
  | void => simp [nullable, matches_void_iff]
  | empty => simp [nullable, matches_empty_iff]
  | byte s => simp [nullable, matches_byte_iff]
  | seq p q ihp ihq =>
      simp only [nullable, Bool.and_eq_true, ihp, ihq, matches_seq_iff]
      constructor
      · rintro ⟨hp, hq⟩
        exact ⟨[], [], rfl, hp, hq⟩
      · rintro ⟨u, v, huv, hp, hq⟩
        obtain ⟨rfl, rfl⟩ := List.append_eq_nil_iff.mp huv.symm
        exact ⟨hp, hq⟩
  | alt p q ihp ihq => simp [nullable, ihp, ihq, matches_alt_iff]
  | star p => exact ⟨fun _ => .starNil, fun _ => rfl⟩

/-- A pattern is void when it matches nothing. -/
theorem isVoid_iff : p.isVoid = true ↔ ∀ w, ¬ p.Matches w := by
  induction p with
  | void => simp [isVoid, matches_void_iff]
  | empty => simp [isVoid, matches_empty_iff]
  | byte s =>
      simp only [isVoid, ByteSet.isVoid_iff, matches_byte_iff]
      constructor
      · rintro h w ⟨b, hb, -⟩
        simp [h b] at hb
      · exact fun h b => Bool.eq_false_iff.mpr fun hb => h [b] ⟨b, hb, rfl⟩
  | seq p q ihp ihq =>
      simp only [isVoid, Bool.or_eq_true, ihp, ihq, matches_seq_iff]
      constructor
      · rintro (h | h) w ⟨u, v, -, hp, hq⟩
        · exact h u hp
        · exact h v hq
      · intro h
        by_cases hvoid : ∀ w, ¬ p.Matches w
        · exact .inl hvoid
        · obtain ⟨u, hp⟩ := Classical.not_forall_not.mp hvoid
          exact .inr fun v hq => h (u ++ v) ⟨u, v, rfl, hp, hq⟩
  | alt p q ihp ihq => simp [isVoid, ihp, ihq, matches_alt_iff, forall_and]
  | star p => simpa [isVoid] using ⟨[], .starNil⟩

/-! ## Derivatives -/

/-- Dropping parts of a sequence leaves its matches. -/
theorem matches_cat_iff : (cat p q).Matches w ↔ (seq p q).Matches w := by
  rw [matches_seq_iff]
  unfold cat
  split
  · simp [matches_void_iff]
  · simp [matches_void_iff]
  · simp only [matches_empty_iff]
    constructor
    · exact fun h => ⟨[], w, rfl, rfl, h⟩
    · rintro ⟨u, v, rfl, rfl, h⟩
      exact h
  · simp only [matches_empty_iff]
    constructor
    · exact fun h => ⟨w, [], (List.append_nil w).symm, h, rfl⟩
    · rintro ⟨u, v, rfl, h, rfl⟩
      rwa [List.append_nil]
  · exact matches_seq_iff

/-- Dropping parts of an alternative leaves its matches. -/
theorem matches_either_iff : (either p q).Matches w ↔ p.Matches w ∨ q.Matches w := by
  unfold either
  split
  · simp [matches_void_iff]
  · simp [matches_void_iff]
  · split
    · rename_i heq
      simp [heq]
    · exact matches_alt_iff

/-- The derivative by `b` matches what may follow `b` in a match. -/
theorem matches_deriv_iff : (p.deriv b).Matches w ↔ p.Matches (b :: w) := by
  induction p generalizing w with
  | void => simp [deriv, matches_void_iff]
  | empty => simp [deriv, matches_void_iff, matches_empty_iff]
  | byte s =>
      have hbyte : (byte s).Matches (b :: w) ↔ s.contains b = true ∧ w = [] := by
        rw [matches_byte_iff]
        constructor
        · rintro ⟨b', hb, hw⟩
          obtain ⟨rfl, rfl⟩ := List.cons.inj hw
          exact ⟨hb, rfl⟩
        · rintro ⟨hb, rfl⟩
          exact ⟨b, hb, rfl⟩
      rw [deriv, hbyte]
      split <;> simp_all [matches_empty_iff, matches_void_iff]
  | seq p q ihp ihq =>
      have hcat : (cat (p.deriv b) q).Matches w ↔
          ∃ u v, w = u ++ v ∧ p.Matches (b :: u) ∧ q.Matches v := by
        simp only [matches_cat_iff, matches_seq_iff, ihp]
      rw [deriv, matches_seq_cons_iff, ← nullable_iff]
      split
      · rename_i hnull
        rw [matches_either_iff, hcat, ihq]
        simp [hnull]
      · rename_i hnull
        rw [hcat]
        simp [hnull]
  | alt p q ihp ihq => rw [deriv, matches_either_iff, ihp, ihq, matches_alt_iff]
  | star p ihp =>
      rw [deriv, matches_cat_iff, matches_seq_iff, matches_star_cons_iff]
      simp only [ihp]

/-- A pattern accepts the byte strings that it matches. -/
theorem accepts_iff : p.accepts w = true ↔ p.Matches w := by
  induction w generalizing p with
  | nil => exact nullable_iff
  | cons b w ih => exact ih.trans matches_deriv_iff

end Pattern
end Argand
