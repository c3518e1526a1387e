-- SUMMARY: Bytes read as a text exactly if they are the bytes of that text.
import Argand.Text.Utf8
import Mathlib.Data.List.Basic

/-!
# UTF-8 is read exactly

Reading takes each character from the bytes that it is written with (`charsOfUtf8?_append`), and
what has been read is written with the bytes it was read from (`flatMap_of_charsOfUtf8?`). So some
bytes read as a text exactly if they are its bytes (`ofUtf8?_eq_some_iff`).
-/
namespace Argand.Text

variable {b : UInt8} {bs r : List UInt8} {c : Char} {cs : List Char} {least n : Nat} {s t : String}

/-! ## Parts of a character -/

theorem continuation?_eq_some_iff : continuation? b = some n ↔ n < 64 ∧ b.toNat = n + 128 := by
  unfold continuation?
  split <;> simp <;> omega

theorem continuation?_ofNat : continuation? (UInt8.ofNat (n % 64 + 128)) = some (n % 64) := by
  have hlt := Nat.mod_lt n (by decide : 0 < 64)
  have hbyte : n % 64 + 128 < 256 := by omega
  exact continuation?_eq_some_iff.mpr ⟨hlt, UInt8.toNat_ofNat_of_lt hbyte⟩

theorem val_ofNat (h : n.isValidChar) : (Char.ofNat n).val.toNat = n := by
  rw [Char.ofNat, dif_pos h]
  rfl

theorem charFrom?_eq_some_iff : charFrom? least n = some c ↔ least ≤ n ∧ c.val.toNat = n := by
  unfold charFrom?
  split
  · simp
    omega
  · split
    · rename_i hle hvalid
      rw [Option.some_inj]
      constructor
      · rintro rfl
        exact ⟨Nat.le_of_not_lt hle, val_ofNat hvalid⟩
      · rintro ⟨-, rfl⟩
        exact Char.ofNat_toNat c
    · rename_i hvalid
      simp only [reduceCtorEq, false_iff, not_and]
      rintro - rfl
      exact hvalid c.valid

/-! ## Reading what was written -/

/-- A character is read from the bytes it is written with. -/
theorem charsOfUtf8?_append :
    charsOfUtf8? (String.utf8EncodeChar c ++ r) = (charsOfUtf8? r).map (c :: ·) := by
  have hlead : ∀ {n : Nat}, n < 256 → (UInt8.ofNat n).toNat = n := UInt8.toNat_ofNat_of_lt
  have hchar : ∀ {least n : Nat}, least ≤ n → n = c.val.toNat → charFrom? least n = some c :=
    fun h hn => charFrom?_eq_some_iff.mpr ⟨h, hn.symm⟩
  fun_cases String.utf8EncodeChar c with
  | case1 v h =>
      rw [List.singleton_append, charsOfUtf8?.eq_def]
      simp only [hlead (by omega : v < 256)]
      rw [if_pos (by omega)]
      simp [v]
  | case2 v h h₁ =>
      simp only [List.cons_append, List.nil_append]
      rw [charsOfUtf8?.eq_def]
      simp only [hlead (by omega : v / 64 % 32 + 0xC0 < 256), continuation?_ofNat]
      rw [if_neg (by omega), if_neg (by omega), if_pos (by omega)]
      simp only [Option.bind_eq_bind, Option.bind_some]
      rw [hchar (by omega) (by omega), Option.bind_some]
  | case3 v h h₁ h₂ =>
      simp only [List.cons_append, List.nil_append]
      rw [charsOfUtf8?.eq_def]
      simp only [hlead (by omega : v / 4096 % 16 + 0xE0 < 256), continuation?_ofNat]
      rw [if_neg (by omega), if_neg (by omega), if_neg (by omega), if_pos (by omega)]
      simp only [Option.bind_eq_bind, Option.bind_some]
      rw [hchar (by omega) (by omega), Option.bind_some]
  | case4 v h h₁ h₂ =>
      have hlt : v < 0x110000 := by
        have hvalid : v.isValidChar := c.valid
        simp only [Nat.isValidChar] at hvalid
        omega
      simp only [List.cons_append, List.nil_append]
      rw [charsOfUtf8?.eq_def]
      simp only [hlead (by omega : v / 262144 % 8 + 0xF0 < 256), continuation?_ofNat]
      rw [if_neg (by omega), if_neg (by omega), if_neg (by omega), if_neg (by omega),
        if_pos (by omega)]
      simp only [Option.bind_eq_bind, Option.bind_some]
      rw [hchar (by omega) (by omega), Option.bind_some]

theorem charsOfUtf8?_flatMap (cs : List Char) :
    charsOfUtf8? (cs.flatMap String.utf8EncodeChar) = some cs := by
  induction cs with
  | nil => rfl
  | cons c cs ih => rw [List.flatMap_cons, charsOfUtf8?_append, ih, Option.map_some]

/-! ## Writing what was read -/

theorem ofNat_eq (h : n = b.toNat) : UInt8.ofNat n = b := by
  rw [h, UInt8.ofNat_toNat]

theorem flatMap_of_charsOfUtf8? (h : charsOfUtf8? bs = some cs) :
    bs = cs.flatMap String.utf8EncodeChar := by
  fun_induction charsOfUtf8? bs generalizing cs with
  | case1 =>
      obtain rfl := Option.some.inj h
      rfl
  | case2 a r ha ih =>
      obtain ⟨cs, hcs, rfl⟩ := Option.map_eq_some_iff.mp h
      have hc := val_ofNat (n := a.toNat) (.inl (by omega))
      rw [List.flatMap_cons, ← ih hcs, String.utf8EncodeChar]
      simp only [hc]
      rw [if_pos (by omega), ofNat_eq rfl, List.singleton_append]
  | case3 | case4 | case6 | case8 | case10 => cases h
  | case5 a ha b r ha₁ ha₂ ih =>
      simp only [Option.bind_eq_bind, Option.bind_eq_some_iff, Option.map_eq_some_iff,
        continuation?_eq_some_iff, charFrom?_eq_some_iff] at h
      obtain ⟨m, ⟨hm, hb⟩, c, ⟨hleast, hc⟩, cs, hcs, rfl⟩ := h
      rw [List.flatMap_cons, ← ih hcs, String.utf8EncodeChar]
      simp only [hc]
      rw [if_neg (by omega), if_pos (by omega), ofNat_eq (b := a) (by omega),
        ofNat_eq (b := b) (by omega)]
      rfl
  | case7 a ha b ha₁ ha₂ b₁ r ha₃ ih =>
      simp only [Option.bind_eq_bind, Option.bind_eq_some_iff, Option.map_eq_some_iff,
        continuation?_eq_some_iff, charFrom?_eq_some_iff] at h
      obtain ⟨m, ⟨hm, hb⟩, m₁, ⟨hm₁, hb₁⟩, c, ⟨hleast, hc⟩, cs, hcs, rfl⟩ := h
      rw [List.flatMap_cons, ← ih hcs, String.utf8EncodeChar]
      simp only [hc]
      rw [if_neg (by omega), if_neg (by omega), if_pos (by omega), ofNat_eq (b := a) (by omega),
        ofNat_eq (b := b) (by omega), ofNat_eq (b := b₁) (by omega)]
      rfl
  | case9 a ha b ha₁ ha₂ b₁ ha₃ b₂ r ha₄ ih =>
      simp only [Option.bind_eq_bind, Option.bind_eq_some_iff, Option.map_eq_some_iff,
        continuation?_eq_some_iff, charFrom?_eq_some_iff] at h
      obtain ⟨m, ⟨hm, hb⟩, m₁, ⟨hm₁, hb₁⟩, m₂, ⟨hm₂, hb₂⟩, c, ⟨hleast, hc⟩, cs, hcs, rfl⟩ := h
      rw [List.flatMap_cons, ← ih hcs, String.utf8EncodeChar]
      simp only [hc]
      rw [if_neg (by omega), if_neg (by omega), if_neg (by omega), ofNat_eq (b := a) (by omega),
        ofNat_eq (b := b) (by omega), ofNat_eq (b := b₁) (by omega),
        ofNat_eq (b := b₂) (by omega)]
      rfl

/-! ## Texts -/

/-- Bytes read as a text exactly if they are its bytes. -/
theorem ofUtf8?_eq_some_iff : ofUtf8? bs = some s ↔ bs = utf8Bytes s := by
  rw [ofUtf8?, Option.map_eq_some_iff]
  constructor
  · rintro ⟨cs, hcs, rfl⟩
    rw [utf8Bytes, String.toList_ofList]
    exact flatMap_of_charsOfUtf8? hcs
  · rintro rfl
    exact ⟨s.toList, charsOfUtf8?_flatMap _, String.ofList_toList⟩

theorem ofUtf8?_utf8Bytes (s : String) : ofUtf8? (utf8Bytes s) = some s :=
  ofUtf8?_eq_some_iff.mpr rfl

/-- A byte below 128 stands for itself. -/
theorem val_of_mem_utf8EncodeChar (h : b ∈ String.utf8EncodeChar c) (hb : b.toNat < 128) :
    c.val.toNat = b.toNat := by
  -- The bytes of longer forms are 128 and more.
  have hhigh : ∀ {n : Nat}, n < 256 → 128 ≤ n → b ≠ UInt8.ofNat n := by
    rintro n hlt hle rfl
    have hn : (UInt8.ofNat n).toNat = n := UInt8.toNat_ofNat_of_lt hlt
    omega
  revert h
  fun_cases String.utf8EncodeChar c with
  | case1 v hv =>
      intro h
      have hbyte : v < 256 := by omega
      obtain rfl := List.mem_singleton.mp h
      exact (UInt8.toNat_ofNat_of_lt hbyte).symm
  | case2 v | case3 v | case4 v =>
      refine fun h => absurd h ?_
      simp only [List.mem_cons, List.not_mem_nil, or_false, not_or]
      and_intros
      all_goals exact hhigh (by omega) (by omega)

theorem utf8Bytes_ofList (cs : List Char) :
    utf8Bytes (String.ofList cs) = cs.flatMap String.utf8EncodeChar := by
  rw [utf8Bytes, String.toList_ofList]

theorem utf8Bytes_append : utf8Bytes (s ++ t) = utf8Bytes s ++ utf8Bytes t := by
  rw [utf8Bytes, utf8Bytes, utf8Bytes, String.toList_append, List.flatMap_append]

end Argand.Text
