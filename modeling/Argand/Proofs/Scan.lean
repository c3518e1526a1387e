-- SUMMARY: How far a scan goes: what it consumes, and where it leaves the cursor.
import Argand.Cursor

/-!
# Progress of scans

The bytes ahead of a cursor are read one after the other, and those behind the longest match are
pushed back, the last one first. `Cursor.moved` says where this leaves the cursor: it is the cursor
after some bytes ahead have been read and the first of them kept. Reading and pushing back go from
one such cursor to the next, and a scan is one of them, made from what looking ahead has shown
(`Cursor.scan_snd`). So a match or an error takes bytes from a place on, the other bytes staying
ahead (`Cursor.Stands`); rules that do not match the empty string consume a byte with every match
and every error, and a scan gives nothing only where no byte is ahead.
-/
namespace Argand

/-! ## Looking ahead -/

namespace Rules

variable {ρ : Type} {rules : Rules ρ} {best : Option (Nat × ρ)} {bs : List UInt8} {n m : Nat}
  {r : ρ}

theorem bytesRead_lookFrom :
    n ≤ (rules.lookFrom n best bs).bytesRead ∧
      (rules.lookFrom n best bs).bytesRead ≤ n + bs.length := by
  induction bs generalizing rules n best with
  | nil =>
      rw [lookFrom]
      split <;> simp
  | cons b bs ih =>
      rw [lookFrom, List.length_cons]
      split
      · rename_i r _
        obtain ⟨hge, hle⟩ := @ih (rules.step b) (some (n, r)) (n + 1)
        omega
      · split
        · simp only
          omega
        · obtain ⟨hge, hle⟩ := @ih (rules.step b) best (n + 1)
          omega

/-- Something is read wherever there is something to read. -/
theorem bytesRead_look_pos (hbs : bs ≠ []) (hwinner : rules.winner? = none) :
    0 < (rules.look bs).bytesRead := by
  obtain ⟨b, rest, rfl⟩ := List.exists_cons_of_ne_nil hbs
  rw [look, lookFrom, hwinner]
  simp only
  split
  · simp
  · exact (bytesRead_lookFrom (n := 0 + 1)).1

theorem bytesRead_look_le (rules : Rules ρ) (bs : List UInt8) :
    (rules.look bs).bytesRead ≤ bs.length := by
  have h : (rules.look bs).bytesRead ≤ 0 + bs.length := bytesRead_lookFrom.2
  rwa [Nat.zero_add] at h

/-- The longest match is the one noticed before, or it ends among the bytes that are read, after
those read before; it ends right there only for the winner. -/
theorem longest_lookFrom (rules : Rules ρ) (n : Nat) (best : Option (Nat × ρ))
    (bs : List UInt8) :
    (rules.lookFrom n best bs).longest = best ∨
      ∃ m r, (rules.lookFrom n best bs).longest = some (m, r) ∧ n ≤ m ∧
        m ≤ (rules.lookFrom n best bs).bytesRead ∧ (m = n → rules.winner? = some r) := by
  induction bs generalizing rules n best with
  | nil =>
      rw [lookFrom]
      split
      · rename_i r hwinner
        exact .inr ⟨n, r, rfl, Nat.le_refl n, Nat.le_refl n, fun _ => hwinner⟩
      · exact .inl rfl
  | cons b bs ih =>
      rw [lookFrom]
      split
      · rename_i r hwinner
        have hread : n + 1 ≤ ((rules.step b).lookFrom (n + 1) (some (n, r)) bs).bytesRead :=
          bytesRead_lookFrom.1
        rcases ih (rules.step b) (n + 1) (some (n, r)) with hbest | ⟨m, r', hlongest, hge, hle, -⟩
        · exact .inr ⟨n, r, hbest, Nat.le_refl n, Nat.le_of_succ_le hread, fun _ => hwinner⟩
        · exact .inr ⟨m, r', hlongest, Nat.le_of_succ_le hge, hle, fun heq => by omega⟩
      · split
        · exact .inl rfl
        · rcases ih (rules.step b) (n + 1) best with hbest | ⟨m, r', hlongest, hge, hle, -⟩
          · exact .inl hbest
          · exact .inr ⟨m, r', hlongest, Nat.le_of_succ_le hge, hle, fun heq => by omega⟩

/-- A match lies within what was read, and it is not empty unless the winner is. -/
theorem longest_look (h : (rules.look bs).longest = some (m, r)) :
    m ≤ (rules.look bs).bytesRead ∧ (m = 0 → rules.winner? = some r) := by
  rcases longest_lookFrom rules 0 none bs with hnone | ⟨m', r', hlongest, -, hle, hwinner⟩
  · rw [look, hnone] at h
    cases h
  · rw [look, hlongest] at h
    obtain ⟨rfl, rfl⟩ : m' = m ∧ r' = r := by simpa using h
    exact ⟨hle, hwinner⟩

end Rules

variable {ρ : Type}

/-- How many of the bytes read a scan keeps: those of the longest match, or all of them if there is
none. -/
def Sighting.kept (s : Sighting ρ) : Nat :=
  match s.longest with
  | some (n, _) => n
  | none => s.bytesRead

theorem Rules.kept_look_le (rules : Rules ρ) (bs : List UInt8) :
    (rules.look bs).kept ≤ (rules.look bs).bytesRead := by
  unfold Sighting.kept
  split
  · rename_i n r hlongest
    exact (longest_look hlongest).1
  · exact Nat.le_refl _

/-! ## Moving the cursor -/

namespace Cursor

variable {rules : Rules ρ} {c c' : Cursor} {offset total k n read kept : Nat} {r : ρ}

/-- The cursor of a scan that began at `c`, has read `read` of the bytes ahead and keeps the first
`kept` of them, the others being pushed back. -/
def moved (c : Cursor) (read kept : Nat) : Cursor where
  pushed := (c.ahead.take read).drop kept ++ c.pushed.drop read
  source := c.source.drop (read - c.pushed.length)
  taken := (c.ahead.take kept).reverse
  span := ⟨c.span.stop, c.span.stop + kept⟩
  counts :=
    ⟨c.counts.unreads + (read - kept), c.counts.chars + (read - c.pushed.length),
      c.counts.scans + 1⟩

theorem moved_zero (c : Cursor) : c.moved 0 0 = c.begin := by
  simp [moved, begin]

theorem ahead_moved (hkept : kept ≤ read) (hread : read ≤ c.ahead.length) :
    (c.moved read kept).ahead = c.ahead.drop kept := by
  have hsplit : c.pushed.drop read ++ c.source.drop (read - c.pushed.length) = c.ahead.drop read :=
    List.drop_append.symm
  have hlength : kept ≤ (c.ahead.take read).length := by
    rw [List.length_take]
    omega
  rw [ahead, moved, List.append_assoc, hsplit, ← List.drop_append_of_le_length hlength,
    List.take_append_drop]

theorem lexeme_moved (c : Cursor) (read kept : Nat) :
    (c.moved read kept).lexeme = c.ahead.take kept :=
  List.reverse_reverse _

theorem length_taken_moved (hkept : kept ≤ c.ahead.length) :
    (c.moved read kept).taken.length = kept := by
  simp [moved, hkept]

/-- The bytes taken, the latest first, when there is one more of them. -/
theorem reverse_take_succ {bs : List UInt8} (hn : n < bs.length) :
    (bs.take (n + 1)).reverse = bs[n] :: (bs.take n).reverse := by
  rw [← List.take_append_getElem hn, List.reverse_append, List.reverse_singleton,
    List.singleton_append]

/-- The next byte comes from those pushed back as long as there are any. -/
theorem readByte_moved (hn : n < c.ahead.length) :
    (c.moved n n).readByte = c.moved (n + 1) (n + 1) := by
  have hnil : ∀ k, (c.ahead.take k).drop k = [] := fun k => by simp
  by_cases hpushed : n < c.pushed.length
  · have hdrop : c.pushed.drop n = c.ahead[n] :: c.pushed.drop (n + 1) := by
      rw [List.drop_eq_getElem_cons hpushed]
      congr 1
      exact (List.getElem_append_left hpushed).symm
    have hzero : n - c.pushed.length = 0 ∧ n + 1 - c.pushed.length = 0 := by omega
    simp only [readByte, moved, hnil, hdrop, hzero, reverse_take_succ hn, List.nil_append,
      Nat.sub_self, Nat.add_assoc]
  · have hdrop : c.pushed.drop n = [] ∧ c.pushed.drop (n + 1) = [] := by
      constructor <;> exact List.drop_eq_nil_of_le (by omega)
    have hlength : c.ahead.length = c.pushed.length + c.source.length := List.length_append
    have hchars : n + 1 - c.pushed.length = n - c.pushed.length + 1 := by omega
    have hsource : c.source.drop (n - c.pushed.length) =
        c.ahead[n] :: c.source.drop (n - c.pushed.length + 1) := by
      rw [List.drop_eq_getElem_cons (by omega)]
      congr 1
      exact (List.getElem_append_right (by omega)).symm
    simp only [readByte, moved, hnil, hdrop, hsource, hchars, reverse_take_succ hn,
      List.nil_append, Nat.sub_self, Nat.add_assoc]

/-- The byte pushed back is the one kept last. -/
theorem unreadByte_moved (hkept : kept < read) (hread : read ≤ c.ahead.length) :
    (c.moved read (kept + 1)).unreadByte = c.moved read kept := by
  have hlt : kept < c.ahead.length := by omega
  have hdrop : (c.ahead.take read).drop kept =
      c.ahead[kept] :: (c.ahead.take read).drop (kept + 1) := by
    rw [List.drop_eq_getElem_cons (by rw [List.length_take]; omega), List.getElem_take]
  have hunreads : read - kept = read - (kept + 1) + 1 := by omega
  simp only [unreadByte, moved, reverse_take_succ hlt, hdrop, hunreads, List.cons_append,
    ← Nat.add_assoc, Nat.add_sub_cancel]

theorem repeat_readByte_begin (hn : n ≤ c.ahead.length) :
    Nat.repeat readByte n c.begin = c.moved n n := by
  induction n with
  | zero => exact c.moved_zero.symm
  | succ n ih =>
      rw [Nat.repeat, ih (Nat.le_of_succ_le hn)]
      exact readByte_moved hn

theorem repeat_unreadByte_moved (hread : read ≤ c.ahead.length) (hn : n ≤ read) :
    Nat.repeat unreadByte n (c.moved read read) = c.moved read (read - n) := by
  induction n with
  | zero => rfl
  | succ n ih =>
      have hsub : read - n = read - (n + 1) + 1 := by omega
      rw [Nat.repeat, ih (Nat.le_of_succ_le hn), hsub]
      exact unreadByte_moved (by omega) hread

/-- The cursor has taken `k` bytes from an offset of an input of `total` bytes. -/
structure Stands (c : Cursor) (offset total k : Nat) : Prop where
  start_eq : c.span.start = offset
  stop_eq : c.span.stop = offset + k
  length_taken : c.taken.length = k
  stop_add_length_ahead : c.span.stop + c.ahead.length = total

theorem stands_moved (h : c.span.stop + c.ahead.length = total) (hkept : kept ≤ read)
    (hread : read ≤ c.ahead.length) : (c.moved read kept).Stands c.span.stop total kept := by
  refine ⟨rfl, rfl, ?_, ?_⟩
  · exact length_taken_moved (Nat.le_trans hkept hread)
  · rw [ahead_moved hkept hread, List.length_drop, ← h]
    simp only [moved]
    omega

/-! ## Scans -/

/-- A match keeps the bytes of the longest match and pushes the others back. -/
theorem scan_of_longest (h : (rules.look c.ahead).longest = some (n, r)) :
    c.scan rules = (.ok (some r), c.moved (rules.look c.ahead).bytesRead n) := by
  have hread := rules.bytesRead_look_le c.ahead
  rw [scan, repeat_readByte_begin hread, h]
  simp only [settle, length_taken_moved hread, repeat_unreadByte_moved hread (Nat.sub_le _ _),
    Nat.sub_sub_self (Rules.longest_look h).1]

/-- Without a match all that was read is kept, and is the error unless it is nothing. -/
theorem scan_of_none (h : (rules.look c.ahead).longest = none) :
    c.scan rules =
      (if (rules.look c.ahead).bytesRead = 0 then .ok none
        else .error ⟨c.span.stop, LexError.nameOf (c.ahead.take (rules.look c.ahead).bytesRead)⟩,
        c.moved (rules.look c.ahead).bytesRead (rules.look c.ahead).bytesRead) := by
  have hread := rules.bytesRead_look_le c.ahead
  have hempty : (c.moved (rules.look c.ahead).bytesRead
      (rules.look c.ahead).bytesRead).taken.isEmpty = true ↔
        (rules.look c.ahead).bytesRead = 0 := by
    rw [List.isEmpty_iff_length_eq_zero, length_taken_moved hread]
  rw [scan, repeat_readByte_begin hread, h]
  simp only [settle, hempty, lexeme_moved]
  split <;> rfl

/-- All that a scan does to a cursor. -/
theorem scan_snd (rules : Rules ρ) (c : Cursor) :
    (c.scan rules).2 = c.moved (rules.look c.ahead).bytesRead (rules.look c.ahead).kept := by
  rw [Sighting.kept]
  cases hlongest : (rules.look c.ahead).longest with
  | some found => rw [scan_of_longest (n := found.1) (r := found.2) hlongest]
  | none => rw [scan_of_none hlongest]

variable (hwinner : rules.winner? = none) (htotal : c.span.stop + c.ahead.length = total)
include hwinner htotal

/-- A match consumes what the longest match covers, a byte or more. -/
theorem scan_eq_match (h : c.scan rules = (.ok (some r), c')) :
    ∃ k, 0 < k ∧ (rules.look c.ahead).longest = some (k, r) ∧ c'.Stands c.span.stop total k := by
  cases hlongest : (rules.look c.ahead).longest with
  | some found =>
      obtain ⟨k, r'⟩ := found
      obtain ⟨hle, hempty⟩ := Rules.longest_look hlongest
      rw [scan_of_longest hlongest] at h
      obtain ⟨hr, rfl⟩ := Prod.mk.inj h
      obtain rfl : r' = r := by simpa using hr
      have hk : k ≠ 0 := fun hzero => absurd (hempty hzero) (by simp [hwinner])
      exact ⟨k, Nat.pos_of_ne_zero hk, rfl,
        stands_moved htotal hle (rules.bytesRead_look_le c.ahead)⟩
  | none =>
      rw [scan_of_none hlongest] at h
      have hfirst := (Prod.mk.inj h).1
      split at hfirst <;> simp at hfirst

omit hwinner in
/-- An error stands where the scan began, without a match, and consumes a byte or more. -/
theorem scan_eq_error {e : LexError} (h : c.scan rules = (.error e, c')) :
    (rules.look c.ahead).longest = none ∧ e.offset = c.span.stop ∧
      ∃ k, 0 < k ∧ c'.Stands c.span.stop total k := by
  cases hlongest : (rules.look c.ahead).longest with
  | some found =>
      rw [scan_of_longest (n := found.1) (r := found.2) hlongest] at h
      simp at h
  | none =>
      rw [scan_of_none hlongest] at h
      obtain ⟨hfirst, rfl⟩ := Prod.mk.inj h
      split at hfirst
      · simp at hfirst
      · rename_i hne
        obtain rfl := Except.error.inj hfirst
        exact ⟨rfl, rfl, _, Nat.pos_of_ne_zero hne,
          stands_moved htotal (Nat.le_refl _) (rules.bytesRead_look_le c.ahead)⟩

/-- A scan gives nothing only at the end. -/
theorem scan_eq_none (h : c.scan rules = (.ok none, c')) :
    c.ahead = [] ∧ c'.span.stop = total := by
  cases hlongest : (rules.look c.ahead).longest with
  | some found =>
      rw [scan_of_longest (n := found.1) (r := found.2) hlongest] at h
      simp at h
  | none =>
      rw [scan_of_none hlongest] at h
      obtain ⟨hfirst, rfl⟩ := Prod.mk.inj h
      split at hfirst
      · rename_i hzero
        have hahead : c.ahead = [] := Decidable.byContradiction fun hne =>
          Nat.ne_of_gt (Rules.bytesRead_look_pos hne hwinner) hzero
        refine ⟨hahead, ?_⟩
        rw [hzero, ← htotal, hahead]
        rfl
      · simp at hfirst

end Cursor
end Argand
