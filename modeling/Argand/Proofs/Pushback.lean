-- SUMMARY: Pushing bytes back keeps the input: none is lost, doubled or put in another order.
import Argand.Proofs.Deliveries

/-!
# Pushback

Bytes pushed back are read again before those never read, and may be pushed back again while older
ones still wait behind them. Whatever the rules are, and whatever actions do with the bytes that a
scan has taken, what is ahead between two scans is the input from the place where the last scan has
ended, and the bytes read so far are those up to that place and those pushed back
(`Cursor.Accounts`). A scan goes from one such cursor to another by reading some bytes and keeping
the first of them (`Accounts.moved`); the rules only decide how many.
-/
namespace Argand

namespace Cursor

variable {ρ : Type} {rules : Rules ρ} {b c : Cursor} {input : List UInt8} {read kept : Nat}

/-! ## Between scans -/

/-- The cursor stands in the input, and what has been read of it is what lies before the cursor and
what was pushed back. -/
structure Accounts (c : Cursor) (input : List UInt8) : Prop extends c.IsOver input where
  chars_eq : c.counts.chars = c.span.stop + c.pushed.length
  chars_le : c.counts.chars ≤ input.length

theorem accounts_ofBytes (input : List UInt8) : (ofBytes input).Accounts input :=
  ⟨isOver_ofBytes input, rfl, Nat.zero_le _⟩

theorem length_pushed_moved (hread : read ≤ c.ahead.length) :
    (c.moved read kept).pushed.length = read - kept + (c.pushed.length - read) := by
  simp [moved, hread]

theorem Accounts.moved (h : c.Accounts input) (hkept : kept ≤ read)
    (hread : read ≤ c.ahead.length) : (c.moved read kept).Accounts input := by
  have hpushed : (c.moved read kept).pushed.length = _ := length_pushed_moved hread
  have hstop : (c.moved read kept).span.stop = c.span.stop + kept := rfl
  have hchars : (c.moved read kept).counts.chars =
      c.counts.chars + (read - c.pushed.length) := rfl
  have htotal := h.stop_add_length_ahead
  have hahead : c.ahead.length = c.pushed.length + c.source.length := List.length_append
  have hbefore := h.chars_eq
  refine ⟨⟨by omega, ?_⟩, by omega, by omega⟩
  rw [ahead_moved hkept hread, h.ahead_eq, List.drop_drop, hstop]

theorem Accounts.scan (h : c.Accounts input) (rules : Rules ρ) :
    (c.scan rules).2.Accounts input := by
  rw [scan_snd]
  exact h.moved (rules.kept_look_le c.ahead) (rules.bytesRead_look_le c.ahead)

/-- The bytes taken do not matter between scans. -/
theorem Accounts.leave (h : c.Accounts input) (left : List UInt8) :
    { c with taken := left }.Accounts input :=
  ⟨⟨h.stop_le, h.ahead_eq⟩, h.chars_eq, h.chars_le⟩

/-! ## Scans and actions -/

/-- What is done with a cursor. -/
inductive Use where
  /-- A scan, whatever comes of it. -/
  | scan
  /-- An action, which may take the bytes away and leave some, or none, in their place. -/
  | act (left : List UInt8)

/-- The cursor after it was used. -/
def use (rules : Rules ρ) (c : Cursor) : Use → Cursor
  | .scan => (c.scan rules).2
  | .act left => { c with taken := left }

/-- The cursor after it was used several times. -/
def used (rules : Rules ρ) (uses : List Use) (c : Cursor) : Cursor :=
  uses.foldl (use rules) c

/-- What scans and actions keep holds after any uses. -/
theorem used_of_keeps {P : Cursor → Prop} (hscan : ∀ c, P c → P (c.scan rules).2)
    (hact : ∀ (c : Cursor) (left : List UInt8), P c → P { c with taken := left }) (h : P c)
    (uses : List Use) : P (c.used rules uses) := by
  induction uses generalizing c with
  | nil => exact h
  | cons u uses ih =>
      cases u with
      | scan => exact ih (hscan c h)
      | act left => exact ih (hact c left h)

theorem Accounts.used (h : c.Accounts input) (uses : List Use) :
    (c.used rules uses).Accounts input :=
  used_of_keeps (P := (Accounts · input)) (fun _ h => h.scan rules) (fun _ left h => h.leave left)
    h uses

/-! ## Within a scan -/

/-- The cursors from which a scan pushes a byte back, one after the other. -/
def pushbacks (rules : Rules ρ) (c : Cursor) : List Cursor :=
  let sighting := rules.look c.ahead
  let reached := Nat.repeat readByte sighting.bytesRead c.begin
  match sighting.longest with
  | some (n, _) =>
    (List.range (reached.taken.length - n)).map fun i => Nat.repeat unreadByte i reached
  | none => []

/-- Bytes are pushed back one by one, as long as more were read than are kept. -/
theorem pushbacks_eq (rules : Rules ρ) (c : Cursor) :
    c.pushbacks rules =
      (List.range ((rules.look c.ahead).bytesRead - (rules.look c.ahead).kept)).map fun i =>
        c.moved (rules.look c.ahead).bytesRead ((rules.look c.ahead).bytesRead - i) := by
  have hread := rules.bytesRead_look_le c.ahead
  simp only [pushbacks, repeat_readByte_begin hread, length_taken_moved hread, Sighting.kept]
  cases hlongest : (rules.look c.ahead).longest with
  | none => simp
  | some found =>
      refine List.map_congr_left fun i hi => repeat_unreadByte_moved hread ?_
      exact Nat.le_trans (Nat.le_of_lt (List.mem_range.mp hi)) (Nat.sub_le _ _)

/-- What a scan pushes back is counted. -/
theorem unreads_scan (rules : Rules ρ) (c : Cursor) :
    (c.scan rules).2.counts.unreads = c.counts.unreads + (c.pushbacks rules).length := by
  rw [scan_snd, pushbacks_eq, List.length_map, List.length_range]
  rfl

/-- The cursor holds the bytes of the input at its place. -/
structure HoldsPlace (c : Cursor) (input : List UInt8) : Prop where
  start_le : c.span.start ≤ c.span.stop
  stop_le : c.span.stop ≤ input.length
  lexeme_eq : c.lexeme = (input.drop c.span.start).take (c.span.stop - c.span.start)

/-- How a scan from the cursor goes. What is ahead and what has been read is as it should be; the
scan reads the bytes of the input in their order, whether they were pushed back or not; each byte
pushed back is one of those taken, and is counted; and at the end the scan holds the bytes of the
input from the cursor on to its new place. -/
structure KeepsInput (c : Cursor) (rules : Rules ρ) (input : List UInt8) : Prop where
  accounts : c.Accounts input
  reads : ∀ n ≤ (rules.look c.ahead).bytesRead,
    (Nat.repeat readByte n c.begin).lexeme = (input.drop c.span.stop).take n
  pushesBack : ∀ b ∈ c.pushbacks rules, b.taken ≠ [] ∧ 0 < b.span.stop
  unreads_eq : (c.scan rules).2.counts.unreads = c.counts.unreads + (c.pushbacks rules).length
  holdsPlace : (c.scan rules).2.HoldsPlace input
  start_eq : (c.scan rules).2.span.start = c.span.stop

theorem Accounts.keepsInput (h : c.Accounts input) : c.KeepsInput rules input where
  accounts := h
  reads n hn := by
    have hread := Nat.le_trans hn (rules.bytesRead_look_le c.ahead)
    rw [repeat_readByte_begin hread, lexeme_moved, h.ahead_eq]
  pushesBack b hb := by
    rw [pushbacks_eq, List.mem_map] at hb
    obtain ⟨i, hi, rfl⟩ := hb
    have hlt := List.mem_range.mp hi
    have hread := rules.bytesRead_look_le c.ahead
    have hlength : (c.moved (rules.look c.ahead).bytesRead
        ((rules.look c.ahead).bytesRead - i)).taken.length = (rules.look c.ahead).bytesRead - i :=
      length_taken_moved (Nat.le_trans (Nat.sub_le _ _) hread)
    refine ⟨List.ne_nil_of_length_pos (by omega), ?_⟩
    exact Nat.add_pos_right _ (by omega)
  unreads_eq := unreads_scan rules c
  holdsPlace := by
    have hstop := (h.scan rules).stop_le
    rw [scan_snd] at hstop ⊢
    refine ⟨Nat.le_add_right _ _, hstop, ?_⟩
    rw [lexeme_moved, h.ahead_eq]
    simp only [Cursor.moved, Nat.add_sub_cancel_left]
  start_eq := by
    rw [scan_snd]
    rfl

end Cursor

/-! ## Calls of a lexer -/

namespace Lexer

variable {ρ τ : Type} {lexer : Lexer ρ τ} {s : State τ} {P : Cursor → Prop}

theorem cursor_deliver (s : State τ) (x : Except LexError (List τ)) :
    (deliver s x).2.cursor = s.cursor := by
  unfold deliver
  split <;> rfl

/-- What scans keep is kept while a call goes on. -/
theorem cursor_advance (hscan : ∀ c, P c → P (c.scan lexer.rules).2) (fuel : Nat)
    (h : P s.cursor) : P (lexer.advance fuel s).2.cursor := by
  induction fuel generalizing s with
  | zero => exact h
  | succ fuel ih =>
      have hafter : P (s.cursor.scan lexer.rules).2 := hscan _ h
      rw [advance]
      generalize s.cursor.scan lexer.rules = scanned at hafter ⊢
      obtain ⟨e | ⟨- | r⟩, c⟩ := scanned
      · exact hafter
      · rwa [cursor_deliver]
      · have hdelivered :
            P (deliver { s with cursor := c } (lexer.act r ⟨c.lexeme, c.span⟩)).2.cursor := by
          rwa [cursor_deliver]
        simp only
        split
        · rename_i s' hdeliver
          rw [hdeliver] at hdelivered
          exact ih hdelivered
        · exact hdelivered

theorem cursor_next (hscan : ∀ c, P c → P (c.scan lexer.rules).2) (h : P s.cursor) :
    P (lexer.next s).2.cursor := by
  rw [next]
  split
  · exact h
  · split
    · exact h
    · exact cursor_advance hscan _ h

/-- What scans keep holds after any number of calls. -/
theorem cursor_called (hscan : ∀ c, P c → P (c.scan lexer.rules).2) (h : P s.cursor) (k : Nat) :
    P (lexer.called k s).cursor := by
  induction k generalizing s with
  | zero => exact h
  | succ k ih =>
      rw [called_succ]
      exact ih (cursor_next hscan h)

/-- Over any rules and any input, after any scans and actions, and in a lexer after any calls: the
bytes to be delivered are those of the input from the place of the cursor on, the bytes read are
those before it and those pushed back, and the next scan reads, pushes back and holds the bytes of
the input in their order, without pushing back more than it has taken. -/
theorem pushback_keepsInput (rules : Rules ρ) (input : List UInt8) :
    (∀ uses, ((Cursor.ofBytes input).used rules uses).KeepsInput rules input) ∧
      ∀ (lexer : Lexer ρ τ) (k : Nat),
        (lexer.called k (.ofBytes input)).cursor.KeepsInput lexer.rules input := by
  have hstart := Cursor.accounts_ofBytes input
  refine ⟨fun uses => (hstart.used uses).keepsInput, fun lexer k => ?_⟩
  exact (cursor_called (P := (Cursor.Accounts · input)) (fun _ h => h.scan _) hstart k).keepsInput

/-- Over `<--x` the second scan reads both bytes that the first one has pushed back, and pushes one
of them back again. -/
example :
    let rules : Rules Nat :=
      ⟨[(0, .literal ['<', '-']),
        (1, .all [.literal ['<', '-'], .plus (.literal ['-']), .literal ['>']]),
        (2, .literal ['-']), (3, .plus (.byte (.between 'a' 'z')))]⟩
    let c := (Cursor.ofBytes [0x3C, 0x2D, 0x2D, 0x78]).used rules [.scan, .act [], .scan]
    (c.pushed, c.source, c.lexeme, c.counts) = ([0x78], [], [0x2D], ⟨3, 4, 2⟩) := rfl

end Lexer

end Argand
