-- SUMMARY: A lexer behind some bytes delivers what a fresh one delivers for the rest, further on.
import Argand.Proofs.Deliveries

/-!
# Lexing from the middle of an input

What a lexer does depends on the bytes ahead of it, and places only count how many bytes came
before. Two cursors with the same bytes ahead, one of them some bytes further on
(`Cursor.IsFurther`), are so again after a scan, since reading and pushing back keep them so. If the
actions of a lexer treat all places alike (`Lexer.Relocates`), the calls from two such states deliver
the same, further on (`State.IsFurther.called`).
-/
namespace Argand

/-! ## Places further on -/

def Span.shift (p : Nat) (a : Span) : Span :=
  ⟨p + a.start, p + a.stop⟩

def LexError.shift (p : Nat) (e : LexError) : LexError :=
  { e with offset := p + e.offset }

def Lexeme.shift (p : Nat) (l : Lexeme) : Lexeme :=
  { l with span := l.span.shift p }

variable {ρ τ : Type}

/-- A delivery further on, tokens being moved by `f`. -/
def Delivery.shift (p : Nat) (f : τ → τ) : Delivery τ → Delivery τ
  | .token t => .token (f t)
  | .nothing => .nothing
  | .failed e => .failed (e.shift p)

/-- What a scan has found, or its error further on. -/
def shiftFound (p : Nat) : Except LexError (Option ρ) → Except LexError (Option ρ)
  | .ok found => .ok found
  | .error e => .error (e.shift p)

/-- Freshly yielded tokens, or an error, further on. -/
def shiftYield (p : Nat) (f : τ → τ) :
    Except LexError (List τ) → Except LexError (List τ)
  | .ok ts => .ok (ts.map f)
  | .error e => .error (e.shift p)

/-! ## Cursors -/

namespace Cursor

variable {rules : Rules ρ} {c c' : Cursor} {p : Nat} {b : UInt8} {bs : List UInt8}

/-- Both cursors have the same bytes ahead, the first cursor `p` bytes further on. -/
structure IsFurther (p : Nat) (c c' : Cursor) : Prop where
  ahead : c.ahead = c'.ahead
  stop : c.span.stop = p + c'.span.stop

/-- In the middle of a scan both cursors have also taken the same bytes. -/
structure ReadsFurther (p : Nat) (c c' : Cursor) : Prop where
  ahead : c.ahead = c'.ahead
  taken : c.taken = c'.taken
  span : c.span = c'.span.shift p
  length_taken_le : c'.taken.length ≤ c'.span.stop

theorem readByte_of_ahead_nil (h : c.ahead = []) : c.readByte = c := by
  obtain ⟨hpushed, hsource⟩ := List.append_eq_nil_iff.mp h
  rw [readByte, hpushed, hsource]

theorem readByte_of_ahead_cons (h : c.ahead = b :: bs) :
    c.readByte.taken = b :: c.taken ∧ c.readByte.span = ⟨c.span.start, c.span.stop + 1⟩ := by
  rw [ahead] at h
  unfold readByte
  split <;> simp_all

theorem IsFurther.begin (h : IsFurther p c c') : ReadsFurther p c.begin c'.begin :=
  ⟨h.ahead, rfl, by rw [Cursor.begin, h.stop]; rfl, Nat.zero_le _⟩

namespace ReadsFurther

theorem isFurther (h : ReadsFurther p c c') : IsFurther p c c' :=
  ⟨h.ahead, congrArg Span.stop h.span⟩

theorem readByte (h : ReadsFurther p c c') : ReadsFurther p c.readByte c'.readByte := by
  match hahead : c'.ahead with
  | [] => rwa [readByte_of_ahead_nil hahead, readByte_of_ahead_nil (h.ahead.trans hahead)]
  | b :: bs =>
      obtain ⟨htaken, hspan⟩ := readByte_of_ahead_cons (h.ahead.trans hahead)
      obtain ⟨htaken', hspan'⟩ := readByte_of_ahead_cons hahead
      refine ⟨by rw [ahead_readByte, ahead_readByte, h.ahead], ?_, ?_, ?_⟩
      · rw [htaken, htaken', h.taken]
      · rw [hspan, hspan', h.span]
        rfl
      · rw [htaken', hspan']
        exact Nat.succ_le_succ h.length_taken_le

theorem unreadByte (h : ReadsFurther p c c') : ReadsFurther p c.unreadByte c'.unreadByte := by
  obtain ⟨hahead, htaken, hspan, hle⟩ := h
  match htaken' : c'.taken with
  | [] =>
      have hsame : c.unreadByte = c := by rw [Cursor.unreadByte, htaken, htaken']
      have hsame' : c'.unreadByte = c' := by rw [Cursor.unreadByte, htaken']
      rw [hsame, hsame']
      exact ⟨hahead, htaken, hspan, hle⟩
  | b :: bs =>
      rw [htaken', List.length_cons] at hle
      rw [htaken'] at htaken
      obtain ⟨hunread, hbs⟩ := ahead_unreadByte htaken
      obtain ⟨hunread', hbs'⟩ := ahead_unreadByte htaken'
      refine ⟨by rw [hunread, hunread', hahead], by rw [hbs, hbs'], ?_, ?_⟩
      · simp only [Cursor.unreadByte, htaken, htaken', hspan, Span.shift, Span.mk.injEq, true_and]
        omega
      · simp only [Cursor.unreadByte, htaken']
        omega

theorem repeated {f : Cursor → Cursor}
    (hf : ∀ {c c'}, ReadsFurther p c c' → ReadsFurther p (f c) (f c')) (n : Nat)
    (h : ReadsFurther p c c') : ReadsFurther p (Nat.repeat f n c) (Nat.repeat f n c') := by
  induction n with
  | zero => exact h
  | succ n ih => exact hf ih

end ReadsFurther

/-- Both scans find the same. -/
theorem IsFurther.scan (h : IsFurther p c c') (rules : Rules ρ) :
    (c.scan rules).1 = shiftFound p (c'.scan rules).1 ∧
      ReadsFurther p (c.scan rules).2 (c'.scan rules).2 := by
  have hread := ReadsFurther.repeated .readByte (rules.look c'.ahead).bytesRead h.begin
  simp only [Cursor.scan, settle, h.ahead]
  cases (rules.look c'.ahead).longest with
  | some found =>
      rw [hread.taken]
      exact ⟨rfl, ReadsFurther.repeated .unreadByte _ hread⟩
  | none =>
      simp only [hread.taken, lexeme]
      split
      · exact ⟨rfl, hread⟩
      · rw [hread.span]
        exact ⟨rfl, hread⟩

end Cursor

/-! ## Lexers -/

namespace Lexer

variable {lexer : Lexer ρ τ} {s s' : State τ} {f : τ → τ} {p : Nat}

/-- What comes of a lexeme, and of the end, is the same `p` bytes further on. -/
structure Relocates (lexer : Lexer ρ τ) (p : Nat) (f : τ → τ) : Prop where
  act : ∀ r l, lexer.act r (l.shift p) = shiftYield p f (lexer.act r l)
  close : ∀ span, lexer.close (span.shift p) = shiftYield p f (lexer.close span)

/-- The first lexer stands as the second one does, `p` bytes further on. -/
structure State.IsFurther (p : Nat) (f : τ → τ) (s s' : State τ) : Prop where
  cursor : Cursor.IsFurther p s.cursor s'.cursor
  queue : s.queue = s'.queue.map f
  ended : s.ended = s'.ended

/-- Both calls deliver the same and leave the lexers so. -/
def SameFurther (p : Nat) (f : τ → τ) (d d' : Delivery τ × State τ) : Prop :=
  d.1 = d'.1.shift p f ∧ State.IsFurther p f d.2 d'.2

namespace State.IsFurther

theorem deliver (h : State.IsFurther p f s s') (x : Except LexError (List τ)) :
    SameFurther p f (Lexer.deliver s (shiftYield p f x)) (Lexer.deliver s' x) := by
  match x with
  | .error e => exact ⟨rfl, h⟩
  | .ok [] => exact ⟨rfl, h⟩
  | .ok (t :: ts) => exact ⟨rfl, h.cursor, rfl, h.ended⟩

theorem advance (hlexer : lexer.Relocates p f) (fuel : Nat) (h : State.IsFurther p f s s') :
    SameFurther p f (lexer.advance fuel s) (lexer.advance fuel s') := by
  induction fuel generalizing s s' with
  | zero => exact ⟨rfl, h⟩
  | succ fuel ih =>
      obtain ⟨hfound, hcursor⟩ := h.cursor.scan lexer.rules
      rw [Lexer.advance, Lexer.advance]
      generalize s.cursor.scan lexer.rules = scanned at hfound hcursor ⊢
      generalize s'.cursor.scan lexer.rules = scanned' at hfound hcursor ⊢
      obtain ⟨found, c⟩ := scanned
      obtain ⟨found', c'⟩ := scanned'
      obtain rfl : found = shiftFound p found' := hfound
      rcases found' with e | (_ | r)
      · exact ⟨rfl, hcursor.isFurther, h.queue, h.ended⟩
      · have hclose : lexer.close ⟨c.span.stop, c.span.stop⟩ =
            shiftYield p f (lexer.close ⟨c'.span.stop, c'.span.stop⟩) := by
          rw [← hlexer.close, hcursor.isFurther.stop]
          rfl
        have hended : State.IsFurther p f { s with cursor := c, ended := true }
            { s' with cursor := c', ended := true } := ⟨hcursor.isFurther, h.queue, rfl⟩
        simp only [shiftFound, hclose]
        exact hended.deliver _
      · have hact : lexer.act r ⟨c.lexeme, c.span⟩ =
            shiftYield p f (lexer.act r ⟨c'.lexeme, c'.span⟩) := by
          rw [← hlexer.act, Lexeme.shift, Cursor.lexeme, hcursor.taken, hcursor.span]
          rfl
        have hsame : State.IsFurther p f { s with cursor := c } { s' with cursor := c' } :=
          ⟨hcursor.isFurther, h.queue, h.ended⟩
        simp only [shiftFound, hact]
        rcases lexer.act r ⟨c'.lexeme, c'.span⟩ with e | (_ | ⟨t, ts⟩)
        · exact ⟨rfl, hsame⟩
        · exact ih hsame
        · exact ⟨rfl, hcursor.isFurther, rfl, h.ended⟩

theorem next (hlexer : lexer.Relocates p f) (h : State.IsFurther p f s s') :
    SameFurther p f (lexer.next s) (lexer.next s') := by
  rw [Lexer.next, Lexer.next, h.queue, h.ended, h.cursor.ahead]
  cases s'.queue with
  | cons t queue => exact ⟨rfl, h.cursor, rfl, rfl⟩
  | nil =>
      simp only [List.map_nil]
      split
      · exact ⟨rfl, h⟩
      · exact advance hlexer _ h

/-- However many calls were made, the next one delivers the same further on. -/
theorem called (hlexer : lexer.Relocates p f) (h : State.IsFurther p f s s') (k : Nat) :
    SameFurther p f (lexer.next (lexer.called k s)) (lexer.next (lexer.called k s')) := by
  induction k generalizing s s' with
  | zero => exact h.next hlexer
  | succ k ih =>
      rw [called_succ, called_succ]
      exact ih (h.next hlexer).2

end State.IsFurther
end Lexer
end Argand
