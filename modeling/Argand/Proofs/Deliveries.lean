-- SUMMARY: What a lexer delivers call after call: what comes of its scans, then what the end yields.
import Argand.Proofs.Tiling

/-!
# Calls of a lexer

A call delivers one token or one error, so that what comes of a scan is spread over as many calls
as it has tokens. `Lexer.Gives` says what all calls from a state on deliver. Where no rule matches
the empty string every scan but the last one takes a byte, so the end is found after some number of
scans; the closing action is then called with the empty span at the end of the input, and what it
yields are the last deliveries.
-/
namespace Argand.Lexer

variable {ρ τ : Type} {lexer : Lexer ρ τ} {s s' : State τ} {c c' : Cursor} {ended : Bool}
  {input : List UInt8} {d : Delivery τ} {ds : List (Delivery τ)} {r : ρ}

/-! ## What comes of scans -/

/-- What comes of a scan: its error, or what the action makes of its lexeme. -/
def yieldOf (lexer : Lexer ρ τ) :
    Except LexError (Option ρ) × Cursor → Except LexError (List τ)
  | (.error e, _) => .error e
  | (.ok none, _) => .ok []
  | (.ok (some r), c) => lexer.act r ⟨c.lexeme, c.span⟩

/-- Freshly yielded tokens, or an error, as deliveries. -/
def handOver : Except LexError (List τ) → List (Delivery τ)
  | .error e => [.failed e]
  | .ok ts => ts.map .token

/-- The deliveries that come of the next `m` scans. -/
def yields (lexer : Lexer ρ τ) : Nat → Cursor → List (Delivery τ)
  | 0, _ => []
  | m + 1, c =>
    handOver (lexer.yieldOf (c.scan lexer.rules)) ++ yields lexer m (c.scan lexer.rules).2

/-! ## Calls one after the other -/

/-- The state after `k` calls. -/
def called (lexer : Lexer ρ τ) (k : Nat) (s : State τ) : State τ :=
  (fun s => (lexer.next s).2)^[k] s

/-- The calls from the state on give these deliveries one after the other, and then nothing, however
many calls are made. -/
def Gives (lexer : Lexer ρ τ) (s : State τ) (ds : List (Delivery τ)) : Prop :=
  ∀ k, (lexer.next (lexer.called k s)).1 = ds.getD k .nothing

theorem called_succ (lexer : Lexer ρ τ) (k : Nat) (s : State τ) :
    lexer.called (k + 1) s = lexer.called k (lexer.next s).2 :=
  Function.iterate_succ_apply _ _ _

namespace Gives

/-- What is delivered depends on the first call only. -/
theorem of_next_eq (hnext : lexer.next s = lexer.next s') (h : lexer.Gives s' ds) :
    lexer.Gives s ds := by
  intro k
  rw [← h k]
  cases k with
  | zero => exact congrArg Prod.fst hnext
  | succ k => rw [called_succ, called_succ, hnext]

theorem cons (hnext : lexer.next s = (d, s')) (h : lexer.Gives s' ds) :
    lexer.Gives s (d :: ds) := by
  intro k
  cases k with
  | zero => exact congrArg Prod.fst hnext
  | succ k => rw [called_succ, hnext, h k, List.getD_cons_succ]

theorem nothing (hnext : lexer.next s = (.nothing, s')) (h : lexer.Gives s' []) :
    lexer.Gives s [] := by
  intro k
  cases k with
  | zero => exact congrArg Prod.fst hnext
  | succ k => rw [called_succ, hnext, h k, List.getD_nil, List.getD_nil]

/-- Queued tokens come first. -/
theorem queued (h : lexer.Gives ⟨c, [], ended⟩ ds) (queue : List τ) :
    lexer.Gives ⟨c, queue, ended⟩ (queue.map .token ++ ds) := by
  induction queue with
  | nil => exact h
  | cons t queue ih => exact cons (by rw [next]) ih

/-- Freshly yielded tokens come first, or the error; a call that gives nothing is the last. -/
theorem deliver {x : Except LexError (List τ)}
    (hnext : lexer.next s = Lexer.deliver ⟨c, [], ended⟩ x) (h : lexer.Gives ⟨c, [], ended⟩ ds)
    (hlast : x = .ok [] → ds = []) : lexer.Gives s (handOver x ++ ds) := by
  match x with
  | .error e => exact cons hnext h
  | .ok [] =>
      obtain rfl := hlast rfl
      exact nothing hnext h
  | .ok (t :: ts) => exact cons hnext (h.queued ts)

end Gives

/-- After the end nothing comes any more. -/
theorem gives_ended (lexer : Lexer ρ τ) (c : Cursor) : lexer.Gives ⟨c, [], true⟩ [] := by
  have hnext : lexer.next ⟨c, [], true⟩ = (.nothing, ⟨c, [], true⟩) := by simp [next]
  intro k
  rw [called, Function.iterate_fixed (congrArg Prod.snd hnext), hnext, List.getD_nil]

/-! ## The first call -/

/-- With nothing queued before the end, a call scans. -/
theorem next_eq_advance (lexer : Lexer ρ τ) (c : Cursor) :
    lexer.next ⟨c, [], false⟩ = lexer.advance (c.ahead.length + 1) ⟨c, [], false⟩ := rfl

/-- Where a match yields something, that is delivered. -/
theorem next_of_match (hscan : c.scan lexer.rules = (.ok (some r), c'))
    (hact : lexer.act r ⟨c'.lexeme, c'.span⟩ ≠ .ok []) :
    lexer.next ⟨c, [], false⟩ = deliver ⟨c', [], false⟩ (lexer.act r ⟨c'.lexeme, c'.span⟩) := by
  rw [next_eq_advance, advance, hscan]
  simp only
  match hyield : lexer.act r ⟨c'.lexeme, c'.span⟩ with
  | .error e => rfl
  | .ok [] => exact absurd hyield hact
  | .ok (t :: ts) => rfl

theorem next_of_error {e : LexError} (hscan : c.scan lexer.rules = (.error e, c')) :
    lexer.next ⟨c, [], false⟩ = (.failed e, ⟨c', [], false⟩) := by
  rw [next_eq_advance, advance, hscan]

theorem next_of_none (hscan : c.scan lexer.rules = (.ok none, c')) :
    lexer.next ⟨c, [], false⟩ =
      deliver ⟨c', [], true⟩ (lexer.close ⟨c'.span.stop, c'.span.stop⟩) := by
  rw [next_eq_advance, advance, hscan]

section

variable (hempty : ¬ lexer.rules.MatchedBy [])
include hempty

/-- More fuel than there are bytes ahead makes no difference. -/
theorem advance_eq_advance {fuel fuel' : Nat} (h : s.cursor.IsOver input)
    (hfuel : s.cursor.ahead.length < fuel) (hfuel' : s.cursor.ahead.length < fuel') :
    lexer.advance fuel s = lexer.advance fuel' s := by
  induction fuel generalizing s fuel' with
  | zero => omega
  | succ fuel ih =>
      obtain ⟨fuel', rfl⟩ := Nat.exists_eq_succ_of_ne_zero (Nat.ne_zero_of_lt hfuel')
      rw [advance, advance]
      match hscan : s.cursor.scan lexer.rules with
      | (.error e, c) => rfl
      | (.ok none, c) => rfl
      | (.ok (some r), c) =>
          have hover := (h.of_match hempty hscan).1
          have hless := h.length_ahead_lt_of_match hempty hscan
          simp only
          match lexer.act r ⟨c.lexeme, c.span⟩ with
          | .error e => rfl
          | .ok (t :: ts) => rfl
          | .ok [] =>
              exact ih (s := { s with cursor := c }) hover (Nat.lt_of_lt_of_le hless (by omega))
                (Nat.lt_of_lt_of_le hless (by omega))

/-- Where a match yields nothing, the call goes on with the next scan. -/
theorem next_of_skip (h : c.IsOver input) (hscan : c.scan lexer.rules = (.ok (some r), c'))
    (hact : lexer.act r ⟨c'.lexeme, c'.span⟩ = .ok []) :
    lexer.next ⟨c, [], false⟩ = lexer.next ⟨c', [], false⟩ := by
  have hless := h.length_ahead_lt_of_match hempty hscan
  have hover := (h.of_match hempty hscan).1
  rw [next_eq_advance, next_eq_advance, advance, hscan]
  simp only [hact, Lexer.deliver]
  exact advance_eq_advance hempty (s := ⟨c', [], false⟩) hover hless (Nat.lt_succ_self _)

/-! ## All calls -/

/-- From anywhere in the input the calls deliver what comes of the scans up to the end, then what
the closing action yields there, and then nothing. -/
theorem exists_gives (h : c.IsOver input) :
    ∃ m, c.EndsAfter lexer.rules m ∧
      lexer.Gives ⟨c, [], false⟩
        (lexer.yields m c ++ handOver (lexer.close ⟨input.length, input.length⟩)) := by
  -- Every scan that finds something leaves less ahead.
  induction hahead : c.ahead.length using Nat.strongRecOn generalizing c with
  | _ n ih =>
      subst hahead
      match hscan : c.scan lexer.rules with
      | (.error e, c') =>
          obtain ⟨hover, -, -, hlt⟩ := h.of_error hscan
          obtain ⟨m, hends, hgives⟩ := ih _ (h.length_ahead_lt hover hlt) hover rfl
          refine ⟨m + 1, Cursor.endsAfter_succ ?_ ?_, ?_⟩
          · simp [hscan]
          · rwa [hscan]
          · rw [yields, hscan]
            exact hgives.cons (next_of_error hscan)
      | (.ok none, c') =>
          obtain ⟨-, -, hstop⟩ := h.of_none hempty hscan
          have hnext : lexer.next ⟨c, [], false⟩ = _ := next_of_none hscan
          rw [hstop] at hnext
          refine ⟨0, ⟨nofun, congrArg Prod.fst hscan⟩, ?_⟩
          rw [yields, List.nil_append, ← List.append_nil (handOver _)]
          exact (lexer.gives_ended c').deliver hnext fun _ => rfl
      | (.ok (some r), c') =>
          have hover := (h.of_match hempty hscan).1
          have hless := h.length_ahead_lt_of_match hempty hscan
          obtain ⟨m, hends, hgives⟩ := ih _ hless hover rfl
          refine ⟨m + 1, Cursor.endsAfter_succ ?_ ?_, ?_⟩
          · simp [hscan]
          · rwa [hscan]
          · rw [yields, hscan, List.append_assoc, yieldOf]
            by_cases hact : lexer.act r ⟨c'.lexeme, c'.span⟩ = .ok []
            · rw [hact]
              exact hgives.of_next_eq (next_of_skip hempty h hscan hact)
            · exact hgives.deliver (next_of_match hscan hact) fun hnil => absurd hnil hact

end

/-- Rules that do not match the empty string, over any input. Every scan, whatever was scanned and
pushed back before, gives the longest match at its place, an error where nothing is matched and
nothing at the end; as long as there are matches their lexemes tile the input, and all of it when
the end is reached. A lexer delivers what comes of the scans, one after the other; then, once, what
its closing action yields for the empty span at the end; and then nothing, however often it is
called. -/
theorem scans_tile_and_close (lexer : Lexer ρ τ) (hempty : ¬ lexer.rules.MatchedBy [])
    (input : List UInt8) :
    (∀ k, ((Cursor.ofBytes input).scanned lexer.rules k).IsOver input ∧
      ((Cursor.ofBytes input).scanned lexer.rules k).ScansLongest lexer.rules input) ∧
    (∀ k, (Cursor.ofBytes input).MatchesUpTo lexer.rules k →
      Cursor.Tiles input 0 ((Cursor.ofBytes input).lexemes lexer.rules k)
        ((Cursor.ofBytes input).scanned lexer.rules k).span.stop ∧
      ((Cursor.ofBytes input).EndsAfter lexer.rules k →
        ((Cursor.ofBytes input).lexemes lexer.rules k).flatMap (·.bytes) = input)) ∧
    ∃ m, (Cursor.ofBytes input).EndsAfter lexer.rules m ∧
      lexer.Gives (.ofBytes input)
        (lexer.yields m (.ofBytes input) ++
          handOver (lexer.close ⟨input.length, input.length⟩)) := by
  have hstart := Cursor.isOver_ofBytes input
  refine ⟨fun k => ?_, fun k hmatches => ?_, exists_gives hempty hstart⟩
  · have hover := hstart.scanned hempty k
    exact ⟨hover, hover.scansLongest hempty⟩
  · have htiles : Cursor.Tiles input 0 _ _ := hstart.tiles hempty hmatches
    refine ⟨htiles, fun hends => ?_⟩
    obtain ⟨-, hstop, -⟩ := (hstart.scanned hempty k).of_none hempty (Prod.ext hends.2 rfl)
    rw [htiles.flatMap_bytes, hstop, Nat.sub_zero]
    exact List.take_length

deriving instance DecidableEq for Except, Lexeme, Delivery

/-- Arrows over `<--x`: the longer arrow is given up at its fourth byte, and the shorter one, a
minus sign and a word come of it. -/
theorem scans_tile_and_close_arrows :
    let rules : Rules Nat :=
      ⟨[(0, .literal ['<', '-']),
        (1, .all [.literal ['<', '-'], .plus (.literal ['-']), .literal ['>']]),
        (2, .literal ['-']), (3, .plus (.byte (.between 'a' 'z')))]⟩
    let lexer : Lexer Nat Lexeme := ⟨rules, fun _ l => .ok [l], fun span => .ok [⟨[], span⟩]⟩
    ¬ rules.MatchedBy [] ∧
      lexer.Gives (.ofBytes [0x3C, 0x2D, 0x2D, 0x78])
        [.token ⟨[0x3C, 0x2D], ⟨0, 2⟩⟩, .token ⟨[0x2D], ⟨2, 3⟩⟩, .token ⟨[0x78], ⟨3, 4⟩⟩,
          .token ⟨[], ⟨4, 4⟩⟩] := by
  intro rules lexer
  have hempty : ¬ rules.MatchedBy [] := Rules.winner?_eq_none_iff.mp (by decide +kernel)
  obtain ⟨-, -, m, hends, hgives⟩ :=
    scans_tile_and_close lexer hempty [0x3C, 0x2D, 0x2D, 0x78]
  have hends' : (Cursor.ofBytes [0x3C, 0x2D, 0x2D, 0x78]).EndsAfter rules 3 :=
    ⟨by decide +kernel, by decide +kernel⟩
  obtain rfl := hends.unique hends'
  have hyields : lexer.yields 3 (.ofBytes [0x3C, 0x2D, 0x2D, 0x78]) =
      [.token ⟨[0x3C, 0x2D], ⟨0, 2⟩⟩, .token ⟨[0x2D], ⟨2, 3⟩⟩, .token ⟨[0x78], ⟨3, 4⟩⟩] := by
    decide +kernel
  rw [hyields] at hgives
  exact ⟨hempty, hgives⟩

end Argand.Lexer
