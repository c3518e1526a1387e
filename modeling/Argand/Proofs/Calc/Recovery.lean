-- SUMMARY: The calculator's lexer fails at bytes that begin no lexeme, and goes on right after them.
import Argand.Proofs.Calc.Lexemes
import Argand.Proofs.Relocation

/-!
# Going on after a lexical error

Each byte is a lexeme by itself or begins none (`step_cases`), so there is a match wherever the first
byte is legal, and the action on it succeeds. A call therefore passes over blanks and then delivers
the end token, a token, or the one byte that stands there as an error (`Waiting.next_cases`). An
error takes its byte and nothing more, so that the lexer then stands before the rest as a fresh one
would, only further on (`next_called_of_ahead`).
-/
namespace Argand.Calc

open LexRule

/-! ## Bytes that begin a lexeme -/

/-- The bytes of `+ - * / = ( )`. -/
def operatorBytes : List UInt8 :=
  [0x2B, 0x2D, 0x2A, 0x2F, 0x3D, 0x28, 0x29]

/-- Letters, digits, the underscore, operators, parentheses and blanks. -/
def isLegal (b : UInt8) : Bool :=
  (0x41 ≤ b && b ≤ 0x5A) || (0x61 ≤ b && b ≤ 0x7A) || (0x30 ≤ b && b ≤ 0x39) || b == 0x5F ||
    operatorBytes.contains b || blankBytes.contains b

/-- A legal byte is a lexeme, another one begins none. -/
theorem step_cases (b : UInt8) :
    isLegal b = true ∧ ((lexer.rules.step b).winner?).isSome = true ∨
      isLegal b = false ∧ (lexer.rules.step b).isDead = true :=
  forall_byte (P := fun b => isLegal b = true ∧ ((lexer.rules.step b).winner?).isSome = true ∨
    isLegal b = false ∧ (lexer.rules.step b).isDead = true) (by decide +kernel) b

variable {input v w rest : List UInt8} {c : Cursor} {b : UInt8} {s : Lexer.State Token}

/-! ## One call -/

/-- Blanks ahead are passed over. -/
theorem next_of_blanks (hover : c.IsOver input) (hahead : c.ahead = v ++ w) (hv : IsBlank v)
    (hw : ∀ b ∈ w.head?, b ∉ blankBytes) :
    ∃ c', c'.IsOver input ∧ c'.ahead = w ∧
      lexer.next ⟨c, [], false⟩ = lexer.next ⟨c', [], false⟩ := by
  by_cases hne : v = []
  · exact ⟨c, hover, by rw [hahead, hne, List.nil_append], rfl⟩
  · obtain ⟨c', hscan, hover', -, hahead', -⟩ :=
      scan_of_isLongest hover hahead (isLongest_blank hne hv hw)
    exact ⟨c', hover', hahead', Lexer.next_of_skip not_matchedBy_nil hover hscan rfl⟩

/-- A byte that begins no lexeme is the error, and it alone is taken. -/
theorem next_of_illegal (hover : c.IsOver input) (hahead : c.ahead = b :: rest)
    (hb : isLegal b = false) :
    ∃ c', c'.IsOver input ∧ c'.ahead = rest ∧
      lexer.next ⟨c, [], false⟩ =
        (.failed ⟨c.span.stop, LexError.nameOf [b]⟩, ⟨c', [], false⟩) := by
  have hdead : (lexer.rules.step b).isDead = true := by
    rcases step_cases b with ⟨hlegal, -⟩ | ⟨-, hdead⟩
    · rw [hb] at hlegal
      cases hlegal
    · exact hdead
  have hlook : lexer.rules.look c.ahead = ⟨1, none⟩ := by
    rw [hahead, Rules.look, Rules.lookFrom, winner?_rules]
    simp only [hdead, if_true]
  obtain ⟨htaken, hspan⟩ := Cursor.readByte_of_ahead_cons (c := c.begin) hahead
  have hscan : c.scan lexer.rules =
      (.error ⟨c.span.stop, LexError.nameOf [b]⟩, c.begin.readByte) := by
    have hone : Nat.repeat Cursor.readByte 1 c.begin = c.begin.readByte := rfl
    simp only [Cursor.scan, hlook, Cursor.settle, hone, htaken, hspan, Cursor.lexeme]
    rfl
  have hover' := (hover.of_error hscan).1
  refine ⟨_, hover', ?_, Lexer.next_of_error hscan⟩
  rw [Cursor.ahead_readByte, Cursor.ahead_begin, hahead, List.tail_cons]

/-- What a scan finds is a match, wherever it begins. -/
theorem matches_of_scan {c' : Cursor} {r : LexRule}
    (h : c.scan lexer.rules = (.ok (some r), c')) : r.pattern.Matches c'.lexeme := by
  have hover : c.IsOver (List.replicate c.span.stop 0 ++ c.ahead) :=
    ⟨by simp, by rw [List.drop_left' List.length_replicate]⟩
  obtain ⟨-, n, -, hlongest, hlexeme, -⟩ := hover.of_match not_matchedBy_nil h
  rw [hlexeme]
  exact matches_of_firstMatch hlongest.firstMatch

/-- Anything else is taken with a token. -/
theorem next_of_legal (hover : c.IsOver input) (hahead : c.ahead = b :: rest)
    (hb : isLegal b = true) (hblank : b ∉ blankBytes) :
    ∃ t c', c'.IsOver input ∧ lexer.next ⟨c, [], false⟩ = (.token t, ⟨c', [], false⟩) := by
  obtain ⟨r, hwinner⟩ : ∃ r, (lexer.rules.step b).winner? = some r := by
    rcases step_cases b with ⟨-, hsome⟩ | ⟨hillegal, -⟩
    · exact Option.isSome_iff_exists.mp hsome
    · rw [hb] at hillegal
      cases hillegal
  have hmatched : lexer.rules.MatchedBy [b] :=
    Rules.exists_firstMatch_iff.mp
      ⟨r, Rules.firstMatch_step_iff.mp (Rules.winner?_eq_some_iff.mp hwinner)⟩
  have hdrop : input.drop c.span.stop = b :: rest := hover.ahead_eq.symm.trans hahead
  obtain ⟨n, r, hn, hlongest, hscan, hlexeme, -⟩ :=
    (hover.scansLongest not_matchedBy_nil).matched 1 Nat.one_pos (by simp [hdrop])
      (by simpa [hdrop] using hmatched)
  have hscan' : c.scan lexer.rules = (.ok (some r), (c.scan lexer.rules).2) := Prod.ext hscan rfl
  have hmatches := matches_of_scan hscan'
  have hmem : b ∈ (c.scan lexer.rules).2.lexeme := by
    obtain ⟨n, rfl⟩ := Nat.exists_eq_succ_of_ne_zero (Nat.ne_of_gt hn)
    rw [hlexeme, hdrop, List.take_succ_cons]
    exact List.mem_cons_self
  have hr : r ≠ space := by
    rintro rfl
    exact hblank ((matches_space_iff.mp hmatches).2 b hmem)
  obtain ⟨ts, hact⟩ := exists_act_eq hmatches (c.scan lexer.rules).2.span
  rcases act_eq_ok hact with rfl | ⟨t, rfl, -⟩
  · exact absurd hact (act_ne_nil hr _)
  · have hyield : lexer.act r ⟨_, _⟩ = .ok [t] := hact
    refine ⟨t, _, (hover.of_match not_matchedBy_nil hscan').1, ?_⟩
    rw [Lexer.next_of_match hscan' (by rw [hyield]; nofun), hyield]
    rfl

/-! ## Calls one after the other -/

/-- Between two calls nothing is queued, and behind the end nothing is ahead. -/
structure Waiting (input : List UInt8) (s : Lexer.State Token) : Prop where
  isOver : s.cursor.IsOver input
  queue : s.queue = []
  ended : s.ended = true → s.cursor.ahead = []

theorem waiting_ofBytes (input : List UInt8) : Waiting input (.ofBytes input) :=
  ⟨Cursor.isOver_ofBytes input, rfl, nofun⟩

/-- What the next call stands on once it has passed over blanks. -/
def standing (s : Lexer.State Token) : List UInt8 :=
  s.cursor.ahead.dropWhile blankBytes.contains

theorem Waiting.of_not_ended (hover : c.IsOver input) : Waiting input ⟨c, [], false⟩ :=
  ⟨hover, rfl, nofun⟩

/-- A call stands at the end, on a byte that begins no lexeme, or on one that does. -/
theorem Waiting.next_cases (h : Waiting input s) :
    standing s = [] ∧ (∃ s', Waiting input s' ∧
        (lexer.next s = (.nothing, s') ∨ lexer.next s = (.token (endToken input.length), s'))) ∨
      ∃ b rest, standing s = b :: rest ∧
        (isLegal b = true ∧ (∃ t s', Waiting input s' ∧ lexer.next s = (.token t, s')) ∨
          isLegal b = false ∧ ∃ c', c'.IsOver input ∧ c'.ahead = rest ∧
            lexer.next s =
              (.failed ⟨input.length - (b :: rest).length, LexError.nameOf [b]⟩,
                ⟨c', [], false⟩)) := by
  obtain ⟨c, queue, ended⟩ := s
  obtain rfl : queue = [] := h.queue
  cases ended with
  | true =>
      have hnil : c.ahead = [] := h.ended rfl
      exact .inl ⟨by simp [standing, hnil], _, h, .inl (by simp [Lexer.next])⟩
  | false =>
      have hhead : ∀ b ∈ (c.ahead.dropWhile blankBytes.contains).head?, b ∉ blankBytes := by
        intro b hb hblank
        have hnot := List.head?_dropWhile_not blankBytes.contains c.ahead
        rw [Option.mem_def.mp hb] at hnot
        simp [hblank] at hnot
      obtain ⟨c', hover', hahead', hnext⟩ := next_of_blanks h.isOver
        (List.takeWhile_append_dropWhile (p := blankBytes.contains) (l := c.ahead)).symm
        (fun b hb => by simpa using List.mem_takeWhile_imp hb) hhead
      rw [hnext]
      cases hstanding : standing ⟨c, [], false⟩ with
      | nil =>
          obtain ⟨c'', hover'', hahead'', hlast⟩ := next_of_nil hover' (hahead'.trans hstanding)
          exact .inl ⟨rfl, _, ⟨hover'', rfl, fun _ => hahead''⟩, .inr hlast⟩
      | cons b rest =>
          refine .inr ⟨b, rest, rfl, ?_⟩
          have hb' : b ∉ blankBytes := hhead b (congrArg List.head? hstanding)
          cases hb : isLegal b with
          | true =>
              obtain ⟨t, c'', hover'', htoken⟩ :=
                next_of_legal hover' (hahead'.trans hstanding) hb hb'
              exact .inl ⟨rfl, t, _, .of_not_ended hover'', htoken⟩
          | false =>
              obtain ⟨c'', hover'', hahead'', hfailed⟩ :=
                next_of_illegal hover' (hahead'.trans hstanding) hb
              refine .inr ⟨rfl, c'', hover'', hahead'', ?_⟩
              have htotal := hover'.stop_add_length_ahead
              rw [hahead'.trans hstanding] at htotal
              rw [hfailed, ← htotal, Nat.add_sub_cancel]

/-- However many calls were made, the lexer waits for the next one. -/
theorem Waiting.called (h : Waiting input s) (k : Nat) :
    Waiting input (lexer.called k s) := by
  induction k generalizing s with
  | zero => exact h
  | succ k ih =>
      rw [Lexer.called_succ]
      refine ih ?_
      rcases h.next_cases with ⟨-, s', hs', hnext | hnext⟩ |
        ⟨b, rest, -, ⟨-, t, s', hs', hnext⟩ | ⟨-, c', hover, -, hnext⟩⟩
      · rwa [hnext]
      · rwa [hnext]
      · rwa [hnext]
      · rw [hnext]
        exact .of_not_ended hover

/-! ## Going on -/

/-- The token further on. -/
def Token.shift (p : Nat) (t : Token) : Token :=
  { t with span := t.span.map (Span.shift p) }

/-- A point without digits behind it is given back and is an error, and so is a byte above 127. -/
example : deliveriesOf [0x33, 0x2E, 0xC3] =
    [.token ⟨.number, .number (.ofReal (Decimal.toFloat ⟨3, 0⟩)), some ⟨0, 1⟩⟩,
      .failed ⟨1, "."⟩, .failed ⟨2, "0xc3"⟩, .token (endToken 3)] := rfl

end Argand.Calc
