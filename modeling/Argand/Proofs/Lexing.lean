-- SUMMARY: What the lexer of the calculator delivers: lexical tokens or errors, and the end token last.
import Argand.Calc.Lexis
import Argand.Calc.Phrase
import Argand.Proofs.Scan

/-!
# Deliveries of the calculator's lexer

Every rule yields one token at most, and every call consumes a byte until the end token comes. The
deliveries for some bytes are therefore lexical tokens and errors, followed by one end token, which
stands behind the last byte.
-/
namespace Argand.Calc

/-! ## Lexical tokens -/

/-- A token as the rules yield it: a terminal other than the end, at a place of the line, with a
name or a number if it is an identifier or a literal. -/
structure Token.IsLexical (t : Token) : Prop where
  terminal : t.kind.index ∈ grammar.terminalSymbols
  ne_finish : t.kind ≠ .finish
  span : ∃ s, t.span = some s
  name : t.kind = .ident → ∃ s, t.value = .name s
  number : t.kind = .number ∨ t.kind = .imaginary → ∃ z, t.value = .number z

/-- An error, or a lexical token. -/
def IsLexicalDelivery (d : Delivery Token) : Prop :=
  (∃ e, d = .failed e) ∨ ∃ t : Token, d = .token t ∧ t.IsLexical

/-- The end token of a line of some bytes. -/
def endToken (total : Nat) : Token :=
  ⟨.finish, .absent, some ⟨total, total⟩⟩

theorem bind_eq_ok {ε α β : Type} {x : Except ε α} {f : α → Except ε β} {b : β}
    (h : x >>= f = .ok b) : ∃ a, x = .ok a ∧ f a = .ok b := by
  cases x with
  | error e => cases h
  | ok a => exact ⟨a, rfl, h⟩

/-- A rule yields nothing or one lexical token. -/
theorem LexRule.act_eq_ok {r : LexRule} {l : Lexeme} {ts : List Token} (h : r.act l = .ok ts) :
    ts = [] ∨ ∃ t : Token, ts = [t] ∧ t.IsLexical := by
  have hplain : ∀ X : Symbol, X.index ∈ grammar.terminalSymbols → X ≠ .finish → X ≠ .ident →
      ¬ (X = .number ∨ X = .imaginary) → Token.IsLexical ⟨X, .absent, some l.span⟩ :=
    fun X hterm hfinish hident hliteral =>
      ⟨hterm, hfinish, ⟨_, rfl⟩, fun h => absurd h hident, fun h => absurd h hliteral⟩
  have hliteral : ∀ X : Symbol, X.index ∈ grammar.terminalSymbols → X ≠ .finish → X ≠ .ident →
      ∀ z, Token.IsLexical ⟨X, .number z, some l.span⟩ :=
    fun X hterm hfinish hident z =>
      ⟨hterm, hfinish, ⟨_, rfl⟩, fun h => absurd h hident, fun _ => ⟨z, rfl⟩⟩
  cases r with
  | number =>
      obtain ⟨z, -, hz⟩ := bind_eq_ok h
      obtain rfl := Except.ok.inj hz
      exact .inr ⟨_, rfl, hliteral _ (by decide) (by decide) (by decide) z⟩
  | imaginary =>
      obtain ⟨z, -, hz⟩ := bind_eq_ok h
      obtain rfl := Except.ok.inj hz
      exact .inr ⟨_, rfl, hliteral _ (by decide) (by decide) (by decide) z⟩
  | ident =>
      obtain ⟨s, -, hs⟩ := bind_eq_ok h
      obtain rfl := Except.ok.inj hs
      have hterm : Symbol.ident.index ∈ grammar.terminalSymbols := by decide
      exact .inr ⟨_, rfl, hterm, by simp, ⟨_, rfl⟩, fun _ => ⟨s, rfl⟩, by simp⟩
  | space =>
      obtain rfl := Except.ok.inj h
      exact .inl rfl
  | _ =>
      obtain rfl := Except.ok.inj h
      exact .inr ⟨_, rfl, hplain _ (by decide) (by decide) (by decide) (by decide)⟩

/-! ## Calls -/

/-- The lexer stands somewhere in `total` bytes, with nothing left to deliver but what it is going
to scan. -/
structure Scanning (total : Nat) (s : Lexer.State Token) : Prop where
  queue : s.queue = []
  ended : s.ended = false
  total : s.cursor.span.stop + s.cursor.ahead.length = total

theorem winner?_rules : lexer.rules.winner? = none := by
  decide +kernel

/-- A call gives a lexical delivery and consumes a byte, or it ends the line. -/
theorem Scanning.advance {total fuel : Nat} {s : Lexer.State Token} (h : Scanning total s)
    (hfuel : s.cursor.ahead.length < fuel) :
    ∃ d s', lexer.advance fuel s = (d, s') ∧
      ((d = .token (endToken total) ∧ s'.queue = [] ∧ s'.ended = true) ∨
        (IsLexicalDelivery d ∧ Scanning total s' ∧
          s'.cursor.ahead.length < s.cursor.ahead.length)) := by
  induction fuel generalizing s with
  | zero => omega
  | succ fuel ih =>
      obtain ⟨hqueue, hended, htotal⟩ := h
      rw [Lexer.advance]
      match hscan : s.cursor.scan lexer.rules with
      | (.error e, c) =>
          obtain ⟨-, -, k, hk, hstands⟩ := Cursor.scan_eq_error htotal hscan
          have htotal' := hstands.stop_add_length_ahead
          have hstop := hstands.stop_eq
          refine ⟨_, _, rfl, .inr ⟨.inl ⟨e, rfl⟩, ⟨hqueue, hended, htotal'⟩, ?_⟩⟩
          simp only
          omega
      | (.ok none, c) =>
          obtain ⟨-, hstop⟩ := Cursor.scan_eq_none winner?_rules htotal hscan
          refine ⟨_, _, rfl, .inl ⟨?_, rfl, rfl⟩⟩
          rw [hstop, endToken]
      | (.ok (some r), c) =>
          obtain ⟨k, hk, -, hstands⟩ := Cursor.scan_eq_match winner?_rules htotal hscan
          have htotal' := hstands.stop_add_length_ahead
          have hstop := hstands.stop_eq
          have hless : c.ahead.length < s.cursor.ahead.length := by omega
          simp only
          match hact : lexer.act r ⟨c.lexeme, c.span⟩ with
          | .error e =>
              exact ⟨_, _, rfl, .inr ⟨.inl ⟨e, rfl⟩, ⟨hqueue, hended, htotal'⟩, hless⟩⟩
          | .ok ts =>
              rcases LexRule.act_eq_ok hact with rfl | ⟨t, rfl, ht⟩
              · obtain ⟨d, s', hadvance, hcases⟩ := ih (s := { s with cursor := c })
                  ⟨hqueue, hended, htotal'⟩ (by simp only; omega)
                refine ⟨d, s', hadvance, hcases.imp_right ?_⟩
                rintro ⟨hd, hscanning, hlt⟩
                exact ⟨hd, hscanning, Nat.lt_trans hlt hless⟩
              · exact ⟨_, _, rfl, .inr ⟨.inr ⟨t, rfl, ht⟩, ⟨rfl, hended, htotal'⟩, hless⟩⟩

/-- Enough calls give lexical deliveries up to the end token. -/
theorem Scanning.deliveries {total calls : Nat} {s : Lexer.State Token} (h : Scanning total s)
    (hcalls : s.cursor.ahead.length < calls) :
    ∃ ds, (lexer.deliveries calls s).map (·.1) = ds ++ [.token (endToken total)] ∧
      ∀ d ∈ ds, IsLexicalDelivery d := by
  induction calls generalizing s with
  | zero => omega
  | succ calls ih =>
      obtain ⟨d, s', hadvance, hcases⟩ := h.advance (Nat.lt_succ_self _)
      have hnext : lexer.next s = (d, s') := by
        rw [Lexer.next, h.queue, h.ended]
        exact hadvance
      rw [Lexer.deliveries, hnext]
      rcases hcases with ⟨rfl, hqueue, hended⟩ | ⟨hd, hscanning, hless⟩
      · refine ⟨[], ?_, by simp⟩
        have hlast : lexer.deliveries calls s' = [] := by
          cases calls with
          | zero => rfl
          | succ calls => simp [Lexer.deliveries, Lexer.next, hqueue, hended]
        simp [hlast]
      · obtain ⟨ds, hds, hall⟩ := ih hscanning (by omega)
        refine ⟨d :: ds, ?_, ?_⟩
        · rcases hd with ⟨e, rfl⟩ | ⟨t, rfl, -⟩ <;> simp [hds]
        · simpa using ⟨hd, hall⟩

/-- The next delivery is an error or a token. -/
theorem failed_or_token {ds next : List (Delivery Token)} {total : Nat}
    (hds : ∀ d ∈ ds, IsLexicalDelivery d) (hnext : next = ds ++ [.token (endToken total)]) :
    (∃ e rest, next = .failed e :: rest) ∨ ∃ t rest, next = .token t :: rest := by
  cases ds with
  | nil => exact .inr ⟨_, _, hnext⟩
  | cons d ds =>
      rcases hds d List.mem_cons_self with ⟨e, rfl⟩ | ⟨t, rfl, -⟩
      · exact .inl ⟨e, _, hnext⟩
      · exact .inr ⟨t, _, hnext⟩

theorem exists_deliveries (bs : List UInt8) :
    ∃ ds, (deliveries bs).map (·.1) = ds ++ [.token (endToken bs.length)] ∧
      ∀ d ∈ ds, IsLexicalDelivery d := by
  have hscanning : Scanning bs.length (.ofBytes bs) :=
    ⟨rfl, rfl, by simp [Lexer.State.ofBytes, Cursor.ofBytes, Cursor.ahead]⟩
  exact hscanning.deliveries (by simp [Lexer.State.ofBytes, Cursor.ofBytes, Cursor.ahead])

end Argand.Calc
