-- SUMMARY: An expression in brackets has the value that it has as a line of its own.
import Argand.Proofs.Calc.RoundTrip
import Argand.Proofs.Calc.Session
import Argand.Proofs.Calc.Spacing

/-!
# Brackets

A bracket is a lexeme alone and in no other (`eq_singleton_of_matches`), so what stands before one is
taken apart as if the line ended there (`Lexes.append`). The text of an expression can therefore be
put between brackets, behind a sign, a difference or a function, and its value is what the sign, the
difference or the function makes of the value it has alone (`IsExpression.enclosed`).
-/
namespace Argand.Calc

open Descent LexRule

variable {env : Bindings} {bs rest w : List UInt8} {b : UInt8} {r : LexRule} {n total total' : Nat}
  {ts us tokens : List Token} {z : Complex} {e line : String}

/-! ## Before a bracket -/

/-- The bytes of the brackets. -/
def bracketBytes : List UInt8 :=
  [0x28, 0x29]

/-- A match with a bracket is this bracket. -/
theorem eq_singleton_of_matches (h : r.pattern.Matches w) (hb : b ∈ w)
    (hbracket : b ∈ bracketBytes) : w = [b] := by
  by_cases hr : r = lparen ∨ r = rparen
  · have hpattern : ∃ c, r.pattern = .byte (.single c) := by
      rcases hr with rfl | rfl
      · exact ⟨0x28, by decide⟩
      · exact ⟨0x29, by decide⟩
    obtain ⟨c, hc⟩ := hpattern
    rw [hc] at h
    obtain ⟨a, -, rfl⟩ := Pattern.matches_byte_iff.mp h
    rw [List.mem_singleton.mp hb]
  · have havoids : r.avoids bracketBytes = true := by
      cases r <;> first | rfl | simp at hr
    exact absurd hbracket (not_mem_of_avoids havoids h b hb)

/-- A longest match stays the longest with a bracket behind. -/
theorem isLongest_append (h : lexer.rules.IsLongest bs n r)
    (hrest : ∀ b ∈ rest.head?, b ∈ bracketBytes) :
    lexer.rules.IsLongest (bs ++ rest) n r := by
  have hle := h.le_length
  refine ⟨by simp; omega, ?_, fun m hlt hm hmatched => ?_⟩
  · rw [List.take_append_of_le_length hle]
    exact h.firstMatch
  · by_cases hmle : m ≤ bs.length
    · rw [List.take_append_of_le_length hmle] at hmatched
      exact h.longest m hlt hmle hmatched
    · -- A match of more bytes has the bracket, so it is the bracket and there are no bytes before.
      obtain ⟨k, rfl⟩ := Nat.exists_eq_add_of_lt (Nat.lt_of_not_le hmle)
      rw [List.length_append, Nat.add_assoc] at hm
      obtain ⟨b, v, rfl⟩ := List.exists_cons_of_length_pos (by omega : 0 < rest.length)
      rw [Nat.add_assoc, List.take_length_add_append, List.take_succ_cons] at hmatched
      obtain ⟨r', hmatches⟩ := matchedBy_rules_iff.mp hmatched
      have hsingle := eq_singleton_of_matches hmatches (by simp) (hrest b rfl)
      obtain rfl : bs = [] := by
        cases bs with
        | nil => rfl
        | cons a bs => simp at hsingle
      exact not_matchedBy_nil (by simpa using h.matchedBy)

/-- Before a bracket bytes are taken apart as if nothing followed them. -/
theorem Lexes.append (h : Lexes total bs tokens) (htokens : tokens = ts ++ [endToken total])
    (hrest : ∀ b ∈ rest.head?, b ∈ bracketBytes) (h' : Lexes total' rest us) :
    ∃ ts', Lexes total' (bs ++ rest) (ts' ++ us) ∧ ts'.map Token.bare = ts.map Token.bare := by
  induction h generalizing ts with
  | finish =>
      obtain rfl : ts = [] := by simpa using htokens
      exact ⟨[], h', rfl⟩
  | @piece w behind r ts₀ tokens hlongest hact _ ih =>
      have hlongest' := isLongest_append hlongest hrest
      rw [List.append_assoc] at hlongest' ⊢
      rcases act_eq_ok hact with rfl | ⟨t, rfl, hlexical⟩
      · obtain ⟨ts', hbehind, hbare⟩ := ih htokens
        have hpiece := Lexes.piece hlongest' (act_at_of_ok hact _) hbehind
        exact ⟨ts', hpiece, hbare⟩
      · obtain ⟨ts, rfl, htail⟩ : ∃ ts₁, ts = t :: ts₁ ∧ tokens = ts₁ ++ [endToken total] := by
          rcases List.cons_eq_append_iff.mp htokens with ⟨-, hend⟩ | ⟨ts₁, hts, htail⟩
          · obtain ⟨rfl, -⟩ := List.cons.inj hend
            exact absurd rfl hlexical.ne_finish
          · exact ⟨ts₁, hts, htail⟩
        obtain ⟨ts', hbehind, hbare⟩ := ih htail
        have hpiece := Lexes.piece hlongest' (act_at_of_ok hact _) hbehind
        exact ⟨_ :: ts', hpiece, congrArg (t.bare :: ·) hbare⟩

theorem Lexes.lparen (h : Lexes total rest ts) :
    ∃ t, Lexes total (0x28 :: rest) (t :: ts) ∧ t.kind = .lparen :=
  h.operator rfl (fun _ => rfl) fun _ => rfl

theorem Lexes.rparen (h : Lexes total rest ts) :
    ∃ t, Lexes total (0x29 :: rest) (t :: ts) ∧ t.kind = .rparen :=
  h.operator rfl (fun _ => rfl) fun _ => rfl

/-! ## Expressions -/

/-- The bytes are an expression with this value. -/
def IsExpression (env : Bindings) (bs : List UInt8) (z : Complex) : Prop :=
  ∃ ts, tokenize bs = .ok (ts ++ [endToken bs.length]) ∧ Evaluates env .expr ts z

theorem IsExpression.evaluate (h : IsExpression env (Text.utf8Bytes line) z) :
    evaluate env line = (.ok z, env) := by
  obtain ⟨ts, htokens, hvalue⟩ := h
  exact evaluate_of_lexes (.of_tokenize htokens) hvalue

/-- A line that has a value and assigns nothing is an expression. -/
theorem isExpression_of_evaluate (h : (Calc.evaluate env line).1 = .ok z)
    (htarget : lineTarget? line = none) : IsExpression env (Text.utf8Bytes line) z := by
  obtain ⟨ts, htokens, -, hvalue, -⟩ := exists_tokens_of_value h
  refine ⟨ts, htokens, ?_⟩
  cases hvalue with
  | eval hu => exact hu
  | @assign x q u z hx hq hu =>
      obtain ⟨s, hs⟩ := (isLexical_of_tokenize htokens x List.mem_cons_self).name hx
      rw [lineTarget?, htokens] at htarget
      simp [target?, isAssignment, hx, hq, Token.name?, hs] at htarget

/-- An expression in brackets, with some bytes before them, has the value that the tokens of these
bytes and the brackets have with any expression of its value. -/
theorem IsExpression.enclosed {before : List UInt8} {y : Complex} (h : IsExpression env bs z)
    (hbefore : tokenize before = .ok (ts ++ [endToken before.length]))
    (hvalue : ∀ {l r : Token} {u : List Token}, l.kind = .lparen → Evaluates env .expr u z →
      r.kind = .rparen → Evaluates env .expr (ts ++ (l :: u ++ [r])) y) :
    IsExpression env (before ++ 0x28 :: (bs ++ [0x29])) y := by
  obtain ⟨us, htokens, hu⟩ := h
  have hend : Lexes (before ++ 0x28 :: (bs ++ [0x29])).length []
      [endToken (before ++ 0x28 :: (bs ++ [0x29])).length] := .finish
  obtain ⟨r, hclose, hr⟩ := hend.rparen
  obtain ⟨u, hinner, hbare⟩ := (Lexes.of_tokenize htokens).append rfl (by simp [bracketBytes]) hclose
  obtain ⟨l, hopen, hl⟩ := hinner.lparen
  obtain ⟨ts', hlexes, hbare'⟩ :=
    (Lexes.of_tokenize hbefore).append rfl (by simp [bracketBytes]) hopen
  refine ⟨ts' ++ (l :: u ++ [r]), ?_, (hvalue hl (hu.of_bare hbare) hr).of_bare ?_⟩
  · simpa using hlexes.tokenize
  · simp only [List.map_append, hbare']

theorem IsExpression.neg (h : IsExpression env bs z) :
    IsExpression env (0x2D :: 0x28 :: (bs ++ [0x29])) (-z) := by
  have hsign : tokenize [0x2D] = .ok ([⟨.minus, .absent, some ⟨0, 1⟩⟩] ++ [endToken 1]) := rfl
  exact h.enclosed hsign fun hl hu hr => .expr (.term (.sign rfl (.paren hl hu hr)))

theorem IsExpression.zero_sub (h : IsExpression env bs z) :
    IsExpression env (0x30 :: 0x20 :: 0x2D :: 0x20 :: 0x28 :: (bs ++ [0x29])) (.zero - z) := by
  let zero : Token := ⟨.number, .number (.ofReal (Decimal.toFloat ⟨0, 0⟩)), some ⟨0, 1⟩⟩
  let minus : Token := ⟨.minus, .absent, some ⟨2, 3⟩⟩
  have hdifference : tokenize [0x30, 0x20, 0x2D, 0x20] =
      .ok ([zero, minus] ++ [endToken 4]) := rfl
  have hzero : operand? env zero = some .zero := by
    have hvalue : Decimal.toFloat ⟨0, 0⟩ = 0 := by rfl
    exact congrArg (some <| Complex.ofReal ·) hvalue
  have hminuend : Evaluates env .expr [zero] .zero :=
    .expr (.term (.factor (.inner (.operand hzero))))
  have hoperator : additive? minus.kind = some (· - ·) := rfl
  -- Stated by itself, since the bytes before the bracket are known from their tokens only.
  have henclosed := h.enclosed hdifference fun hl hu hr =>
    hminuend.sum hoperator (.term (.factor (.paren hl hu hr)))
  exact henclosed

theorem IsExpression.arg (h : IsExpression env bs z) :
    IsExpression env (0x61 :: 0x72 :: 0x67 :: 0x28 :: (bs ++ [0x29])) z.arg := by
  have hname : tokenize [0x61, 0x72, 0x67] =
      .ok ([⟨.arg, .absent, some ⟨0, 3⟩⟩] ++ [endToken 3]) := rfl
  exact h.enclosed hname fun hl hu hr => .expr (.term (.factor (.function rfl hl hu hr)))

end Argand.Calc
