-- SUMMARY: The canonical text of a complex number is a line that has this number as its value.
import Argand.Complex.Text
import Argand.Proofs.Calc.Lexemes

/-!
# Reading canonical text

Tokens that have a value by the grammar are derived by it, so a line of such tokens has this value
(`evaluateBytes_of_evaluates`). The canonical text is taken apart into literals, signs and the
joiner, which are one factor or the sum of two. Each literal lies on its axis, so a sum adds a zero
to each component, and what comes of it equals the number, with the zeros identified.
-/
namespace Argand.Calc

open Descent Float.Model.UnpackedFloat Rounding

variable {env : Bindings} {X : Symbol} {bs : List UInt8} {w ts : List Token} {z : Complex}

/-! ## Lines of tokens with a value -/

/-- What has a value as a symbol is derived from it. -/
theorem Evaluates.derives (h : Evaluates env X w z) :
    grammar.Derives [X.index] (symbolsOf w) := by
  induction h with
  | @assign x e u z hx he _ ih =>
      refine (derives_phrase .assign).trans ?_
      simpa [symbolsOf, Phrase.rhs, hx, he] using
        ih.context [Symbol.ident.index, Symbol.equals.index] []
  | eval _ ih => exact (derives_phrase .eval).trans ih
  | @sum u v t op x y _ hop _ ihu ihv =>
      have hsum := ihu.append ((Grammar.Derives.refl [t.kind.index]).append ihv)
      have hphrase : grammar.Derives [Symbol.expr.index]
          [Symbol.expr.index, t.kind.index, Symbol.term.index] := by
        cases hkind : t.kind <;> simp [additive?, hkind] at hop
        · exact derives_phrase .add
        · exact derives_phrase .sub
      exact hphrase.trans (by simpa [symbolsOf] using hsum)
  | expr _ ih => exact (derives_phrase .exprTerm).trans ih
  | @product u v t op x y _ hop _ ihu ihv =>
      have hproduct := ihu.append ((Grammar.Derives.refl [t.kind.index]).append ihv)
      have hphrase : grammar.Derives [Symbol.term.index]
          [Symbol.term.index, t.kind.index, Symbol.factor.index] := by
        cases hkind : t.kind <;> simp [multiplicative?, hkind] at hop
        · exact derives_phrase .mul
        · exact derives_phrase .div
      exact hphrase.trans (by simpa [symbolsOf] using hproduct)
  | term _ ih => exact (derives_phrase .termFactor).trans ih
  | @sign t u f x hf _ ih =>
      have hsign := ih.context [t.kind.index] []
      have hphrase : grammar.Derives [Symbol.factor.index]
          [t.kind.index, Symbol.innerFactor.index] := by
        cases hkind : t.kind <;> simp [sign?, hkind] at hf
        · exact derives_phrase .plus
        · exact derives_phrase .neg
      exact hphrase.trans (by simpa [symbolsOf] using hsign)
  | factor _ ih => exact (derives_phrase .factorInner).trans ih
  | @function t l r u f x hf hl _ hr ih =>
      have hfunction := ih.context [t.kind.index, Symbol.lparen.index] [Symbol.rparen.index]
      have hphrase : grammar.Derives [Symbol.innerFactor.index]
          [t.kind.index, Symbol.lparen.index, Symbol.expr.index, Symbol.rparen.index] := by
        cases hkind : t.kind <;> simp [function?, hkind] at hf
        · exact derives_phrase .abs
        · exact derives_phrase .arg
        · exact derives_phrase .norm
        · exact derives_phrase .conj
      exact hphrase.trans (by simpa [symbolsOf, hl, hr] using hfunction)
  | @paren l r u z hl _ hr ih =>
      refine (derives_phrase .paren).trans ?_
      simpa [symbolsOf, Phrase.rhs, hl, hr] using
        ih.context [Symbol.lparen.index] [Symbol.rparen.index]
  | inner _ ih => exact (derives_phrase .innerUnit).trans ih
  | @operand t z ht =>
      cases hkind : t.kind <;> simp [operand?, hkind] at ht <;>
        simp only [symbolsOf, List.map_cons, hkind]
      · exact derives_phrase .number
      · exact derives_phrase .imaginary
      · exact derives_phrase .name

/-- A line whose tokens have a value as a line has this value. -/
theorem evaluateBytes_of_evaluates (htokens : tokenize bs = .ok (ts ++ [endToken bs.length]))
    (h : Evaluates env .line ts z) : evaluateBytes env bs = (.ok z, assigned env ts z) := by
  obtain ⟨z', heval, h'⟩ := exists_value_of_tokens htokens h.derives h.operandsBound
  obtain rfl : z' = z := Option.some.inj (h'.reads.symm.trans h.reads)
  exact heval

/-- A call reads a line whose tokens have a value. -/
theorem exists_next_of_evaluates {table : Table} (hbuild : table? = .ok table)
    (htokens : tokenize bs = .ok (ts ++ [endToken bs.length])) (h : Evaluates env .line ts z) :
    ∃ t p, (parser table).next (.start (deliveriesOf bs) env) = (.ok (some t), p) := by
  obtain ⟨ds, hds, hall⟩ := exists_deliveries bs
  have hinput : (Progress.start (deliveriesOf bs) env).input =
      ds ++ [.token (endToken bs.length)] := hds
  have hfault := firstFault_of_tokens htokens h.derives h.operandsBound
  rcases next_cases hbuild hall hinput with
      ⟨fault, -, hfault', -⟩ | ⟨-, -, t, -, p, -, -, -, hnext, -⟩
  · cases hfault.symm.trans hfault'
  · exact ⟨t, p, hnext⟩

/-- A line that is taken apart into an expression has its value and binds nothing. -/
theorem evaluate_of_lexes {line : String}
    (hlexes : Lexes (Text.utf8Bytes line).length (Text.utf8Bytes line)
      (ts ++ [endToken (Text.utf8Bytes line).length]))
    (h : Evaluates env .expr ts z) : evaluate env line = (.ok z, env) := by
  have hassign := (body_eq_self fun t ht => (h.isOrdinary (by simp) t ht).1).1
  have hassigned : assigned env ts z = env := by simp [assigned, target?, hassign]
  rw [evaluate, evaluateBytes_of_evaluates hlexes.tokenize (.eval h), hassigned]

/-! ## The forms of canonical text -/

theorem endsLiteral_nil : EndsLiteral [] := nofun

theorem complex_beq {z w : Complex} (hre : (z.re == w.re) = true) (him : (z.im == w.im) = true) :
    (z == w) = true := by
  change (z.re == w.re && z.im == w.im) = true
  rw [hre, him, Bool.and_true]

variable {s s' : Sign} {m m' : Nat} {q q' : Int} {hm : 0 < m} {hm' : 0 < m'}

/-- The numeral for zero. -/
def zeroNumeral : Decimal.Numeral where
  whole := ['0']
  fraction := []
  whole_ne_nil := List.cons_ne_nil _ _
  isDigit_whole := List.forall_mem_singleton.mpr rfl
  isDigit_fraction := nofun

theorem isZero_zeroNumeral : IsZero zeroNumeral.decimal.toFloat := by
  have hdigits : zeroNumeral.decimal.digits = 0 := rfl
  refine Decimal.isZero_toFloat ?_
  rw [Decimal.value, hdigits, Nat.cast_zero, zero_mul]

/-- Zero, whatever the signs of its components. -/
theorem evaluate_text_of_isZero (hre : IsZero z.re) (him : IsZero z.im) :
    ∃ w, evaluate env z.text = (.ok w, env) ∧ (w == z) = true := by
  have htext : z.text = "0" := by
    simp only [Complex.text, hre.beq isZero_zero, him.beq isZero_zero]
  have hbytes : Text.utf8Bytes z.text = numeralBytes zeroNumeral ++ [] := by
    rw [htext]
    rfl
  obtain ⟨t, h, ht⟩ := Lexes.finish.number env zeroNumeral endsLiteral_nil
  have hfactor : Evaluates env .factor [t] (.ofReal zeroNumeral.decimal.toFloat) :=
    .factor (.inner (.operand ht))
  refine ⟨_, evaluate_of_lexes (hbytes ▸ h) (.expr (.term hfactor)), ?_⟩
  exact complex_beq (isZero_zeroNumeral.beq hre) (isZero_zero.beq him)

theorem evaluate_text_of_imaginary (hre : IsZero z.re)
    (him : z.im.toModel.unpack = .finite s m q hm) :
    ∃ w, evaluate env z.text = (.ok w, env) ∧ (w == z) = true := by
  have htext : z.text = Decimal.ofFloat z.im ++ "i" := by
    simp only [Complex.text, hre.beq isZero_zero, beq_zero_of_finite him]
  have hbytes : Text.utf8Bytes z.text = Text.utf8Bytes (Decimal.ofFloat z.im) ++ [0x69] :=
    htext ▸ Text.utf8Bytes_append
  obtain ⟨ts, w, h, hw, hwre, hwim⟩ := Lexes.finish.imag env him endsLiteral_nil
  refine ⟨w, evaluate_of_lexes (hbytes ▸ h) (.expr (.term hw)), complex_beq (hwre.beq hre) ?_⟩
  rw [hwim]
  exact beq_self_of_finite him

theorem evaluate_text_of_real (hre : z.re.toModel.unpack = .finite s m q hm) (him : IsZero z.im) :
    ∃ w, evaluate env z.text = (.ok w, env) ∧ (w == z) = true := by
  have htext : z.text = Decimal.ofFloat z.re := by
    simp only [Complex.text, beq_zero_of_finite hre, him.beq isZero_zero]
  have hbytes : Text.utf8Bytes z.text = Text.utf8Bytes (Decimal.ofFloat z.re) ++ [] := by
    rw [htext, List.append_nil]
  obtain ⟨ts, w, h, hw, hwre, hwim⟩ := Lexes.finish.real env hre endsLiteral_nil
  refine ⟨w, evaluate_of_lexes (hbytes ▸ h) (.expr (.term hw)), complex_beq ?_ (hwim.beq him)⟩
  rw [hwre]
  exact beq_self_of_finite hre

/-- Two components with the joiner between them are a sum, in which each takes a zero from the
other. -/
theorem evaluate_text_of_sum (hre : z.re.toModel.unpack = .finite s m q hm)
    (him : z.im.toModel.unpack = .finite s' m' q' hm') :
    ∃ w, evaluate env z.text = (.ok w, env) ∧ (w == z) = true := by
  have htext : z.text = Decimal.ofFloat z.re ++ " + " ++ Decimal.ofFloat z.im ++ "i" := by
    simp only [Complex.text, beq_zero_of_finite hre, beq_zero_of_finite him]
  have hbytes : Text.utf8Bytes z.text = Text.utf8Bytes (Decimal.ofFloat z.re) ++
      0x20 :: 0x2B :: 0x20 :: (Text.utf8Bytes (Decimal.ofFloat z.im) ++ [0x69]) := by
    rw [htext, Text.utf8Bytes_append, Text.utf8Bytes_append, Text.utf8Bytes_append,
      List.append_assoc, List.append_assoc]
    rfl
  have hend : Lexes (Text.utf8Bytes z.text).length [] [endToken (Text.utf8Bytes z.text).length] :=
    .finish
  obtain ⟨vs, y, hright, hy, hyre, hyim⟩ := hend.imag env him endsLiteral_nil
  obtain ⟨b, hb, bs, hbs⟩ := exists_utf8Bytes_ofFloat_eq him
  rw [hbs, List.cons_append] at hright hbytes
  obtain ⟨t, hplus, hkind⟩ := (hright.blank hb).plus
  obtain ⟨us, x, hleft, hx, hxre, hxim⟩ :=
    (hplus.blank (by decide)).real env hre (by simp [EndsLiteral])
  have hsum : Evaluates env .expr (us ++ t :: vs) (x + y) :=
    .sum (.expr (.term hx)) (congrArg additive? hkind) (.term hy)
  have hadd : x + y = z := by
    change (⟨x.re + y.re, x.im + y.im⟩ : Complex) = z
    rw [hxre, hyim, add_of_isZero hre hyre, add_isZero_left hxim him]
  rw [hadd] at hsum
  have htokens : us ++ t :: (vs ++ [endToken (Text.utf8Bytes z.text).length]) =
      (us ++ t :: vs) ++ [endToken (Text.utf8Bytes z.text).length] := by simp
  rw [htokens] at hleft
  refine ⟨z, evaluate_of_lexes (hbytes ▸ hleft) hsum, ?_⟩
  exact complex_beq (beq_self_of_finite hre) (beq_self_of_finite him)

/-- The canonical text of a number with finite components is a line that has a value, under any
bindings and without changing them, and this value equals the number. -/
theorem evaluate_text (env : Bindings) (z : Complex) (hre : z.re.isFinite = true)
    (him : z.im.isFinite = true) :
    ∃ w, evaluate env z.text = (.ok w, env) ∧ (w == z) = true := by
  rcases finite_cases hre with hre | ⟨s, m, q, hm, hre⟩ <;>
    rcases finite_cases him with him | ⟨s', m', q', hm', him⟩
  · exact evaluate_text_of_isZero hre him
  · exact evaluate_text_of_imaginary hre him
  · exact evaluate_text_of_real hre him
  · exact evaluate_text_of_sum hre him

/-- The imaginary part shows its sign behind the joiner, and both signs are read back. -/
theorem evaluate_text_signs :
    (-3 : Float).isFinite = true ∧ (-4 : Float).isFinite = true ∧
      (⟨-3, -4⟩ : Complex).text = "-3 + -4i" ∧
      ∃ w, evaluate .empty "-3 + -4i" = (.ok w, .empty) ∧ (w == ⟨-3, -4⟩) = true := by
  have htext : (⟨-3, -4⟩ : Complex).text = "-3 + -4i" := by decide +kernel
  obtain ⟨w, heval, hw⟩ := evaluate_text .empty ⟨-3, -4⟩ rfl rfl
  rw [htext] at heval
  exact ⟨rfl, rfl, htext, w, heval, hw⟩

end Argand.Calc
