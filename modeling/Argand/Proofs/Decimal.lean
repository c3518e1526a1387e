-- SUMMARY: Decimals in positional form read back with their value, and floats as themselves.
import Argand.Decimal.Shortest
import Argand.Proofs.Float.Scientific
import Argand.Proofs.Float.Signs

/-!
# Decimals and their text

The positional form of a decimal is a numeral without sign and exponent, which reads as a decimal of
the same value: zeros behind the digits or in front of them make no difference. The digits that a
float is written with are found by reading candidates back; if none of the short ones does, the
exact decimal is there, which has the value of the float and reads back as well. Numerals with an
exponent, which are never written, read as decimals too (`exists_read?_eq`).
-/
namespace Argand.Decimal

/-! ## Digits -/

theorem ofDigits_eq (cs : List Char) : ofDigits cs = Nat.ofDigitChars 10 cs 0 := by
  rw [Nat.ofDigitChars_eq_foldl]
  rfl

theorem ofDigits_toDigits (n : ℕ) : ofDigits (Nat.toDigits 10 n) = n := by
  rw [ofDigits_eq, Nat.ofDigitChars_toDigits (by decide) (by decide)]

theorem ofDigits_append_zeros (cs : List Char) (n : ℕ) :
    ofDigits (cs ++ List.replicate n '0') = 10 ^ n * ofDigits cs := by
  rw [ofDigits_eq, ofDigits_eq, Nat.ofDigitChars_append, Nat.ofDigitChars_replicate_zero]

theorem ofDigits_zeros_append (n : ℕ) (cs : List Char) :
    ofDigits (List.replicate n '0' ++ cs) = ofDigits cs := by
  rw [ofDigits_eq, ofDigits_eq, Nat.ofDigitChars_append, Nat.ofDigitChars_replicate_zero, mul_zero]

theorem isDigit_of_mem_toDigits {n : ℕ} {c : Char} (h : c ∈ Nat.toDigits 10 n) :
    isDigit c = true := by
  have hdigit := Nat.isDigit_of_mem_toDigits (by decide) (by decide) h
  rw [Char.isDigit, Bool.and_eq_true, decide_eq_true_eq, decide_eq_true_eq] at hdigit
  rw [isDigit, Bool.and_eq_true, decide_eq_true_eq, decide_eq_true_eq]
  exact hdigit

theorem isDigit_of_mem_replicate {n : ℕ} {c : Char} (h : c ∈ List.replicate n '0') :
    isDigit c = true := by
  rw [List.eq_of_mem_replicate h]
  decide

/-! ## Plain numerals -/

/-- A numeral without sign and exponent: digits, and digits behind the point. -/
structure Numeral where
  whole : List Char
  fraction : List Char
  whole_ne_nil : whole ≠ []
  isDigit_whole : ∀ c ∈ whole, isDigit c = true
  isDigit_fraction : ∀ c ∈ fraction, isDigit c = true

namespace Numeral

/-- The characters of a numeral. There is no point without digits behind it. -/
def chars (n : Numeral) : List Char :=
  if n.fraction = [] then n.whole else n.whole ++ '.' :: n.fraction

/-- The decimal that a numeral stands for. -/
def decimal (n : Numeral) : Decimal :=
  ⟨ofDigits (n.whole ++ n.fraction), -n.fraction.length⟩

theorem takeWhile_eq {cs : List Char} (h : ∀ c ∈ cs, isDigit c = true) :
    cs.takeWhile isDigit = cs ∧ cs.dropWhile isDigit = [] :=
  ⟨List.takeWhile_eq_self_iff.2 h, List.dropWhile_eq_nil_iff.2 h⟩

theorem read?_chars (n : Numeral) : read? n.chars = some n.decimal := by
  obtain ⟨whole, fraction, hne, hwhole, hfraction⟩ := n
  unfold read? chars decimal
  by_cases hnil : fraction = []
  · simp only [hnil, ↓reduceIte, (takeWhile_eq hwhole).1, (takeWhile_eq hwhole).2,
      List.isEmpty_eq_false_iff.2 hne, Bool.false_eq_true]
    rfl
  · simp only [hnil, ↓reduceIte, List.takeWhile_append_of_pos hwhole,
      List.dropWhile_append_of_pos hwhole, List.takeWhile_cons, List.dropWhile_cons,
      show isDigit '.' = false from by decide, Bool.false_eq_true, List.append_nil,
      List.isEmpty_eq_false_iff.2 hne, (takeWhile_eq hfraction).1, (takeWhile_eq hfraction).2,
      List.isEmpty_eq_false_iff.2 hnil]
    rfl

end Numeral

/-- The positional form of a decimal is a numeral of the same value. -/
theorem exists_numeral (d : Decimal) :
    ∃ n : Numeral, d.text = n.chars ∧ n.decimal.value = d.value := by
  obtain ⟨digits, exponent⟩ := d
  cases exponent with
  | ofNat zeros =>
      refine ⟨⟨Nat.toDigits 10 digits ++ List.replicate zeros '0', [], by simp, fun c hc => ?_,
        by simp⟩, ?_, ?_⟩
      · exact (List.mem_append.1 hc).elim isDigit_of_mem_toDigits isDigit_of_mem_replicate
      · rw [Numeral.chars, if_pos rfl, text]
      · simp only [Numeral.decimal, value, List.append_nil, ofDigits_append_zeros, ofDigits_toDigits,
          List.length_nil, Int.ofNat_eq_natCast, zpow_natCast]
        push_cast
        ring
  | negSucc k =>
      obtain ⟨padded, hpadded⟩ : ∃ padded, padded =
        List.replicate (k + 1 + 1 - (Nat.toDigits 10 digits).length) '0' ++ Nat.toDigits 10 digits :=
        ⟨_, rfl⟩
      have hlength : k + 1 < padded.length := by
        rw [hpadded, List.length_append, List.length_replicate]
        omega
      have hdigit : ∀ c ∈ padded, isDigit c = true := fun c hc => by
        rw [hpadded] at hc
        exact (List.mem_append.1 hc).elim isDigit_of_mem_replicate isDigit_of_mem_toDigits
      have hdrop : (padded.drop (padded.length - (k + 1))).length = k + 1 := by
        rw [List.length_drop]
        omega
      refine ⟨⟨padded.take (padded.length - (k + 1)), padded.drop (padded.length - (k + 1)), ?_,
        fun c hc => hdigit c (List.mem_of_mem_take hc),
        fun c hc => hdigit c (List.mem_of_mem_drop hc)⟩, ?_, ?_⟩
      · rw [← List.length_pos_iff, List.length_take]
        omega
      · have hne : padded.drop (padded.length - (k + 1)) ≠ [] := by
          rw [← List.length_pos_iff]
          omega
        rw [Numeral.chars, if_neg hne]
        simp only [text, pointed, hpadded]
      · simp only [Numeral.decimal, value, List.take_append_drop, hdrop]
        rw [hpadded, ofDigits_zeros_append, ofDigits_toDigits, Int.negSucc_eq]
        norm_cast

/-- The decimal that is zero reads as a zero. -/
theorem isZero_toFloat {d : Decimal} (h : d.value = 0) : Rounding.IsZero d.toFloat := by
  refine ⟨.positive, ?_⟩
  rw [toFloat_eq_nearest, h, Rounding.nearest_zero]
  exact Rounding.unpack_pack_zero .positive

/-! ## Numerals with an exponent -/

/-- Digits, one at least. -/
def IsDigits (cs : List Char) : Prop :=
  cs ≠ [] ∧ ∀ c ∈ cs, isDigit c = true

/-- A point and digits. -/
def IsFraction (cs : List Char) : Prop :=
  ∃ ds, IsDigits ds ∧ cs = '.' :: ds

/-- The letter, perhaps a sign, and digits. -/
def IsExponent (cs : List Char) : Prop :=
  ∃ c, (c = 'e' ∨ c = 'E') ∧ ∃ sign ∈ [[], ['+'], ['-']], ∃ ds, IsDigits ds ∧ cs = c :: (sign ++ ds)

section

variable {cs whole fraction exponent : List Char}

theorem exists_readExponent?_eq {sign : List Char} (hsign : sign ∈ [[], ['+'], ['-']])
    (hdigits : IsDigits cs) : ∃ e, readExponent? (sign ++ cs) = some e := by
  have hmagnitude : readExponent?.magnitude? cs = some (ofDigits cs : ℤ) := by
    have hall : cs.all isDigit = true := List.all_eq_true.mpr hdigits.2
    simp [readExponent?.magnitude?, hdigits.1, hall]
  simp only [List.mem_cons, List.not_mem_nil, or_false] at hsign
  rcases hsign with rfl | rfl | rfl
  · obtain ⟨c, cs, rfl⟩ := List.exists_cons_of_ne_nil hdigits.1
    have hc := hdigits.2 c List.mem_cons_self
    refine ⟨_, Eq.trans ?_ hmagnitude⟩
    rw [List.nil_append, readExponent?.eq_3]
    · rintro _ ⟨⟩
      exact absurd hc (by decide)
    · rintro _ ⟨⟩
      exact absurd hc (by decide)
  · exact ⟨_, hmagnitude⟩
  · exact ⟨_, by rw [List.singleton_append, readExponent?, hmagnitude, Option.map_some]⟩

theorem exists_readScale?_eq (hexponent : cs = [] ∨ IsExponent cs) :
    ∃ d, readScale? whole fraction cs = some d := by
  rcases hexponent with rfl | ⟨c, hc, sign, hsign, ds, hds, rfl⟩
  · exact ⟨_, rfl⟩
  · obtain ⟨e, he⟩ := exists_readExponent?_eq hsign hds
    exact ⟨_, by rw [readScale?, if_pos hc, he, Option.map_some]⟩

/-- Digits are read up to what is no digit. -/
theorem IsDigits.span_append (h : IsDigits cs) (rest : List Char)
    (hrest : ∀ c ∈ rest.head?, isDigit c = false) :
    (cs ++ rest).takeWhile isDigit = cs ∧ (cs ++ rest).dropWhile isDigit = rest := by
  rw [List.takeWhile_append_of_pos h.2, List.dropWhile_append_of_pos h.2]
  cases rest with
  | nil => simp
  | cons c rest => simp [hrest c rfl]

/-- A numeral reads as a decimal. -/
theorem exists_read?_eq (hwhole : IsDigits whole) (hfraction : fraction = [] ∨ IsFraction fraction)
    (hexponent : exponent = [] ∨ IsExponent exponent) :
    ∃ d, read? (whole ++ (fraction ++ exponent)) = some d := by
  have hletter : ∀ c ∈ exponent.head?, isDigit c = false ∧ c ≠ '.' := by
    rcases hexponent with rfl | ⟨c, rfl | rfl, sign, -, ds, -, rfl⟩
    · nofun
    · rintro _ ⟨⟩
      decide
    · rintro _ ⟨⟩
      decide
  rw [read?]
  rcases hfraction with rfl | ⟨ds, hds, rfl⟩
  · obtain ⟨htake, hdrop⟩ := hwhole.span_append exponent fun c hc => (hletter c hc).1
    simp only [List.nil_append, htake, hdrop, List.isEmpty_eq_false_iff.mpr hwhole.1,
      Bool.false_eq_true, ↓reduceIte]
    split
    · exact absurd rfl (hletter '.' rfl).2
    · exact exists_readScale?_eq hexponent
  · obtain ⟨htake, hdrop⟩ := hwhole.span_append ('.' :: (ds ++ exponent)) (by
      rintro _ ⟨⟩
      decide)
    obtain ⟨htake', hdrop'⟩ := hds.span_append exponent fun c hc => (hletter c hc).1
    simp only [List.cons_append, htake, hdrop, List.isEmpty_eq_false_iff.mpr hwhole.1,
      Bool.false_eq_true, ↓reduceIte, htake', hdrop', List.isEmpty_eq_false_iff.mpr hds.1]
    exact exists_readScale?_eq hexponent

end

/-! ## The shortest digits -/

theorem value_stripZeros (fuel : ℕ) (d : Decimal) : (stripZeros fuel d).value = d.value := by
  induction fuel generalizing d with
  | zero => rfl
  | succ fuel ih =>
      rw [stripZeros]
      split
      · next h =>
          have hdigits : (d.digits : ℚ) = 10 * (d.digits / 10 : ℕ) := by
            exact_mod_cast (Nat.mul_div_cancel' (Nat.dvd_of_mod_eq_zero h.2)).symm
          rw [ih, value, value, zpow_add_one₀ (by norm_num), hdigits]
          ring
      · rfl

/-- As many units as make up a float have the value of that float. -/
theorem value_units (m k : ℕ) {q e : ℤ} (he : (k : ℤ) = e) (hq : -e ≤ q) :
    ((m * Nat.pow 2 (q + e).toNat * Nat.pow 5 k : ℕ) : ℚ) * 10 ^ (-e) = m * 2 ^ q := by
  subst he
  have hten : (10 : ℚ) ^ (-k : ℤ) = (2 ^ k)⁻¹ * (5 ^ k)⁻¹ := by
    rw [zpow_neg, zpow_natCast, show (10 : ℚ) = 2 * 5 by norm_num, mul_pow, mul_inv]
  have htwo : (2 : ℚ) ^ q = 2 ^ (q + k).toNat * (2 ^ k)⁻¹ := by
    rw [← zpow_natCast, ← zpow_natCast, ← zpow_neg, ← zpow_add₀ two_ne_zero]
    congr 1
    omega
  simp only [Nat.pow_eq]
  push_cast
  rw [hten, htwo]
  field_simp

/-- What the search finds reads back, or it is the exact decimal. -/
theorem shortestOfUnits_cases (x : Float) (u : ℕ) :
    (shortestOfUnits x u).toFloat = x ∨ shortestOfUnits x u = ⟨u, -1074⟩ := by
  unfold shortestOfUnits
  simp only
  split
  · next d hfound =>
      obtain ⟨n, -, hfind⟩ := List.exists_of_findSome?_eq_some hfound
      have hreads : readsBack x d = true := List.find?_some hfind
      rw [toFloat_congr (value_stripZeros 20 d)]
      exact .inl (Float.toBits_inj.1 (beq_iff_eq.1 hreads))
  · exact .inr rfl

open Float.Model.UnpackedFloat in
/-- The digits found for a float read back as that float. -/
theorem toFloat_shortestOfUnits {x : Float} {m : ℕ} {q : ℤ} {hm : 0 < m}
    (hx : x.toModel.unpack = .finite .positive m q hm) :
    (shortestOfUnits x (units m q)).toFloat = x := by
  have hunits : ((units m q : ℕ) : ℚ) * 10 ^ (-1074 : ℤ) = m * 2 ^ q := by
    -- The exponent is replaced by a variable, so that nothing computes the power.
    obtain ⟨k, hk⟩ : ∃ k : ℕ, k = 1074 := ⟨_, rfl⟩
    unfold units
    rw [← hk]
    exact value_units m k (by rw [hk]; rfl) (Rounding.fits_of_unpack hx).le
  generalize units m q = u at hunits
  rcases shortestOfUnits_cases x u with hreads | hexact
  · exact hreads
  · rw [hexact]
    exact toFloat_of_value hx hunits

open Float.Model.UnpackedFloat in
/-- A finite float other than the zeros is written with its sign and a numeral that reads back as its
magnitude. -/
theorem exists_numeral_ofFloat {x : Float} {s : Sign} {m : ℕ} {q : ℤ} {hm : 0 < m}
    (hx : x.toModel.unpack = .finite s m q hm) :
    ∃ n : Numeral, ofFloat x = signText s ++ String.ofList n.chars ∧ n.decimal.toFloat = x.abs := by
  obtain ⟨n, htext, hvalue⟩ := exists_numeral (shortestOfUnits x.abs (units m q))
  refine ⟨n, ?_, ?_⟩
  · simp only [ofFloat, hx, htext]
  · rw [toFloat_congr hvalue]
    exact toFloat_shortestOfUnits (Rounding.unpack_abs hx)

end Argand.Decimal
