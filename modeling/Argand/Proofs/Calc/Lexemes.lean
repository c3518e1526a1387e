-- SUMMARY: What the lexemes of the calculator are made of, where they end, what comes of them.
import Argand.Proofs.Calc.Literals

/-!
# Lexemes of the calculator

Blanks are in the matches of one rule only, and that rule matches nothing else
(`matches_space_iff`, `not_mem_blankBytes_of_matches`). Whatever a lexeme was followed by, a blank
behind it ends it where it ended before (`isLongest_of_blank`), and blanks in a row are one lexeme
(`isLongest_blank`). A match always is a text and, as a literal, holds a numeral, so no action fails
on it (`exists_act_eq`), and what comes of it is the same at every place (`act_at`).
-/
namespace Argand

/-- The error at another place. -/
def LexError.at (offset : Nat) (e : LexError) : LexError :=
  { e with offset }

namespace Calc

/-- The token at another place. -/
def Token.at (span : Span) (t : Token) : Token :=
  { t with span := some span }

variable {w rest : List UInt8} {b : UInt8} {r : LexRule}

/-! ## Matches of rules -/

namespace LexRule

theorem mem_all (r : LexRule) : r ∈ all := by
  cases r <;> decide

theorem matchedBy_rules_iff : lexer.rules.MatchedBy w ↔ ∃ r : LexRule, r.pattern.Matches w := by
  constructor
  · rintro ⟨a, ha, hw⟩
    obtain ⟨r, -, rfl⟩ := List.mem_map.mp ha
    exact ⟨r, hw⟩
  · rintro ⟨r, hw⟩
    exact ⟨_, List.mem_map_of_mem (mem_all r), hw⟩

theorem matches_of_firstMatch (h : lexer.rules.FirstMatch w r) : r.pattern.Matches w := by
  obtain ⟨before, p, after, heq, hp, -⟩ := h
  have hmem : (r, p) ∈ lexer.rules.alternatives := by rw [heq]; simp
  obtain ⟨r', -, hr'⟩ := List.mem_map.mp hmem
  obtain ⟨rfl, rfl⟩ := Prod.mk.inj hr'
  exact hp

/-- None of the sets that a rule is built from has one of these bytes. -/
def avoids (r : LexRule) (bytes : List UInt8) : Bool :=
  r.pattern.sets.all fun s => bytes.all fun b => !s.contains b

theorem not_mem_of_avoids {bytes : List UInt8} (havoids : r.avoids bytes = true)
    (h : r.pattern.Matches w) : ∀ b ∈ w, b ∉ bytes := by
  intro b hb hmem
  obtain ⟨s, hs, hcontains⟩ := h.exists_mem_sets b hb
  have hnone := List.all_eq_true.mp (List.all_eq_true.mp havoids s hs) b hmem
  rw [hcontains] at hnone
  cases hnone

theorem ne_nil_of_matches (h : r.pattern.Matches w) : w ≠ [] := by
  rintro rfl
  exact not_matchedBy_nil (matchedBy_rules_iff.mpr ⟨r, h⟩)

end LexRule

open LexRule

/-! ## Blanks -/

/-- The bytes of blanks: space, tab, carriage return, line feed and form feed. -/
def blankBytes : List UInt8 :=
  [0x20, 0x09, 0x0D, 0x0A, 0x0C]

/-- Nothing but blanks. -/
def IsBlank (w : List UInt8) : Prop :=
  ∀ b ∈ w, b ∈ blankBytes

instance (w : List UInt8) : Decidable (IsBlank w) :=
  List.decidableBAll (· ∈ blankBytes) w

/-- Blanks are matched, one at least. -/
theorem matches_space_iff : space.pattern.Matches w ↔ w ≠ [] ∧ IsBlank w := by
  rw [pattern, Pattern.matches_plus_byte_iff]
  simp only [ByteSet.contains_oneOf]
  exact Iff.rfl

/-- No other rule takes a blank. -/
theorem not_mem_blankBytes_of_matches (hr : r ≠ space) (h : r.pattern.Matches w) :
    ∀ b ∈ w, b ∉ blankBytes := by
  refine not_mem_of_avoids ?_ h
  cases r <;> first | exact absurd rfl hr | rfl

theorem head?_not_mem_blankBytes (hr : r ≠ space) (h : r.pattern.Matches w) :
    ∀ b ∈ (w ++ rest).head?, b ∉ blankBytes := by
  obtain ⟨a, u, rfl⟩ := List.exists_cons_of_ne_nil (ne_nil_of_matches h)
  rintro _ ⟨⟩
  exact not_mem_blankBytes_of_matches hr h a List.mem_cons_self

/-- What is matched is all blank or has no blank. -/
theorem isBlank_of_matches (h : r.pattern.Matches w) (hb : b ∈ w) (hblank : b ∈ blankBytes) :
    r = space ∧ IsBlank w := by
  have hr : r = space := by
    by_contra hne
    exact not_mem_blankBytes_of_matches hne h b hb hblank
  subst hr
  exact ⟨rfl, (matches_space_iff.mp h).2⟩

/-! ## Where lexemes end -/

/-- What is matched ends before a blank, whatever it was followed by where it was found. -/
theorem isLongest_of_blank (hr : r ≠ space) (hfirst : lexer.rules.FirstMatch w r)
    (hrest : ∀ b ∈ rest.head?, b ∈ blankBytes) :
    lexer.rules.IsLongest (w ++ rest) w.length r := by
  have hw := matches_of_firstMatch hfirst
  refine hfirst.isLongest fun b v hprefix hmatched => ?_
  -- The longer match would have a blank, so the lexeme itself would be blank.
  have hblank : b ∈ blankBytes := hrest b (by obtain ⟨t, rfl⟩ := hprefix; rfl)
  obtain ⟨r', hmatches⟩ := matchedBy_rules_iff.mp hmatched
  have hall := (isBlank_of_matches hmatches (by simp) hblank).2
  obtain ⟨a, u, rfl⟩ := List.exists_cons_of_ne_nil (ne_nil_of_matches hw)
  exact not_mem_blankBytes_of_matches hr hw a (by simp) (hall a (by simp))

/-- Blanks up to something else are one lexeme. -/
theorem isLongest_blank (hne : w ≠ []) (hw : IsBlank w)
    (hrest : ∀ b ∈ rest.head?, b ∉ blankBytes) :
    lexer.rules.IsLongest (w ++ rest) w.length space := by
  obtain ⟨a, u, rfl⟩ := List.exists_cons_of_ne_nil hne
  have ha : a ∈ blankBytes := hw a List.mem_cons_self
  have hmatches := matches_space_iff.mpr ⟨hne, hw⟩
  obtain ⟨r, hfirst⟩ := Rules.exists_firstMatch_iff.mpr (matchedBy_rules_iff.mpr ⟨_, hmatches⟩)
  obtain ⟨rfl, -⟩ := isBlank_of_matches (matches_of_firstMatch hfirst) List.mem_cons_self ha
  refine hfirst.isLongest fun b v hprefix hmatched => ?_
  obtain ⟨r', hmatches'⟩ := matchedBy_rules_iff.mp hmatched
  have hall := (isBlank_of_matches hmatches' (by simp) ha).2
  exact hrest b (by obtain ⟨t, rfl⟩ := hprefix; rfl) (hall b (by simp))

/-- Blanks before something else yield nothing. -/
theorem Lexes.blanks {total : Nat} {ts : List Token} (hw : IsBlank w)
    (hrest : ∀ b ∈ rest.head?, b ∉ blankBytes) (h : Lexes total rest ts) :
    Lexes total (w ++ rest) ts := by
  by_cases hne : w = []
  · rwa [hne, List.nil_append]
  · exact Lexes.piece (isLongest_blank hne hw hrest) rfl h

set_option maxRecDepth 20000 in
/-- A blank before a sign or a digit yields nothing. -/
theorem Lexes.blank {total : Nat} {ts : List Token} (hb : b ∈ 0x2B :: 0x2D :: digitBytes)
    (h : Lexes total (b :: rest) ts) : Lexes total (0x20 :: b :: rest) ts := by
  have hall : ∀ b ∈ 0x2B :: 0x2D :: digitBytes, b ∉ blankBytes := by decide
  have hblank : IsBlank [0x20] := by decide
  exact h.blanks hblank fun c hc => Option.some.inj hc ▸ hall b hb

/-! ## Lexemes as texts -/

/-- Bytes below 128 as characters. -/
def asciiChars (w : List UInt8) : List Char :=
  w.map fun b => Char.ofNat b.toNat

/-- A match is a text, byte by byte. -/
theorem text_of_matches (h : r.pattern.Matches w) (span : Span) :
    Lexeme.text ⟨w, span⟩ = .ok (String.ofList (asciiChars w)) := by
  have hsets : r.pattern.sets.all (fun s => s.ranges.all fun range => range.2 < 0x80) = true := by
    cases r <;> rfl
  have hascii : ∀ b ∈ w, b.toNat < 0x80 := by
    intro b hb
    obtain ⟨s, hs, hcontains⟩ := h.exists_mem_sets b hb
    obtain ⟨range, hrange, hin⟩ := List.any_eq_true.mp hcontains
    rw [Bool.and_eq_true, decide_eq_true_eq, decide_eq_true_eq] at hin
    have hlt := List.all_eq_true.mp (List.all_eq_true.mp hsets s hs) range hrange
    exact UInt8.lt_of_le_of_lt hin.2 (of_decide_eq_true hlt)
  rw [Lexeme.text, Text.ofUtf8?, Text.charsOfUtf8?_ascii hascii, Option.map_some]
  rfl

/-- What holds of the numbers below 256 as bytes holds of all bytes. -/
theorem forall_byte {P : UInt8 → Prop} (h : ∀ n < 256, P (UInt8.ofNat n)) (b : UInt8) : P b := by
  have hb := h b.toNat b.toNat_lt
  rwa [UInt8.ofNat_toNat] at hb

/-! ## Numerals in lexemes -/

set_option maxRecDepth 20000 in
/-- The characters of digits are digits. -/
theorem isDigits_of_matches (h : digits.Matches w) : Decimal.IsDigits (asciiChars w) := by
  have hall : ∀ b, digit.contains b = true → Decimal.isDigit (Char.ofNat b.toNat) = true :=
    forall_byte (by decide)
  obtain ⟨hne, hdigits⟩ := Pattern.matches_plus_byte_iff.mp h
  refine ⟨by simpa [asciiChars] using hne, fun c hc => ?_⟩
  obtain ⟨b, hb, rfl⟩ := List.mem_map.mp hc
  exact hall b (hdigits b hb)

theorem isFraction_of_matches (h : fraction.Matches w) : Decimal.IsFraction (asciiChars w) := by
  have hliteral : Pattern.literal ['.'] = .byte (.single 0x2E) := by decide
  rw [fraction, hliteral, Pattern.matches_seq_iff] at h
  obtain ⟨u, v, rfl, hu, hv⟩ := h
  obtain ⟨b, hb, rfl⟩ := Pattern.matches_byte_iff.mp hu
  obtain rfl := ByteSet.contains_single.mp hb
  exact ⟨_, isDigits_of_matches hv, rfl⟩

theorem isExponent_of_matches (h : exponent.Matches w) : Decimal.IsExponent (asciiChars w) := by
  obtain ⟨u, v, rfl, hu, hv⟩ := Pattern.matches_seq_iff.mp h
  obtain ⟨x, y, rfl, hx, hy⟩ := Pattern.matches_seq_iff.mp hv
  have hletter : ∃ c, (c = 'e' ∨ c = 'E') ∧ asciiChars u = [c] := by
    obtain ⟨b, hb, rfl⟩ := Pattern.matches_byte_iff.mp hu
    rcases List.mem_pair.mp (ByteSet.contains_oneOf.mp hb) with rfl | rfl
    · exact ⟨'e', .inl rfl, rfl⟩
    · exact ⟨'E', .inr rfl, rfl⟩
  have hsign : asciiChars x ∈ [[], ['+'], ['-']] := by
    rcases Pattern.matches_opt_iff.mp hx with hx | rfl
    · obtain ⟨b, hb, rfl⟩ := Pattern.matches_byte_iff.mp hx
      rcases List.mem_pair.mp (ByteSet.contains_oneOf.mp hb) with rfl | rfl <;> decide
    · decide
  obtain ⟨c, hc, hu'⟩ := hletter
  refine ⟨c, hc, _, hsign, _, isDigits_of_matches hy, ?_⟩
  rw [asciiChars, List.map_append, List.map_append]
  exact congrArg (· ++ _) hu'

/-- A match of the pattern of numerals reads as a decimal. -/
theorem exists_read?_of_matches (h : numeral.Matches w) :
    ∃ d, Decimal.read? (asciiChars w) = some d := by
  obtain ⟨u, v, rfl, hu, hv⟩ := Pattern.matches_seq_iff.mp h
  obtain ⟨x, y, rfl, hx, hy⟩ := Pattern.matches_seq_iff.mp hv
  rw [asciiChars, List.map_append, List.map_append]
  refine Decimal.exists_read?_eq (isDigits_of_matches hu) ?_ ?_
  · rcases Pattern.matches_opt_iff.mp hx with hx | rfl
    · exact .inr (isFraction_of_matches hx)
    · exact .inl rfl
  · rcases Pattern.matches_opt_iff.mp hy with hy | rfl
    · exact .inr (isExponent_of_matches hy)
    · exact .inl rfl

/-! ## Actions on lexemes -/

theorem exists_readReal_eq (h : numeral.Matches w) (span : Span) :
    ∃ x, readReal span (asciiChars w) = .ok x := by
  obtain ⟨d, hd⟩ := exists_read?_of_matches h
  exact ⟨_, by rw [readReal, hd]⟩

/-- The imaginary unit stands behind a numeral or nothing. -/
theorem exists_readImaginary_eq (h : imaginary.pattern.Matches w) (span : Span) :
    ∃ z, readImaginary ⟨w, span⟩ = .ok z := by
  have hliteral : Pattern.literal ['i'] = .byte (.single 0x69) := by decide
  have htext := text_of_matches h span
  rw [pattern, hliteral] at h
  obtain ⟨u, v, rfl, hu, hv⟩ := Pattern.matches_seq_iff.mp h
  obtain ⟨b, hb, rfl⟩ := Pattern.matches_byte_iff.mp hv
  have hdrop : (asciiChars (u ++ [b])).dropLast = asciiChars u := by
    rw [asciiChars, List.map_append, List.map_singleton, List.dropLast_concat]
    rfl
  rcases Pattern.matches_opt_iff.mp hu with hu | rfl
  · obtain ⟨x, hx⟩ := exists_readReal_eq hu span
    have hne : asciiChars u ≠ [] := by
      obtain ⟨d, hd⟩ := exists_read?_of_matches hu
      rintro hnil
      rw [hnil] at hd
      cases hd
    refine ⟨.ofImaginary x, ?_⟩
    simp [readImaginary, htext, hdrop, hne, hx, bind, Except.bind, pure, Except.pure]
  · refine ⟨.i, ?_⟩
    rw [readImaginary, htext]
    simp only [bind, Except.bind, String.toList_ofList, hdrop]
    rfl

/-- An action on a match never fails. -/
theorem exists_act_eq (h : r.pattern.Matches w) (span : Span) :
    ∃ ts, r.act ⟨w, span⟩ = .ok ts := by
  have htext := text_of_matches h span
  cases r with
  | number =>
      obtain ⟨x, hx⟩ := exists_readReal_eq h span
      have hvalue : readNumber ⟨w, span⟩ = .ok (.ofReal x) := by
        simp [readNumber, htext, hx, bind, Except.bind, pure, Except.pure]
      exact ⟨_, by rw [act, hvalue]; rfl⟩
  | imaginary =>
      obtain ⟨z, hz⟩ := exists_readImaginary_eq h span
      exact ⟨_, by rw [act, hz]; rfl⟩
  | ident => exact ⟨_, by rw [act, htext]; rfl⟩
  | _ => exact ⟨_, rfl⟩

/-- Only blanks yield nothing. -/
theorem act_ne_nil (hr : r ≠ space) (l : Lexeme) : r.act l ≠ .ok [] := by
  intro h
  cases r with
  | space => exact hr rfl
  | number | imaginary | ident =>
      obtain ⟨a, -, ha⟩ := bind_eq_ok h
      cases ha
  | _ => cases h

/-! ## Lexemes at other places -/

theorem text_at (w : List UInt8) (span span' : Span) :
    Lexeme.text ⟨w, span'⟩ = (Lexeme.text ⟨w, span⟩).mapError (LexError.at span'.start) := by
  unfold Lexeme.text
  cases Text.ofUtf8? w <;> rfl

theorem readReal_at (cs : List Char) (span span' : Span) :
    readReal span' cs = (readReal span cs).mapError (LexError.at span'.start) := by
  unfold readReal
  cases Decimal.read? cs <;> rfl

theorem readNumber_at (w : List UInt8) (span span' : Span) :
    readNumber ⟨w, span'⟩ =
      (readNumber ⟨w, span⟩).mapError (LexError.at span'.start) := by
  simp only [readNumber, text_at w span span']
  cases Lexeme.text ⟨w, span⟩ with
  | error e => rfl
  | ok s =>
      simp only [readReal_at _ span span', Except.mapError, bind, Except.bind]
      cases readReal span s.toList <;> rfl

theorem readImaginary_at (w : List UInt8) (span span' : Span) :
    readImaginary ⟨w, span'⟩ =
      (readImaginary ⟨w, span⟩).mapError (LexError.at span'.start) := by
  simp only [readImaginary, text_at w span span']
  cases Lexeme.text ⟨w, span⟩ with
  | error e => rfl
  | ok s =>
      simp only [readReal_at _ span span', Except.mapError, bind, Except.bind]
      cases s.toList.dropLast.isEmpty with
      | true => rfl
      | false => cases readReal span s.toList.dropLast <;> rfl

/-- What an action makes of some bytes is the same everywhere, but for the place. -/
theorem act_at (r : LexRule) (w : List UInt8) (span span' : Span) :
    r.act ⟨w, span'⟩ =
      ((r.act ⟨w, span⟩).map (List.map (Token.at span'))).mapError (LexError.at span'.start) := by
  cases r with
  | number =>
      rw [act, act, readNumber_at w span span']
      cases readNumber ⟨w, span⟩ <;> rfl
  | imaginary =>
      rw [act, act, readImaginary_at w span span']
      cases readImaginary ⟨w, span⟩ <;> rfl
  | ident =>
      rw [act, act, text_at w span span']
      cases Lexeme.text ⟨w, span⟩ <;> rfl
  | _ => rfl

variable {span : Span} {t : Token}

theorem act_at_of_ok {ts : List Token} (h : r.act ⟨w, span⟩ = .ok ts) (span' : Span) :
    r.act ⟨w, span'⟩ = .ok (ts.map (Token.at span')) := by
  rw [act_at r w span span', h]
  rfl

/-- A token lies where its lexeme lies. -/
theorem at_eq_self_of_act (h : r.act ⟨w, span⟩ = .ok [t]) : t.at span = t := by
  have hsame := act_at_of_ok h span
  rw [h] at hsame
  exact (List.cons.inj (Except.ok.inj hsame)).1.symm

end Calc
end Argand
