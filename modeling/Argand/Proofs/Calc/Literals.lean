-- SUMMARY: What the lexer of the calculator makes of numerals and signs.
import Argand.Proofs.Calc.Evaluation
import Argand.Proofs.Decimal
import Argand.Proofs.Deliveries
import Argand.Proofs.Text.Utf8

/-!
# Literals in a line

`Lexes` says which tokens come of some bytes at the end of a line: piece by piece, each piece being
the longest match at its place. These are the tokens that the lexer delivers without error, and it
delivers no others (`Lexes.deliveries`, `Lexes.of_deliveries`). A numeral is taken whole, with the
imaginary unit behind it if there is one. To see that nothing longer matches, the rules are followed:
after the first digit, after the point and after the digits behind it they are in a state that
further digits do not change.
-/
namespace Argand

/-! ## Longest matches along states -/

namespace Rules

variable {ρ : Type} {rules : Rules ρ} {bs rest : List UInt8} {n : Nat} {r : ρ}

/-- Nothing more is taken where the bytes end or the next one leaves no rule alive. -/
theorem isLongest_nothing (hwinner : rules.winner? = some r)
    (hdead : ∀ b ∈ rest.head?, (rules.step b).isDead = true) : rules.IsLongest rest 0 r := by
  have hfirst := winner?_eq_some_iff.mp hwinner
  cases rest with
  | nil => exact ⟨Nat.le_refl _, hfirst, fun m hlt hle => absurd hlt (Nat.not_lt.mpr hle)⟩
  | cons b rest => exact isLongest_zero hfirst (matchesNoPrefix_of_isDead (hdead b rfl))

/-- Bytes that do not change the rules are taken with what follows them. -/
theorem IsLongest.append_of_step_eq (h : rules.IsLongest rest n r)
    (hstep : ∀ b ∈ bs, rules.step b = rules) : rules.IsLongest (bs ++ rest) (bs.length + n) r := by
  induction bs with
  | nil => simpa using h
  | cons b bs ih =>
      have hrest := ih fun c hc => hstep c (List.mem_cons_of_mem b hc)
      rw [List.length_cons, Nat.add_right_comm]
      refine IsLongest.cons ?_
      rwa [hstep b List.mem_cons_self]

end Rules

namespace Calc

/-! ## Pieces of a line -/

/-- With these bytes ahead, the last of `total`, the lexer yields these tokens up to the end. -/
inductive Lexes (total : Nat) : List UInt8 → List Token → Prop where
  | finish : Lexes total [] [endToken total]
  | piece {bs rest : List UInt8} {r : LexRule} {ts ts' : List Token} :
      lexer.rules.IsLongest (bs ++ rest) bs.length r →
      r.act ⟨bs, ⟨total - (bs ++ rest).length, total - rest.length⟩⟩ = .ok ts →
      Lexes total rest ts' → Lexes total (bs ++ rest) (ts ++ ts')

theorem not_matchedBy_nil : ¬ lexer.rules.MatchedBy [] :=
  Rules.winner?_eq_none_iff.mp winner?_rules

variable {input bs rest : List UInt8} {c : Cursor} {calls n : Nat} {ts : List Token} {r : LexRule}

/-- A scan takes the longest match. -/
theorem scan_of_isLongest (hover : c.IsOver input) (hahead : c.ahead = bs ++ rest)
    (hlongest : lexer.rules.IsLongest (bs ++ rest) bs.length r) :
    ∃ c', c.scan lexer.rules = (.ok (some r), c') ∧ c'.IsOver input ∧ c'.lexeme = bs ∧
      c'.ahead = rest ∧
      c'.span = ⟨input.length - (bs ++ rest).length, input.length - rest.length⟩ := by
  have hdrop : input.drop c.span.stop = bs ++ rest := hover.ahead_eq.symm.trans hahead
  have hpos : 0 < bs.length := by
    refine Nat.pos_of_ne_zero fun hzero => not_matchedBy_nil ?_
    have hmatched := hlongest.matchedBy
    rwa [hzero, List.take_zero] at hmatched
  obtain ⟨n, r', -, hlongest', hscan, -, -⟩ := (hover.scansLongest not_matchedBy_nil).matched
    bs.length hpos (by rw [hdrop]; exact hlongest.le_length) (by rw [hdrop]; exact hlongest.matchedBy)
  rw [hdrop] at hlongest'
  obtain ⟨-, rfl⟩ := hlongest.unique hlongest'
  have hscan' : c.scan lexer.rules = (.ok (some r), (c.scan lexer.rules).2) := Prod.ext hscan rfl
  obtain ⟨hparts, hlongest'', hspan⟩ := hover.parts_of_match not_matchedBy_nil hscan'
  rw [hahead] at hparts hlongest'' hspan
  obtain ⟨hlength, -⟩ := hlongest.unique hlongest''
  obtain ⟨hlexeme, hahead'⟩ := List.append_inj hparts hlength
  exact ⟨_, hscan', (hover.of_match not_matchedBy_nil hscan').1, hlexeme.symm, hahead'.symm,
    hspan.trans (by rw [hahead'])⟩

/-- With nothing ahead the end token is delivered. -/
theorem next_of_nil (hover : c.IsOver input) (hahead : c.ahead = []) :
    ∃ c', c'.IsOver input ∧ c'.ahead = [] ∧
      lexer.next ⟨c, [], false⟩ = (.token (endToken input.length), ⟨c', [], true⟩) := by
  have htotal := hover.stop_add_length_ahead
  rw [hahead, List.length_nil, Nat.add_zero] at htotal
  have hscan := (hover.scansLongest not_matchedBy_nil).finished htotal
  have hscan' : c.scan lexer.rules = (.ok none, (c.scan lexer.rules).2) := Prod.ext hscan rfl
  obtain ⟨hover', -, hstop⟩ := hover.of_none not_matchedBy_nil hscan'
  refine ⟨_, hover', ?_, ?_⟩
  · rw [hover'.ahead_eq, hstop, List.drop_length]
  · rw [Lexer.next_of_none hscan', hstop]
    rfl

/-- After the end nothing is delivered. -/
theorem deliveries_ended (calls : Nat) (c : Cursor) :
    lexer.deliveries calls ⟨c, [], true⟩ = [] := by
  cases calls <;> simp [Lexer.deliveries, Lexer.next]

/-- Where a match yields nothing, the deliveries are those after it. -/
theorem deliveries_of_skip {c' : Cursor} (hover : c.IsOver input)
    (hscan : c.scan lexer.rules = (.ok (some r), c')) (hact : r.act ⟨c'.lexeme, c'.span⟩ = .ok []) :
    lexer.deliveries calls ⟨c, [], false⟩ = lexer.deliveries calls ⟨c', [], false⟩ := by
  cases calls with
  | zero => rfl
  | succ calls =>
      rw [Lexer.deliveries, Lexer.deliveries,
        Lexer.next_of_skip not_matchedBy_nil hover hscan hact]

/-- With calls enough the lexer delivers the tokens. -/
theorem Lexes.deliveries (h : Lexes input.length bs ts) (hover : c.IsOver input)
    (hahead : c.ahead = bs) (hcalls : bs.length < calls) :
    (lexer.deliveries calls ⟨c, [], false⟩).map (·.1) = ts.map .token := by
  induction h generalizing c calls with
  | finish =>
      obtain ⟨calls, rfl⟩ := Nat.exists_eq_succ_of_ne_zero (Nat.ne_zero_of_lt hcalls)
      obtain ⟨c', -, -, hnext⟩ := next_of_nil hover hahead
      rw [Lexer.deliveries, hnext]
      change Delivery.token (endToken input.length) :: _ = _
      rw [deliveries_ended]
      rfl
  | @piece bs rest r ts ts' hlongest hact _ ih =>
      obtain ⟨calls, rfl⟩ := Nat.exists_eq_succ_of_ne_zero (Nat.ne_zero_of_lt hcalls)
      obtain ⟨c', hscan, hover', hlexeme, hahead', hspan⟩ := scan_of_isLongest hover hahead hlongest
      have hless := hover.length_ahead_lt_of_match not_matchedBy_nil hscan
      rw [hahead, hahead'] at hless
      have hyield : lexer.act r ⟨c'.lexeme, c'.span⟩ = .ok ts := by
        rw [hlexeme, hspan]
        exact hact
      rcases LexRule.act_eq_ok hact with rfl | ⟨t, rfl, -⟩
      · rw [deliveries_of_skip hover hscan hyield]
        exact ih hover' hahead' (by omega)
      · have hnext := Lexer.next_of_match hscan (by rw [hyield]; simp)
        rw [hyield] at hnext
        rw [Lexer.deliveries, hnext]
        change Delivery.token t :: _ = _
        rw [ih hover' hahead' (by omega)]
        rfl

/-- Tokens that are delivered up to the end without error are those of pieces. -/
theorem Lexes.of_deliveries (hover : c.IsOver input) (hcalls : c.ahead.length < calls)
    (h : (lexer.deliveries calls ⟨c, [], false⟩).map (·.1) = ts.map .token) :
    Lexes input.length c.ahead ts := by
  -- Every match leaves less ahead.
  induction hlength : c.ahead.length using Nat.strongRecOn generalizing c calls ts with
  | _ n ih =>
      subst hlength
      obtain ⟨calls, rfl⟩ := Nat.exists_eq_succ_of_ne_zero (Nat.ne_zero_of_lt hcalls)
      rcases hscan : c.scan lexer.rules with ⟨e | (_ | r), c'⟩
      · rw [Lexer.deliveries, Lexer.next_of_error hscan] at h
        obtain ⟨t, ts', -, ht, -⟩ := List.map_eq_cons_iff.mp h.symm
        cases ht
      · have hstop := (hover.of_none not_matchedBy_nil hscan).2.1
        have hnil : c.ahead = [] := by rw [hover.ahead_eq, hstop, List.drop_length]
        obtain ⟨c', -, -, hnext⟩ := next_of_nil hover hnil
        rw [Lexer.deliveries, hnext] at h
        change Delivery.token (endToken input.length) :: _ = _ at h
        rw [deliveries_ended] at h
        obtain rfl : ts = [endToken input.length] := map_token_inj h.symm
        rw [hnil]
        exact .finish
      · obtain ⟨hparts, hlongest, hspan⟩ := hover.parts_of_match not_matchedBy_nil hscan
        have hover' := (hover.of_match not_matchedBy_nil hscan).1
        have hless := hover.length_ahead_lt_of_match not_matchedBy_nil hscan
        rw [hparts] at hlongest hspan ⊢
        cases hact : lexer.act r ⟨c'.lexeme, c'.span⟩ with
        | error e =>
            rw [Lexer.deliveries, Lexer.next_of_match hscan (by simp [hact]), hact] at h
            obtain ⟨t, ts', -, ht, -⟩ := List.map_eq_cons_iff.mp h.symm
            cases ht
        | ok ts₀ =>
            rcases LexRule.act_eq_ok hact with rfl | ⟨t, rfl, -⟩
            · rw [deliveries_of_skip hover hscan hact] at h
              rw [hspan] at hact
              exact .piece hlongest hact (ih _ hless hover' (by omega) h rfl)
            · rw [Lexer.deliveries, Lexer.next_of_match hscan (by simp [hact]), hact] at h
              obtain ⟨t', ts', rfl, ht, hts'⟩ := List.map_eq_cons_iff.mp h.symm
              obtain rfl := Delivery.token.inj ht
              rw [hspan] at hact
              exact .piece hlongest hact (ih _ hless hover' (by omega) hts'.symm rfl)

/-- The tokens of a line that is taken apart in this way. -/
theorem Lexes.tokenize (h : Lexes bs.length bs ts) : tokenize bs = .ok ts :=
  tokenize_eq_ok_iff.mpr (h.deliveries (Cursor.isOver_ofBytes bs) rfl (Nat.lt_succ_self _))

theorem Lexes.of_tokenize (h : Argand.Calc.tokenize bs = .ok ts) : Lexes bs.length bs ts :=
  .of_deliveries (Cursor.isOver_ofBytes bs) (Nat.lt_succ_self _) (tokenize_eq_ok_iff.mp h)

/-! ## Rules along a numeral -/

deriving instance DecidableEq for Rules

/-- The bytes of the digits. -/
def digitBytes : List UInt8 :=
  [0x30, 0x31, 0x32, 0x33, 0x34, 0x35, 0x36, 0x37, 0x38, 0x39]

/-- The rules after digits, without a point. -/
def afterWhole : Rules LexRule :=
  lexer.rules.step 0x30

/-- The rules after digits and the point. -/
def afterPoint : Rules LexRule :=
  afterWhole.step 0x2E

/-- The rules after digits, the point and digits. -/
def afterFraction : Rules LexRule :=
  afterPoint.step 0x30

set_option maxRecDepth 20000 in
/-- Digits make a number, with the imaginary unit behind them an imaginary one, and a blank ends
either. -/
theorem winner?_afterDigits : ∀ rules ∈ [afterWhole, afterFraction],
    (rules.winner? = some .number ∧ (rules.step 0x20).isDead = true) ∧
      (rules.step 0x69).winner? = some .imaginary ∧
        ((rules.step 0x69).step 0x20).isDead = true := by
  decide

set_option maxRecDepth 20000 in
/-- Any digit leads to the same rules, and further digits leave them as they are. -/
theorem step_digit {b : UInt8} (hb : b ∈ digitBytes) :
    (lexer.rules.step b = afterWhole ∧ afterWhole.step b = afterWhole) ∧
      afterPoint.step b = afterFraction ∧ afterFraction.step b = afterFraction := by
  have hall : ∀ b ∈ digitBytes,
      (lexer.rules.step b = afterWhole ∧ afterWhole.step b = afterWhole) ∧
        afterPoint.step b = afterFraction ∧ afterFraction.step b = afterFraction := by
    decide
  exact hall b hb

theorem mem_digitBytes {c : Char} (hc : Decimal.isDigit c = true) :
    ∃ b ∈ digitBytes, String.utf8EncodeChar c = [b] := by
  have hall : ∀ k < 10, ∃ b ∈ digitBytes, String.utf8EncodeChar (Char.ofNat (48 + k)) = [b] := by
    decide
  rw [Decimal.isDigit, Bool.and_eq_true, decide_eq_true_eq, decide_eq_true_eq] at hc
  have hlow : 48 ≤ c.toNat := hc.1
  have hhigh : c.toNat ≤ 57 := hc.2
  have hofNat := hall (c.toNat - 48) (by omega)
  rwa [Nat.add_sub_cancel' hlow, Char.ofNat_toNat] at hofNat

/-- Digits lead to one state, in which what follows them is looked at. -/
theorem isLongest_digits {rules state : Rules LexRule} {cs : List Char} (hne : cs ≠ [])
    (hdigits : ∀ c ∈ cs, Decimal.isDigit c = true)
    (hstep : ∀ b ∈ digitBytes, rules.step b = state ∧ state.step b = state)
    (h : state.IsLongest rest n r) :
    rules.IsLongest (cs.flatMap String.utf8EncodeChar ++ rest)
      ((cs.flatMap String.utf8EncodeChar).length + n) r := by
  obtain ⟨c, cs, rfl⟩ := List.exists_cons_of_ne_nil hne
  obtain ⟨b, hb, hc⟩ := mem_digitBytes (hdigits c List.mem_cons_self)
  have hstay : ∀ b ∈ cs.flatMap String.utf8EncodeChar, state.step b = state := fun b hb => by
    obtain ⟨d, hd, hbd⟩ := List.mem_flatMap.mp hb
    obtain ⟨b', hb', hd'⟩ := mem_digitBytes (hdigits d (List.mem_cons_of_mem c hd))
    rw [hd', List.mem_singleton] at hbd
    exact (hstep b (hbd ▸ hb')).2
  rw [List.flatMap_cons, hc, List.singleton_append, List.cons_append, List.length_cons,
    Nat.add_right_comm]
  refine Rules.IsLongest.cons ?_
  rw [(hstep b hb).1]
  exact h.append_of_step_eq hstay

/-- The bytes of a numeral. -/
def numeralBytes (d : Decimal.Numeral) : List UInt8 :=
  d.chars.flatMap String.utf8EncodeChar

theorem exists_numeralBytes_eq (d : Decimal.Numeral) :
    ∃ b ∈ digitBytes, ∃ bs, numeralBytes d = b :: bs := by
  obtain ⟨c, cs, hwhole⟩ := List.exists_cons_of_ne_nil d.whole_ne_nil
  obtain ⟨b, hb, hc⟩ := mem_digitBytes (d.isDigit_whole c (by simp [hwhole]))
  refine ⟨b, hb, ?_⟩
  unfold numeralBytes Decimal.Numeral.chars
  split <;> simp [hwhole, hc]

/-- A numeral is taken whole, with as much of what follows as goes on after its digits. -/
theorem isLongest_numeral (d : Decimal.Numeral) {k : Nat}
    (h : ∀ rules ∈ [afterWhole, afterFraction], rules.IsLongest rest k r) :
    lexer.rules.IsLongest (numeralBytes d ++ rest) ((numeralBytes d).length + k) r := by
  have hwhole := h afterWhole (by simp)
  have hfraction := h afterFraction (by simp)
  unfold numeralBytes Decimal.Numeral.chars
  split
  · exact isLongest_digits d.whole_ne_nil d.isDigit_whole (fun b hb => (step_digit hb).1) hwhole
  · next hne =>
      have hpoint : String.utf8EncodeChar '.' = [0x2E] := by decide
      rw [List.flatMap_append, List.flatMap_cons, hpoint, List.append_assoc, List.length_append,
        Nat.add_assoc]
      refine isLongest_digits d.whole_ne_nil d.isDigit_whole (fun b hb => (step_digit hb).1) ?_
      rw [List.singleton_append, List.cons_append, List.length_cons, Nat.add_right_comm]
      refine Rules.IsLongest.cons ?_
      exact isLongest_digits hne d.isDigit_fraction (fun b hb => (step_digit hb).2) hfraction

/-! ## Literals and operators -/

variable {total : Nat} {env : Bindings}

/-- Behind a literal the line ends or a blank stands. -/
def EndsLiteral (rest : List UInt8) : Prop :=
  ∀ b ∈ rest.head?, b = 0x20

theorem text_of_chars (cs : List Char) (span : Span) :
    Lexeme.text ⟨cs.flatMap String.utf8EncodeChar, span⟩ = .ok (String.ofList cs) := by
  rw [Lexeme.text, ← Text.utf8Bytes_ofList, Text.ofUtf8?_utf8Bytes]

theorem readReal_numeral (d : Decimal.Numeral) (span : Span) :
    LexRule.readReal span d.chars = .ok d.decimal.toFloat := by
  rw [LexRule.readReal, d.read?_chars]

theorem act_number (d : Decimal.Numeral) (span : Span) :
    LexRule.act .number ⟨numeralBytes d, span⟩ =
      .ok [⟨.number, .number (.ofReal d.decimal.toFloat), some span⟩] := by
  have hvalue : LexRule.readNumber ⟨numeralBytes d, span⟩ = .ok (.ofReal d.decimal.toFloat) := by
    simp [LexRule.readNumber, numeralBytes, text_of_chars, readReal_numeral, bind, Except.bind,
      pure, Except.pure]
  rw [LexRule.act, hvalue]
  rfl

theorem act_imaginary (d : Decimal.Numeral) (span : Span) :
    LexRule.act .imaginary ⟨numeralBytes d ++ [0x69], span⟩ =
      .ok [⟨.imaginary, .number (.ofImaginary d.decimal.toFloat), some span⟩] := by
  have htext : Lexeme.text ⟨numeralBytes d ++ [0x69], span⟩ =
      .ok (String.ofList (d.chars ++ ['i'])) := by
    rw [← text_of_chars, List.flatMap_append]
    rfl
  have hne : d.chars ≠ [] := by
    unfold Decimal.Numeral.chars
    split <;> simp [d.whole_ne_nil]
  have hvalue : LexRule.readImaginary ⟨numeralBytes d ++ [0x69], span⟩ =
      .ok (.ofImaginary d.decimal.toFloat) := by
    simp [LexRule.readImaginary, htext, readReal_numeral, hne, bind, Except.bind, pure,
      Except.pure]
  rw [LexRule.act, hvalue]
  rfl

/-- A numeral is a literal on the real axis. -/
theorem Lexes.number (env : Bindings) (d : Decimal.Numeral) (hrest : EndsLiteral rest)
    (h : Lexes total rest ts) :
    ∃ t, Lexes total (numeralBytes d ++ rest) (t :: ts) ∧
      Descent.operand? env t = some (.ofReal d.decimal.toFloat) := by
  have hlongest : lexer.rules.IsLongest (numeralBytes d ++ rest) (numeralBytes d).length .number :=
    isLongest_numeral d fun rules hrules => by
      obtain ⟨⟨hwinner, hdead⟩, -⟩ := winner?_afterDigits rules hrules
      exact Rules.isLongest_nothing hwinner fun b hb => hrest b hb ▸ hdead
  exact ⟨_, Lexes.piece hlongest (act_number d _) h, rfl⟩

/-- A numeral with the imaginary unit behind it is one literal on the imaginary axis. -/
theorem Lexes.imaginary (env : Bindings) (d : Decimal.Numeral) (hrest : EndsLiteral rest)
    (h : Lexes total rest ts) :
    ∃ t, Lexes total (numeralBytes d ++ 0x69 :: rest) (t :: ts) ∧
      Descent.operand? env t = some (.ofImaginary d.decimal.toFloat) := by
  have hlongest : lexer.rules.IsLongest (numeralBytes d ++ 0x69 :: rest)
      ((numeralBytes d).length + 1) .imaginary := by
    refine isLongest_numeral d fun rules hrules => Rules.IsLongest.cons ?_
    obtain ⟨-, hwinner, hdead⟩ := winner?_afterDigits rules hrules
    exact Rules.isLongest_nothing hwinner fun b hb => hrest b hb ▸ hdead
  have happend : numeralBytes d ++ 0x69 :: rest = (numeralBytes d ++ [0x69]) ++ rest := by simp
  have hlength : (numeralBytes d).length + 1 = (numeralBytes d ++ [0x69]).length := by simp
  rw [happend, hlength] at hlongest
  rw [happend]
  exact ⟨_, Lexes.piece hlongest (act_imaginary d _) h, rfl⟩

/-- An operator is taken alone, whatever follows. -/
theorem Lexes.operator {b : UInt8} {X : Symbol} (hwinner : (lexer.rules.step b).winner? = some r)
    (hdead : ∀ c, ((lexer.rules.step b).step c).isDead = true)
    (hact : ∀ l, r.act l = .ok [⟨X, .absent, some l.span⟩]) (h : Lexes total rest ts) :
    ∃ t, Lexes total (b :: rest) (t :: ts) ∧ t.kind = X := by
  have hlongest : lexer.rules.IsLongest ([b] ++ rest) 1 r :=
    Rules.IsLongest.cons (Rules.isLongest_nothing hwinner fun c _ => hdead c)
  exact ⟨_, Lexes.piece hlongest (hact _) h, rfl⟩

theorem Lexes.minus (h : Lexes total rest ts) :
    ∃ t, Lexes total (0x2D :: rest) (t :: ts) ∧ t.kind = .minus :=
  h.operator (r := .minus) rfl (fun _ => rfl) fun _ => rfl

theorem Lexes.plus (h : Lexes total rest ts) :
    ∃ t, Lexes total (0x2B :: rest) (t :: ts) ∧ t.kind = .plus :=
  h.operator (r := .plus) rfl (fun _ => rfl) fun _ => rfl

/-! ## Floats -/

open Float.Model.UnpackedFloat Rounding

variable {x : Float} {s : Sign} {m : Nat} {q : Int} {hm : 0 < m} {f : Float → Complex}

/-- A float other than the zeros is read as a factor if its digits are read as a literal: as the
literal of its magnitude, negated if it has a minus sign. -/
theorem Lexes.factor (hx : x.toModel.unpack = .finite s m q hm)
    (hliteral : ∀ d : Decimal.Numeral, ∃ t, Lexes total (numeralBytes d ++ rest) (t :: ts) ∧
      Descent.operand? env t = some (f d.decimal.toFloat)) :
    ∃ u, Lexes total (Text.utf8Bytes (Decimal.ofFloat x) ++ rest) (u ++ ts) ∧
      Evaluates env .factor u (match s with | .negative => -f x.abs | .positive => f x.abs) := by
  obtain ⟨d, htext, hvalue⟩ := Decimal.exists_numeral_ofFloat hx
  obtain ⟨t, h, ht⟩ := hliteral d
  rw [hvalue] at ht
  have hinner : Evaluates env .innerFactor [t] (f x.abs) := .inner (.operand ht)
  rw [htext, Text.utf8Bytes_append, Text.utf8Bytes_ofList, List.append_assoc]
  cases s with
  | negative =>
      obtain ⟨t', hminus, hkind⟩ := h.minus
      exact ⟨[t', t], hminus, .sign (congrArg Descent.sign? hkind) hinner⟩
  | positive => exact ⟨[t], h, .factor hinner⟩

/-- A float is read as a factor on the real axis. -/
theorem Lexes.real (env : Bindings) (hx : x.toModel.unpack = .finite s m q hm)
    (hrest : EndsLiteral rest) (h : Lexes total rest ts) :
    ∃ u z, Lexes total (Text.utf8Bytes (Decimal.ofFloat x) ++ rest) (u ++ ts) ∧
      Evaluates env .factor u z ∧ z.re = x ∧ IsZero z.im := by
  obtain ⟨u, hlexes, hu⟩ := Lexes.factor hx fun d => h.number env d hrest
  refine ⟨u, _, hlexes, hu, ?_⟩
  cases s with
  | negative => exact ⟨neg_abs_eq_self hx, isZero_zero.neg⟩
  | positive => exact ⟨abs_eq_self hx, isZero_zero⟩

/-- A float with the imaginary unit behind it is read as a factor on the imaginary axis. -/
theorem Lexes.imag (env : Bindings) (hx : x.toModel.unpack = .finite s m q hm)
    (hrest : EndsLiteral rest) (h : Lexes total rest ts) :
    ∃ u z, Lexes total (Text.utf8Bytes (Decimal.ofFloat x) ++ 0x69 :: rest) (u ++ ts) ∧
      Evaluates env .factor u z ∧ IsZero z.re ∧ z.im = x := by
  obtain ⟨u, hlexes, hu⟩ := Lexes.factor hx fun d => h.imaginary env d hrest
  refine ⟨u, _, hlexes, hu, ?_⟩
  cases s with
  | negative => exact ⟨isZero_zero.neg, neg_abs_eq_self hx⟩
  | positive => exact ⟨isZero_zero, abs_eq_self hx⟩

/-- The text of a float begins with a digit or a minus sign. -/
theorem exists_utf8Bytes_ofFloat_eq (hx : x.toModel.unpack = .finite s m q hm) :
    ∃ b ∈ 0x2B :: 0x2D :: digitBytes, ∃ bs, Text.utf8Bytes (Decimal.ofFloat x) = b :: bs := by
  obtain ⟨d, htext, -⟩ := Decimal.exists_numeral_ofFloat hx
  rw [htext, Text.utf8Bytes_append, Text.utf8Bytes_ofList]
  cases s with
  | negative => exact ⟨0x2D, by decide, _, rfl⟩
  | positive =>
      obtain ⟨b, hb, bs, hbs⟩ := exists_numeralBytes_eq d
      exact ⟨b, by simp [hb], bs, hbs⟩

end Calc
end Argand
