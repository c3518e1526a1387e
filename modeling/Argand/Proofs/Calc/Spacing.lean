-- SUMMARY: Blanks between the lexemes of a line change nothing but where its tokens lie.
import Argand.Proofs.Calc.Lexemes

/-!
# Spacing

A line that is lexed without error can be written with other blanks around its lexemes, as long as
some stand between any two: each lexeme is taken again as it was (`Lexes.respaced`), although it may
have been followed by something else before. The tokens are the same but for their places
(`placed`), and nothing that is computed from them looks at places, apart from the offset of an error
(`evaluateBytes_of_bare`).
-/
namespace Argand.Calc

open Descent

/-! ## Lines written with other blanks -/

/-- The bytes of the line over which the token lies. -/
def Token.lexemeIn (line : List UInt8) (t : Token) : List UInt8 :=
  match t.span with
  | some s => (line.drop s.start).take s.length
  | none => []

/-- The lexemes of tokens of the line, each with the bytes that are to stand behind it. -/
def spread (line : List UInt8) (ts : List (Token × List UInt8)) : List UInt8 :=
  ts.flatMap fun x => x.1.lexemeIn line ++ x.2

/-- The tokens of the line where they lie when their lexemes are spread out from an offset on. -/
def placed (line : List UInt8) : Nat → List (Token × List UInt8) → List Token
  | _, [] => []
  | offset, (t, gap) :: ts =>
    let stop := offset + (t.lexemeIn line).length
    t.at ⟨offset, stop⟩ :: placed line (stop + gap.length) ts

variable {line rest lead u v w : List UInt8} {ts : List (Token × List UInt8)} {tokens : List Token}
  {offset total : Nat} {t : Token} {span : Span}

theorem lexemeIn_at (h : line.length = offset) :
    (t.at ⟨offset, offset + w.length⟩).lexemeIn (line ++ (w ++ rest)) = w := by
  subst h
  simp [Token.lexemeIn, Token.at, Span.length]

/-- Blanks stand behind every token, some of them behind every token but the last. -/
structure AreGaps (ts : List (Token × List UInt8)) : Prop where
  isBlank : ∀ x ∈ ts, IsBlank x.2
  ne_nil : ∀ x ∈ ts.dropLast, x.2 ≠ []

theorem AreGaps.tail {x : Token × List UInt8} (h : AreGaps (x :: ts)) : AreGaps ts := by
  refine ⟨fun y hy => h.isBlank y (List.mem_cons_of_mem x hy), fun y hy => h.ne_nil y ?_⟩
  cases ts with
  | nil => cases hy
  | cons z ts => exact List.mem_cons_of_mem x hy

/-- Behind the first lexeme the line ends, or a blank stands. -/
theorem AreGaps.head?_mem {gap : List UInt8} (h : AreGaps ((t, gap) :: ts)) :
    ∀ b ∈ (gap ++ spread line ts).head?, b ∈ blankBytes := by
  intro b hb
  match gap, ts with
  | a :: gap, ts =>
      obtain rfl := Option.some.inj hb
      exact h.isBlank _ List.mem_cons_self _ List.mem_cons_self
  | [], [] => cases hb
  | [], x :: ts => exact absurd rfl (h.ne_nil (t, []) List.mem_cons_self)

/-- Every token keeps its kind, its value and its lexeme. -/
theorem forall₂_placed (hoffset : lead.length = offset) :
    List.Forall₂
      (fun t' x => t'.kind = x.1.kind ∧ t'.value = x.1.value ∧
        t'.lexemeIn (lead ++ spread line ts) = x.1.lexemeIn line)
      (placed line offset ts) ts := by
  induction ts generalizing lead offset with
  | nil => exact .nil
  | cons x ts ih =>
      obtain ⟨t, gap⟩ := x
      have hspread : lead ++ spread line ((t, gap) :: ts) =
          (lead ++ (t.lexemeIn line ++ gap)) ++ spread line ts := by
        simp [spread]
      refine .cons ⟨rfl, rfl, ?_⟩ ?_
      · have hassoc : lead ++ spread line ((t, gap) :: ts) =
            lead ++ (t.lexemeIn line ++ (gap ++ spread line ts)) := by
          simp [spread]
        rw [hassoc]
        exact lexemeIn_at hoffset
      · rw [hspread]
        exact ih (by simp [hoffset, Nat.add_assoc])

/-! ## Lexing -/

/-- A token of a piece has the piece as its lexeme. -/
theorem lexemeIn_of_act {r : LexRule} (hsuffix : w ++ rest <:+ line)
    (h : r.act ⟨w, ⟨line.length - (w ++ rest).length, line.length - rest.length⟩⟩ = .ok [t]) :
    t.lexemeIn line = w := by
  obtain ⟨before, rfl⟩ := hsuffix
  have hstart : (before ++ (w ++ rest)).length - (w ++ rest).length = before.length := by simp
  have hstop : (before ++ (w ++ rest)).length - rest.length = before.length + w.length := by
    simp only [List.length_append]
    omega
  rw [hstart, hstop] at h
  rw [← at_eq_self_of_act h]
  exact lexemeIn_at rfl

/-- The first token comes of the first lexeme. -/
theorem exists_eq_cons {tokens' : List Token} (ht : t.IsLexical)
    (h : t :: tokens' = ts.map (·.1) ++ [endToken line.length]) :
    ∃ gap ts', ts = (t, gap) :: ts' ∧ tokens' = ts'.map (·.1) ++ [endToken line.length] := by
  cases ts with
  | nil =>
      obtain ⟨rfl, -⟩ := List.cons.inj h
      exact absurd rfl ht.ne_finish
  | cons x ts =>
      obtain ⟨hx, htail⟩ := List.cons.inj h
      exact ⟨x.2, ts, by rw [hx], htail⟩

/-- Lexemes are taken again when they are spread out. -/
theorem Lexes.respaced (h : Lexes line.length rest tokens) (hrest : rest <:+ line)
    (htokens : tokens = ts.map (·.1) ++ [endToken line.length]) (hlead : IsBlank lead)
    (hgaps : AreGaps ts) (htotal : total = offset + (lead ++ spread line ts).length) :
    Lexes total (lead ++ spread line ts)
      (placed line (offset + lead.length) ts ++ [endToken total]) := by
  induction h generalizing ts lead offset with
  | finish =>
      obtain rfl : ts = [] := by
        cases ts with
        | nil => rfl
        | cons x ts => simp at htokens
      have hfinish : Lexes total (lead ++ []) [endToken total] := Lexes.finish.blanks hlead (by simp)
      simpa [spread, placed] using hfinish
  | @piece w rest r ts₀ tokens hlongest hact _ ih =>
      have hrest' : rest <:+ line := (List.suffix_append w rest).trans hrest
      rcases LexRule.act_eq_ok hact with rfl | ⟨t, rfl, hlexical⟩
      · exact ih hrest' htokens hlead hgaps htotal
      · obtain ⟨gap, ts, rfl, htokens'⟩ := exists_eq_cons hlexical htokens
        have hr : r ≠ .space := by
          rintro rfl
          cases hact
        have hfirst := hlongest.firstMatch
        rw [List.take_left' rfl] at hfirst
        have hlexeme := lexemeIn_of_act hrest hact
        have hspread : spread line ((t, gap) :: ts) = w ++ (gap ++ spread line ts) := by
          simp [spread, hlexeme]
        -- Pieces count their places from the end of the line.
        have hstart : total - (w ++ (gap ++ spread line ts)).length = offset + lead.length := by
          rw [htotal, hspread, List.length_append, ← Nat.add_assoc, Nat.add_sub_cancel]
        have hstop : total - (gap ++ spread line ts).length = offset + lead.length + w.length := by
          simp only [htotal, hspread, List.length_append]
          omega
        have hplaced := act_at_of_ok hact ⟨offset + lead.length, offset + lead.length + w.length⟩
        rw [← hstop, ← hstart] at hplaced
        have hlongest' : lexer.rules.IsLongest (w ++ (gap ++ spread line ts)) w.length r :=
          isLongest_of_blank hr hfirst hgaps.head?_mem
        have hbehind : Lexes total (gap ++ spread line ts)
            (placed line (offset + lead.length + w.length + gap.length) ts ++ [endToken total]) :=
          ih hrest' htokens' (hgaps.isBlank _ List.mem_cons_self) hgaps.tail (by
            simp only [htotal, hspread, List.length_append]
            omega)
        have hpiece := Lexes.piece hlongest' hplaced hbehind
        rw [hstart, hstop] at hpiece
        rw [hspread, placed, hlexeme]
        exact hpiece.blanks hlead
          (head?_not_mem_blankBytes hr (LexRule.matches_of_firstMatch hfirst))

/-! ## Evaluating without places -/

/-- The token without its place. -/
def Token.bare (t : Token) : Token :=
  { t with span := none }

/-- The error without its offset. -/
def Error.unplaced : Error → Error
  | .lexical e => .lexical (e.at 0)
  | .syntactic found _ => .syntactic found 0
  | .semantic e => .semantic e
  | .grammar e => .grammar e

variable {env : Bindings} {line' : List UInt8} {tokens' : List Token} {z z' : Complex}

theorem symbolsOf_bare (us : List Token) : symbolsOf (us.map Token.bare) = symbolsOf us := by
  rw [symbolsOf, List.map_map]
  rfl

theorem unboundBefore?_bare (env : Bindings) (us : List Token) (t : Token) :
    unboundBefore? env (us.map Token.bare) t.bare = unboundBefore? env us t := by
  rw [unboundBefore?, unboundBefore?, List.getLast?_map]
  cases us.getLast? <;> rfl

theorem firstFault_bare (env : Bindings) (us ts : List Token) :
    (firstFault env (us.map Token.bare) ((ts.map Token.bare).map .token)).map Error.unplaced =
      (firstFault env us (ts.map .token)).map Error.unplaced := by
  induction ts generalizing us with
  | nil => simp [firstFault]
  | cons t ts ih =>
      have hread : us.map Token.bare ++ [t.bare] = (us ++ [t]).map Token.bare := by simp
      have hsymbols := symbolsOf_bare (us ++ [t])
      simp only [List.map_cons, firstFault, unboundBefore?_bare, hread]
      cases unboundBefore? env us t with
      | some s => rfl
      | none =>
          by_cases hviable : grammar.IsViable (symbolsOf (us ++ [t]))
          · rw [if_pos hviable, if_pos (hread ▸ hsymbols ▸ hviable)]
            exact ih (us ++ [t])
          · rw [if_neg hviable, if_neg (hread ▸ hsymbols ▸ hviable)]
            rfl

theorem target?_bare (us : List Token) : target? (us.map Token.bare) = target? us := by
  match us with
  | [] => rfl
  | [_] => rfl
  | _ :: _ :: _ => rfl

theorem assigned_bare (env : Bindings) (us : List Token) (z : Complex) :
    assigned env (us.map Token.bare) z = assigned env us z := by
  rw [assigned, assigned, target?_bare]

/-- Tokens that are the same but for their places have the same value. -/
theorem Evaluates.of_bare {X : Symbol} {us vs : List Token} (h : Evaluates env X us z)
    (hbare : vs.map Token.bare = us.map Token.bare) : Evaluates env X vs z := by
  induction h generalizing vs with
  | assign hx he _ ih =>
      obtain ⟨x, vs, rfl, hx', hvs⟩ := List.map_eq_cons_iff.mp hbare
      obtain ⟨e, vs, rfl, he', hvs⟩ := List.map_eq_cons_iff.mp hvs
      exact .assign ((congrArg Token.kind hx').trans hx) ((congrArg Token.kind he').trans he) (ih hvs)
  | eval _ ih => exact .eval (ih hbare)
  | sum _ hop _ ihu ihv =>
      rw [List.map_append, List.map_cons] at hbare
      obtain ⟨us, vs, rfl, hus, hvs⟩ := List.map_eq_append_iff.mp hbare
      obtain ⟨t, vs, rfl, ht, hvs⟩ := List.map_eq_cons_iff.mp hvs
      exact .sum (ihu hus) ((congrArg (additive? ·.kind) ht).trans hop) (ihv hvs)
  | expr _ ih => exact .expr (ih hbare)
  | product _ hop _ ihu ihv =>
      rw [List.map_append, List.map_cons] at hbare
      obtain ⟨us, vs, rfl, hus, hvs⟩ := List.map_eq_append_iff.mp hbare
      obtain ⟨t, vs, rfl, ht, hvs⟩ := List.map_eq_cons_iff.mp hvs
      exact .product (ihu hus) ((congrArg (multiplicative? ·.kind) ht).trans hop) (ihv hvs)
  | term _ ih => exact .term (ih hbare)
  | sign hf _ ih =>
      obtain ⟨t, vs, rfl, ht, hvs⟩ := List.map_eq_cons_iff.mp hbare
      exact .sign ((congrArg (sign? ·.kind) ht).trans hf) (ih hvs)
  | factor _ ih => exact .factor (ih hbare)
  | function hf hl _ hr ih =>
      rw [List.map_append] at hbare
      obtain ⟨us, rs, rfl, hus, hrs⟩ := List.map_eq_append_iff.mp hbare
      obtain ⟨t, us, rfl, ht, hus⟩ := List.map_eq_cons_iff.mp hus
      obtain ⟨l, us, rfl, hl', hus⟩ := List.map_eq_cons_iff.mp hus
      obtain ⟨r, rfl, hr'⟩ := List.map_eq_singleton_iff.mp hrs
      exact .function ((congrArg (function? ·.kind) ht).trans hf)
        ((congrArg Token.kind hl').trans hl) (ih hus) ((congrArg Token.kind hr').trans hr)
  | paren hl _ hr ih =>
      rw [List.map_append] at hbare
      obtain ⟨us, rs, rfl, hus, hrs⟩ := List.map_eq_append_iff.mp hbare
      obtain ⟨l, us, rfl, hl', hus⟩ := List.map_eq_cons_iff.mp hus
      obtain ⟨r, rfl, hr'⟩ := List.map_eq_singleton_iff.mp hrs
      exact .paren ((congrArg Token.kind hl').trans hl) (ih hus) ((congrArg Token.kind hr').trans hr)
  | inner _ ih => exact .inner (ih hbare)
  | operand ht =>
      obtain ⟨t, rfl, ht'⟩ := List.map_eq_singleton_iff.mp hbare
      exact .operand ((congrArg (operand? env) ht').trans ht)

/-- Lines whose tokens are the same but for their places have the same value, or the same error but
for its offset, and bind the same. -/
theorem evaluateBytes_of_bare (h : tokenize line = .ok tokens) (h' : tokenize line' = .ok tokens')
    (hbare : tokens.map Token.bare = tokens'.map Token.bare) (env : Bindings) :
    (evaluateBytes env line).1.mapError Error.unplaced =
        (evaluateBytes env line').1.mapError Error.unplaced ∧
      (evaluateBytes env line).2 = (evaluateBytes env line').2 := by
  have hdeliveries := tokenize_eq_ok_iff.mp h
  have hdeliveries' := tokenize_eq_ok_iff.mp h'
  have hfault : (firstFault env [] (deliveriesOf line)).map Error.unplaced =
      (firstFault env [] (deliveriesOf line')).map Error.unplaced := by
    rw [hdeliveries, hdeliveries', ← firstFault_bare, ← firstFault_bare env [] tokens', hbare]
  rcases evaluateBytes_cases env line with ⟨e, he, heval⟩ | ⟨hnone, w, z, hw, -, hvalue, heval⟩ <;>
    rcases evaluateBytes_cases env line' with
      ⟨e', he', heval'⟩ | ⟨hnone', w', z', hw', -, hvalue', heval'⟩
  · rw [he, he'] at hfault
    rw [heval, heval']
    exact ⟨congrArg Except.error (Option.some.inj hfault), rfl⟩
  · rw [he, hnone'] at hfault
    cases hfault
  · rw [hnone, he'] at hfault
    cases hfault
  · have htokens := map_token_inj (hdeliveries.symm.trans hw)
    have htokens' := map_token_inj (hdeliveries'.symm.trans hw')
    rw [htokens, htokens', List.map_append, List.map_append] at hbare
    obtain ⟨hsame, -⟩ := List.append_inj' hbare rfl
    obtain rfl : z = z' :=
      Option.some.inj (hvalue.reads.symm.trans (hvalue'.of_bare hsame).reads)
    rw [heval, heval', ← assigned_bare, hsame, assigned_bare]
    exact ⟨rfl, rfl⟩

theorem map_bare_placed (line : List UInt8) (offset : Nat) (ts : List (Token × List UInt8)) :
    (placed line offset ts).map Token.bare = (ts.map (·.1)).map Token.bare := by
  induction ts generalizing offset with
  | nil => rfl
  | cons x ts ih => exact congrArg (x.1.bare :: ·) (ih _)

/-- A line without lexical error, written with any blanks before, between and behind its lexemes,
some between any two, has tokens of the same kinds and values, each where its lexeme now lies, and
one end token. Under any bindings both lines have the same value, or the same error but for its
offset, and bind the same. -/
theorem tokenize_respaced (htokens : tokenize line = .ok (ts.map (·.1) ++ [endToken line.length]))
    (hlead : IsBlank lead) (hgaps : AreGaps ts) :
    tokenize (lead ++ spread line ts) =
        .ok (placed line lead.length ts ++ [endToken (lead ++ spread line ts).length]) ∧
      List.Forall₂
        (fun t' x => t'.kind = x.1.kind ∧ t'.value = x.1.value ∧
          t'.lexemeIn (lead ++ spread line ts) = x.1.lexemeIn line)
        (placed line lead.length ts) ts ∧
      ∀ env,
        (evaluateBytes env (lead ++ spread line ts)).1.mapError Error.unplaced =
            (evaluateBytes env line).1.mapError Error.unplaced ∧
          (evaluateBytes env (lead ++ spread line ts)).2 = (evaluateBytes env line).2 := by
  have hlexes := Lexes.of_deliveries (Cursor.isOver_ofBytes line) (Nat.lt_succ_self _)
    (tokenize_eq_ok_iff.mp htokens)
  have hrespaced := (hlexes.respaced (List.suffix_refl line) rfl hlead hgaps
    (Nat.zero_add _).symm).tokenize
  rw [Nat.zero_add] at hrespaced
  refine ⟨hrespaced, forall₂_placed rfl, evaluateBytes_of_bare hrespaced htokens ?_⟩
  rw [List.map_append, List.map_append, map_bare_placed]
  rfl

/-- A numeral, a name, a plus sign and a name are lexed in `2e+x`, since no exponent is complete, and
with blanks between them. -/
theorem tokenize_respaced_exponent :
    let two : Value := .number (.ofReal (Decimal.toFloat ⟨2, 0⟩))
    tokenize [0x32, 0x65, 0x2B, 0x78] =
        .ok [⟨.number, two, some ⟨0, 1⟩⟩, ⟨.ident, .name "e", some ⟨1, 2⟩⟩,
          ⟨.plus, .absent, some ⟨2, 3⟩⟩, ⟨.ident, .name "x", some ⟨3, 4⟩⟩, endToken 4] ∧
      tokenize [0x20, 0x32, 0x20, 0x65, 0x0C, 0x2B, 0x09, 0x78] =
        .ok [⟨.number, two, some ⟨1, 2⟩⟩, ⟨.ident, .name "e", some ⟨3, 4⟩⟩,
          ⟨.plus, .absent, some ⟨5, 6⟩⟩, ⟨.ident, .name "x", some ⟨7, 8⟩⟩, endToken 8] := by
  intro two
  have htokens : tokenize [0x32, 0x65, 0x2B, 0x78] =
      .ok [⟨.number, two, some ⟨0, 1⟩⟩, ⟨.ident, .name "e", some ⟨1, 2⟩⟩,
        ⟨.plus, .absent, some ⟨2, 3⟩⟩, ⟨.ident, .name "x", some ⟨3, 4⟩⟩, endToken 4] := rfl
  have hrespaced := @tokenize_respaced [0x32, 0x65, 0x2B, 0x78] [0x20]
    [(⟨.number, two, some ⟨0, 1⟩⟩, [0x20]), (⟨.ident, .name "e", some ⟨1, 2⟩⟩, [0x0C]),
      (⟨.plus, .absent, some ⟨2, 3⟩⟩, [0x09]), (⟨.ident, .name "x", some ⟨3, 4⟩⟩, [])]
    htokens (by decide) ⟨by decide, by decide⟩
  exact ⟨htokens, hrespaced.1⟩

end Argand.Calc
