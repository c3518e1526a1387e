-- SUMMARY: What the bindings of a line can change about its result, and what they cannot.
import Argand.Proofs.Calc.RoundTrip
import Argand.Proofs.Calc.Session

/-!
# One line under two environments

The first fault of a line depends on which names are bound and not on their values
(`firstFault_congr`), so environments that bind the same names give a line the same error, or both
give it a value. The value is read off the tokens with the values of the names that occur as
operands (`Evaluates.congr`), so it is the same where these agree (`evaluate_agrees`).
-/
namespace Argand.Calc

/-! ## Names that are bound -/

namespace Bindings

variable {env env' : Bindings} {name : String} {z z' : Complex}

theorem isSome_getIn?_iff {entries : List (String × Complex)} :
    (getIn? name entries).isSome = true ↔ name ∈ entries.map (·.1) := by
  induction entries with
  | nil => simp [getIn?]
  | cons e rest ih =>
      rw [getIn?, List.map_cons, List.mem_cons, ← ih]
      split
      · rename_i he
        simp [he]
      · rename_i he
        simp [Ne.symm he]

/-- A name has a value if it is listed. -/
theorem isSome_get?_iff : (env.get? name).isSome = true ↔ name ∈ env.names :=
  isSome_getIn?_iff

/-- Both bind the same names, to whatever values and in whatever order. -/
def SameNames (env env' : Bindings) : Prop :=
  ∀ name, name ∈ env.names ↔ name ∈ env'.names

theorem SameNames.isNone_get? (h : SameNames env env') (name : String) :
    (env.get? name).isNone = (env'.get? name).isNone := by
  have hsome : (env.get? name).isSome = (env'.get? name).isSome := by
    rw [Bool.eq_iff_iff, isSome_get?_iff, isSome_get?_iff]
    exact h name
  rw [← Option.not_isSome, ← Option.not_isSome, hsome]

theorem mem_names_set {other : String} :
    other ∈ (env.set name z).names ↔ other = name ∨ other ∈ env.names := by
  rw [names_set]
  split
  · rename_i hmem
    constructor
    · exact .inr
    · rintro (rfl | hother)
      · exact hmem
      · exact hother
  · rw [List.mem_append, List.mem_singleton, or_comm]

theorem SameNames.set (h : SameNames env env') : SameNames (env.set name z) (env'.set name z') := by
  intro other
  rw [mem_names_set, mem_names_set, h other]

end Bindings

open Bindings (SameNames)

variable {env env' : Bindings} {w : List Token} {z z' : Complex}

theorem sameNames_assigned (h : SameNames env env') :
    SameNames (assigned env w z) (assigned env' w z') := by
  unfold Calc.assigned
  cases target? w with
  | none => exact h
  | some name => exact h.set

/-- What a line assigns is the value of its target; other names keep theirs. -/
theorem get?_assigned_of_ne {name : String} (h : target? w ≠ some name) :
    (assigned env w z).get? name = env.get? name := by
  unfold Calc.assigned
  cases htarget : target? w with
  | none => rfl
  | some target =>
      rw [Bindings.get?_set, if_neg]
      rintro rfl
      exact h htarget

/-! ## Faults -/

theorem unboundBefore?_congr (h : SameNames env env') (read : List Token) (t : Token) :
    unboundBefore? env read t = unboundBefore? env' read t := by
  have hname : unboundName? env = unboundName? env' := by
    funext x
    simp only [unboundName?, h.isNone_get?]
  rw [unboundBefore?, unboundBefore?, hname]

/-- The first fault does not depend on values. -/
theorem firstFault_congr (h : SameNames env env') (read : List Token)
    (ds : List (Delivery Token)) : firstFault env read ds = firstFault env' read ds := by
  induction ds generalizing read with
  | nil => rfl
  | cons d ds ih =>
      cases d with
      | nothing => rfl
      | failed e => rfl
      | token t => rw [firstFault, firstFault, unboundBefore?_congr h, ih]

/-! ## Values -/

/-- Tokens have the same value where their operands have. -/
theorem Evaluates.congr {X : Symbol} (h : Evaluates env X w z) (hX : X ≠ .line)
    (hoperands : ∀ t ∈ w, Descent.operand? env t = Descent.operand? env' t) :
    Evaluates env' X w z := by
  induction h with
  | assign | eval => exact absurd rfl hX
  | sum _ hop _ ihu ihv =>
      exact .sum (ihu (by simp) fun t ht => hoperands t (by simp [ht])) hop
        (ihv (by simp) fun t ht => hoperands t (by simp [ht]))
  | expr _ ih => exact .expr (ih (by simp) hoperands)
  | product _ hop _ ihu ihv =>
      exact .product (ihu (by simp) fun t ht => hoperands t (by simp [ht])) hop
        (ihv (by simp) fun t ht => hoperands t (by simp [ht]))
  | term _ ih => exact .term (ih (by simp) hoperands)
  | sign hf _ ih => exact .sign hf (ih (by simp) fun t ht => hoperands t (by simp [ht]))
  | factor _ ih => exact .factor (ih (by simp) hoperands)
  | function hf hl _ hr ih =>
      exact .function hf hl (ih (by simp) fun t ht => hoperands t (by simp [ht])) hr
  | paren hl _ hr ih => exact .paren hl (ih (by simp) fun t ht => hoperands t (by simp [ht])) hr
  | inner _ ih => exact .inner (ih (by simp) hoperands)
  | operand ht => exact .operand ((hoperands _ (by simp)).symm.trans ht)

/-- The names that occur as operands: the identifiers in the value of a line. -/
def operandNames (ts : List Token) : List String :=
  (body ts).filterMap fun t => if t.kind = .ident then t.name? else none

theorem operand?_congr {ts : List Token} {t : Token} (ht : t ∈ body ts)
    (h : ∀ s ∈ operandNames ts, env.get? s = env'.get? s) :
    Descent.operand? env t = Descent.operand? env' t := by
  unfold Descent.operand?
  split
  · rfl
  · rfl
  · rename_i hident
    cases hname : t.name? with
    | none => rfl
    | some s => exact h s (List.mem_filterMap.mpr ⟨t, ht, by rw [if_pos hident, hname]⟩)
  · rfl

/-- A line has one value under environments that agree on its operands. -/
theorem Evaluates.eq_of_agree (h : Evaluates env .line w z) (h' : Evaluates env' .line w z')
    (hagree : ∀ s ∈ operandNames w, env.get? s = env'.get? s) : z = z' := by
  have hbody : ∀ t ∈ body w, Descent.operand? env t = Descent.operand? env' t :=
    fun t ht => operand?_congr ht hagree
  have hline : Evaluates env' .line w z := by
    cases h with
    | assign hx he hu =>
        refine .assign hx he (hu.congr (by simp) fun t ht => hbody t ?_)
        simpa [body, isAssignment, hx, he] using ht
    | eval hu =>
        have hself := (body_eq_self fun t ht => (hu.isOrdinary (by simp) t ht).1).2
        exact .eval (hu.congr (by simp) fun t ht => hbody t (hself.symm ▸ ht))
  exact Option.some.inj (hline.reads.symm.trans h'.reads)

/-! ## Lines of text -/

/-- The names that occur as operands in a line of text. -/
def lineOperands (line : String) : List String :=
  match tokenize (Text.utf8Bytes line) with
  | .ok ts => operandNames ts
  | .error _ => []

theorem operandNames_append_endToken (ts : List Token) (total : Nat) :
    operandNames (ts ++ [endToken total]) = operandNames ts := by
  have hbody : body (ts ++ [endToken total]) = body ts ++ [endToken total] := by
    match ts with
    | [] => rfl
    | [x] => simp [body, isAssignment, endToken]
    | x :: e :: rest =>
        by_cases hassign : x.kind = .ident ∧ e.kind = .equals <;> simp [body, isAssignment, hassign]
  rw [operandNames, operandNames, hbody, List.filterMap_append]
  simp [endToken]

/-- Environments that bind the same names both give a line a value or both the same error, whatever
the values of the names, and bind the same names afterwards. Where they agree on the names that
occur as operands the results are the same. No name but the target of an assignment gets another
value. -/
theorem evaluate_agrees (hnames : SameNames env env') (line : String) :
    ((∃ e, evaluate env line = (.error e, env) ∧ evaluate env' line = (.error e, env')) ∨
      ∃ z z', (evaluate env line).1 = .ok z ∧ (evaluate env' line).1 = .ok z') ∧
    SameNames (evaluate env line).2 (evaluate env' line).2 ∧
    ((∀ s ∈ lineOperands line, env.get? s = env'.get? s) →
      (evaluate env line).1 = (evaluate env' line).1) ∧
    ∀ name, lineTarget? line ≠ some name →
      (evaluate env line).2.get? name = env.get? name ∧
      (evaluate env' line).2.get? name = env'.get? name := by
  have hfault := firstFault_congr hnames [] (deliveriesOf (Text.utf8Bytes line))
  unfold evaluate
  rcases evaluateBytes_cases env (Text.utf8Bytes line) with
      ⟨e, he, heval⟩ | ⟨hnone, w, z, hw, -, hvalue, heval⟩ <;>
    rcases evaluateBytes_cases env' (Text.utf8Bytes line) with
      ⟨e', he', heval'⟩ | ⟨hnone', w', z', hw', -, hvalue', heval'⟩
  · obtain rfl : e = e' := Option.some.inj (he.symm.trans (hfault.trans he'))
    rw [heval, heval']
    exact ⟨.inl ⟨e, rfl, rfl⟩, hnames, fun _ => rfl, fun _ _ => ⟨rfl, rfl⟩⟩
  · cases he.symm.trans (hfault.trans hnone')
  · cases hnone.symm.trans (hfault.trans he')
  · obtain ⟨rfl, -⟩ := List.append_inj' (map_token_inj (hw.symm.trans hw')) rfl
    have htokens := tokenize_eq_ok_iff.mpr hw
    rw [heval, heval']
    refine ⟨.inr ⟨z, z', rfl, rfl⟩, sameNames_assigned hnames, fun hagree => ?_,
      fun name hname => ?_⟩
    · rw [lineOperands, htokens] at hagree
      simp only [operandNames_append_endToken] at hagree
      rw [hvalue.eq_of_agree hvalue' hagree]
    · rw [lineTarget?, htokens] at hname
      simp only [Session.target?_append_endToken] at hname
      exact ⟨get?_assigned_of_ne hname, get?_assigned_of_ne hname⟩

/-- A divisor may be zero or not: a line that divides by it has a value either way, and binds the
same names. -/
theorem evaluate_agrees_divisor :
    SameNames (.ofList [("d", .zero)]) (.ofList [("d", .one)]) ∧
      (∃ z z', (evaluate (.ofList [("d", .zero)]) "q = i / d").1 = .ok z ∧
        (evaluate (.ofList [("d", .one)]) "q = i / d").1 = .ok z') ∧
      SameNames (evaluate (.ofList [("d", .zero)]) "q = i / d").2
        (evaluate (.ofList [("d", .one)]) "q = i / d").2 := by
  have hnames : SameNames (.ofList [("d", .zero)]) (.ofList [("d", .one)]) := fun _ => Iff.rfl
  have htokens : tokenize (Text.utf8Bytes "q = i / d") =
      .ok ([⟨.ident, .name "q", some ⟨0, 1⟩⟩, ⟨.equals, .absent, some ⟨2, 3⟩⟩,
        ⟨.imaginary, .number .i, some ⟨4, 5⟩⟩, ⟨.slash, .absent, some ⟨6, 7⟩⟩,
        ⟨.ident, .name "d", some ⟨8, 9⟩⟩] ++ [endToken 9]) := by cbv
  have hunit : Evaluates (.ofList [("d", .zero)]) .term
      [⟨.imaginary, .number .i, some ⟨4, 5⟩⟩] .i := .term (.factor (.inner (.operand rfl)))
  have hdivisor : Evaluates (.ofList [("d", .zero)]) .factor
      [⟨.ident, .name "d", some ⟨8, 9⟩⟩] .zero := .factor (.inner (.operand rfl))
  have hvalue := evaluateBytes_of_evaluates htokens
    (.assign rfl rfl (.expr (.product hunit rfl hdivisor)))
  obtain ⟨⟨e, herror, -⟩ | hvalues, hsame, -⟩ := evaluate_agrees hnames "q = i / d"
  · rw [evaluate, hvalue] at herror
    cases (Prod.mk.inj herror).1
  · exact ⟨hnames, hvalues, hsame⟩

end Argand.Calc
