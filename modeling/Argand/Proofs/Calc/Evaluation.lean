-- SUMMARY: When a line has a value and which, and which error it has otherwise.
import Argand.Calc.Session
import Argand.Proofs.Calc.Fault

/-!
# Evaluating a line

A line either has a first fault, which is its error, or its tokens are a line of the grammar whose
value recursive descent gives (`evaluateBytes_cases`). The tokens of a line are what the lexer
yields without error (`tokenize`).
-/
namespace Argand.Calc

open Grammar

/-! ## Tokens of a line -/

/-- What the lexer delivers for some bytes, one after the other. -/
def deliveriesOf (bs : List UInt8) : List (Delivery Token) :=
  (deliveries bs).map (·.1)

/-- All tokens of some bytes, or the first lexical error. -/
def tokenize (bs : List UInt8) : Except LexError (List Token) :=
  lexer.collect (bs.length + 1) (.ofBytes bs)

/-- Where every call gives a token or an error, the tokens are collected if all calls give one. -/
theorem collect_eq_ok_iff {ρ τ : Type} {lexer : Lexer ρ τ} {calls : Nat} {s : Lexer.State τ}
    {ts : List τ}
    (h : ∀ d ∈ (lexer.deliveries calls s).map (·.1), (∃ e, d = .failed e) ∨ ∃ t, d = .token t) :
    lexer.collect calls s = .ok ts ↔ (lexer.deliveries calls s).map (·.1) = ts.map .token := by
  unfold Lexer.collect
  generalize lexer.deliveries calls s = ds at h
  induction ds generalizing ts with
  | nil => cases ts <;> simp
  | cons d ds ih =>
      obtain ⟨d, counts⟩ := d
      have hmap : ∀ {t : τ} {r : Except LexError (List τ)},
          r.map (t :: ·) = .ok ts ↔ ∃ ts', ts = t :: ts' ∧ r = .ok ts' := by
        intro t r
        cases r <;> simp [Except.map, eq_comm]
      rcases h d List.mem_cons_self with ⟨e, rfl⟩ | ⟨t, rfl⟩
      · cases ts <;> simp
      · rw [List.foldr_cons, hmap, List.map_cons]
        constructor
        · rintro ⟨ts', rfl, hr⟩
          rw [List.map_cons, (ih fun d hd => h d (List.mem_cons_of_mem _ hd)).mp hr]
        · intro heq
          obtain ⟨x, ts', rfl, hx, hrest⟩ := List.map_eq_cons_iff.mp heq.symm
          obtain rfl := Delivery.token.inj hx
          exact ⟨ts', rfl, (ih fun d hd => h d (List.mem_cons_of_mem _ hd)).mpr hrest.symm⟩

/-- Tokens without lexical error are the deliveries, the end token last. -/
theorem tokenize_eq_ok_iff {bs : List UInt8} {ts : List Token} :
    tokenize bs = .ok ts ↔ deliveriesOf bs = ts.map .token := by
  refine collect_eq_ok_iff fun d hd => ?_
  obtain ⟨ds, hds, hall⟩ := exists_deliveries bs
  change d ∈ (deliveries bs).map (·.1) at hd
  rw [hds] at hd
  rcases List.mem_append.mp hd with hd | hd
  · rcases hall d hd with herror | ⟨t, ht, -⟩
    · exact .inl herror
    · exact .inr ⟨t, ht⟩
  · exact .inr ⟨_, List.mem_singleton.mp hd⟩

/-! ## Results -/

variable {env : Bindings} {bs : List UInt8} {table : Table}

theorem next_eq {r : Reader} (hbuild : table? = .ok table) :
    r.next = (((parser table).next r.progress).1.mapError Error.ofFault,
      r.moveTo ((parser table).next r.progress).2) := by
  rw [Reader.next, hbuild]
  rfl

theorem bindings_moveTo {r : Reader} {p : Progress Token Bindings} :
    (r.moveTo p).bindings = p.context := rfl

/-- The value and the bindings of a line are what the parser makes of its deliveries. -/
theorem evaluateBytes_eq (hbuild : table? = .ok table) :
    evaluateBytes env bs =
      (lineValue bs.length
        (((parser table).next (.start (deliveriesOf bs) env)).1.mapError Error.ofFault),
        ((parser table).next (.start (deliveriesOf bs) env)).2.context) := by
  have hprogress : (Reader.ofBytes bs env).progress = .start (deliveriesOf bs) env := rfl
  rw [evaluateBytes, next_eq hbuild, bindings_moveTo, hprogress]

/-- A line that is alone on the stack has the value that the grammar gives it, and its target is
bound. -/
theorem exists_value_of_line {p₀ : Progress Token Bindings} {c : Config Token Bindings}
    {w : List Token} {f : Tree Token} {x : Token} (hbuild : Table.build grammar = .ok table)
    (h : (parser table).Reading (Tracked env) p₀ c w [f]) (hlex : ∀ y ∈ w, y.IsLexical)
    (htokens : c.tokens = [x]) (hroot : f.root (fun t => t.kind.index) = Symbol.line.index) :
    ∃ z, x.number? = some z ∧ Evaluates env .line w z ∧ c.progress.context = assigned env w z := by
  have hsettled := settled_of_reading hbuild h hlex
  have hkind : x.kind = .line := by
    have hkinds := h.tracked.1
    rw [htokens, List.map_singleton, List.map_singleton, hroot] at hkinds
    exact Symbol.index_inj (List.cons.inj hkinds).1
  have hyield : f.yield = w := by simpa using h.yield
  have hpieces := hsettled.pieces
  rw [htokens, List.map_singleton, hyield] at hpieces
  obtain ⟨hpiece, -⟩ := List.forall₂_cons.mp hpieces
  obtain ⟨z, hnumber, hvalue⟩ := hpiece.value (by rw [hkind]; decide)
  exact ⟨z, hnumber, hkind ▸ hvalue, hyield ▸ hsettled.bound htokens rfl hkind hnumber⟩

/-- A call with errors, lexical tokens and the end token left to read fails with their first fault
and leaves the bindings alone, or reads all of them as a line of the grammar, whose value is bound by
an assignment. -/
theorem next_cases {ds : List (Delivery Token)} {total : Nat} {p₀ : Progress Token Bindings}
    (hbuild : Table.build grammar = .ok table) (hds : ∀ d ∈ ds, IsLexicalDelivery d)
    (hinput : p₀.input = ds ++ [.token (endToken total)]) :
    (∃ fault p, firstFault p₀.context [] p₀.input = some (Error.ofFault fault) ∧
        (parser table).next p₀ = (.error fault, p) ∧ p.context = p₀.context) ∨
      firstFault p₀.context [] p₀.input = none ∧
        ∃ w x z p, p₀.input = (w ++ [endToken total]).map .token ∧
          grammar.Derives [Symbol.line.index] (symbolsOf w) ∧
          Evaluates p₀.context .line w z ∧ (parser table).next p₀ = (.ok (some x), p) ∧
          x.number? = some z ∧ p.context = assigned p₀.context w z := by
  rcases failed_or_token hds hinput with ⟨e, rest, hfailed⟩ | ⟨t, rest, htoken⟩
  · refine .inl ⟨.lexical e, { p₀ with input := rest }, by rw [hfailed, firstFault]; rfl, ?_, rfl⟩
    simp [Parser.next, Progress.fetch, hfailed]
  · have hJ : Tracked p₀.context [] [] p₀.context :=
      ⟨rfl, fun _ _ => ⟨.nil, fun _ => rfl, fun h => by cases h⟩⟩
    have hreading := Parser.reading_initial (P := parser table) hJ htoken
    have hrest : (Parser.initial t p₀.fetch.2).progress.input = rest := by
      simp [Parser.initial, Progress.fetch, htoken]
    have hcases := run_cases hbuild hreading (by simp) (by simp [NoLine]) rfl hds
      (by rw [hrest, ← hinput, htoken]; rfl)
    rw [hrest] at hcases
    change (∃ e, firstFault p₀.context [] (.token t :: rest) = some e ∧ _) ∨
      firstFault p₀.context [] (.token t :: rest) = none ∧ _ at hcases
    rw [← htoken] at hcases
    rcases hcases with ⟨e, hfault, fault, p, hrun, rfl, hcontext⟩ | ⟨hnone, haccepts⟩
    · exact .inl ⟨fault, p, hfault, Parser.next_of_run htoken hrun, hcontext⟩
    · obtain ⟨c, w, fs, hrun, hreading', hlex, hla, hend, haccept⟩ := haccepts
      obtain ⟨-, f, x, rfl, htokens, hroot, hstep⟩ :=
        hreading'.step_accept tracks_tracked hbuild start_not_mem_rhs haccept
      obtain ⟨z, hnumber, hvalue, hcontext⟩ :=
        exists_value_of_line hbuild hreading' hlex htokens hroot
      refine .inr ⟨hnone, w, x, z, c.progress, ?_, hreading'.derives_of_accept rfl hroot, hvalue,
        Parser.next_of_run htoken (hrun.trans (Parser.run_of_finished hstep)), hnumber, hcontext⟩
      have hinput' := hreading'.input
      rwa [hla, hend, List.append_nil] at hinput'

/-- A line has its first fault as error and leaves the bindings alone, or its tokens are a line of
the grammar with a value, which an assignment binds. -/
theorem evaluateBytes_cases (env : Bindings) (bs : List UInt8) :
    (∃ e, firstFault env [] (deliveriesOf bs) = some e ∧ evaluateBytes env bs = (.error e, env)) ∨
      firstFault env [] (deliveriesOf bs) = none ∧
        ∃ w z, deliveriesOf bs = (w ++ [endToken bs.length]).map .token ∧
          grammar.Derives [Symbol.line.index] (symbolsOf w) ∧ Evaluates env .line w z ∧
          evaluateBytes env bs = (.ok z, assigned env w z) := by
  obtain ⟨table, hbuild⟩ := exists_table
  obtain ⟨ds, hds, hall⟩ := exists_deliveries bs
  have hinput : (Progress.start (deliveriesOf bs) env).input =
      ds ++ [.token (endToken bs.length)] := hds
  rw [evaluateBytes_eq hbuild]
  rcases next_cases hbuild hall hinput with
      ⟨fault, p, hfault, hnext, hcontext⟩ |
        ⟨hnone, w, x, z, p, hw, hder, hvalue, hnext, hnumber, hcontext⟩
  · refine .inl ⟨_, hfault, ?_⟩
    rw [hnext, hcontext]
    rfl
  · refine .inr ⟨hnone, w, z, hw, hder, hvalue, ?_⟩
    rw [hnext, hcontext]
    simp [lineValue, Except.mapError, hnumber, Progress.start]

/-- A line with a fault has its first one as error. -/
theorem evaluateBytes_of_fault {e : Error} (h : firstFault env [] (deliveriesOf bs) = some e) :
    evaluateBytes env bs = (.error e, env) := by
  rcases evaluateBytes_cases env bs with ⟨e', hfault, heval⟩ | ⟨hnone, -⟩
  · obtain rfl := Option.some.inj (h.symm.trans hfault)
    exact heval
  · cases h.symm.trans hnone

/-! ## Lines without fault -/

/-- Tokens have no fault if a sentence begins with them and no name before an operator is unbound.
-/
theorem firstFault_eq_none {u ts : List Token} (hviable : grammar.IsViable (symbolsOf (u ++ ts)))
    (hbound : ∀ v t post, u ++ ts = v ++ t :: post → unboundBefore? env v t = none) :
    firstFault env u (ts.map .token) = none := by
  induction ts generalizing u with
  | nil => rw [List.map_nil, firstFault]
  | cons t ts ih =>
      have happend : u ++ t :: ts = (u ++ [t]) ++ ts := by simp
      have hprefix : symbolsOf (u ++ [t]) <+: symbolsOf (u ++ t :: ts) := by
        rw [happend]
        exact (List.prefix_append _ _).map _
      simp only [List.map_cons, firstFault, hbound u t ts rfl, if_pos (hviable.mono hprefix)]
      exact ih (happend ▸ hviable) fun v x post h => hbound v x post (happend.trans h)

/-- Every identifier in the value of the line has a value. -/
def OperandsBound (env : Bindings) (ts : List Token) : Prop :=
  ∀ t ∈ body ts, t.kind = .ident → ∃ s z, t.name? = some s ∧ env.get? s = some z

/-- An identifier with what can follow an operand behind it is part of the value of the line. -/
theorem mem_body {v q : List Token} {x t : Token} (hx : x.kind = .ident)
    (hfollow : followsOperand t.kind = true) (hq : ∀ e ∈ q.head?, e = t) :
    x ∈ body (v ++ x :: q) := by
  unfold body
  split
  · rename_i hassign
    match v with
    | [] =>
        cases q with
        | nil => simp [isAssignment] at hassign
        | cons e q =>
            obtain rfl := hq e rfl
            obtain ⟨-, he⟩ : x.kind = .ident ∧ e.kind = .equals := by
              simpa [isAssignment] using hassign
            rw [he] at hfollow
            cases hfollow
    | [a] =>
        obtain ⟨-, hequals⟩ : a.kind = .ident ∧ x.kind = .equals := by
          simpa [isAssignment] using hassign
        cases hx.symm.trans hequals
    | a :: b :: v => simp
  · simp

/-- With all operands bound no name is unbound before an operator or the end. -/
theorem OperandsBound.unboundBefore?_eq_none {ts v post : List Token} {t last : Token}
    (h : OperandsBound env ts) (hsplit : ts ++ [last] = v ++ t :: post) :
    unboundBefore? env v t = none := by
  unfold unboundBefore?
  split
  · rename_i hfollow
    rw [Option.bind_eq_none_iff]
    intro x hx
    obtain ⟨v', rfl⟩ := List.getLast?_eq_some_iff.mp hx
    rw [Option.eq_none_iff_forall_ne_some]
    intro s hs
    obtain ⟨hident, hname, hget⟩ := unboundName?_eq_some_iff.mp hs
    -- Whether the token is the end or another one, the identifier is a token of the line.
    obtain ⟨q, rfl, hq⟩ : ∃ q, ts = v' ++ x :: q ∧ ∀ e ∈ q.head?, e = t := by
      rcases List.eq_nil_or_concat post with rfl | ⟨post, l, rfl⟩
      · obtain ⟨rfl, -⟩ := List.append_inj' hsplit rfl
        exact ⟨[], rfl, by simp⟩
      · have hsplit' : ts ++ [last] = (v' ++ x :: t :: post) ++ [l] := by simpa using hsplit
        obtain ⟨rfl, -⟩ := List.append_inj' hsplit' rfl
        exact ⟨t :: post, rfl, by simp⟩
    obtain ⟨s', z, hname', hget'⟩ := h x (mem_body hident hfollow hq) hident
    cases hname.symm.trans hname'
    cases hget.symm.trans hget'
  · rfl

theorem Evaluates.operandsBound {w : List Token} {z : Complex} (h : Evaluates env .line w z) :
    OperandsBound env w := by
  intro t ht hident
  obtain ⟨y, hy⟩ := (h.isOrdinary_body t ht).2 hident
  simp only [Descent.operand?, hident] at hy
  obtain ⟨s, hname, hget⟩ := Option.bind_eq_some_iff.mp hy
  exact ⟨s, y, hname, hget⟩

theorem map_token_inj {u v : List Token} (h : u.map Delivery.token = v.map .token) : u = v :=
  List.map_injective_iff.mpr (fun _ _ => Delivery.token.inj) h

/-- The tokens before the end are lexical. -/
theorem isLexical_of_tokenize {ts : List Token} {last : Token}
    (htokens : tokenize bs = .ok (ts ++ [last])) : ∀ t ∈ ts, t.IsLexical := by
  obtain ⟨ds, hds, hall⟩ := exists_deliveries bs
  have hdeliveries := tokenize_eq_ok_iff.mp htokens
  rw [List.map_append] at hdeliveries
  obtain ⟨rfl, -⟩ := List.append_inj' (hds.symm.trans hdeliveries) rfl
  intro t ht
  rcases hall _ (List.mem_map_of_mem ht) with ⟨e, he⟩ | ⟨t', ht', hlexical⟩
  · cases he
  · exact Delivery.token.inj ht' ▸ hlexical

/-- Tokens of a line of the grammar with all operands bound have no fault. -/
theorem firstFault_of_tokens {ts : List Token}
    (htokens : tokenize bs = .ok (ts ++ [endToken bs.length]))
    (hder : grammar.Derives [Symbol.line.index] (symbolsOf ts)) (hbound : OperandsBound env ts) :
    firstFault env [] (deliveriesOf bs) = none := by
  have hsentence : grammar.IsSentence (symbolsOf ts) := by
    refine ⟨hder, fun X hX => ?_⟩
    obtain ⟨t, ht, rfl⟩ := List.mem_map.mp hX
    exact (isLexical_of_tokenize htokens t ht).terminal
  rw [tokenize_eq_ok_iff.mp htokens]
  refine firstFault_eq_none ?_ fun v t post h => hbound.unboundBefore?_eq_none h
  rw [List.nil_append, symbolsOf, List.map_append]
  exact hsentence.isViable

/-- Tokens of a line of the grammar with all operands bound have a value. -/
theorem exists_value_of_tokens {ts : List Token}
    (htokens : tokenize bs = .ok (ts ++ [endToken bs.length]))
    (hder : grammar.Derives [Symbol.line.index] (symbolsOf ts)) (hbound : OperandsBound env ts) :
    ∃ z, evaluateBytes env bs = (.ok z, assigned env ts z) ∧ Evaluates env .line ts z := by
  rcases evaluateBytes_cases env bs with ⟨e, hfault, -⟩ | ⟨-, w, z, hw, -, hvalue, heval⟩
  · cases (firstFault_of_tokens htokens hder hbound).symm.trans hfault
  · have hdeliveries := tokenize_eq_ok_iff.mp htokens
    obtain ⟨rfl, -⟩ := List.append_inj' (map_token_inj (hdeliveries.symm.trans hw)) rfl
    exact ⟨z, heval, hvalue⟩

/-- A line with a value has tokens of a line of the grammar with all operands bound. -/
theorem exists_tokens_of_value {z : Complex} (h : (evaluateBytes env bs).1 = .ok z) :
    ∃ ts, tokenize bs = .ok (ts ++ [endToken bs.length]) ∧
      grammar.Derives [Symbol.line.index] (symbolsOf ts) ∧ Evaluates env .line ts z ∧
      evaluateBytes env bs = (.ok z, assigned env ts z) := by
  rcases evaluateBytes_cases env bs with ⟨e, -, heval⟩ | ⟨-, w, z', hw, hder, hvalue, heval⟩
  · rw [heval] at h
    cases h
  · rw [heval] at h
    obtain rfl := Except.ok.inj h
    exact ⟨w, tokenize_eq_ok_iff.mpr hw, hder, hvalue, heval⟩

/-- A line has a value exactly if it has tokens that are a line of the grammar with all operands
bound, and then its value is the one that recursive descent reads off the tokens. -/
theorem evaluate_ok_iff (env : Bindings) (line : String) :
    ((∃ z, (evaluate env line).1 = .ok z) ↔
      ∃ ts, tokenize (Text.utf8Bytes line) =
          .ok (ts ++ [endToken (Text.utf8Bytes line).length]) ∧
        grammar.Derives [Symbol.line.index] (symbolsOf ts) ∧ OperandsBound env ts) ∧
    ∀ z, (evaluate env line).1 = .ok z ↔
      ∃ ts, tokenize (Text.utf8Bytes line) =
          .ok (ts ++ [endToken (Text.utf8Bytes line).length]) ∧
        grammar.Derives [Symbol.line.index] (symbolsOf ts) ∧ OperandsBound env ts ∧
        Descent.line ⟨env⟩ ts = some z := by
  refine ⟨⟨?_, ?_⟩, fun z => ⟨?_, ?_⟩⟩
  · rintro ⟨z, hz⟩
    obtain ⟨ts, htokens, hder, hvalue, -⟩ := exists_tokens_of_value hz
    exact ⟨ts, htokens, hder, hvalue.operandsBound⟩
  · rintro ⟨ts, htokens, hder, hbound⟩
    obtain ⟨z, heval, -⟩ := exists_value_of_tokens htokens hder hbound
    exact ⟨z, by rw [evaluate, heval]⟩
  · intro hz
    obtain ⟨ts, htokens, hder, hvalue, -⟩ := exists_tokens_of_value hz
    exact ⟨ts, htokens, hder, hvalue.operandsBound, hvalue.reads⟩
  · rintro ⟨ts, htokens, hder, hbound, hdescent⟩
    obtain ⟨z', heval, hvalue⟩ := exists_value_of_tokens htokens hder hbound
    obtain rfl : z' = z := Option.some.inj (hvalue.reads.symm.trans hdescent)
    rw [evaluate, heval]

/-- The error of a line is the first fault of a scan of what the lexer delivers, which is lexical
tokens and errors and then the end token, and a line without fault has a value. -/
theorem evaluate_error_iff (env : Bindings) (line : String) :
    (∀ e, (evaluate env line).1 = .error e ↔
      firstFault env [] (deliveriesOf (Text.utf8Bytes line)) = some e) ∧
    ((∃ z, (evaluate env line).1 = .ok z) ↔
      firstFault env [] (deliveriesOf (Text.utf8Bytes line)) = none) ∧
    ∃ ds, deliveriesOf (Text.utf8Bytes line) =
        ds ++ [.token (endToken (Text.utf8Bytes line).length)] ∧
      ∀ d ∈ ds, IsLexicalDelivery d := by
  refine ⟨?_, ?_, exists_deliveries (Text.utf8Bytes line)⟩
  · intro e
    rcases evaluateBytes_cases env (Text.utf8Bytes line) with
        ⟨e', hfault, heval⟩ | ⟨hnone, w, z, -, -, -, heval⟩
    · simp [evaluate, heval, hfault, eq_comm]
    · simp [evaluate, heval, hnone]
  · rcases evaluateBytes_cases env (Text.utf8Bytes line) with
        ⟨e', hfault, heval⟩ | ⟨hnone, w, z, -, -, -, heval⟩
    · simp [evaluate, heval, hfault]
    · simp [evaluate, heval, hnone]

end Argand.Calc
