-- SUMMARY: Every token on the stack carries what its symbol needs, so that a line fails for a reason of its own.
import Argand.Proofs.Calc.Evaluation
import Argand.Proofs.Termination

/-!
# What the tokens on the stack carry

Literals and nonterminals carry numbers, identifiers carry names. The lexer delivers such tokens,
and a reduction makes such tokens of such parts, so the stack never holds others
(`IsLoadedConfig.step`). Each phrase looks for numbers and names at places of its right-hand side
where symbols stand that carry them (`carries_of_mem_places`). A reduction therefore fails for a
name without value only (`reduction_cases`), and a sentence comes to a number or to a fault of the
line (`next_faultless`), never to a fault of the tables or of a phrase.
-/
open Argand.Parser (top)

namespace Argand.Calc

/-! ## What tokens carry -/

/-- Literals and nonterminals carry a number. -/
def Symbol.carriesNumber (X : Symbol) : Bool :=
  X = .number || X = .imaginary || decide (X.index < grammar.nonterminals)

/-- The token carries what its symbol needs: a number, or a name for an identifier. -/
structure Token.IsLoaded (t : Token) : Prop where
  number : t.kind.carriesNumber = true → ∃ z, t.number? = some z
  name : t.kind = .ident → ∃ s, t.name? = some s

variable {t x : Token} {f : Phrase} {parts ts : List Token} {env : Bindings} {n i : Nat}

theorem Token.IsLexical.isLoaded (h : t.IsLexical) : t.IsLoaded where
  number := fun hnumber => by
    have hliteral : t.kind = .number ∨ t.kind = .imaginary := by
      have hge := h.le_index
      simpa [Symbol.carriesNumber, or_assoc, Nat.not_lt.mpr hge] using hnumber
    obtain ⟨z, hz⟩ := h.number hliteral
    exact ⟨z, by simp [number?, hz]⟩
  name := fun hident => by
    obtain ⟨s, hs⟩ := h.name hident
    exact ⟨s, by simp [name?, hs]⟩

theorem isLoaded_endToken (total : Nat) : (endToken total).IsLoaded where
  number := fun h => by cases h
  name := fun h => by cases h

theorem isLoaded_phraseToken (f : Phrase) (parts : List Token) (z : Complex) :
    (phraseToken f parts z).IsLoaded where
  number := fun _ => ⟨z, rfl⟩
  name := fun h => by cases f <;> cases h

/-! ## Places of the parts -/

/-- Where a phrase looks for numbers among its parts. -/
def Phrase.numberPlaces : Phrase → List Nat
  | add | sub | mul | div => [0, 2]
  | assign | abs | arg | norm | conj => [2]
  | plus | neg | paren => [1]
  | start | eval | exprTerm | termFactor | factorInner | innerUnit | number | imaginary => [0]
  | name => []

/-- Where a phrase looks for names. -/
def Phrase.namePlaces : Phrase → List Nat
  | assign | name => [0]
  | _ => []

/-- A part is missing that the phrase looks for at a place, or carries something else. -/
def Misses (f : Phrase) (parts : List Token) (i : Nat) : Prop :=
  i ∈ f.numberPlaces ∧ parts[i]?.bind Token.number? = none ∨
    i ∈ f.namePlaces ∧ parts[i]?.bind Token.name? = none

/-- A phrase fails because of a name without value, or of a part that it misses. -/
def HasReason (f : Phrase) (parts : List Token) : Except SemanticError Complex → Prop
  | .ok _ => True
  | .error (.unbound _) => f = .name
  | .error (.operand label i) => label = f.label ∧ Misses f parts i

theorem hasReason_bind_numberAt {k : Complex → Except SemanticError Complex}
    (hi : i ∈ f.numberPlaces) (hk : ∀ z, HasReason f parts (k z)) :
    HasReason f parts (numberAt f parts i >>= k) := by
  unfold numberAt
  cases h : parts[i]?.bind Token.number? with
  | some z => exact hk z
  | none => exact ⟨rfl, .inl ⟨hi, h⟩⟩

theorem hasReason_numberAt (hi : i ∈ f.numberPlaces) :
    HasReason f parts (numberAt f parts i) := by
  rw [← bind_pure (numberAt f parts i)]
  exact hasReason_bind_numberAt hi fun _ => trivial

theorem hasReason_bind_nameAt {k : String → Except SemanticError Complex}
    (hi : i ∈ f.namePlaces) (hk : ∀ s, HasReason f parts (k s)) :
    HasReason f parts (nameAt f parts i >>= k) := by
  unfold nameAt
  cases h : parts[i]?.bind Token.name? with
  | some s => exact hk s
  | none => exact ⟨rfl, .inr ⟨hi, h⟩⟩

theorem hasReason_valueOf (f : Phrase) (parts : List Token) (env : Bindings) :
    HasReason f parts (valueOf f parts env) := by
  cases f with
  | add | sub | mul | div =>
      exact hasReason_bind_numberAt (by decide) fun _ =>
        hasReason_bind_numberAt (by decide) fun _ => trivial
  | abs | arg | norm | conj | neg => exact hasReason_bind_numberAt (by decide) fun _ => trivial
  | name =>
      refine hasReason_bind_nameAt (by decide) fun s => ?_
      unfold Bindings.lookup
      split
      · trivial
      · rfl
  | _ => exact hasReason_numberAt (by decide)

/-- An assignment has the number at its end for its value, if it has a name too. -/
theorem assignment_fst (f : Phrase) (parts : List Token) (env : Bindings) :
    (assignment f parts env).1 =
      numberAt f parts 2 >>= fun z => nameAt f parts 0 >>= fun _ => .ok z := by
  unfold assignment
  cases numberAt f parts 2 <;> cases nameAt f parts 0 <;> rfl

theorem hasReason_apply (f : Phrase) (parts : List Token) (env : Bindings) :
    HasReason f parts (apply f parts env).1 := by
  cases f with
  | assign =>
      rw [apply, assignment_fst]
      exact hasReason_bind_numberAt (by decide) fun _ =>
        hasReason_bind_nameAt (by decide) fun _ => trivial
  | _ => exact hasReason_valueOf _ parts env

/-- The places at which a phrase looks are those of symbols that carry what it looks for. -/
theorem carries_of_mem_places (f : Phrase) :
    (∀ i ∈ f.numberPlaces, ∃ X, f.rhs[i]? = some X ∧ X.carriesNumber = true) ∧
      ∀ i ∈ f.namePlaces, f.rhs[i]? = some .ident := by
  have hall : ∀ f ∈ Phrase.all,
      (∀ i ∈ f.numberPlaces, (f.rhs[i]?.map Symbol.carriesNumber) = some true) ∧
        ∀ i ∈ f.namePlaces, f.rhs[i]? = some .ident := by decide
  obtain ⟨hnumber, hname⟩ := hall f (by cases f <;> decide)
  exact ⟨fun i hi => by simpa using Option.map_eq_some_iff.mp (hnumber i hi), hname⟩

/-- Loaded parts of a right-hand side have all that the phrase looks for. -/
theorem not_misses (hkinds : parts.map Token.kind = f.rhs) (hloaded : ∀ t ∈ parts, t.IsLoaded)
    (i : Nat) : ¬ Misses f parts i := by
  obtain ⟨hnumber, hname⟩ := carries_of_mem_places f
  rintro (⟨hi, hnone⟩ | ⟨hi, hnone⟩)
  · obtain ⟨X, hX, hcarries⟩ := hnumber i hi
    rw [← hkinds, List.getElem?_map, Option.map_eq_some_iff] at hX
    obtain ⟨t, ht, rfl⟩ := hX
    obtain ⟨z, hz⟩ := (hloaded t (List.mem_of_getElem? ht)).number hcarries
    simp [ht, hz] at hnone
  · have hident := hname i hi
    rw [← hkinds, List.getElem?_map, Option.map_eq_some_iff] at hident
    obtain ⟨t, ht, hkind⟩ := hident
    obtain ⟨s, hs⟩ := (hloaded t (List.mem_of_getElem? ht)).name hkind
    simp [ht, hs] at hnone

/-- Over loaded parts a phrase has a value, unless it is a name without one. -/
theorem apply_cases (hkinds : parts.map Token.kind = f.rhs)
    (hloaded : ∀ t ∈ parts, t.IsLoaded) (env : Bindings) :
    (∃ z env', apply f parts env = (.ok z, env')) ∨
      f = .name ∧ ∃ s, apply f parts env = (.error (.unbound s), env) := by
  have hreason := hasReason_apply f parts env
  rcases happly : apply f parts env with ⟨e | z, env'⟩
  · rw [happly] at hreason
    cases e with
    | unbound s =>
        obtain rfl : f = .name := hreason
        obtain ⟨-, rfl⟩ := Prod.mk.inj happly
        exact .inr ⟨rfl, s, rfl⟩
    | operand label i => exact absurd hreason.2 (not_misses hkinds hloaded i)
  · exact .inl ⟨z, env', rfl⟩

/-! ## Configurations -/

/-- Every token on the stack and every token to come carries what it needs. -/
structure IsLoadedConfig (c : Config Token Bindings) : Prop where
  tokens : ∀ t ∈ c.tokens, t.IsLoaded
  lookahead : c.lookahead.IsLoaded
  input : ∀ t, .token t ∈ c.progress.input → t.IsLoaded

variable {table : Table} {p₀ p : Progress Token Bindings} {c c' : Config Token Bindings}
  {q : Production} {rest : List (Delivery Token)} {bs : List UInt8}

/-- A reduction that succeeds puts the token of a phrase in the place of its parts. -/
theorem exists_phrase_of_reduce {ts' : List Token} {env' : Bindings}
    (h : reduce n x ts env = (.ok (), ts', env')) :
    ∃ f parts z, ts' = phraseToken f parts z :: ts.drop f.rhs.length := by
  unfold reduce at h
  split at h
  · rename_i f hf
    simp only [reducePhrase, Stack.popN] at h
    split at h
    · cases h
    · rename_i parts ts'' hpop
      have hdrop : ts.drop f.rhs.length = ts'' := by
        split at hpop
        · exact (Prod.mk.inj (Option.some.inj hpop)).2
        · cases hpop
      split at h
      · cases h
      · obtain ⟨-, rfl, -⟩ : True ∧ phraseToken f parts _ :: ts'' = ts' ∧ _ = env' := by
          simpa using h
        exact ⟨f, parts, _, by rw [hdrop]⟩
  · cases h

/-- A step keeps all tokens loaded. -/
theorem IsLoadedConfig.step (h : IsLoadedConfig c)
    (hstep : (parser table).step c = .running c') : IsLoadedConfig c' := by
  rcases Parser.running_cases hstep with
      ⟨s, x, rest, -, hinput, rfl⟩ | ⟨n, q, s, ts, env, -, hhook, -, -, rfl⟩
  · have hcome : ∀ t, .token t ∈ Delivery.token x :: rest → t.IsLoaded := hinput ▸ h.input
    refine ⟨List.forall_mem_cons.mpr ⟨h.lookahead, h.tokens⟩, hcome x List.mem_cons_self,
      fun t ht => hcome t (List.mem_cons_of_mem _ ?_)⟩
    simpa [Parser.shifted, Progress.fetch, hinput, Progress.countShift] using ht
  · obtain ⟨f, parts, z, rfl⟩ := exists_phrase_of_reduce (x := c.lookahead) hhook
    refine ⟨List.forall_mem_cons.mpr ⟨isLoaded_phraseToken f parts z, fun t ht => ?_⟩,
      h.lookahead, h.input⟩
    exact h.tokens t (List.mem_of_mem_drop ht)

/-- All configurations of a sentence over loaded tokens are loaded. -/
theorem isLoadedConfig_of_reaches (hloaded : ∀ t, .token t ∈ p₀.input → t.IsLoaded)
    (hinput : p₀.input = .token x :: rest)
    (h : (parser table).Reaches (Parser.initial x p₀.fetch.2) c) : IsLoadedConfig c := by
  induction h with
  | refl =>
      rw [hinput] at hloaded
      refine ⟨by simp [Parser.initial], hloaded x List.mem_cons_self,
        fun t ht => hloaded t (List.mem_cons_of_mem _ ?_)⟩
      simpa [Parser.initial, Progress.fetch, hinput] using ht
  | step _ hstep ih => exact ih.step hstep

/-! ## Reductions -/

/-- A right-hand side on top of the stack is that of a phrase, over its parts. -/
theorem exists_phrase_of_spells (hq : grammar.productions[n]? = some q)
    (h : (parser table).Spells ts q.rhs) :
    ∃ (f : Phrase) (parts ts' : List Token), Phrase.ofIndex? n = some f ∧ q = f.production ∧ ts = parts.reverse ++ ts' ∧
      ts' = ts.drop q.rhs.length ∧ parts.map Token.kind = f.rhs := by
  obtain ⟨f, -, hf, rfl⟩ := phrase_of_production hq
  have hkinds : (ts.take f.production.rhs.length).reverse.map (fun t => t.kind.index) =
      f.rhs.map Symbol.index := h
  exact ⟨f, (ts.take f.production.rhs.length).reverse, _, hf, rfl, by simp, rfl,
    Symbol.map_index_inj (by simpa [Function.comp_def] using hkinds)⟩

/-- The hook of the calculator keeps to its productions. -/
theorem keepsProductions_phrases (table : Table) : (parser table).KeepsProductions := by
  intro n q x ts env _ hq hspells
  obtain ⟨f, parts, ts', hf, rfl, hts, hrest, hkinds⟩ := exists_phrase_of_spells hq hspells
  have hlen : parts.length = f.rhs.length := by rw [← hkinds, List.length_map]
  have hreduce : reduce n x ts env = _ := hts ▸ reduce_eq hf hlen
  rcases happly : apply f parts env with ⟨e | z, env'⟩ <;> rw [happly] at hreduce
  · exact .inl ⟨_, _, _, hreduce, by simp⟩
  · exact .inr ⟨phraseToken f parts z, env', hrest ▸ hreduce, rfl⟩

section

variable (hbuild : Table.build grammar = .ok table) (hdelivered : p₀.input <:+ deliveriesOf bs)
include hbuild hdelivered

omit hbuild in
/-- What the lexer delivers are errors, and terminal tokens that carry what they need. -/
theorem delivered_cases {d : Delivery Token} (hd : d ∈ p₀.input) :
    (∃ e, d = .failed e) ∨
      ∃ t : Token, d = .token t ∧ t.IsLoaded ∧ t.kind.index ∈ grammar.terminalSymbols := by
  obtain ⟨ds, hds, hall⟩ := exists_deliveries bs
  have hmem : d ∈ ds ++ [.token (endToken bs.length)] := hds ▸ hdelivered.subset hd
  rcases List.mem_append.mp hmem with hmem | hmem
  · rcases hall d hmem with hfailed | ⟨t, rfl, ht⟩
    · exact .inl hfailed
    · exact .inr ⟨t, rfl, ht.isLoaded, ht.terminal⟩
  · obtain rfl := List.mem_singleton.mp hmem
    exact .inr ⟨_, rfl, isLoaded_endToken _, endMark_mem_terminalSymbols⟩

omit hbuild in
theorem token_delivered (ht : .token t ∈ p₀.input) :
    t.IsLoaded ∧ t.kind.index ∈ grammar.terminalSymbols := by
  rcases delivered_cases hdelivered ht with ⟨e, he⟩ | ⟨t', ht', hgood⟩
  · cases he
  · exact Delivery.token.inj ht' ▸ hgood

variable (hinput : p₀.input = .token x :: rest)
  (hreaches : (parser table).Reaches (Parser.initial x p₀.fetch.2) c)
include hinput hreaches

/-- Where the table calls for a reduction, the parts of its phrase are on top of the stack and carry
what they need. The phrase has a value, for which its token takes their place, unless it is a name
without value. -/
theorem reduction_cases
    (hlookup : table.lookup (top c.states) c.lookahead.kind.index = some (.reduce n)) :
    ∃ f parts ts, Phrase.ofIndex? n = some f ∧ c.tokens = parts.reverse ++ ts ∧
      parts.map Token.kind = f.rhs ∧
      ((∃ z env, apply f parts c.progress.context = (.ok z, env) ∧
        reduce n c.lookahead c.tokens c.progress.context =
          (.ok (), phraseToken f parts z :: ts, env)) ∨
      f = .name ∧ ∃ s, apply f parts c.progress.context =
          (.error (.unbound s), c.progress.context) ∧
        reduce n c.lookahead c.tokens c.progress.context =
          (.error (.hook (.unbound s)), ts, c.progress.context)) := by
  have hkeeps := keepsProductions_phrases table
  obtain ⟨u, fs, hreading⟩ := hreaches.exists_reading (P := parser table) hbuild hkeeps hinput
  obtain ⟨q, hq, hspells⟩ := hreading.spells (P := parser table) hbuild hlookup
  obtain ⟨f, parts, ts, hf, -, hts, -, hkinds⟩ := exists_phrase_of_spells hq hspells
  have hloaded := isLoadedConfig_of_reaches (fun t ht => (token_delivered hdelivered ht).1)
    hinput hreaches
  have hlen : parts.length = f.rhs.length := by rw [← hkinds, List.length_map]
  have hreduce : reduce n c.lookahead c.tokens c.progress.context = _ := hts ▸ reduce_eq hf hlen
  refine ⟨f, parts, ts, hf, hts, hkinds, ?_⟩
  rcases apply_cases hkinds (fun t ht => hloaded.tokens t (by simp [hts, ht]))
    c.progress.context with ⟨z, env, happly⟩ | ⟨rfl, s, happly⟩
  · exact .inl ⟨z, env, happly, by rw [hreduce, happly]⟩
  · exact .inr ⟨rfl, s, happly, by rw [hreduce, happly]⟩

end

/-! ## Results -/

/-- The fault is one of the line: a lexical or a syntax error, or a name without value. -/
def IsFaultOfLine : Fault SemanticError → Prop
  | .lexical _ | .syntactic _ | .hook (.unbound _) => True
  | .table _ | .hook (.operand _ _) => False

/-- The error for a fault of the line is lexical, syntactic, or that of a name without value. -/
theorem IsFaultOfLine.ofFault_cases {e : Fault SemanticError} (h : IsFaultOfLine e) :
    (∃ l, Error.ofFault e = .lexical l) ∨
      (∃ found offset, Error.ofFault e = .syntactic found offset) ∨
      ∃ s, Error.ofFault e = .semantic (.unbound s) := by
  match e, h with
  | .lexical l, _ => exact .inl ⟨l, rfl⟩
  | .syntactic l, _ => exact .inr (.inl ⟨_, _, rfl⟩)
  | .hook (.unbound s), _ => exact .inr (.inr ⟨s, rfl⟩)

section

variable (hbuild : Table.build grammar = .ok table) (hdelivered : p₀.input <:+ deliveriesOf bs)
include hbuild hdelivered

/-- A run that has begun comes to a number or to a fault of the line. -/
theorem run_faultless (hinput : p₀.input = .token x :: rest) :
    ∃ result p, (parser table).run (Parser.initial x p₀.fetch.2) = some (result, p) ∧
      match result with
      | .ok t => ∃ z, t.number? = some z
      | .error e => IsFaultOfLine e := by
  have hkeeps := keepsProductions_phrases table
  have hterm : ∀ t, .token t ∈ p₀.input → t.kind.index ∈ grammar.terminalSymbols :=
    fun t ht => (token_delivered hdelivered ht).2
  obtain ⟨result, p, hrun⟩ := Parser.Reaches.exists_run (P := parser table) hbuild hkeeps
    endMark_mem_terminalSymbols start_not_mem_rhs isProductive_grammar hinput (.refl _)
  refine ⟨result, p, hrun, ?_⟩
  obtain ⟨c, hreaches, hstep⟩ := Parser.exists_last_of_run hrun
  match result with
  | .ok t =>
      obtain ⟨u, fs, hreading⟩ :=
        hreaches.exists_reading (P := parser table) hbuild hkeeps hinput
      obtain ⟨-, f, y, rfl, htokens, hroot, hstep'⟩ := hreading.step_accept hkeeps.tracks hbuild
        start_not_mem_rhs (Parser.lookup_of_finished_ok hstep)
      obtain ⟨rfl, -⟩ : t = y ∧ p = c.progress := by simpa [hstep] using hstep'
      have hkinds : c.tokens.map (fun t => t.kind.index) = [Symbol.line.index] :=
        hreading.tracked.trans (congrArg (fun X => [X]) hroot)
      have hline : t.kind = .line := by
        rw [htokens] at hkinds
        exact Symbol.index_inj (List.cons.inj hkinds).1
      have hloaded := isLoadedConfig_of_reaches (fun t ht => (token_delivered hdelivered ht).1)
        hinput hreaches
      exact (hloaded.tokens t (by simp [htokens])).number (by rw [hline]; decide)
  | .error (.lexical _) => trivial
  | .error (.syntactic _) => trivial
  | .error (.table fault) =>
      exact Parser.ne_table_of_run (P := parser table) hbuild hkeeps hterm hinput hrun fault rfl
  | .error (.hook e) =>
      obtain ⟨n, ts, env, hlookup, hhook⟩ := Parser.exists_reduce_of_finished_hook hstep
      obtain ⟨f, parts, ts', -, -, -, ⟨z, env', -, hreduce⟩ | ⟨-, s, -, hreduce⟩⟩ :=
        reduction_cases hbuild hdelivered hinput hreaches hlookup
      · cases hreduce.symm.trans hhook
      · cases hreduce.symm.trans hhook
        trivial

/-- A call gives a token with a number, or nothing once nothing is left, or a fault of the line. -/
theorem next_faultless :
    match ((parser table).next p₀).1 with
    | .ok (some t) => ∃ z, t.number? = some z
    | .ok none => p₀.input = []
    | .error e => IsFaultOfLine e := by
  match hinput : p₀.input with
  | [] => simp [Parser.next, Progress.fetch, hinput]
  | .nothing :: rest =>
      rcases delivered_cases hdelivered (hinput ▸ List.mem_cons_self) with ⟨e, he⟩ | ⟨t, ht, -⟩
      · cases he
      · cases ht
  | .failed e :: rest =>
      simp only [Parser.next, Progress.fetch, hinput]
      trivial
  | .token x :: rest =>
      obtain ⟨result, p, hrun, hresult⟩ := run_faultless hbuild hdelivered hinput
      rw [Parser.next_of_run hinput hrun]
      cases result with
      | ok t => exact hresult
      | error e => exact hresult

end

/-- The error of a line is lexical, syntactic, or that of a name without value, and there is always
something to read. For a phrase misses something at certain places only, at which its right-hand
side has symbols that carry it. In every sentence read from what the lexer delivers, or from what
earlier sentences left of that, all tokens on the stack carry what they need. Each reduction takes
the parts of its phrase from the stack and puts the token of the phrase in their place, unless the
phrase is a name without value. -/
theorem evaluate_faultless (env : Bindings) (line : String) :
    (∀ e, (evaluate env line).1 = .error e →
      (∃ l, e = .lexical l) ∨ (∃ found offset, e = .syntactic found offset) ∨
        ∃ s, e = .semantic (.unbound s)) ∧
    (Reader.ofBytes (Text.utf8Bytes line) env).next.1 ≠ .ok none ∧
    (∀ (f : Phrase) (parts : List Token) (env : Bindings),
      HasReason f parts (apply f parts env).1 ∧
      (∀ i ∈ f.numberPlaces, ∃ X, f.rhs[i]? = some X ∧ X.carriesNumber = true) ∧
        ∀ i ∈ f.namePlaces, f.rhs[i]? = some .ident) ∧
    ∀ (table : Table) (p₀ : Progress Token Bindings) (x : Token) (rest : List (Delivery Token))
      (c : Config Token Bindings), table? = .ok table →
      p₀.input <:+ deliveriesOf (Text.utf8Bytes line) → p₀.input = .token x :: rest →
      (parser table).Reaches (Parser.initial x p₀.fetch.2) c →
      (∀ t ∈ c.tokens, t.IsLoaded) ∧
      ∀ n, table.lookup (top c.states) c.lookahead.kind.index = some (.reduce n) →
        ∃ f parts ts, Phrase.ofIndex? n = some f ∧ c.tokens = parts.reverse ++ ts ∧
          parts.map Token.kind = f.rhs ∧
          ((∃ z env, apply f parts c.progress.context = (.ok z, env) ∧
            reduce n c.lookahead c.tokens c.progress.context =
              (.ok (), phraseToken f parts z :: ts, env)) ∨
          f = .name ∧ ∃ s, apply f parts c.progress.context =
              (.error (.unbound s), c.progress.context) ∧
            reduce n c.lookahead c.tokens c.progress.context =
              (.error (.hook (.unbound s)), ts, c.progress.context)) := by
  obtain ⟨table, hbuild⟩ := exists_table
  have hdelivered : (Progress.start (deliveriesOf (Text.utf8Bytes line)) env).input <:+
      deliveriesOf (Text.utf8Bytes line) := List.suffix_refl _
  have hnext := next_faultless hbuild hdelivered
  have hsome : deliveriesOf (Text.utf8Bytes line) ≠ [] := by
    obtain ⟨ds, hds, -⟩ := exists_deliveries (Text.utf8Bytes line)
    intro hnil
    exact absurd (hds.symm.trans hnil) (by simp)
  refine ⟨fun e he => ?_, fun hnone => ?_,
    fun f parts env => ⟨hasReason_apply f parts env, carries_of_mem_places f⟩,
    fun table p₀ x rest c hbuild hdelivered hinput hreaches => ⟨?_, fun n => ?_⟩⟩
  · rw [evaluate, evaluateBytes_eq hbuild] at he
    split at hnext
    · rename_i t heq
      obtain ⟨z, hz⟩ := hnext
      simp [heq, Except.mapError, lineValue, hz] at he
    · exact absurd hnext hsome
    · rename_i fault heq
      obtain rfl : Error.ofFault fault = e := by simpa [heq, Except.mapError, lineValue] using he
      exact hnext.ofFault_cases
  · have hprogress : (Reader.ofBytes (Text.utf8Bytes line) env).progress =
        .start (deliveriesOf (Text.utf8Bytes line)) env := rfl
    rw [next_eq hbuild, hprogress] at hnone
    split at hnext
    · rename_i t heq
      simp [heq, Except.mapError] at hnone
    · exact hsome hnext
    · rename_i fault heq
      simp [heq, Except.mapError] at hnone
  · exact (isLoadedConfig_of_reaches (fun t ht => (token_delivered hdelivered ht).1) hinput
      hreaches).tokens
  · exact reduction_cases hbuild hdelivered hinput hreaches

end Argand.Calc
