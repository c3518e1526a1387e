-- SUMMARY: Calls on a line go on where the last one ended, whatever came of it, until all is read.
import Argand.Proofs.Calc.Spans
import Argand.Proofs.Resumption

/-!
# Reading on after errors

Each call on a reader takes the next run of what the lexer delivers, and does with it what a fresh
reader would do under the bindings so far (`Reader.next_eq_renew`). It leaves these bindings alone,
unless it gives a line that is an assignment, which binds its target (`ReadsOn`). So the calls share
out all that the lexer delivers, in order, and once nothing is left they give nothing
(`calls_share_out`).
-/
namespace Argand.Calc

namespace Reader

/-- The reader after `k` calls. -/
def called (k : Nat) (r : Reader) : Reader :=
  (fun r => r.next.2)^[k] r

/-- The deliveries that the next call takes. -/
def taken (r : Reader) : List (Delivery Token) :=
  r.progress.input.take (r.progress.input.length - r.next.2.progress.input.length)

/-- A fresh reader at the same place, with the bindings so far. -/
def renew (r : Reader) : Reader :=
  { r with progress := .start r.progress.input r.bindings }

/-- The same reader after work with the counts `k`. -/
def after (k : ParseCounts) (r : Reader) : Reader :=
  { r with progress := r.progress.after k }

theorem called_succ (k : Nat) (r : Reader) : called (k + 1) r = (called k r).next.2 :=
  Function.iterate_succ_apply' _ _ _

theorem called_succ' (k : Nat) (r : Reader) : called (k + 1) r = called k r.next.2 :=
  Function.iterate_succ_apply _ _ _

theorem bindings_eq (r : Reader) : r.bindings = r.progress.context := rfl

/-- A call does what it does on a fresh reader, but for the counts. -/
theorem next_eq_renew (r : Reader) :
    r.next = (r.renew.next.1, r.renew.next.2.after r.progress.counts) := by
  obtain ⟨table, hbuild⟩ := exists_table
  rw [next_eq hbuild, next_eq hbuild]
  have hprogress : r.progress = r.renew.progress.after r.progress.counts := rfl
  have hnext := (parser table).next_after r.progress.counts r.renew.progress
  rw [← hprogress] at hnext
  rw [hnext]
  rfl

end Reader

/-! ## One call -/

/-- What one call does on a reader of a line of `total` bytes. -/
structure ReadsOn (table : Table) (total : Nat) (r : Reader) : Prop where
  /-- It takes a run of deliveries and leaves the rest. -/
  rest : r.progress.input = r.taken ++ r.next.2.progress.input
  takes : ∃ n, Parser.Takes r.taken n ((parser table).next r.progress).1 ∧
    r.next.2.progress.counts.shifts = r.progress.counts.shifts + n
  result : r.next.1 = ((parser table).next r.progress).1.mapError Error.ofFault
  fresh : r.next = (r.renew.next.1, r.renew.next.2.after r.progress.counts)
  ended_iff : r.next.1 = .ok none ↔ r.progress.input = []
  /-- An error, or nothing, comes with the bindings left alone. -/
  kept : (∀ t, r.next.1 ≠ .ok (some t)) → r.next.2.bindings = r.bindings
  /-- A line is all that was left, and it binds no name but its target. -/
  bound : ∀ t, r.next.1 = .ok (some t) → ∃ ts z,
    r.taken = (ts ++ [endToken total]).map .token ∧ t.number? = some z ∧
      r.next.2.bindings = assigned r.bindings ts z

variable {bs : List UInt8} {table : Table} {p₀ : Progress Token Bindings} {r : Reader}

/-- What is left of the deliveries, if something is, are errors and lexical tokens up to the end
token. -/
theorem exists_eq_append_endToken (hdelivered : p₀.input <:+ deliveriesOf bs)
    (hne : p₀.input ≠ []) :
    ∃ ds, p₀.input = ds ++ [.token (endToken bs.length)] ∧ ∀ d ∈ ds, IsLexicalDelivery d := by
  obtain ⟨ds, hds, hall⟩ := exists_deliveries bs
  change deliveriesOf bs = _ at hds
  obtain ⟨pre, hpre⟩ := hdelivered
  obtain ⟨ds', last, hinput⟩ := List.eq_nil_or_concat p₀.input |>.resolve_left hne
  rw [List.concat_eq_append] at hinput
  rw [hinput, hds, ← List.append_assoc] at hpre
  obtain ⟨rfl, hlast⟩ := List.append_inj' hpre rfl
  exact ⟨ds', hinput.trans (by rw [hlast]), fun d hd => hall d (List.mem_append_right _ hd)⟩

theorem nothing_not_mem (hdelivered : p₀.input <:+ deliveriesOf bs) :
    Delivery.nothing ∉ p₀.input := by
  intro hmem
  rcases delivered_cases hdelivered hmem with ⟨e, he⟩ | ⟨t, ht, -⟩
  · cases he
  · cases ht

/-- A call leaves the bindings alone, or gives a line that is all that was left. -/
theorem next_bindings_cases (hbuild : Table.build grammar = .ok table)
    (hdelivered : p₀.input <:+ deliveriesOf bs) :
    (∀ t, ((parser table).next p₀).1 ≠ .ok (some t)) ∧
        ((parser table).next p₀).2.context = p₀.context ∨
      ∃ t ts z, ((parser table).next p₀).1 = .ok (some t) ∧
        ((parser table).next p₀).2.input = [] ∧
        p₀.input = (ts ++ [endToken bs.length]).map .token ∧ t.number? = some z ∧
        ((parser table).next p₀).2.context = assigned p₀.context ts z := by
  by_cases hne : p₀.input = []
  · exact .inl (by simp [Parser.next, Progress.fetch, hne])
  · obtain ⟨ds, hinput, hds⟩ := exists_eq_append_endToken hdelivered hne
    rcases next_cases hbuild hds hinput with
        ⟨fault, p, -, hnext, hcontext⟩ | ⟨-, ts, t, z, p, hts, -, -, hnext, hnumber, hcontext⟩
    · exact .inl (by simp [hnext, hcontext])
    · obtain ⟨-, -, -, -, -, -, hrest, -⟩ := line_of_next hbuild hdelivered hnext
      rw [hnext]
      exact .inr ⟨t, ts, z, rfl, hrest, hts, hnumber, hcontext⟩

theorem mapError_eq_ok_iff {α β γ : Type} {f : α → β} {x : Except α γ} {a : γ} :
    x.mapError f = .ok a ↔ x = .ok a := by
  cases x <;> simp [Except.mapError]

theorem ReadsOn.suffix {total : Nat} (h : ReadsOn table total r) :
    r.next.2.progress.input <:+ r.progress.input :=
  ⟨_, h.rest.symm⟩

/-- A call reads on, in whatever state the calls before it have left the reader. -/
theorem readsOn (hbuild : Table.build grammar = .ok table)
    (hdelivered : r.progress.input <:+ deliveriesOf bs) : ReadsOn table bs.length r := by
  have hnext := next_eq (r := r) hbuild
  have hresult : r.next.1 = ((parser table).next r.progress).1.mapError Error.ofFault := by
    rw [hnext]
  have hprogress : r.next.2.progress = ((parser table).next r.progress).2 := by
    rw [hnext]
    rfl
  obtain ⟨taken, n, hsplit, htakes, hshifts⟩ :=
    (parser table).exists_takes (nothing_not_mem hdelivered)
  rw [← hprogress] at hsplit hshifts
  have htaken : r.taken = taken := by simp [Reader.taken, hsplit]
  have hcases := next_bindings_cases hbuild hdelivered
  rw [← hprogress] at hcases
  refine ⟨htaken ▸ hsplit, ⟨n, htaken ▸ htakes, hshifts⟩, hresult, r.next_eq_renew, ⟨?_, ?_⟩,
    fun hnone => ?_, fun t ht => ?_⟩
  · intro hnone
    have hfaultless := next_faultless hbuild hdelivered
    rw [hresult, mapError_eq_ok_iff] at hnone
    simpa [hnone] using hfaultless
  · intro hnil
    rw [hresult, mapError_eq_ok_iff]
    simp [Parser.next, Progress.fetch, hnil]
  · rcases hcases with ⟨-, hcontext⟩ | ⟨t, ts, z, ht, -⟩
    · rw [Reader.bindings_eq, Reader.bindings_eq, hcontext]
    · exact absurd (hresult.trans (mapError_eq_ok_iff.mpr ht)) (hnone t)
  · rw [hresult, mapError_eq_ok_iff] at ht
    rcases hcases with ⟨hnone, -⟩ | ⟨t', ts, z, ht', hrest, hts, hnumber, hcontext⟩
    · exact absurd ht (hnone t)
    · obtain rfl : t' = t := by simpa using ht'.symm.trans ht
      refine ⟨ts, z, ?_, hnumber, ?_⟩
      · rw [htaken, ← hts, hsplit, hrest, List.append_nil]
      · rw [Reader.bindings_eq, Reader.bindings_eq, hcontext]

/-! ## All calls -/

namespace Reader

variable (hdelivered : r.progress.input <:+ deliveriesOf bs)
include hdelivered

/-- After any calls what is left ends what was left before. -/
theorem called_suffix (k : Nat) : (called k r).progress.input <:+ deliveriesOf bs := by
  obtain ⟨table, hbuild⟩ := exists_table
  induction k with
  | zero => exact hdelivered
  | succ k ih =>
      rw [called_succ]
      exact (readsOn hbuild ih).suffix.trans ih

/-- What the calls took and what is left is what was there. -/
theorem input_eq_flatMap_taken (k : Nat) :
    r.progress.input =
      (List.range k).flatMap (fun j => (called j r).taken) ++ (called k r).progress.input := by
  obtain ⟨table, hbuild⟩ := exists_table
  induction k with
  | zero => rfl
  | succ k ih =>
      have hrest := (readsOn hbuild (called_suffix hdelivered k)).rest
      rw [List.range_succ, List.flatMap_append, List.flatMap_singleton, called_succ,
        List.append_assoc, ← hrest]
      exact ih

/-- A call that does not give nothing takes something. -/
theorem taken_ne_nil (hsome : r.next.1 ≠ .ok none) : r.taken ≠ [] := by
  obtain ⟨table, hbuild⟩ := exists_table
  have hreads := readsOn hbuild hdelivered
  obtain ⟨n, htakes, -⟩ := hreads.takes
  intro hnil
  refine hsome ?_
  rw [hreads.result, mapError_eq_ok_iff]
  exact htakes.eq_nil_iff.mp hnil

/-- A call that does not give nothing leaves less. -/
theorem length_left_lt (hsome : r.next.1 ≠ .ok none) :
    r.next.2.progress.input.length < r.progress.input.length := by
  obtain ⟨table, hbuild⟩ := exists_table
  have hpos := List.length_pos_iff.mpr (taken_ne_nil hdelivered hsome)
  have hsum := congrArg List.length (readsOn hbuild hdelivered).rest
  rw [List.length_append] at hsum
  omega

/-- Once nothing is left the calls give nothing, and before that there are no more calls than
deliveries. -/
theorem exists_end :
    ∃ n ≤ r.progress.input.length, ∀ k, (called k r).next.1 = .ok none ↔ n ≤ k := by
  obtain ⟨table, hbuild⟩ := exists_table
  induction hlen : r.progress.input.length using Nat.strongRecOn generalizing r with
  | _ m ih =>
      subst hlen
      have hreads := readsOn hbuild hdelivered
      by_cases hnone : r.next.1 = .ok none
      · refine ⟨0, Nat.zero_le _, fun k => ⟨fun _ => Nat.zero_le k, fun _ => ?_⟩⟩
        have hsplit := input_eq_flatMap_taken hdelivered k
        rw [hreads.ended_iff.mp hnone] at hsplit
        exact (readsOn hbuild (called_suffix hdelivered k)).ended_iff.mpr
          (List.append_eq_nil_iff.mp hsplit.symm).2
      · have hshorter := length_left_lt hdelivered hnone
        obtain ⟨n, hn, hends⟩ := ih _ hshorter (hreads.suffix.trans hdelivered) rfl
        refine ⟨n + 1, by omega, fun k => ?_⟩
        cases k with
        | zero => simpa [called] using hnone
        | succ k => rw [called_succ', hends k, Nat.add_le_add_iff_right]

end Reader

/-! ## The lexer underneath -/

/-- Where the lexer stands once all deliveries up to the place of the reader were taken. -/
def Reader.offset (bs : List UInt8) (r : Reader) : Nat :=
  (lexer.called ((deliveriesOf bs).length - r.progress.input.length)
    (.ofBytes bs)).cursor.span.stop

/-- A call that takes something moves the lexer on, or takes the end token. -/
theorem offset_lt_or_endToken_mem (hdelivered : r.progress.input <:+ deliveriesOf bs)
    (hsome : r.next.1 ≠ .ok none) :
    r.offset bs < r.next.2.offset bs ∨ .token (endToken bs.length) ∈ r.taken := by
  obtain ⟨table, hbuild⟩ := exists_table
  have hrest := (readsOn hbuild hdelivered).rest
  have hless := Reader.length_left_lt hdelivered hsome
  have hle := hdelivered.length_le
  by_cases hnil : r.next.2.progress.input = []
  · -- All that was left is taken, and it ends with the end token.
    obtain ⟨ds, hds, -⟩ := exists_eq_append_endToken hdelivered (List.ne_nil_of_length_pos (by omega))
    rw [hnil, List.append_nil] at hrest
    exact .inr (by rw [← hrest, hds]; simp)
  · have hleft := List.length_pos_iff.mpr hnil
    rw [Reader.offset, Reader.offset]
    exact .inl ((deliversFrom_ofBytes bs).stop_lt_of_lt (by omega) (by omega))

/-- Calls on a line again and again, whatever comes of them. The lexer delivers errors and lexical
tokens and at last the end token, and before that every call of it moves on. Each call on the reader
takes a run of these deliveries and leaves the rest to the next one, does what a fresh reader would
do there under the bindings so far, and leaves the bindings alone unless it gives a line, all that
was left, which binds nothing but its target. The calls share out all deliveries, and after no more
calls than bytes and one, each of which moves the lexer on or takes the end token, they give nothing.
-/
theorem calls_share_out (bs : List UInt8) (env : Bindings) :
    ∃ table, table? = .ok table ∧
      lexer.Gives (.ofBytes bs) (deliveriesOf bs) ∧
      (∃ ds, deliveriesOf bs = ds ++ [.token (endToken bs.length)] ∧
        ∀ d ∈ ds, IsLexicalDelivery d) ∧
      (∀ j, j + 1 < (deliveriesOf bs).length →
        (lexer.called j (.ofBytes bs)).cursor.span.stop <
          (lexer.called (j + 1) (.ofBytes bs)).cursor.span.stop) ∧
      (∀ k, ReadsOn table bs.length (Reader.called k (.ofBytes bs env)) ∧
        deliveriesOf bs =
          (List.range k).flatMap (fun j => (Reader.called j (.ofBytes bs env)).taken) ++
            (Reader.called k (.ofBytes bs env)).progress.input) ∧
      ∃ n ≤ bs.length + 1,
        (∀ k, (Reader.called k (.ofBytes bs env)).next.1 = .ok none ↔ n ≤ k) ∧
        (List.range n).flatMap (fun j => (Reader.called j (.ofBytes bs env)).taken) =
          deliveriesOf bs ∧
        ∀ k < n, (Reader.called k (.ofBytes bs env)).taken ≠ [] ∧
          ((Reader.called k (.ofBytes bs env)).offset bs <
              (Reader.called (k + 1) (.ofBytes bs env)).offset bs ∨
            .token (endToken bs.length) ∈ (Reader.called k (.ofBytes bs env)).taken) := by
  obtain ⟨table, hbuild⟩ := exists_table
  have hdelivers := deliversFrom_ofBytes bs
  have hlength : (deliveriesOf bs).length ≤ bs.length + 1 :=
    Nat.le_trans (Nat.le_add_left _ _) hdelivers.length_le
  have hstart : (Reader.ofBytes bs env).progress.input <:+ deliveriesOf bs := List.suffix_refl _
  have hsuffix := Reader.called_suffix hstart
  obtain ⟨n, hn, hends⟩ := Reader.exists_end hstart
  refine ⟨table, hbuild, hdelivers.gives, exists_deliveries bs, fun j hj => hdelivers.stop_lt hj,
    fun k => ⟨readsOn hbuild (hsuffix k), Reader.input_eq_flatMap_taken hstart k⟩, n,
    Nat.le_trans hn hlength, hends, ?_, fun k hk => ?_⟩
  · have hnil := (readsOn hbuild (hsuffix n)).ended_iff.mp ((hends n).mpr (Nat.le_refl n))
    have hsplit := Reader.input_eq_flatMap_taken hstart n
    rw [hnil, List.append_nil] at hsplit
    exact hsplit.symm
  · have hsome : (Reader.called k (.ofBytes bs env)).next.1 ≠ .ok none := fun hnone =>
      absurd ((hends k).mp hnone) (Nat.not_le.mpr hk)
    rw [Reader.called_succ]
    exact ⟨Reader.taken_ne_nil (hsuffix k) hsome, offset_lt_or_endToken_mem (hsuffix k) hsome⟩

end Argand.Calc
