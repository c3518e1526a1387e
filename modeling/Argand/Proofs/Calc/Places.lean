-- SUMMARY: The tokens of a line lie one after the other, and every call of the lexer moves on.
import Argand.Proofs.Calc.Recovery

/-!
# Where the tokens of a line lie

Each call of the lexer gives the end token, or an error or a token behind what was read before, and
then stands further on (`Waiting.next_places`). So the tokens of a line lie one after the other
(`InOrder`), there are no more deliveries than bytes and the end token, and the end token is the
last one (`DeliversFrom`).
-/
namespace Argand.Calc

/-! ## Tokens in order -/

/-- The tokens lie from the place `p` up to the place `q`, one after the other, and each has a byte
at least. -/
inductive InOrder : Nat → List Token → Nat → Prop where
  | nil {p q : Nat} : p ≤ q → InOrder p [] q
  | cons {p q : Nat} {t : Token} {a : Span} {ts : List Token} :
      t.span = some a → p ≤ a.start → a.start < a.stop → InOrder a.stop ts q → InOrder p (t :: ts) q

namespace InOrder

variable {p q m : Nat} {t : Token} {ts us : List Token}

theorem le (h : InOrder p ts q) : p ≤ q := by
  induction h with
  | nil hle => exact hle
  | cons _ hstart hlt _ ih => omega

theorem mono {p' : Nat} (h : InOrder p ts q) (hle : p' ≤ p) : InOrder p' ts q := by
  cases h with
  | nil hpq => exact .nil (Nat.le_trans hle hpq)
  | cons hspan hstart hlt hrest => exact .cons hspan (Nat.le_trans hle hstart) hlt hrest

theorem append (h : InOrder p ts m) (h' : InOrder m us q) : InOrder p (ts ++ us) q := by
  induction h with
  | nil hle => exact h'.mono hle
  | cons hspan hstart hlt _ ih => exact .cons hspan hstart hlt (ih h')

theorem of_append (h : InOrder p (ts ++ us) q) : ∃ m, InOrder p ts m ∧ InOrder m us q := by
  induction ts generalizing p with
  | nil => exact ⟨p, .nil (Nat.le_refl p), h⟩
  | cons t ts ih =>
      cases h with
      | cons hspan hstart hlt hrest =>
          obtain ⟨m, hts, hus⟩ := ih hrest
          exact ⟨m, .cons hspan hstart hlt hts, hus⟩

/-- The place of a token is between the two ends. -/
theorem span_of_mem (h : InOrder p ts q) (ht : t ∈ ts) :
    ∃ a, t.span = some a ∧ p ≤ a.start ∧ a.start < a.stop ∧ a.stop ≤ q := by
  induction h with
  | nil => simp at ht
  | @cons p q x a ts hspan hstart hlt hrest ih =>
      rcases List.mem_cons.mp ht with rfl | ht
      · exact ⟨a, hspan, hstart, hlt, hrest.le⟩
      · obtain ⟨b, hb, hle, hltb, hbq⟩ := ih ht
        exact ⟨b, hb, by omega, hltb, hbq⟩

/-- Together the tokens cover what lies from the start of the first to the end of the last one. -/
theorem exists_hull (h : InOrder p ts q) (hne : ts ≠ []) :
    ∃ first last a b, ts.head? = some first ∧ ts.getLast? = some last ∧ first.span = some a ∧
      last.span = some b ∧ p ≤ a.start ∧ a.start < b.stop ∧ b.stop ≤ q ∧
      Span.hull (ts.map Token.span) = some ⟨a.start, b.stop⟩ := by
  induction h with
  | nil => exact absurd rfl hne
  | @cons p q t a ts hspan hstart hlt hrest ih =>
      rw [List.map_cons, Span.hull_cons, hspan]
      by_cases hnil : ts = []
      · subst hnil
        exact ⟨t, t, a, a, rfl, rfl, hspan, hspan, hstart, hlt, hrest.le, rfl⟩
      · obtain ⟨first, last, b, c, -, hlast, -, hc, hb, hbc, hcq, hhull⟩ := ih hnil
        refine ⟨t, last, a, c, rfl, ?_, hspan, hc, hstart, by omega, hcq, ?_⟩
        · rw [List.getLast?_cons, hlast]
          rfl
        · rw [hhull, Span.join, Span.merge, Nat.min_eq_left (by simp only; omega),
            Nat.max_eq_right (by simp only; omega)]

end InOrder

/-- The first token lies before the second: both have a place, and that of the first one, which is
not empty, ends where that of the second one begins, or before. -/
def LiesBefore (t t' : Token) : Prop :=
  ∃ a b, t.span = some a ∧ t'.span = some b ∧ a.start < a.stop ∧ a.stop ≤ b.start

theorem InOrder.pairwise {p q : Nat} {ts : List Token} (h : InOrder p ts q) :
    ts.Pairwise LiesBefore := by
  induction h with
  | nil => exact .nil
  | @cons p q t a ts hspan hstart hlt hrest ih =>
      refine List.pairwise_cons.mpr ⟨fun t' ht' => ?_, ih⟩
      obtain ⟨b, hb, hle, -, -⟩ := hrest.span_of_mem ht'
      exact ⟨a, b, hspan, hb, hlt, hle⟩

theorem InOrder.pairwise_concat {p : Nat} {t : Token} {b : Span} {ts : List Token}
    (h : InOrder p ts b.start) (hb : t.span = some b) : (ts ++ [t]).Pairwise LiesBefore := by
  refine List.pairwise_append.mpr ⟨h.pairwise, List.pairwise_singleton _ _, fun x hx y hy => ?_⟩
  obtain rfl := List.mem_singleton.mp hy
  obtain ⟨a, ha, -, hlt, hle⟩ := h.span_of_mem hx
  exact ⟨a, b, ha, hb, hlt, hle⟩

/-! ## One call -/

variable {input : List UInt8} {s s' : Lexer.State Token} {c : Cursor}

/-- Where a call that has begun at `s` may have come to, before the end: further on, with an error,
or with a token right before it. -/
structure MovesOn (s s' : Lexer.State Token) (d : Delivery Token) : Prop where
  ended : s'.ended = false
  stop_lt : s.cursor.span.stop < s'.cursor.span.stop
  delivery : (∃ e, d = .failed e) ∨ ∃ t p, d = .token t ∧ t.IsLexical ∧
    t.span = some ⟨p, s'.cursor.span.stop⟩ ∧ s.cursor.span.stop ≤ p ∧ p < s'.cursor.span.stop

theorem MovesOn.of_stop_le {s₀ : Lexer.State Token} {d : Delivery Token} (h : MovesOn s s' d)
    (hle : s₀.cursor.span.stop ≤ s.cursor.span.stop) : MovesOn s₀ s' d := by
  refine ⟨h.ended, Nat.lt_of_le_of_lt hle h.stop_lt, ?_⟩
  rcases h.delivery with hfailed | ⟨t, p, hd, ht, hspan, hp, hlt⟩
  · exact .inl hfailed
  · exact .inr ⟨t, p, hd, ht, hspan, Nat.le_trans hle hp, hlt⟩

/-- A call before the end gives the end token, or moves on. -/
theorem next_places (hover : c.IsOver input) :
    ∃ d s', lexer.next ⟨c, [], false⟩ = (d, s') ∧ Waiting input s' ∧
      (d = .token (endToken input.length) ∧ s'.ended = true ∨ MovesOn ⟨c, [], false⟩ s' d) := by
  -- Blanks are passed over, which leaves less ahead.
  induction hahead : c.ahead.length using Nat.strongRecOn generalizing c with
  | _ n ih =>
      subst hahead
      rcases hscan : c.scan lexer.rules with ⟨e | r, c'⟩
      · obtain ⟨hover', -, -, hlt⟩ := hover.of_error hscan
        exact ⟨_, _, Lexer.next_of_error hscan, .of_not_ended hover',
          .inr ⟨rfl, hlt, .inl ⟨e, rfl⟩⟩⟩
      · cases r with
        | none =>
            obtain ⟨-, hstop, -⟩ := hover.of_none not_matchedBy_nil hscan
            have hnil : c.ahead = [] := by rw [hover.ahead_eq, hstop, List.drop_length]
            obtain ⟨c'', hover'', hahead'', hnext⟩ := next_of_nil hover hnil
            exact ⟨_, _, hnext, ⟨hover'', rfl, fun _ => hahead''⟩, .inl ⟨rfl, rfl⟩⟩
        | some r =>
            obtain ⟨hover', n, hn, -, -, hspan⟩ := hover.of_match not_matchedBy_nil hscan
            have hless := hover.length_ahead_lt_of_match not_matchedBy_nil hscan
            have hlt : c.span.stop < c'.span.stop := by
              rw [hspan]
              exact Nat.lt_add_of_pos_right hn
            obtain ⟨ts, hact⟩ := exists_act_eq (matches_of_scan hscan) c'.span
            rcases LexRule.act_eq_ok hact with rfl | ⟨t, rfl, ht⟩
            · obtain ⟨d, s', hnext, hwaiting, hcases⟩ := ih _ hless hover' rfl
              refine ⟨d, s', ?_, hwaiting, hcases.imp_right fun h => h.of_stop_le hlt.le⟩
              rw [Lexer.next_of_skip not_matchedBy_nil hover hscan hact, hnext]
            · have hyield : lexer.act r ⟨c'.lexeme, c'.span⟩ = .ok [t] := hact
              have hnext := Lexer.next_of_match hscan (by rw [hyield]; nofun)
              rw [hyield] at hnext
              have hplace : t.span = some ⟨c.span.stop, c'.span.stop⟩ := by
                rw [← at_eq_self_of_act hact, hspan]
                rfl
              exact ⟨_, _, hnext, .of_not_ended hover',
                .inr ⟨rfl, hlt, .inr ⟨t, _, rfl, ht, hplace, Nat.le_refl _, hlt⟩⟩⟩

theorem Waiting.next_places (h : Waiting input s) (hended : s.ended = false) :
    ∃ d s', lexer.next s = (d, s') ∧ Waiting input s' ∧
      (d = .token (endToken input.length) ∧ s'.ended = true ∨ MovesOn s s' d) := by
  obtain ⟨c, queue, ended⟩ := s
  obtain rfl : queue = [] := h.queue
  obtain rfl : ended = false := hended
  exact Calc.next_places h.isOver

/-! ## All calls -/

/-- Call after call the lexer moves on and delivers `ds`, the end token last. -/
inductive DeliversFrom (total : Nat) : Lexer.State Token → List (Delivery Token) → Prop where
  | finish {s s' : Lexer.State Token} : lexer.next s = (.token (endToken total), s') →
      s'.queue = [] → s'.ended = true → s.cursor.span.stop ≤ total →
      DeliversFrom total s [.token (endToken total)]
  | moveOn {s s' : Lexer.State Token} {d : Delivery Token} {ds : List (Delivery Token)} :
      lexer.next s = (d, s') → MovesOn s s' d → DeliversFrom total s' ds →
      DeliversFrom total s (d :: ds)

/-- With calls enough this is what the lexer does. -/
theorem Waiting.deliversFrom {calls : Nat} (h : Waiting input s) (hended : s.ended = false)
    (hcalls : s.cursor.ahead.length < calls) :
    DeliversFrom input.length s ((lexer.deliveries calls s).map (·.1)) := by
  induction calls generalizing s with
  | zero => omega
  | succ calls ih =>
      obtain ⟨d, s', hnext, hwaiting, ⟨rfl, hended'⟩ | hmoves⟩ := h.next_places hended
      · obtain ⟨c, queue, ended⟩ := s'
        obtain rfl : queue = [] := hwaiting.queue
        obtain rfl : ended = true := hended'
        rw [Lexer.deliveries, hnext]
        change DeliversFrom _ s (.token _ :: (lexer.deliveries calls _).map (·.1))
        rw [deliveries_ended]
        exact .finish hnext rfl rfl h.isOver.stop_le
      · have hless := h.isOver.length_ahead_lt hwaiting.isOver hmoves.stop_lt
        have hrest := ih hwaiting hmoves.ended (by omega)
        rw [Lexer.deliveries, hnext]
        rcases hmoves.delivery with ⟨e, rfl⟩ | ⟨t, p, rfl, -⟩ <;> exact .moveOn hnext hmoves hrest

theorem deliversFrom_ofBytes (bs : List UInt8) :
    DeliversFrom bs.length (.ofBytes bs) (deliveriesOf bs) :=
  (waiting_ofBytes bs).deliversFrom rfl
    (by simp [Lexer.State.ofBytes, Cursor.ofBytes, Cursor.ahead])

namespace DeliversFrom

variable {total : Nat} {ds rest : List (Delivery Token)} {u : List Token} {t : Token}

theorem gives (h : DeliversFrom total s ds) : lexer.Gives s ds := by
  induction h with
  | @finish s s' hnext hqueue hended _ =>
      obtain ⟨c, queue, ended⟩ := s'
      obtain rfl : queue = [] := hqueue
      obtain rfl : ended = true := hended
      exact .cons hnext (lexer.gives_ended c)
  | moveOn hnext _ _ ih => exact .cons hnext ih

theorem stop_le (h : DeliversFrom total s ds) : s.cursor.span.stop ≤ total := by
  induction h with
  | finish _ _ _ hle => exact hle
  | moveOn _ hmoves _ ih => exact hmoves.stop_lt.le.trans ih

/-- There are no more deliveries than bytes and the end token. -/
theorem length_le (h : DeliversFrom total s ds) :
    s.cursor.span.stop + ds.length ≤ total + 1 := by
  induction h with
  | finish _ _ _ hle => simpa using hle
  | moveOn _ hmoves _ ih =>
      have hlt := hmoves.stop_lt
      rw [List.length_cons]
      omega

/-- Every call but the last one, which gives the end token, moves on. -/
theorem stop_lt (h : DeliversFrom total s ds) {k : Nat} (hk : k + 1 < ds.length) :
    (lexer.called k s).cursor.span.stop < (lexer.called (k + 1) s).cursor.span.stop := by
  induction h generalizing k with
  | finish => simp at hk
  | @moveOn s s' d ds hnext hmoves _ ih =>
      cases k with
      | zero =>
          rw [Lexer.called_succ, hnext]
          exact hmoves.stop_lt
      | succ k =>
          rw [Lexer.called_succ, Lexer.called_succ lexer (k + 1), hnext]
          exact ih (by simpa using hk)

theorem stop_lt_of_lt (h : DeliversFrom total s ds) {i j : Nat} (hij : i < j)
    (hj : j < ds.length) :
    (lexer.called i s).cursor.span.stop < (lexer.called j s).cursor.span.stop := by
  induction j with
  | zero => omega
  | succ j ih =>
      have hlast := h.stop_lt hj
      rcases Nat.lt_succ_iff_lt_or_eq.mp hij with hlt | rfl
      · exact Nat.lt_trans (ih hlt (by omega)) hlast
      · exact hlast

theorem of_suffix (h : DeliversFrom total s ds) (hsuffix : rest <:+ ds) (hne : rest ≠ []) :
    ∃ s', DeliversFrom total s' rest := by
  induction h with
  | finish hnext hqueue hended hle =>
      rcases List.suffix_cons_iff.mp hsuffix with rfl | hnil
      · exact ⟨_, .finish hnext hqueue hended hle⟩
      · exact absurd (List.suffix_nil.mp hnil) hne
  | moveOn hnext hmoves hrest ih =>
      rcases List.suffix_cons_iff.mp hsuffix with rfl | hmore
      · exact ⟨_, .moveOn hnext hmoves hrest⟩
      · exact ih hmore

/-- Tokens in a row lie in order, and before the token behind them. -/
theorem inOrder (h : DeliversFrom total s ((u ++ [t]).map .token ++ rest)) :
    ∃ b, t.span = some b ∧ InOrder s.cursor.span.stop u b.start ∧
      (t = endToken total ∧ rest = [] ∨ t.IsLexical ∧ b.start < b.stop) ∧
      ∀ x ∈ u, x.IsLexical := by
  induction u generalizing s with
  | nil =>
      cases h with
      | finish _ _ _ hle => exact ⟨⟨total, total⟩, rfl, .nil hle, .inl ⟨rfl, rfl⟩, by simp⟩
      | moveOn _ hmoves _ =>
          rcases hmoves.delivery with ⟨e, he⟩ | ⟨x, p, hx, hlex, hspan, hp, hlt⟩
          · cases he
          · cases hx
            exact ⟨_, hspan, .nil hp, .inr ⟨hlex, hlt⟩, by simp⟩
  | cons x u ih =>
      generalize hds : ((x :: u) ++ [t]).map Delivery.token ++ rest = ds at h
      cases h with
      | finish => simp at hds
      | moveOn _ hmoves hrest =>
          obtain ⟨rfl, rfl⟩ := List.cons.inj hds
          obtain ⟨b, hb, hinOrder, ht, hall⟩ := ih hrest
          rcases hmoves.delivery with ⟨e, he⟩ | ⟨y, p, hy, hlex, hspan, hp, hlt⟩
          · cases he
          · cases hy
            exact ⟨b, hb, .cons hspan hp hlt hinOrder, ht, List.forall_mem_cons.mpr ⟨hlex, hall⟩⟩

end DeliversFrom

end Argand.Calc
