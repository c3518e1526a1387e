-- SUMMARY: Tokens on the stack lie where their leaves lie, in order, before the token that comes next.
import Argand.Proofs.Calc.Payload
import Argand.Proofs.Calc.Places
import Argand.Proofs.Calc.RoundTrip

/-!
# Where the tokens on the stack lie

A reduction joins the spans of its parts, and so the span of a token on the stack is what the spans
of the leaves of its tree cover together (`Covers`). No phrase is empty, and the leaves lie one
after the other, so this is the span from the start of the first to the end of the last leaf. As the
leaves of all trees are what was shifted, the tokens on the stack lie in order too, and before the
token that comes next (`spans_on_stack`).
-/
namespace Argand.Calc

open Grammar

/-! ## Trees have leaves -/

theorem rhs_ne_nil : ∀ p ∈ grammar.productions, p.rhs ≠ [] := by
  decide

variable {kind : Token → Nat} {f : Tree Token} {fs cs : List (Tree Token)} {ts : List Token}
  {p q : Nat}

theorem yield_ne_nil (h : f.IsDerivation grammar kind) : f.yield ≠ [] := by
  induction h with
  | leaf x => simp
  | @node p cs hp hroots _ ih =>
      cases cs with
      | nil => exact absurd hroots.symm (rhs_ne_nil p hp)
      | cons c cs => simp [ih c List.mem_cons_self]

/-! ## Spans of tokens and trees -/

/-- The stack shows the symbols of the trees, and each token lies where the leaves of its tree lie.
-/
def Covers (ts : List Token) (fs : List (Tree Token)) (_ : Bindings) : Prop :=
  ts.map (fun t => t.kind.index) = fs.map (Tree.root fun t => t.kind.index) ∧
    ts.map Token.span = fs.map fun f => Span.hull (f.yield.map Token.span)

theorem hull_map_yield (cs : List (Tree Token)) :
    Span.hull ((cs.flatMap Tree.yield).map Token.span) =
      Span.hull (cs.map fun c => Span.hull (c.yield.map Token.span)) := by
  have hflatten : (cs.flatMap Tree.yield).map Token.span =
      (cs.map fun c => c.yield.map Token.span).flatten := by
    rw [List.map_flatMap, List.flatMap_def]
  rw [hflatten, Span.hull_flatten, List.map_map]
  rfl

theorem tracks_covers (table : Table) : (parser table).Tracks Covers where
  kinds := fun h => h.1
  shift := by
    rintro ts fs env x ⟨hkinds, hspans⟩
    refine ⟨by simp [hkinds], ?_⟩
    simp [hspans, Span.hull, Span.join_none_left]
  reduce := by
    rintro ts ts' fs cs env env' n p x hn hp hroots ⟨hkinds, hspans⟩ hreduce
    obtain ⟨f, parts, ts₀, rfl, hindex, rfl, rfl, hparts, hlen, hrest⟩ :=
      exists_parts hp hroots hkinds
    have hcount : parts.length = f.rhs.length := by rw [← hparts, List.length_map]
    change Calc.reduce f.index x _ env = _ at hreduce
    rw [reduce_eq hindex hcount] at hreduce
    rw [List.map_append, List.map_append] at hspans
    obtain ⟨hlast, hbelow⟩ := List.append_inj hspans (by simp [hlen])
    have hjoined : parts.map Token.span = cs.map fun c => Span.hull (c.yield.map Token.span) := by
      simpa using hlast
    split at hreduce
    · simp at hreduce
    · obtain ⟨-, rfl, -⟩ : True ∧ _ = ts' ∧ _ = env' := by simpa using hreduce
      refine ⟨by simp [phraseToken, Phrase.production, hrest], ?_⟩
      rw [List.map_cons, List.map_cons, hbelow, Tree.yield_node, hull_map_yield, ← hjoined]
      rfl

theorem Covers.reverse {env : Bindings} (h : Covers ts fs env) :
    Covers ts.reverse fs.reverse env :=
  ⟨by simp only [List.map_reverse, h.1], by simp only [List.map_reverse, h.2]⟩

/-! ## Stacks in order -/

/-- The token stands for the tree and lies from the start of its first to the end of its last leaf.
-/
structure StandsFor (t : Token) (f : Tree Token) : Prop where
  derivation : f.IsDerivation grammar fun t => t.kind.index
  root : f.root (fun t => t.kind.index) = t.kind.index
  span : ∃ first last a b, f.yield.head? = some first ∧ f.yield.getLast? = some last ∧
    first.span = some a ∧ last.span = some b ∧ t.span = some ⟨a.start, b.stop⟩

/-- Where the leaves lie in order, the tokens stand for their trees and lie in order themselves. -/
theorem Covers.standsFor_and_inOrder {env : Bindings} (h : Covers ts fs env)
    (hders : ∀ f ∈ fs, f.IsDerivation grammar fun t => t.kind.index)
    (hleaves : InOrder p (fs.flatMap Tree.yield) q) :
    List.Forall₂ StandsFor ts fs ∧ InOrder p ts q := by
  induction fs generalizing ts p with
  | nil =>
      obtain rfl : ts = [] := List.map_eq_nil_iff.mp h.2
      exact ⟨.nil, .nil hleaves.le⟩
  | cons f fs ih =>
      obtain ⟨hkinds, hspans⟩ := h
      obtain ⟨t, ts, rfl, hspan, hspans⟩ := List.map_eq_cons_iff.mp hspans
      obtain ⟨hkind, hkinds⟩ := List.cons.inj hkinds
      obtain ⟨m, hfirst, hmore⟩ := hleaves.of_append
      have hder := hders f List.mem_cons_self
      obtain ⟨first, last, a, b, hhead, hlast, ha, hb, hstart, hlt, hstop, hhull⟩ :=
        hfirst.exists_hull (yield_ne_nil hder)
      obtain ⟨hstands, hinOrder⟩ :=
        ih ⟨hkinds, hspans⟩ (fun f' hf' => hders f' (List.mem_cons_of_mem _ hf')) hmore
      exact ⟨.cons ⟨hder, hkind.symm, first, last, a, b, hhead, hlast, ha, hb, hspan.trans hhull⟩
        hstands, .cons (hspan.trans hhull) hstart hlt (hinOrder.mono hstop)⟩

/-! ## Readings -/

variable {bs : List UInt8} {table : Table} {p₀ : Progress Token Bindings}
  {c : Config Token Bindings} {u : List Token}

/-- The tokens shifted lie in order before the one ahead, which is the end token or another one. -/
theorem inOrder_of_input {t : Token} {rest : List (Delivery Token)}
    (hdelivered : p₀.input <:+ deliveriesOf bs)
    (hinput : p₀.input = (u ++ [t]).map .token ++ rest) :
    ∃ p b, t.span = some b ∧ InOrder p u b.start ∧
      (t = endToken bs.length ∧ rest = [] ∨ t.IsLexical ∧ b.start < b.stop) := by
  obtain ⟨s, hs⟩ := (deliversFrom_ofBytes bs).of_suffix hdelivered (by simp [hinput])
  rw [hinput] at hs
  obtain ⟨b, hb, hinOrder, hcases, -⟩ := hs.inOrder
  exact ⟨_, b, hb, hinOrder, hcases⟩

/-- The tokens on the stack, bottom first, stand for their trees and lie in order before the token
that comes next. -/
theorem standsFor_and_pairwise (hdelivered : p₀.input <:+ deliveriesOf bs)
    (h : (parser table).Reading Covers p₀ c u fs) :
    List.Forall₂ StandsFor c.tokens.reverse fs.reverse ∧
      (c.tokens.reverse ++ [c.lookahead]).Pairwise LiesBefore := by
  obtain ⟨p, b, hb, hinOrder, -⟩ := inOrder_of_input hdelivered h.input
  rw [← h.yield] at hinOrder
  obtain ⟨hstands, hstack⟩ := h.tracked.reverse.standsFor_and_inOrder
    (fun f hf => h.derivations f (List.mem_reverse.mp hf)) hinOrder
  exact ⟨hstands, hstack.pairwise_concat hb⟩

/-- A call that gives a token has read all that was left, the end token last, and the token is a
line from the start of the first to the end of the last token before that. -/
theorem line_of_next (hbuild : Table.build grammar = .ok table)
    (hdelivered : p₀.input <:+ deliveriesOf bs) {t : Token} {p : Progress Token Bindings}
    (hnext : (parser table).next p₀ = (.ok (some t), p)) :
    ∃ ts first last a b, p₀.input = (ts ++ [endToken bs.length]).map .token ∧ p.input = [] ∧
      ts.head? = some first ∧ ts.getLast? = some last ∧ first.span = some a ∧
      last.span = some b ∧ t.kind = .line ∧ t.span = some ⟨a.start, b.stop⟩ := by
  obtain ⟨c, u, f, hreading, htokens, rfl, hkind, hroot⟩ :=
    Parser.exists_reading_of_next_ok (P := parser table) (tracks_covers table) hbuild
      start_not_mem_rhs ⟨rfl, rfl⟩ hnext
  obtain ⟨-, b, -, -, ⟨hla, hrest⟩ | ⟨hlex, -⟩⟩ := inOrder_of_input hdelivered hreading.input
  · obtain ⟨hstands, -⟩ := standsFor_and_pairwise hdelivered hreading
    rw [htokens] at hstands
    obtain ⟨⟨-, hsymbol, first, last, a, b, hhead, hlast, ha, hb, hspan⟩, -⟩ :=
      List.forall₂_cons.mp hstands
    have hyield : f.yield = u := by simpa using hreading.yield
    rw [hyield] at hhead hlast
    refine ⟨u, first, last, a, b, ?_, hrest, hhead, hlast, ha, hb, ?_, hspan⟩
    · rw [hreading.input, hla, hrest, List.append_nil]
    · exact Symbol.index_inj (hsymbol.symm.trans hroot)
  · have hfinish : c.lookahead.kind.index = Symbol.finish.index := hkind
    exact absurd (Symbol.index_inj hfinish) hlex.ne_finish

/-- At every step of a call, the first one on a line or a later one, each token on the stack stands
for a derivation tree and lies from the start of the first to the end of the last leaf of it; the
leaves of all the trees are the tokens shifted. The tokens on the stack are disjoint, in order, and
before the token that comes next. So a line that is read lies from the start of its first token to
the end of the last one before the end token, whatever blanks and parentheses lie between. -/
theorem spans_on_stack (bs : List UInt8) :
    ∃ table, table? = .ok table ∧
      ∀ p₀ : Progress Token Bindings, p₀.input <:+ deliveriesOf bs →
        (∀ x rest c, p₀.input = .token x :: rest →
          (parser table).Reaches (Parser.initial x p₀.fetch.2) c →
          ∃ fs : List (Tree Token),
            p₀.input = (fs.flatMap Tree.yield ++ [c.lookahead]).map .token ++ c.progress.input ∧
            List.Forall₂ StandsFor c.tokens.reverse fs ∧
            (c.tokens.reverse ++ [c.lookahead]).Pairwise LiesBefore) ∧
        ∀ t p, (parser table).next p₀ = (.ok (some t), p) →
          ∃ ts first last a b, p₀.input = (ts ++ [endToken bs.length]).map .token ∧
            ts.head? = some first ∧ ts.getLast? = some last ∧ first.span = some a ∧
            last.span = some b ∧ t.kind = .line ∧ t.span = some ⟨a.start, b.stop⟩ := by
  obtain ⟨table, hbuild⟩ := exists_table
  refine ⟨table, hbuild, fun p₀ hdelivered => ⟨fun x rest c hinput hreaches => ?_, ?_⟩⟩
  · have hcovers : Covers [] [] p₀.context := ⟨rfl, rfl⟩
    have hinitial := Parser.reading_initial (P := parser table) hcovers hinput
    obtain ⟨u, fs, h⟩ := hinitial.of_reaches (tracks_covers table) hbuild hreaches
    obtain ⟨hstands, hpairwise⟩ := standsFor_and_pairwise hdelivered h
    exact ⟨fs.reverse, by rw [h.yield, h.input], hstands, hpairwise⟩
  · intro t p hnext
    obtain ⟨ts, first, last, a, b, hinput, -, hline⟩ := line_of_next hbuild hdelivered hnext
    exact ⟨ts, first, last, a, b, hinput, hline⟩

/-- A line in parentheses lies from the left to the right one, whatever blanks lie before, between
and behind them. -/
theorem spans_on_stack_parentheses :
    ∃ table t p, table? = .ok table ∧
      (parser table).next (.start (deliveriesOf (Text.utf8Bytes " ( i ) ")) .empty) =
        (.ok (some t), p) ∧
      t.kind = .line ∧ t.span = some ⟨1, 6⟩ := by
  have htokens : tokenize (Text.utf8Bytes " ( i ) ") =
      .ok ([⟨.lparen, .absent, some ⟨1, 2⟩⟩, ⟨.imaginary, .number .i, some ⟨3, 4⟩⟩,
        ⟨.rparen, .absent, some ⟨5, 6⟩⟩] ++ [endToken 7]) := by cbv
  have hunit : Evaluates .empty .expr [⟨.imaginary, .number .i, some ⟨3, 4⟩⟩] .i :=
    .expr (.term (.factor (.inner (.operand rfl))))
  have hline : Evaluates .empty .line [⟨.lparen, .absent, some ⟨1, 2⟩⟩,
      ⟨.imaginary, .number .i, some ⟨3, 4⟩⟩, ⟨.rparen, .absent, some ⟨5, 6⟩⟩] .i :=
    .eval (.expr (.term (.factor (.paren rfl hunit rfl))))
  obtain ⟨table, hbuild, hspans⟩ := spans_on_stack (Text.utf8Bytes " ( i ) ")
  obtain ⟨t, p, hnext⟩ := exists_next_of_evaluates hbuild htokens hline
  obtain ⟨ts, first, last, a, b, hinput, hfirst, hlast, ha, hb, hkind, hspan⟩ :=
    (hspans _ (List.suffix_refl _)).2 t p hnext
  have hts : ts ++ [endToken _] = _ :=
    map_token_inj (hinput.symm.trans (tokenize_eq_ok_iff.mp htokens))
  obtain ⟨rfl, -⟩ := List.append_inj' hts rfl
  obtain rfl := Option.some.inj hfirst
  obtain rfl := Option.some.inj hlast
  obtain rfl := Option.some.inj ha
  obtain rfl := Option.some.inj hb
  exact ⟨table, t, p, hbuild, hnext, hkind, hspan⟩

end Argand.Calc
