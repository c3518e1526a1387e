-- SUMMARY: What the stack and the bindings are while a line is read.
import Argand.Proofs.Calc.Hook

/-!
# The stack of the calculator

While a line is read, the stack holds a piece for each tree, and the bindings are those from before
the line (`Settled`). Only a finished line, which is alone on the stack, may have changed them.
-/
open Argand.Parser (top)

namespace Argand.Calc

/-! ## Settled stacks -/

/-- Every token is the piece for its tree, under the bindings `env₀`. These are the bindings, unless
the last token is a line, which binds its target. -/
structure Settled (env₀ : Bindings) (ts : List Token) (fs : List (Tree Token)) (env : Bindings) :
    Prop where
  pieces : List.Forall₂ (IsPiece env₀) ts (fs.map Tree.yield)
  unchanged : (∀ t ∈ ts.head?, t.kind ≠ .line) → env = env₀
  bound {t : Token} {ts' : List Token} {f : Tree Token} {fs' : List (Tree Token)} {z : Complex} :
    ts = t :: ts' → fs = f :: fs' → t.kind = .line → t.number? = some z →
      env = assigned env₀ f.yield z

/-- No tree on the stack is a line. -/
def NoLine (fs : List (Tree Token)) : Prop :=
  ∀ f ∈ fs, f.root (fun t => t.kind.index) ≠ Symbol.line.index

/-- The stack shows the symbols of the trees. It is settled if all tokens are lexical and no line
stands below others. -/
def Tracked (env₀ : Bindings) (ts : List Token) (fs : List (Tree Token)) (env : Bindings) : Prop :=
  ts.map (fun t => t.kind.index) = fs.map (Tree.root fun t => t.kind.index) ∧
    ((∀ x ∈ fs.flatMap Tree.yield, x.IsLexical) → NoLine fs.tail → Settled env₀ ts fs env)

variable {table : Table} {env₀ env env' : Bindings} {f : Phrase} {x : Token}
  {parts ts ts' : List Token} {cs fs : List (Tree Token)} {n : Nat} {p : Production}

/-! ## Reductions -/

/-- A reduction applies its phrase to the last tokens. -/
theorem reduce_eq (hf : Phrase.ofIndex? n = some f) (hlen : parts.length = f.rhs.length) :
    reduce n x (parts.reverse ++ ts) env =
      match apply f parts env with
      | (.error e, env) => (.error (.hook e), ts, env)
      | (.ok z, env) => (.ok (), phraseToken f parts z :: ts, env) := by
  have hpop : Stack.popN f.rhs.length (parts.reverse ++ ts) = some (parts, ts) := by
    rw [Stack.popN, if_pos (by simp [hlen])]
    simp [← hlen, List.take_left', List.drop_left']
  rcases happly : apply f parts env with ⟨_ | _, _⟩ <;>
    simp only [reduce, hf, reducePhrase, hpop, happly]

/-- The tokens for the trees of a right-hand side are the last ones. -/
theorem exists_parts (hp : grammar.productions[n]? = some p)
    (hroots : cs.map (Tree.root fun t => t.kind.index) = p.rhs)
    (hkinds : ts.map (fun t => t.kind.index) =
      (cs.reverse ++ fs).map (Tree.root fun t => t.kind.index)) :
    ∃ (f : Phrase) (parts ts' : List Token), f.index = n ∧ Phrase.ofIndex? n = some f ∧
      p = f.production ∧ ts = parts.reverse ++ ts' ∧ parts.map Token.kind = f.rhs ∧
      parts.length = cs.length ∧
      ts'.map (fun t => t.kind.index) = fs.map (Tree.root fun t => t.kind.index) := by
  obtain ⟨f, hindex, hf, rfl⟩ := phrase_of_production hp
  rw [List.map_append] at hkinds
  obtain ⟨last, ts', rfl, hlast, hrest⟩ := List.map_eq_append_iff.mp hkinds
  have hmap : last.reverse.map (fun t => t.kind.index) = f.rhs.map Symbol.index := by
    rw [List.map_reverse, hlast, List.map_reverse, List.reverse_reverse, hroots]
    rfl
  refine ⟨f, last.reverse, ts', hindex, hf, rfl, by simp, ?_, ?_, hrest⟩
  · exact Symbol.map_index_inj (by simpa [Function.comp_def] using hmap)
  · have hlen := congrArg List.length hlast
    simpa using hlen

/-- Over pieces a phrase makes a piece, unless it is a name without value. -/
theorem Settled.succeeds_or_unbound (hf : f ≠ .start) (hkinds : parts.map Token.kind = f.rhs)
    (h : Settled env₀ (parts.reverse ++ ts) (cs.reverse ++ fs) env)
    (hlen : parts.length = cs.length) :
    List.Forall₂ (IsPiece env₀) ts (fs.map Tree.yield) ∧
      (Succeeds f env₀ parts (cs.map Tree.yield) ∨
        f = .name ∧ ∃ t s, parts = [t] ∧ IsUnbound env₀ t s) := by
  have hpieces := h.pieces
  rw [List.map_append, List.map_reverse] at hpieces
  have hcount : (cs.map Tree.yield).reverse.length = parts.reverse.length := by simp [hlen]
  have htake := List.forall₂_take_append _ _ _ hpieces
  have hdrop := List.forall₂_drop_append _ _ _ hpieces
  rw [hcount, List.take_left] at htake
  rw [hcount, List.drop_left] at hdrop
  exact ⟨hdrop, Calc.succeeds_or_unbound hf (List.forall₂_reverse_iff.mp htake) hkinds⟩

/-- No line is among the parts of a phrase. -/
theorem noLine_of_phrase (hf : f ≠ .start)
    (hroots : cs.map (Tree.root fun t => t.kind.index) = f.production.rhs) : NoLine cs := by
  intro c hc heq
  have hmem : Symbol.line.index ∈ f.rhs.map Symbol.index := by
    have hroot := List.mem_map_of_mem (f := Tree.root fun t : Token => t.kind.index) hc
    rwa [hroots, heq] at hroot
  obtain ⟨X, hX, hindex⟩ := List.mem_map.mp hmem
  exact line_not_mem_rhs hf (Symbol.index_inj hindex ▸ hX)

theorem kind_ne_line
    (hkinds : ts.map (fun t => t.kind.index) = fs.map (Tree.root fun t => t.kind.index))
    (hline : NoLine fs) : ∀ t ∈ ts, t.kind ≠ .line := by
  intro t ht heq
  have hmem : t.kind.index ∈ fs.map (Tree.root fun t => t.kind.index) :=
    hkinds ▸ List.mem_map_of_mem ht
  obtain ⟨f, hf, hroot⟩ := List.mem_map.mp hmem
  exact hline f hf (by rw [hroot, heq])

/-- A reduction keeps a stack without lines settled. -/
theorem Settled.reduce (hf : f ≠ .start) (hindex : Phrase.ofIndex? n = some f)
    (hkinds : parts.map Token.kind = f.rhs)
    (h : Settled env₀ (parts.reverse ++ ts) (cs.reverse ++ fs) env)
    (hlen : parts.length = cs.length) (hline : ∀ t ∈ parts.reverse ++ ts, t.kind ≠ .line)
    (hreduce : Calc.reduce n x (parts.reverse ++ ts) env = (.ok (), ts', env')) :
    Settled env₀ ts' (.node p cs :: fs) env' := by
  obtain rfl := h.unchanged fun t ht => hline t (List.mem_of_mem_head? ht)
  have hcount : parts.length = f.rhs.length := by rw [← hkinds, List.length_map]
  rw [reduce_eq hindex hcount] at hreduce
  obtain ⟨hpieces, ⟨z, happly, hz⟩ | ⟨rfl, t, s, rfl, -, hname, hget⟩⟩ :=
    h.succeeds_or_unbound hf hkinds hlen
  · rw [happly] at hreduce
    obtain ⟨-, rfl, rfl⟩ : True ∧ phraseToken f parts z :: ts = ts' ∧ _ = env' := by
      simpa using hreduce
    have hyield : (cs.map Tree.yield).flatten = (Tree.node p cs).yield := by
      rw [Tree.yield_node, List.flatMap_def]
    rw [hyield] at hz ⊢
    refine ⟨.cons (.inl ⟨z, rfl, hz⟩) hpieces, fun hhead => ?_, ?_⟩
    · exact if_neg (hhead _ rfl)
    · intro t _ f' _ y ht hf' hkind hy
      obtain ⟨rfl, -⟩ := List.cons.inj ht
      obtain ⟨rfl, -⟩ := List.cons.inj hf'
      obtain rfl : z = y := by simpa [phraseToken, Token.number?] using hy
      exact if_pos hkind
  · simp [apply, valueOf, nameAt, hname, Bindings.lookup, hget, bind, Except.bind] at hreduce

theorem tracks_tracked : (parser table).Tracks (Tracked env₀) where
  kinds := fun h => h.1
  shift := by
    intro ts fs env x ⟨hkinds, hsettled⟩
    refine ⟨by simp [hkinds], fun hlex hline => ?_⟩
    have hlex' : ∀ y ∈ fs.flatMap Tree.yield, y.IsLexical := fun y hy => hlex y (by simp [hy])
    obtain ⟨hpieces, hunchanged, -⟩ := hsettled hlex' fun f hf => hline f (List.mem_of_mem_tail hf)
    have hx := hlex x (by simp)
    refine ⟨.cons (.inr ⟨hx, by simp⟩) hpieces, fun _ => hunchanged fun t ht => ?_, ?_⟩
    · exact kind_ne_line hkinds hline t (List.mem_of_mem_head? ht)
    · intro t _ f _ z ht _ hkind _
      obtain ⟨rfl, -⟩ := List.cons.inj ht
      have hle := hx.le_index
      rw [hkind] at hle
      exact absurd hle (by decide)
  reduce := by
    intro ts ts' fs cs env env' n p x hn hp hroots ⟨hkinds, hsettled⟩ hreduce
    obtain ⟨f, parts, ts₀, rfl, hindex, rfl, rfl, hparts, hlen, hrest⟩ :=
      exists_parts hp hroots hkinds
    have hf := index_ne_zero hn
    refine ⟨?_, fun hlex hline => ?_⟩
    · change Calc.reduce f.index x _ env = _ at hreduce
      rw [reduce_eq hindex (by rw [← hparts, List.length_map])] at hreduce
      split at hreduce
      · simp at hreduce
      · obtain ⟨-, rfl, -⟩ : True ∧ _ = ts' ∧ _ = env' := by simpa using hreduce
        simp [phraseToken, Phrase.production, hrest]
    · have hall : NoLine (cs.reverse ++ fs) := by
        intro g hg
        rcases List.mem_append.mp hg with hg | hg
        · exact noLine_of_phrase hf hroots g (List.mem_reverse.mp hg)
        · exact hline g hg
      have hold := hsettled (fun y hy => hlex y (by simpa [or_and_right, exists_or] using hy))
        fun g hg => hall g (List.mem_of_mem_tail hg)
      exact hold.reduce (x := x) hf hindex hparts hlen (kind_ne_line hkinds hall) hreduce

end Argand.Calc
