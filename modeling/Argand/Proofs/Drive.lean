-- SUMMARY: Driving the state stack by a table, and driving it through a whole derivation tree.
import Argand.Proofs.Path

/-!
# Drives

What a parser does next depends on its states and the kinds of the tokens ahead alone. A drive is a
run of such moves. Drives are deterministic (`Drives.compare`), and a table that was built can be
driven through every derivation tree of the goal (`Tree.IsDerivation.exists_drive`): it shifts the
leaves and reduces the inner nodes in post-order.
-/
open Argand.Parser (top)

namespace Argand

/-- A move of a parser: the next symbol is shifted, or a production is reduced. -/
inductive Move where
  | shift
  | reduce (production : Nat)

/-- The moves that build a tree. -/
def Tree.moves {τ : Type} : Tree τ → List Move
  | leaf _ => [.shift]
  | node p children => children.flatMap moves ++ [.reduce p.id]

/-- From a state stack, with `u` ahead and `x` after it, the moves shift `u` and end with a state
stack when `x` is ahead. -/
inductive Drives (g : Grammar) (t : Table) : List Nat → List Nat → Nat → List Move → List Nat → Prop
  | done (σ : List Nat) (x : Nat) : Drives g t σ [] x [] σ
  | shift {σ σ' u : List Nat} {x X s : Nat} {ms : List Move} :
      t.lookup (top σ) X = some (.shift s) → Drives g t (s :: σ) u x ms σ' →
      Drives g t σ (X :: u) x (.shift :: ms) σ'
  | reduce {σ σ' u : List Nat} {x n s : Nat} {p : Production} {ms : List Move} :
      t.lookup (top σ) (u.headD x) = some (.reduce n) → g.productions[n]? = some p →
      t.lookup (top (σ.drop p.rhs.length)) p.lhs = some (.goto s) →
      Drives g t (s :: σ.drop p.rhs.length) u x ms σ' →
      Drives g t σ u x (.reduce n :: ms) σ'

namespace Drives

variable {g : Grammar} {t : Table} {σ σ₁ σ₂ u v : List Nat} {x y : Nat} {ms ms' : List Move}

theorem trans (h : Drives g t σ u y ms σ₁) (h' : Drives g t σ₁ v x ms' σ₂) (hy : y = v.headD x) :
    Drives g t σ (u ++ v) x (ms ++ ms') σ₂ := by
  induction h with
  | done => exact h'
  | shift hlookup _ ih => exact .shift hlookup (ih h' hy)
  | @reduce σ _ u y _ _ _ _ hlookup hp hgoto _ ih =>
      refine .reduce ?_ hp hgoto (ih h' hy)
      cases u with
      | nil => exact hy ▸ hlookup
      | cons => exact hlookup

/-- Of two drives over the same symbols one goes on where the other ends. -/
theorem compare (h : Drives g t σ u y ms σ₁) (h' : Drives g t σ (u ++ v) x ms' σ₂)
    (hy : y = v.headD x) :
    (∃ rest, ms' = ms ++ rest ∧ Drives g t σ₁ v x rest σ₂) ∨
      v = [] ∧ ∃ rest, ms = ms' ++ rest ∧ Drives g t σ₂ [] x rest σ₁ := by
  induction h generalizing ms' with
  | done => exact .inl ⟨ms', rfl, h'⟩
  | @shift σ _ u y X s ms hlookup hrest ih =>
      cases h' with
      | shift hlookup' hrest' =>
          obtain rfl : s = _ := by simpa [hlookup] using hlookup'
          rcases ih hrest' hy with ⟨rest, rfl, hdrive⟩ | ⟨hv, rest, rfl, hdrive⟩
          · exact .inl ⟨rest, rfl, hdrive⟩
          · exact .inr ⟨hv, rest, rfl, hdrive⟩
      | reduce hlookup' => simp [hlookup] at hlookup'
  | @reduce σ _ u y n s p ms hlookup hp hgoto hrest ih =>
      have hhead : u.headD y = (u ++ v).headD x := by
        cases u with
        | nil => exact hy
        | cons => rfl
      generalize hw : u ++ v = w at h' hhead
      cases h' with
      | done =>
          obtain ⟨rfl, rfl⟩ := List.append_eq_nil_iff.mp hw
          obtain rfl : y = x := hy
          exact .inr ⟨rfl, _, rfl, .reduce hlookup hp hgoto hrest⟩
      | shift hlookup' =>
          rw [hhead] at hlookup
          cases hlookup.symm.trans hlookup'
      | reduce hlookup' hp' hgoto' hrest' =>
          subst hw
          rw [← hhead] at hlookup'
          cases hlookup.symm.trans hlookup'
          cases hp.symm.trans hp'
          cases hgoto.symm.trans hgoto'
          rcases ih hrest' hy with ⟨rest, rfl, hdrive⟩ | ⟨hv, rest, rfl, hdrive⟩
          · exact .inl ⟨rest, rfl, hdrive⟩
          · exact .inr ⟨hv, rest, rfl, hdrive⟩

/-- A drive that is not over begins with an act on the next symbol. -/
theorem lookup_of_cons (h : Drives g t σ (x :: u) y ms σ₁) :
    (∃ s, t.lookup (top σ) x = some (.shift s)) ∨ ∃ n, t.lookup (top σ) x = some (.reduce n) := by
  cases h with
  | shift hlookup => exact .inl ⟨_, hlookup⟩
  | reduce hlookup => exact .inr ⟨_, hlookup⟩

/-- Without symbols to shift a drive is over, or begins by a reduction. -/
theorem lookup_of_nil (h : Drives g t σ [] x ms σ₁) :
    σ = σ₁ ∨ ∃ n, t.lookup (top σ) x = some (.reduce n) := by
  cases h with
  | done => exact .inl rfl
  | reduce hlookup => exact .inr ⟨_, hlookup⟩

/-- Where the table accepts, a drive without symbols to shift is over. -/
theorem eq_nil_of_accept (h : Drives g t σ [] x ms σ₁)
    (haccept : t.lookup (top σ) x = some .accept) : ms = [] := by
  cases h with
  | done => rfl
  | reduce hlookup => cases haccept.symm.trans hlookup

end Drives

/-! ## Acceptance -/

namespace Grammar

variable {g : Grammar} {t : Table} {s : Nat}

theorem start_mem_itemsAt_zero (hbuild : Table.build g = .ok t) : ⟨0, 1⟩ ∈ g.itemsAt 0 := by
  rw [itemsAt_zero (length_pos_of_build hbuild)]
  exact mem_closure.mpr (.inl (by simp))

/-- Behind the goal the table accepts. -/
theorem lookup_accept_of_move? (hbuild : Table.build g = .ok t)
    (hend : g.endMark ∈ g.terminalSymbols) (hmove : g.automaton.move? 0 g.goal = some s) :
    t.lookup s g.endMark = some .accept := by
  have hnext : g.next? ⟨0, 1⟩ = some g.goal := by
    rw [next?_initial (start_of_build hbuild)]
    rfl
  refine (Table.lookup_accept_iff hbuild).mpr ⟨rfl, mem_symbols_of_terminal hend, ?_⟩
  rw [(move?_eq_some (length_pos_of_build hbuild) hmove).2.2.2.1]
  exact advance_mem_goto (start_mem_itemsAt_zero hbuild) hnext

end Grammar

/-! ## Driving through trees -/

namespace Tree

open Grammar

variable {τ : Type} {g : Grammar} {t : Table} {kind : τ → Nat} {tr : Tree τ}

@[simp] theorem moves_leaf (x : τ) : (leaf x).moves = [.shift] := by
  rw [moves]

@[simp] theorem moves_node (p : Production) (children : List (Tree τ)) :
    (node p children).moves = children.flatMap moves ++ [.reduce p.id] := by
  rw [moves]

/-- On every path whose last state expects the symbol of the tree, with a symbol ahead that can
follow it, the table is driven through the tree. -/
def IsDriven (g : Grammar) (t : Table) (kind : τ → Nat) (tr : Tree τ) : Prop :=
  ∀ α σ a x, g.automaton.Path α σ → a ∈ g.itemsAt (top σ) → g.next? a = some (tr.root kind) →
    x ∈ g.terminalSymbols →
    (tr.root kind < g.nonterminals → x ∈ g.lookahead.followOf (tr.root kind)) →
    ∃ s, g.automaton.move? (top σ) (tr.root kind) = some s ∧
      Drives g t σ (tr.yield.map kind) x tr.moves (s :: σ)

variable (hbuild : Table.build g = .ok t) (hend : g.endMark ∈ g.terminalSymbols)
include hbuild hend

/-- After the first `k` symbols of a right-hand side, trees for the others can be driven through. -/
private theorem exists_drive_of_forest {p : Production} {n k x : Nat} {α σ : List Nat}
    {cs : List (Tree τ)} (hp : g.productions[n]? = some p) (hpath : g.automaton.Path α σ)
    (hitem : ⟨n, k + 1⟩ ∈ g.itemsAt (top σ)) (hroots : p.rhs.drop k = cs.map (root kind))
    (hcs : ∀ c ∈ cs, c.IsDerivation g kind) (hdriven : ∀ c ∈ cs, c.IsDriven g t kind)
    (hleaves : ∀ z ∈ cs.flatMap yield, kind z ∈ g.terminalSymbols)
    (hx : x ∈ g.terminalSymbols) (hfollow : x ∈ g.lookahead.followOf p.lhs) :
    ∃ pushed, pushed.length = cs.length ∧ (∃ β, g.automaton.Path β (pushed ++ σ)) ∧
      ⟨n, k + cs.length + 1⟩ ∈ g.itemsAt (top (pushed ++ σ)) ∧
      Drives g t σ ((cs.flatMap yield).map kind) x (cs.flatMap moves) (pushed ++ σ) := by
  have hprod := length_pos_of_build hbuild
  have hlhs : ∀ p ∈ g.productions, p.lhs < g.nonterminals := fun p => lhs_lt_of_build hbuild
  induction cs generalizing k α σ with
  | nil => exact ⟨[], rfl, ⟨α, hpath⟩, by simpa using hitem, .done σ x⟩
  | cons c rest ih =>
      have hrest : ∀ c' ∈ rest, c'.IsDerivation g kind := fun c' hc' =>
        hcs c' (List.mem_cons_of_mem _ hc')
      have hsplit : p.rhs = p.rhs.take k ++ c.root kind :: rest.map (root kind) := by
        rw [← List.map_cons, ← hroots, List.take_append_drop]
      have hk : k < p.rhs.length := by
        by_contra hge
        rw [List.drop_eq_nil_of_le (by omega)] at hroots
        simp at hroots
      have hnext : g.next? ⟨n, k + 1⟩ = some (c.root kind) := by
        have hhead := congrArg List.head? hroots
        rw [List.head?_drop, List.map_cons, List.head?_cons] at hhead
        exact next?_eq_some_iff.mpr ⟨p, hp, by simpa [Production.symbols] using hhead⟩
      have hdrop : p.rhs.drop (k + 1) = rest.map (root kind) := by
        rw [← List.drop_drop, hroots, List.map_cons, List.drop_one, List.tail_cons]
      -- The symbol after this child begins one of its right siblings, or follows the parent.
      obtain ⟨y, hy, hyterm, hyfollow⟩ : ∃ y, y = ((rest.flatMap yield).map kind).headD x ∧
          y ∈ g.terminalSymbols ∧
          (c.root kind < g.nonterminals → y ∈ g.lookahead.followOf (c.root kind)) := by
        refine ⟨_, rfl, ?_⟩
        cases hyield : rest.flatMap yield with
        | nil =>
            refine ⟨hx, fun hnonterm => ?_⟩
            exact mem_followOf_of_nullable hend (List.mem_of_getElem? hp) hsplit hnonterm
              (all_isNullable_forest hlhs hrest hyield) hfollow
        | cons z zs =>
            have hz : kind z ∈ g.terminalSymbols := hleaves z (by simp [hyield])
            refine ⟨hz, fun hnonterm => ?_⟩
            exact mem_followOf_of_begins hend hz (List.mem_of_getElem? hp) hsplit hnonterm
              (beginsWith_forest hlhs hrest hz hyield)
      obtain ⟨s, hmove, hdrive⟩ :=
        hdriven c List.mem_cons_self α σ _ y hpath hitem hnext hyterm hyfollow
      obtain ⟨pushed, hlen, hpath', hitem', hdrive'⟩ := ih (hpath.push hmove)
        (by
          have heq := (move?_eq_some hprod hmove).2.2.2.1
          rw [top, List.headD_cons, heq]
          exact advance_mem_goto hitem hnext)
        hdrop hrest (fun c' hc' => hdriven c' (List.mem_cons_of_mem _ hc'))
        (fun z hz => hleaves z (by simp [hz]))
      refine ⟨pushed ++ [s], by simp [hlen], by simpa using hpath', ?_, ?_⟩
      · simpa [Nat.add_comm, Nat.add_left_comm, Nat.add_assoc] using hitem'
      · simpa using hdrive.trans hdrive' hy

variable (hstart : ∀ p ∈ g.productions, 0 ∉ p.rhs)
include hstart

theorem IsDerivation.isDriven (h : tr.IsDerivation g kind)
    (hleaves : ∀ z ∈ tr.yield, kind z ∈ g.terminalSymbols) : tr.IsDriven g t kind := by
  have hprod := length_pos_of_build hbuild
  induction h with
  | leaf z =>
      intro α σ a x hpath hitem hnext _ _
      have hz : kind z ∈ g.terminalSymbols := hleaves z (by simp)
      obtain ⟨s, hmove⟩ := exists_move? hprod (Path.top_lt hprod hpath)
        (mem_symbols_of_terminal hz) hitem hnext
      have hlookup := (Table.lookup_shift_iff hbuild).mpr ⟨(mem_terminalSymbols.mp hz).1, hmove⟩
      exact ⟨s, hmove, by simpa using Drives.shift hlookup (.done (s :: σ) x)⟩
  | @node p children hp hroots hchildren ih =>
      intro α σ a x hpath hitem hnext hx hfollow
      obtain ⟨n, hn⟩ := List.getElem?_of_mem hp
      obtain ⟨hid, hlhs⟩ := production_of_build hbuild hn
      have hinitial := Path.predict hprod hpath hitem hnext hlhs hn
      have hchildLeaves : ∀ c ∈ children, ∀ z ∈ c.yield, kind z ∈ g.terminalSymbols :=
        fun c hc z hz => hleaves z (by
          rw [yield_node]
          exact List.mem_flatMap.mpr ⟨c, hc, hz⟩)
      obtain ⟨pushed, hlen, -, hcomplete, hdrive⟩ :=
        exists_drive_of_forest hbuild hend hn hpath (k := 0) hinitial (by simpa using hroots.symm)
          hchildren (fun c hc => ih c hc (hchildLeaves c hc)) (by simpa using hleaves) hx
          (hfollow hlhs)
      have hcount : children.length = p.rhs.length := by rw [← hroots, List.length_map]
      have hne : n ≠ 0 := by
        rintro rfl
        obtain rfl := Option.some.inj ((start_of_build hbuild).symm.trans hn)
        obtain ⟨q, hq, hmem⟩ := Path.next_mem_rhs hprod hpath hitem hnext
        exact hstart q hq hmem
      have hreduce : t.lookup (top (pushed ++ σ)) x = some (.reduce n) :=
        (Table.lookup_reduce_iff hbuild).mpr
          ⟨p, hn, by simpa [hcount] using hcomplete, hne, mem_symbols_of_terminal hx, hfollow hlhs⟩
      obtain ⟨s, hmove⟩ := exists_move? hprod (Path.top_lt hprod hpath)
        (mem_symbols_of_nonterminal hlhs) hitem hnext
      have huncover : (pushed ++ σ).drop p.rhs.length = σ := by
        rw [← hcount, ← hlen, List.drop_left]
      have hgoto : t.lookup (top ((pushed ++ σ).drop p.rhs.length)) p.lhs = some (.goto s) := by
        rw [huncover]
        exact (Table.lookup_goto_iff hbuild).mpr ⟨hlhs, hmove⟩
      have hlast : Drives g t (pushed ++ σ) [] x [.reduce n] (s :: σ) := by
        have hdone := Drives.done (g := g) (t := t) (s :: (pushed ++ σ).drop p.rhs.length) x
        have hstep := Drives.reduce (u := []) hreduce hn hgoto hdone
        rwa [huncover] at hstep
      refine ⟨s, hmove, ?_⟩
      rw [moves_node, hid, yield_node]
      simpa using hdrive.trans hlast rfl

/-- A built table is driven through every derivation tree of the goal and then accepts. -/
theorem IsDerivation.exists_drive (h : tr.IsDerivation g kind) (hroot : tr.root kind = g.goal)
    (hleaves : ∀ z ∈ tr.yield, kind z ∈ g.terminalSymbols) :
    ∃ σ, Drives g t [0] (tr.yield.map kind) g.endMark tr.moves σ ∧
      t.lookup (top σ) g.endMark = some .accept := by
  have hzero := start_of_build hbuild
  have hitem := start_mem_itemsAt_zero hbuild
  have hnext : g.next? ⟨0, 1⟩ = some (tr.root kind) := by
    rw [next?_initial hzero, hroot]
    rfl
  obtain ⟨s, hmove, hdrive⟩ := h.isDriven hbuild hend hstart hleaves [] [0] _ g.endMark .start hitem
    hnext hend (fun hnonterm => by
      have hgoal : [g.goal] = [] ++ tr.root kind :: [] := by rw [hroot]; rfl
      exact mem_followOf_of_nullable hend (List.mem_of_getElem? hzero) hgoal hnonterm (by simp)
        (endMark_mem_followOf hend (nonterminals_pos_of_build hbuild)))
  exact ⟨[s, 0], hdrive, lookup_accept_of_move? hbuild hend (hroot ▸ hmove)⟩

end Tree
end Argand
