-- SUMMARY: The nullable symbols, FIRST and FOLLOW are what derivations say they are.
import Argand.Proofs.Derivation

/-!
# Lookahead sets and derivations

The lookahead sets are found by closure rules; here they are measured against derivations. A symbol
is nullable exactly when it derives the empty string (`all_isNullable_iff`), a string can begin with
a terminal exactly when it derives a string that does (`beginsWith_iff`), and FOLLOW holds exactly
the terminals that some derivation puts right after the symbol (`mem_followOf_iff`). Sentential
forms may hold any symbols, so nothing is asked of symbols that derive no string of terminals.
-/
namespace Argand.Grammar

variable {g : Grammar} {u v w : List Nat} {t A X : Nat}

/-! ## Nullable symbols -/

/-- Symbols that each derive the empty string derive it in a row. -/
theorem derives_nil (h : ∀ X ∈ u, g.Derives [X] []) : g.Derives u [] := by
  induction u with
  | nil => exact .refl []
  | cons X rest ih =>
      exact (h X List.mem_cons_self).append (ih fun Y hY => h Y (List.mem_cons_of_mem _ hY))

theorem derives_nil_of_isNullable (h : g.isNullable X = true) : g.Derives [X] [] := by
  refine saturate_induction (P := fun X => g.Derives [X] []) (fun known hknown X _ hfollows => ?_)
    X (List.contains_iff_mem.mp h)
  obtain ⟨p, hp, hcond⟩ := List.any_eq_true.mp hfollows
  rw [Bool.and_eq_true, beq_iff_eq, List.all_eq_true] at hcond
  obtain ⟨rfl, hrhs⟩ := hcond
  exact (derives_production hp).trans
    (derives_nil fun Y hY => (hknown Y (List.contains_iff_mem.mp (hrhs Y hY))).2)

/-- The possible beginnings of a string in two parts. -/
theorem beginsWith_append {nullable begins : Nat → Bool} :
    beginsWith nullable begins (u ++ v) = true ↔
      beginsWith nullable begins u = true ∨
        u.all nullable = true ∧ beginsWith nullable begins v = true := by
  induction u with
  | nil => simp [beginsWith]
  | cons X rest ih =>
      simp only [List.cons_append, beginsWith, List.all_cons, Bool.or_eq_true, Bool.and_eq_true, ih]
      tauto

section

variable (hlhs : ∀ p ∈ g.productions, p.lhs < g.nonterminals)
include hlhs

/-- What derives a nullable string is nullable. -/
theorem Derives.all_isNullable (h : g.Derives u v) (hv : v.all g.isNullable = true) :
    u.all g.isNullable = true := by
  induction h with
  | refl => exact hv
  | step _ hstep ih =>
      obtain @⟨p, x, y, hp⟩ := hstep
      simp only [List.all_append, Bool.and_eq_true] at hv
      obtain ⟨⟨hx, hrhs⟩, hy⟩ := hv
      refine ih ?_
      simp [hx, hy, isNullable_of_production hp (hlhs p hp) hrhs]

theorem all_isNullable_iff : u.all g.isNullable = true ↔ g.Derives u [] :=
  ⟨fun h => derives_nil fun X hX => derives_nil_of_isNullable (List.all_eq_true.mp h X hX),
    fun h => h.all_isNullable hlhs rfl⟩

/-! ## FIRST -/

omit hlhs in
theorem exists_derives_of_beginsWith {begins : Nat → Bool}
    (hbegins : ∀ X, begins X = true → ∃ v, g.Derives [X] (t :: v))
    (h : beginsWith g.isNullable begins u = true) : ∃ v, g.Derives u (t :: v) := by
  induction u with
  | nil => simp [beginsWith] at h
  | cons X rest ih =>
      rw [beginsWith, Bool.or_eq_true, Bool.and_eq_true] at h
      rcases h with hX | ⟨hX, hrest⟩
      · obtain ⟨v, hv⟩ := hbegins X hX
        exact ⟨v ++ rest, by simpa using hv.append (.refl rest)⟩
      · obtain ⟨v, hv⟩ := ih hrest
        exact ⟨v, (derives_nil_of_isNullable hX).append hv⟩

omit hlhs in
theorem exists_derives_of_begins (h : g.begins t X = true) : ∃ v, g.Derives [X] (t :: v) := by
  refine saturate_induction (P := fun X => ∃ v, g.Derives [X] (t :: v))
    (fun known hknown X _ hfollows => ?_) X (List.contains_iff_mem.mp h)
  rcases Bool.or_eq_true _ _ ▸ hfollows with heq | hany
  · exact ⟨[], by simpa [beq_iff_eq.mp heq] using Derives.refl [t]⟩
  · obtain ⟨p, hp, hcond⟩ := List.any_eq_true.mp hany
    rw [Bool.and_eq_true, beq_iff_eq] at hcond
    obtain ⟨rfl, hrhs⟩ := hcond
    obtain ⟨v, hv⟩ := exists_derives_of_beginsWith
      (fun Y hY => (hknown Y (List.contains_iff_mem.mp hY)).2) hrhs
    exact ⟨v, (derives_production hp).trans hv⟩

/-- What derives a string that can begin with `t` can begin with `t`. -/
theorem Derives.beginsWith (h : g.Derives u v)
    (hv : beginsWith g.isNullable (g.begins t) v = true) :
    beginsWith g.isNullable (g.begins t) u = true := by
  induction h with
  | refl => exact hv
  | step _ hstep ih =>
      obtain @⟨p, x, y, hp⟩ := hstep
      refine ih ?_
      rw [List.append_assoc, beginsWith_append, beginsWith_append] at hv
      rw [beginsWith_append, Grammar.beginsWith, Bool.or_eq_true, Bool.and_eq_true]
      rcases hv with hx | ⟨hx, hrhs | ⟨hrhs, hy⟩⟩
      · exact .inl hx
      · exact .inr ⟨hx, .inl (begins_of_production hp (hlhs p hp) hrhs)⟩
      · exact .inr ⟨hx, .inr ⟨isNullable_of_production hp (hlhs p hp) hrhs, hy⟩⟩

theorem beginsWith_iff (ht : t ∈ g.terminalSymbols) :
    beginsWith g.isNullable (g.begins t) u = true ↔ ∃ v, g.Derives u (t :: v) := by
  refine ⟨exists_derives_of_beginsWith fun X => exists_derives_of_begins, fun ⟨v, hv⟩ => ?_⟩
  exact hv.beginsWith hlhs (by simp [Grammar.beginsWith, begins_self ht])

end

/-! ## FOLLOW -/

/-- Some nonterminal derives a string in which `t` stands right after `A`, or `t` is the end mark
and the start symbol derives a string that ends in `A`. -/
def CanFollow (g : Grammar) (A t : Nat) : Prop :=
  (∃ B u v, B < g.nonterminals ∧ g.Derives [B] (u ++ A :: t :: v)) ∨
    t = g.endMark ∧ ∃ u, g.Derives [0] (u ++ [A])

theorem exists_split_of_followedBy {nullable begins : Nat → Bool} {after : Bool}
    (h : followedBy nullable begins A after u = true) :
    ∃ pre post, u = pre ++ A :: post ∧
      (beginsWith nullable begins post = true ∨ post.all nullable = true ∧ after = true) := by
  induction u with
  | nil => simp [followedBy] at h
  | cons X rest ih =>
      simp only [followedBy, Bool.or_eq_true, Bool.and_eq_true, beq_iff_eq] at h
      rcases h with ⟨rfl, hpost⟩ | hrest
      · exact ⟨[], rest, rfl, hpost⟩
      · obtain ⟨pre, post, rfl, hpost⟩ := ih hrest
        exact ⟨X :: pre, post, rfl, hpost⟩

section

variable (hlhs : ∀ p ∈ g.productions, p.lhs < g.nonterminals) (hend : g.endMark ∈ g.terminalSymbols)
include hlhs hend

theorem canFollow_of_mem_followOf (h : t ∈ g.lookahead.followOf A) : g.CanFollow A t := by
  obtain ⟨-, -, hmem⟩ := (mem_followOf hend).mp h
  refine saturate_induction (P := fun A => g.CanFollow A t) (fun known hknown A _ hfollows => ?_)
    A hmem
  rcases Bool.or_eq_true _ _ ▸ hfollows with hzero | hany
  · rw [Bool.and_eq_true, beq_iff_eq, beq_iff_eq] at hzero
    obtain ⟨rfl, rfl⟩ := hzero
    exact .inr ⟨rfl, [], .refl [0]⟩
  · obtain ⟨p, hp, hfollowed⟩ := List.any_eq_true.mp hany
    obtain ⟨pre, post, hrhs, hbegins | ⟨hnullable, hcontains⟩⟩ :=
      exists_split_of_followedBy hfollowed
    · obtain ⟨v, hv⟩ := exists_derives_of_beginsWith (fun X => exists_derives_of_begins) hbegins
      refine .inl ⟨p.lhs, pre, v, hlhs p hp, (derives_production hp).trans ?_⟩
      simpa [hrhs] using hv.context (pre ++ [A]) []
    · -- The rest of the right-hand side vanishes, so what follows the left-hand side comes next.
      have hvanish : g.Derives [p.lhs] (pre ++ [A]) := by
        refine (derives_production hp).trans ?_
        simpa [hrhs] using ((all_isNullable_iff hlhs).mp hnullable).context (pre ++ [A]) []
      rcases (hknown p.lhs (List.contains_iff_mem.mp hcontains)).2 with
          ⟨B, u, v, hB, hder⟩ | ⟨rfl, u, hder⟩
      · refine .inl ⟨B, u ++ pre, v, hB, hder.trans ?_⟩
        simpa using hvanish.context u (t :: v)
      · refine .inr ⟨rfl, u ++ pre, hder.trans ?_⟩
        simpa using hvanish.context u []

omit hlhs hend in
/-- A symbol of a string in two parts stands in the first or in the second. -/
private theorem append_eq_append_cons {l m z : List Nat} (h : l ++ m = u ++ A :: z) :
    (∃ c, l = u ++ A :: c ∧ z = c ++ m) ∨ ∃ b, m = b ++ A :: z := by
  rcases List.append_eq_append_iff.mp h with ⟨b, -, hb⟩ | ⟨c, hl, hc⟩
  · exact .inr ⟨b, hb⟩
  · cases c with
    | nil => exact .inr ⟨[], hc.symm⟩
    | cons A' c =>
        obtain ⟨rfl, rfl⟩ := List.cons.inj hc
        exact .inl ⟨c, hl, rfl⟩

/-- Wherever `t` can come right after a nonterminal of a string, it is in the FOLLOW set. -/
def FollowsIn (g : Grammar) (t : Nat) (w : List Nat) : Prop :=
  ∀ u A z, w = u ++ A :: z → A < g.nonterminals →
    beginsWith g.isNullable (g.begins t) z = true → t ∈ g.lookahead.followOf A

/-- A derivation puts `t` after no nonterminal that it does not follow. -/
theorem Derives.followsIn (ht : t ∈ g.terminalSymbols) (h : g.Derives v w)
    (hv : g.FollowsIn t v) : g.FollowsIn t w := by
  induction h with
  | refl => exact hv
  | step _ hstep ih =>
      obtain @⟨p, x, y, hp⟩ := hstep
      intro u A z hsplit hA hz
      rcases append_eq_append_cons hsplit with ⟨c, hleft, rfl⟩ | ⟨b, hy⟩
      · rcases append_eq_append_cons hleft with ⟨d, rfl, rfl⟩ | ⟨b, hrhs⟩
        · have hback : g.Derives (d ++ p.lhs :: y) (d ++ p.rhs ++ y) :=
            (Derives.refl _).step (.expand d y hp)
          exact ih u A (d ++ p.lhs :: y) (by simp) hA (hback.beginsWith hlhs hz)
        · rcases beginsWith_append.mp hz with hpost | ⟨hpost, hy⟩
          · exact mem_followOf_of_begins hend ht hp hrhs hA hpost
          · exact mem_followOf_of_nullable hend hp hrhs hA hpost (ih x p.lhs y rfl (hlhs p hp) hy)
      · exact ih (x ++ p.lhs :: b) A z (by simp [hy]) hA hz

theorem mem_followOf_iff :
    t ∈ g.lookahead.followOf A ↔
      A < g.nonterminals ∧ t ∈ g.terminalSymbols ∧ g.CanFollow A t := by
  constructor
  · intro h
    obtain ⟨hA, ht, -⟩ := (mem_followOf hend).mp h
    exact ⟨hA, ht, canFollow_of_mem_followOf hlhs hend h⟩
  · rintro ⟨hA, ht, ⟨B, u, v, -, hder⟩ | ⟨rfl, u, hder⟩⟩
    · have hself : g.FollowsIn t [B] := by
        intro u' A' z hsplit _ hz
        obtain ⟨rfl, rfl, rfl⟩ : u' = [] ∧ B = A' ∧ z = [] := by
          cases u' <;> simp_all
        simp [Grammar.beginsWith] at hz
      exact hder.followsIn hlhs hend ht hself u A (t :: v) rfl hA
        (by simp [Grammar.beginsWith, begins_self ht])
    · -- With the end mark behind it, the start symbol is followed by the end mark.
      have hzero : g.FollowsIn g.endMark [0, g.endMark] := by
        intro u' A' z hsplit hA' _
        cases u' with
        | nil =>
            obtain ⟨rfl, -⟩ := List.cons.inj hsplit
            exact endMark_mem_followOf hend hA'
        | cons X u' =>
            have hmem : A' ∈ [g.endMark] := by
              rw [List.tail_eq_of_cons_eq hsplit]
              simp
            have hge := (mem_terminalSymbols.mp hend).1
            rw [List.mem_singleton] at hmem
            omega
      have hder' : g.Derives [0, g.endMark] (u ++ A :: [g.endMark]) := by
        simpa using hder.context [] [g.endMark]
      exact hder'.followsIn hlhs hend ht hzero u A [g.endMark] rfl hA
        (by simp [Grammar.beginsWith, begins_self ht])

end

end Argand.Grammar
