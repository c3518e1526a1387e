-- SUMMARY: Going over the productions until nothing changes ends with FIRST and the nullable symbols.
import Argand.Gallery.Grammars
import Argand.Proofs.LookaheadSets
import Argand.Proofs.NumberedSets
import Argand.Proofs.Rounds

/-!
# FIRST sets found in place

FIRST sets and nullability can also be found together, by going over the productions again and
again and changing the sets in place: every production adds to the sets of its left-hand side what
the sets hold at that moment, and a symbol may vanish only after the sets of those that use it were
looked at. The loop ends with the first round that adds nothing. What is added is never wrong
(`FirstSets.IsSound`), and where a round adds nothing the sets are closed under their rules
(`eq_firstSets_of_fixed`), so the loop ends with the sets of `lookahead` (`iterate_firstRound`),
which are exact (`first_exact`).
-/
namespace Argand

/-! ## Beginnings of a sequence -/

section

variable {α : Type} {firsts : α → Nat → List Nat} {vanishes : α → Nat → Bool}
  {add : Marked α → Nat → Marked α} {size : α → Nat} {m : Marked α} {g : Grammar} {P : α → Prop}

/-- Add what the symbols of a sequence can begin with, one symbol after the other for as long as
they vanish. Have all of them vanished? -/
def addBeginnings (firsts : α → Nat → List Nat) (vanishes : α → Nat → Bool)
    (add : Marked α → Nat → Marked α) : List Nat → Marked α → Marked α × Bool
  | [], m => (m, true)
  | X :: rest, m =>
    let m := (firsts m.value X).foldl add m
    if vanishes m.value X then addBeginnings firsts vanishes add rest m else (m, false)

theorem grows_addBeginnings (hadd : ∀ m t, Marked.Grows size m (add m t)) (Xs : List Nat)
    (m : Marked α) : Marked.Grows size m (addBeginnings firsts vanishes add Xs m).1 := by
  induction Xs generalizing m with
  | nil => exact .refl m
  | cons X rest ih =>
      have hfirst := Marked.Grows.foldl hadd m (firsts m.value X)
      simp only [addBeginnings]
      split
      · exact hfirst.trans (ih _)
      · exact hfirst

/-- Where nothing is added, each terminal with which the sequence can begin is one that is not
added, and the sequence vanishes if its symbols do. -/
theorem addBeginnings_fixed (hadd : ∀ m t, Marked.Grows size m (add m t)) {Xs : List Nat}
    (hfixed : (addBeginnings firsts vanishes add Xs m).1 = m) :
    (∀ t, Grammar.beginsWith (vanishes m.value) (fun X => (firsts m.value X).contains t) Xs = true →
      add m t = m) ∧
    (addBeginnings firsts vanishes add Xs m).2 = Xs.all (vanishes m.value) := by
  induction Xs with
  | nil => exact ⟨fun t h => by simp [Grammar.beginsWith] at h, rfl⟩
  | cons X rest ih =>
      -- Nothing is taken away again, so what is read off `X` has added nothing.
      have hfirst : (firsts m.value X).foldl add m = m := by
        refine (Marked.Grows.foldl hadd m _).stays ?_ hfixed
        simp only [addBeginnings]
        split
        · exact grows_addBeginnings hadd rest _
        · exact .refl _
      have heach := Marked.Grows.foldl_fixed hadd hfirst
      simp only [addBeginnings, hfirst] at hfixed ⊢
      cases hX : vanishes m.value X with
      | true =>
          rw [hX, if_pos rfl] at hfixed
          obtain ⟨hbegins, hall⟩ := ih hfixed
          refine ⟨fun t ht => ?_, by simp [hX, hall]⟩
          rw [Grammar.beginsWith, hX, Bool.true_and, Bool.or_eq_true] at ht
          exact ht.elim (fun ht => heach t (List.contains_iff_mem.mp ht)) (hbegins t)
      | false =>
          refine ⟨fun t ht => ?_, by simp [hX]⟩
          rw [Grammar.beginsWith, hX, Bool.false_and, Bool.or_false] at ht
          exact heach t (List.contains_iff_mem.mp ht)

/-- What is read off a sound value is what the sequence can begin with, and a sequence that vanishes
according to a sound value is nullable. -/
theorem addBeginnings_keeps
    (hfirsts : ∀ a, P a → ∀ X, ∀ t ∈ firsts a X, t ∈ g.terminalSymbols ∧ g.begins t X = true)
    (hvanishes : ∀ a, P a → ∀ X, vanishes a X = true → g.isNullable X = true) {Xs : List Nat}
    (hadd : ∀ m t, P m.value → t ∈ g.terminalSymbols →
      Grammar.beginsWith g.isNullable (g.begins t) Xs = true → P (add m t).value)
    (hm : P m.value) :
    P (addBeginnings firsts vanishes add Xs m).1.value ∧
      ((addBeginnings firsts vanishes add Xs m).2 = true → Xs.all g.isNullable = true) := by
  induction Xs generalizing m with
  | nil => exact ⟨hm, fun _ => rfl⟩
  | cons X rest ih =>
      have hfirst : P ((firsts m.value X).foldl add m).value := by
        refine Marked.foldl_keeps (fun m' t ht hm' => ?_) hm
        obtain ⟨hterminal, hbegins⟩ := hfirsts _ hm X t ht
        exact hadd m' t hm' hterminal (by simp [Grammar.beginsWith, hbegins])
      simp only [addBeginnings]
      split
      · rename_i hX
        have hnullable := hvanishes _ hfirst X hX
        obtain ⟨hrest, hall⟩ := ih (fun m' t hm' ht hbegins =>
          hadd m' t hm' ht (by simp [Grammar.beginsWith, hnullable, hbegins])) hfirst
        exact ⟨hrest, fun h => by simp [hnullable, hall h]⟩
      · exact ⟨hfirst, by simp⟩

end

/-! ## FIRST and nullability -/

/-- FIRST sets and nullability by symbol, as far as they have been found. -/
structure FirstSets where
  first : List (List Nat)
  nullable : List Bool

namespace FirstSets

variable {g : Grammar} {f f' : FirstSets} {X t : Nat}

def firstOf (f : FirstSets) (X : Nat) : List Nat :=
  setAt f.first X

def isNullable (f : FirstSets) (X : Nat) : Bool :=
  f.nullable.getD X false

theorem isNullable_eq_of_getElem? {b : Bool} (h : f.nullable[X]? = some b) :
    f.isNullable X = b := by
  rw [isNullable, List.getD_eq_getElem?_getD, h, Option.getD_some]

/-- Insert a terminal into the FIRST set of a symbol. -/
def insert? (X t : Nat) (f : FirstSets) : Option FirstSets :=
  (insertAt? X t f.first).map fun first => { f with first }

/-- Make a symbol nullable. -/
def makeNullable? (X : Nat) (f : FirstSets) : Option FirstSets :=
  if f.nullable[X]? = some false then some { f with nullable := f.nullable.set X true } else none

/-- How much has been found. -/
def size (f : FirstSets) : Nat :=
  f.first.flatten.length + f.nullable.count true

theorem size_insert? (h : f.insert? X t = some f') : f.size < f'.size := by
  obtain ⟨first, hfirst, rfl⟩ := Option.map_eq_some_iff.mp h
  exact Nat.add_lt_add_right (length_flatten_insertAt? hfirst) _

theorem size_makeNullable? (h : f.makeNullable? X = some f') : f.size < f'.size := by
  unfold makeNullable? at h
  split at h
  · rename_i hX
    obtain rfl := Option.some.inj h
    obtain ⟨hlt, hfalse⟩ := List.getElem?_eq_some_iff.mp hX
    have hcount : (f.nullable.set X true).count true = f.nullable.count true + 1 := by
      simp [List.count_set hlt, hfalse]
    simp only [size, hcount]
    omega
  · cases h

/-- What has been found is right, and every terminal is in its own FIRST set. -/
structure IsSound (g : Grammar) (f : FirstSets) : Prop where
  first : HoldsOnly g.symbolCount (fun X t => t ∈ g.terminalSymbols ∧ g.begins t X = true) f.first
  terminal : ∀ t ∈ g.terminalSymbols, t ∈ f.firstOf t
  length_nullable : f.nullable.length = g.symbolCount
  nullable : ∀ X, f.isNullable X = true → g.isNullable X = true

theorem IsSound.insert? (h : f.IsSound g) (ht : t ∈ g.terminalSymbols) (hX : g.begins t X = true)
    (hinsert : f.insert? X t = some f') : f'.IsSound g := by
  obtain ⟨first, hfirst, rfl⟩ := Option.map_eq_some_iff.mp hinsert
  refine ⟨h.first.insertAt? ⟨ht, hX⟩ hfirst, fun u hu => ?_, h.length_nullable, h.nullable⟩
  exact (mem_setAt_insertAt? hfirst).mpr (.inl (h.terminal u hu))

theorem IsSound.makeNullable? (h : f.IsSound g) (hX : g.isNullable X = true)
    (hmake : f.makeNullable? X = some f') : f'.IsSound g := by
  unfold FirstSets.makeNullable? at hmake
  split at hmake
  · obtain rfl := Option.some.inj hmake
    refine ⟨h.first, h.terminal, by rw [List.length_set, h.length_nullable], fun Y hY => ?_⟩
    by_cases hYX : Y = X
    · exact hYX ▸ hX
    · refine h.nullable Y ?_
      simp only [isNullable, List.getD_eq_getElem?_getD] at hY ⊢
      rwa [List.getElem?_set_ne (Ne.symm hYX)] at hY
  · cases hmake

theorem IsSound.size_le (h : f.IsSound g) :
    f.size ≤ g.symbolCount * g.terminals + g.symbolCount := by
  have hfirst := h.first.length_flatten_le fun _ _ ht => ht.1
  rw [Grammar.terminalSymbols, List.length_range'] at hfirst
  have hnullable := h.length_nullable ▸ List.count_le_length (a := true) (l := f.nullable)
  exact Nat.add_le_add hfirst hnullable

end FirstSets

namespace Grammar

variable {g : Grammar} {f : FirstSets} {m : Marked FirstSets} {p : Production} {t X : Nat}

/-- Nothing has been found but that terminals begin with themselves. -/
def firstStart (g : Grammar) : FirstSets where
  first := g.symbols.map fun X => if g.isNonterminal X then [] else [X]
  nullable := g.symbols.map fun _ => false

/-- Insert a terminal into the FIRST set of a symbol. -/
def addFirst (X : Nat) (m : Marked FirstSets) (t : Nat) : Marked FirstSets :=
  m.update (FirstSets.insert? X t)

/-- Look at a production: the left-hand side can begin with what the symbols of the right-hand side
can, up to the first that does not vanish, and vanishes if all of them do. -/
def firstVisit (m : Marked FirstSets) (p : Production) : Marked FirstSets :=
  let (m, vanish) :=
    addBeginnings FirstSets.firstOf FirstSets.isNullable (addFirst p.lhs) p.rhs m
  if vanish then m.update (FirstSets.makeNullable? p.lhs) else m

/-- Look at all productions in order. -/
def firstPass (g : Grammar) (m : Marked FirstSets) : Marked FirstSets :=
  g.productions.foldl firstVisit m

theorem grows_addFirst (m : Marked FirstSets) (t : Nat) :
    Marked.Grows FirstSets.size m (addFirst X m t) :=
  Marked.grows_update (fun _ _ => FirstSets.size_insert?) m

theorem grows_makeNullable (m : Marked FirstSets) :
    Marked.Grows FirstSets.size m (m.update (FirstSets.makeNullable? X)) :=
  Marked.grows_update (fun _ _ => FirstSets.size_makeNullable?) m

theorem grows_firstVisit (m : Marked FirstSets) (p : Production) :
    Marked.Grows FirstSets.size m (firstVisit m p) :=
  (grows_addBeginnings grows_addFirst p.rhs m).trans (.ite (grows_makeNullable _))

theorem grows_firstPass (m : Marked FirstSets) : Marked.Grows FirstSets.size m (g.firstPass m) :=
  Marked.Grows.foldl grows_firstVisit m g.productions

theorem isSound_firstStart : g.firstStart.IsSound g where
  first := by
    refine ⟨by simp [firstStart, symbols], fun set hset => ?_, fun X t ht => ?_⟩
    · obtain ⟨X, -, rfl⟩ := List.mem_map.mp hset
      split <;> simp
    · obtain ⟨hX, ht⟩ := mem_setAt_map_range.mp ht
      split at ht
      · simp at ht
      · rename_i hterminal
        obtain rfl := List.mem_singleton.mp ht
        have hmem : t ∈ g.terminalSymbols :=
          mem_terminalSymbols.mpr ⟨by simpa [isNonterminal] using hterminal, hX⟩
        exact ⟨hmem, begins_self hmem⟩
  terminal t ht := by
    obtain ⟨hle, hlt⟩ := mem_terminalSymbols.mp ht
    refine mem_setAt_map_range.mpr ⟨hlt, ?_⟩
    simp [isNonterminal, Nat.not_lt.mpr hle]
  length_nullable := by simp [firstStart, symbols]
  nullable X hX := by
    have hfalse : g.firstStart.isNullable X = false := by
      rw [FirstSets.isNullable, firstStart, List.getD_eq_getElem?_getD, List.getElem?_map]
      cases g.symbols[X]? <;> rfl
    cases hfalse.symm.trans hX

/-- A round that finds nothing has looked at every production without finding anything. -/
theorem firstVisit_fixed (hfixed : g.firstPass m = m) (hp : p ∈ g.productions) :
    (∀ t, beginsWith m.value.isNullable (fun X => (m.value.firstOf X).contains t) p.rhs = true →
      addFirst p.lhs m t = m) ∧
    (p.rhs.all m.value.isNullable = true → m.update (FirstSets.makeNullable? p.lhs) = m) := by
  have hvisit := Marked.Grows.foldl_fixed grows_firstVisit hfixed p hp
  have hscan := (grows_addBeginnings grows_addFirst p.rhs m).stays
    (.ite (grows_makeNullable _)) hvisit
  obtain ⟨hbegins, hall⟩ := addBeginnings_fixed grows_addFirst hscan
  simp only [firstVisit, hscan, hall] at hvisit
  exact ⟨hbegins, fun h => by rwa [if_pos h] at hvisit⟩

/-- Sound sets in which a round finds nothing are closed under the rule of nullability. -/
theorem isNullable_of_fixed (hf : f.IsSound g) (hfixed : g.firstPass ⟨f, false⟩ = ⟨f, false⟩)
    (h : g.isNullable X = true) : f.isNullable X = true := by
  refine saturate_induction (P := fun X => f.isNullable X = true)
    (fun known hknown X hX hfollows => ?_) X (List.contains_iff_mem.mp h)
  obtain ⟨p, hp, hcond⟩ := List.any_eq_true.mp hfollows
  rw [Bool.and_eq_true, beq_iff_eq, List.all_eq_true] at hcond
  obtain ⟨rfl, hrhs⟩ := hcond
  have hall : p.rhs.all f.isNullable = true :=
    List.all_eq_true.mpr fun Y hY => (hknown Y (List.contains_iff_mem.mp (hrhs Y hY))).2
  have hnone := Marked.eq_none_of_update (fun _ _ => FirstSets.size_makeNullable?)
    ((firstVisit_fixed hfixed hp).2 hall)
  have hlt : p.lhs < f.nullable.length := hf.length_nullable ▸ mem_symbols.mp hX
  have hne : f.nullable[p.lhs]? ≠ some false := fun hfalse => by
    simp [FirstSets.makeNullable?, hfalse] at hnone
  rw [List.getElem?_eq_getElem hlt] at hne
  rw [FirstSets.isNullable_eq_of_getElem? (List.getElem?_eq_getElem hlt)]
  simpa using hne

theorem beginsWith_mono {nullable nullable' begins begins' : Nat → Bool} {u : List Nat}
    (hnullable : ∀ X, nullable X = true → nullable' X = true)
    (hbegins : ∀ X, begins X = true → begins' X = true)
    (h : beginsWith nullable begins u = true) : beginsWith nullable' begins' u = true := by
  induction u with
  | nil => simp [beginsWith] at h
  | cons X rest ih =>
      simp only [beginsWith, Bool.or_eq_true, Bool.and_eq_true] at h ⊢
      exact h.imp (hbegins X) fun h => ⟨hnullable X h.1, ih h.2⟩

theorem mem_firstOf_of_fixed (hf : f.IsSound g) (hfixed : g.firstPass ⟨f, false⟩ = ⟨f, false⟩)
    (ht : t ∈ g.terminalSymbols) (h : g.begins t X = true) : t ∈ f.firstOf X := by
  refine saturate_induction (P := fun X => t ∈ f.firstOf X) (fun known hknown X hX hfollows => ?_)
    X (List.contains_iff_mem.mp h)
  rcases Bool.or_eq_true _ _ ▸ hfollows with heq | hany
  · exact beq_iff_eq.mp heq ▸ hf.terminal t ht
  · obtain ⟨p, hp, hcond⟩ := List.any_eq_true.mp hany
    rw [Bool.and_eq_true, beq_iff_eq] at hcond
    obtain ⟨rfl, hrhs⟩ := hcond
    have hbegins : beginsWith f.isNullable (fun Y => (f.firstOf Y).contains t) p.rhs = true :=
      beginsWith_mono (fun _ => isNullable_of_fixed hf hfixed)
        (fun Y hY => List.contains_iff_mem.mpr (hknown Y (List.contains_iff_mem.mp hY)).2) hrhs
    have hnone := Marked.eq_none_of_update (fun _ _ => FirstSets.size_insert?)
      ((firstVisit_fixed hfixed hp).1 t hbegins)
    rw [FirstSets.insert?, Option.map_eq_none_iff] at hnone
    exact mem_setAt_of_eq_none (hf.first.length_eq ▸ mem_symbols.mp hX) hnone

/-- The FIRST sets and the nullable symbols of a grammar. -/
def firstSets (g : Grammar) : FirstSets :=
  ⟨g.lookahead.first, g.lookahead.nullable⟩

/-- Sound sets in which a round finds nothing hold all there is to find. -/
theorem eq_firstSets_of_fixed (hf : f.IsSound g) (hfixed : g.firstPass ⟨f, false⟩ = ⟨f, false⟩) :
    f = g.firstSets := by
  have hfirst : f.first = g.lookahead.first := by
    refine hf.first.eq_of_mem_iff (by simp [lookahead, symbols]) fun X hX => ?_
    refine ⟨_, getElem?_first hX, ascending_terminalSymbols.filter _, fun t => ?_⟩
    rw [List.mem_filter]
    exact ⟨fun h => mem_firstOf_of_fixed hf hfixed h.1 h.2, hf.first.allowed X t⟩
  have hnullable : f.nullable = g.lookahead.nullable := by
    refine List.ext_getElem? fun X => ?_
    by_cases hX : X < g.symbolCount
    · have hlt : X < f.nullable.length := hf.length_nullable ▸ hX
      have hvalue : f.nullable[X]? = some (f.isNullable X) := by
        have hget := List.getElem?_eq_getElem hlt
        rw [hget, FirstSets.isNullable_eq_of_getElem? hget]
      rw [hvalue, getElem?_nullable hX, Option.some_inj, Bool.eq_iff_iff]
      exact ⟨hf.nullable X, isNullable_of_fixed hf hfixed⟩
    · have hlength : g.lookahead.nullable.length = g.symbolCount := by simp [lookahead, symbols]
      rw [List.getElem?_eq_none (hf.length_nullable ▸ Nat.le_of_not_lt hX),
        List.getElem?_eq_none (hlength ▸ Nat.le_of_not_lt hX)]
  rw [firstSets, ← hfirst, ← hnullable]

section

variable (hlhs : ∀ p ∈ g.productions, p.lhs < g.nonterminals)
include hlhs

theorem isSound_firstVisit (hp : p ∈ g.productions) (hm : m.value.IsSound g) :
    (firstVisit m p).value.IsSound g := by
  have hadd : ∀ m t, m.value.IsSound g → t ∈ g.terminalSymbols →
      beginsWith g.isNullable (g.begins t) p.rhs = true → (addFirst p.lhs m t).value.IsSound g :=
    fun m t hm ht hbegins => Marked.update_keeps
      (fun _ => hm.insert? ht (begins_of_production hp (hlhs p hp) hbegins)) hm
  obtain ⟨hrhs, hvanish⟩ := addBeginnings_keeps (P := FirstSets.IsSound g)
    (fun _ hf => hf.first.allowed) (fun _ hf => hf.nullable) hadd hm
  simp only [firstVisit]
  split
  · rename_i hall
    exact Marked.update_keeps
      (fun _ => hrhs.makeNullable? (isNullable_of_production hp (hlhs p hp) (hvanish hall))) hrhs
  · exact hrhs

theorem isSound_firstPass (hm : m.value.IsSound g) : (g.firstPass m).value.IsSound g :=
  Marked.foldl_keeps (P := FirstSets.IsSound g) (fun _ _ hp => isSound_firstVisit hlhs hp) hm

/-- The loop ends with the FIRST sets and the nullable symbols, which are sound, and with a round
that finds nothing. -/
theorem iterate_firstRound :
    g.firstSets.IsSound g ∧ g.firstPass ⟨g.firstSets, false⟩ = ⟨g.firstSets, false⟩ ∧
      ∀ n > g.symbolCount * g.terminals + g.symbolCount,
        (Marked.round g.firstPass)^[n] ⟨g.firstStart, true⟩ = ⟨g.firstSets, false⟩ := by
  obtain ⟨f, hf, hfixed, hends⟩ :=
    Marked.iterate_round (P := FirstSets.IsSound g) grows_firstPass
      (fun _ => isSound_firstPass hlhs) (fun _ => FirstSets.IsSound.size_le) isSound_firstStart
  obtain rfl : f = g.firstSets := eq_firstSets_of_fixed hf hfixed
  exact ⟨hf, hfixed, fun n hn => hends n (Nat.lt_of_le_of_lt (Nat.sub_le _ _) hn)⟩

end

/-! ## The sets are exact -/

/-- Where left-hand sides are nonterminals, the loop over the productions comes to an end with the
FIRST sets and the nullable symbols. A symbol is nullable exactly if it derives the empty string,
and its FIRST set holds exactly the terminals with which something it derives begins. The order and
the repetition of productions make no difference. -/
theorem first_exact (hlhs : ∀ p ∈ g.productions, p.lhs < g.nonterminals) :
    (∀ n > g.symbolCount * g.terminals + g.symbolCount,
      (Marked.round g.firstPass)^[n] ⟨g.firstStart, true⟩ =
        ⟨⟨g.lookahead.first, g.lookahead.nullable⟩, false⟩) ∧
    g.HasExactFirst ∧
      ∀ g', SameProductions g g' →
        g'.lookahead.nullable = g.lookahead.nullable ∧ g'.lookahead.first = g.lookahead.first := by
  have hexact := hasExactFirst hlhs
  refine ⟨(iterate_firstRound hlhs).2.2, hexact, fun g' h => ?_⟩
  have hexact' := hasExactFirst (h.lhs_lt hlhs)
  exact ⟨h.nullable_eq hexact hexact', h.first_eq hexact hexact'⟩

/-- Through symbols that vanish `S` can vanish itself and begin with the last of the letters, and
with no end mark; so it is with the productions listed backwards and then once more. -/
theorem first_exact_nullable :
    (∀ p ∈ Gallery.nullable.productions, p.lhs < Gallery.nullable.nonterminals) ∧
      Gallery.nullable.Derives [1] [] ∧ (∃ v, Gallery.nullable.Derives [1] (7 :: v)) ∧
      (¬ ∃ v, Gallery.nullable.Derives [1] (8 :: v)) ∧
      (∃ first nullable, (Marked.round Gallery.nullable.firstPass)^[46]
          ⟨Gallery.nullable.firstStart, true⟩ = ⟨⟨first, nullable⟩, false⟩ ∧
        first[1]? = some [5, 6, 7] ∧ nullable[1]? = some true) ∧
      ({ Gallery.nullable with
          productions := Gallery.nullable.productions.reverse ++ Gallery.nullable.productions } :
        Grammar).lookahead.first = Gallery.nullable.lookahead.first := by
  have hlhs : ∀ p ∈ Gallery.nullable.productions, p.lhs < Gallery.nullable.nonterminals := by
    decide +kernel
  obtain ⟨hends, hexact, hsame⟩ := first_exact hlhs
  have hcount : 1 < Gallery.nullable.symbolCount := by decide +kernel
  obtain ⟨b, hb, hnullable⟩ := hexact.nullable 1 hcount
  obtain ⟨set, hset, -, hfirst⟩ := hexact.first 1 hcount
  obtain rfl : b = true := by
    have hvalue : Gallery.nullable.lookahead.nullable[1]? = some true := by decide +kernel
    exact Option.some.inj (hb.symm.trans hvalue)
  obtain rfl : set = [5, 6, 7] := by
    have hvalue : Gallery.nullable.lookahead.first[1]? = some [5, 6, 7] := by decide +kernel
    exact Option.some.inj (hset.symm.trans hvalue)
  refine ⟨hlhs, hnullable.mp rfl, ((hfirst 7).mp (by simp)).2, fun hend => ?_,
    ⟨_, _, hends 46 (by decide), hset, hb⟩, ?_⟩
  · have hmem : 8 ∈ [5, 6, 7] := (hfirst 8).mpr ⟨by decide +kernel, hend⟩
    simp at hmem
  · exact (hsame _ (sameProductions_of_mem_iff fun p => by simp)).2

/-- It takes a round for `A` to vanish, one more for `S` and one more for `Start`; the fourth round
finds nothing. -/
example :
    ((List.range 5).map fun n =>
      let m := (Marked.round Gallery.nullable.firstPass)^[n] ⟨Gallery.nullable.firstStart, true⟩
      (m.value.nullable.take 3, m.changed)) =
      [([false, false, false], true), ([false, false, true], true), ([false, true, true], true),
        ([true, true, true], true), ([true, true, true], false)] := by
  decide

end Grammar
end Argand
