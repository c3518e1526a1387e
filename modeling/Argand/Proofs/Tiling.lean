-- SUMMARY: Scan after scan gives the longest match at its place, and the matches tile the input.
import Argand.Lexer
import Argand.Proofs.LongestMatch
import Argand.Proofs.Scan
import Mathlib.Logic.Function.Iterate

/-!
# Scans over an input

Between two scans a cursor stands somewhere in the input: what is ahead is the input from there on
(`Cursor.IsOver`), whatever was pushed back. Each scan keeps this, since reading and pushing back
only move bytes between those taken and those ahead. Every scan of a run therefore gives what the
input itself prescribes at its place (`Cursor.ScansLongest`), and the matches of a run cover the
input without gap or overlap (`Cursor.Tiles`).
-/
namespace Argand.Cursor

variable {ρ : Type} {rules : Rules ρ} {c c' : Cursor} {input bs : List UInt8}
  {offset total k : Nat} {r : ρ}

/-! ## Bytes taken and bytes ahead -/

/-- A scan divides the bytes ahead into those it takes and those it leaves. -/
theorem lexeme_append_ahead_scan (rules : Rules ρ) (c : Cursor) :
    (c.scan rules).2.lexeme ++ (c.scan rules).2.ahead = c.ahead := by
  rw [scan_snd, lexeme_moved,
    ahead_moved (rules.kept_look_le c.ahead) (rules.bytesRead_look_le c.ahead),
    List.take_append_drop]

theorem Stands.length_lexeme (h : c.Stands offset total k) : c.lexeme.length = k := by
  rw [lexeme, List.length_reverse, h.length_taken]

theorem Stands.lexeme_eq (h : c.Stands offset total k) (hbytes : c.lexeme ++ c.ahead = bs) :
    c.lexeme = bs.take k := by
  rw [← hbytes, List.take_left' h.length_lexeme]

theorem Stands.ahead_eq (h : c.Stands offset total k) (hbytes : c.lexeme ++ c.ahead = bs) :
    c.ahead = bs.drop k := by
  rw [← hbytes, List.drop_left' h.length_lexeme]

/-! ## Places in the input -/

/-- The cursor stands in the input: ahead is what follows the place where the last scan ended. -/
structure IsOver (c : Cursor) (input : List UInt8) : Prop where
  stop_le : c.span.stop ≤ input.length
  ahead_eq : c.ahead = input.drop c.span.stop

theorem isOver_ofBytes (input : List UInt8) : (ofBytes input).IsOver input :=
  ⟨Nat.zero_le _, rfl⟩

namespace IsOver

theorem length_ahead (h : c.IsOver input) : c.ahead.length = input.length - c.span.stop := by
  rw [h.ahead_eq, List.length_drop]

theorem stop_add_length_ahead (h : c.IsOver input) :
    c.span.stop + c.ahead.length = input.length := by
  rw [h.length_ahead, Nat.add_sub_cancel' h.stop_le]

/-- The further the cursor stands, the less is ahead. -/
theorem length_ahead_lt (h : c.IsOver input) (h' : c'.IsOver input)
    (hlt : c.span.stop < c'.span.stop) : c'.ahead.length < c.ahead.length := by
  have htotal := h.stop_add_length_ahead
  have htotal' := h'.stop_add_length_ahead
  omega

/-- A scan that takes some bytes of the input leaves the cursor in the input. -/
theorem of_stands (h : c.IsOver input) (hscan : (c.scan rules).2 = c')
    (hstands : c'.Stands c.span.stop input.length k) :
    c'.IsOver input ∧ c'.lexeme = (input.drop c.span.stop).take k ∧
      c'.span = ⟨c.span.stop, c.span.stop + k⟩ := by
  have hbytes := lexeme_append_ahead_scan rules c
  rw [hscan, h.ahead_eq] at hbytes
  have htotal := hstands.stop_add_length_ahead
  refine ⟨⟨by omega, ?_⟩, hstands.lexeme_eq hbytes, ?_⟩
  · rw [hstands.ahead_eq hbytes, List.drop_drop, hstands.stop_eq]
  · rw [← hstands.stop_eq, ← hstands.start_eq]

/-- An error stands where nothing is matched, and something is taken. -/
theorem of_error {e : LexError} (h : c.IsOver input) (hscan : c.scan rules = (.error e, c')) :
    c'.IsOver input ∧ rules.MatchesNoPrefix (input.drop c.span.stop) ∧ e.offset = c.span.stop ∧
      c.span.stop < c'.span.stop := by
  obtain ⟨hlongest, hoffset, k, hk, hstands⟩ := scan_eq_error h.stop_add_length_ahead hscan
  obtain ⟨hover, -, hspan⟩ := h.of_stands (congrArg Prod.snd hscan) hstands
  rw [h.ahead_eq] at hlongest
  refine ⟨hover, Rules.longest_look_eq_none_iff.mp hlongest, hoffset, ?_⟩
  rw [hspan]
  exact Nat.lt_add_of_pos_right hk

variable (hempty : ¬ rules.MatchedBy [])
include hempty

/-- A match is the longest one at its place. -/
theorem of_match (h : c.IsOver input) (hscan : c.scan rules = (.ok (some r), c')) :
    c'.IsOver input ∧ ∃ n, 0 < n ∧ rules.IsLongest (input.drop c.span.stop) n r ∧
      c'.lexeme = (input.drop c.span.stop).take n ∧ c'.span = ⟨c.span.stop, c.span.stop + n⟩ := by
  have hwinner := Rules.winner?_eq_none_iff.mpr hempty
  obtain ⟨n, hn, hlongest, hstands⟩ := scan_eq_match hwinner h.stop_add_length_ahead hscan
  obtain ⟨hover, hlexeme, hspan⟩ := h.of_stands (congrArg Prod.snd hscan) hstands
  rw [h.ahead_eq] at hlongest
  exact ⟨hover, n, hn, Rules.longest_look_eq_some_iff.mp hlongest, hlexeme, hspan⟩

/-- Nothing is found at the end only. -/
theorem of_none (h : c.IsOver input) (hscan : c.scan rules = (.ok none, c')) :
    c'.IsOver input ∧ c.span.stop = input.length ∧ c'.span.stop = input.length := by
  have hwinner := Rules.winner?_eq_none_iff.mpr hempty
  obtain ⟨hahead, hstop⟩ := scan_eq_none hwinner h.stop_add_length_ahead hscan
  have htotal := h.stop_add_length_ahead
  rw [hahead, List.length_nil, Nat.add_zero] at htotal
  have hbytes := lexeme_append_ahead_scan rules c
  rw [hscan, hahead] at hbytes
  refine ⟨⟨Nat.le_of_eq hstop, ?_⟩, htotal, hstop⟩
  rw [hstop, List.drop_length]
  exact (List.append_eq_nil_iff.mp hbytes).2

/-- A match leaves less ahead. -/
theorem length_ahead_lt_of_match (h : c.IsOver input)
    (hscan : c.scan rules = (.ok (some r), c')) : c'.ahead.length < c.ahead.length := by
  obtain ⟨hover, n, hn, -, -, hspan⟩ := h.of_match hempty hscan
  refine h.length_ahead_lt hover ?_
  rw [hspan]
  exact Nat.lt_add_of_pos_right hn

/-- A match parts what is ahead into the lexeme and what is ahead then. -/
theorem parts_of_match (h : c.IsOver input) (hscan : c.scan rules = (.ok (some r), c')) :
    c.ahead = c'.lexeme ++ c'.ahead ∧ rules.IsLongest c.ahead c'.lexeme.length r ∧
      c'.span = ⟨input.length - c.ahead.length, input.length - c'.ahead.length⟩ := by
  obtain ⟨hover, n, -, hlongest, hlexeme, hspan⟩ := h.of_match hempty hscan
  have hbytes := lexeme_append_ahead_scan rules c
  rw [hscan] at hbytes
  have hlength : c'.lexeme.length = n := by
    rw [hlexeme, List.length_take, Nat.min_eq_left hlongest.le_length]
  have htotal := h.stop_add_length_ahead
  have htotal' := hover.stop_add_length_ahead
  refine ⟨hbytes.symm, by rwa [h.ahead_eq, hlength], ?_⟩
  rw [hspan] at htotal' ⊢
  rw [Span.mk.injEq]
  constructor <;> simp only at htotal' ⊢ <;> omega

/-- A scan leaves the cursor in the input. -/
theorem scan (h : c.IsOver input) : (c.scan rules).2.IsOver input := by
  match hscan : c.scan rules with
  | (.error e, c') => exact (h.of_error hscan).1
  | (.ok none, c') => exact (h.of_none hempty hscan).1
  | (.ok (some r), c') => exact (h.of_match hempty hscan).1

end IsOver

/-! ## Runs of scans -/

/-- The cursor after `k` scans. -/
def scanned (rules : Rules ρ) (k : Nat) (c : Cursor) : Cursor :=
  (fun c => (c.scan rules).2)^[k] c

theorem scanned_succ (rules : Rules ρ) (k : Nat) (c : Cursor) :
    c.scanned rules (k + 1) = (c.scan rules).2.scanned rules k :=
  Function.iterate_succ_apply _ _ _

theorem scanned_succ' (rules : Rules ρ) (k : Nat) (c : Cursor) :
    c.scanned rules (k + 1) = ((c.scanned rules k).scan rules).2 :=
  Function.iterate_succ_apply' _ _ _

/-- However many scans went before, the cursor stands in the input. -/
theorem IsOver.scanned (hempty : ¬ rules.MatchedBy []) (h : c.IsOver input) (k : Nat) :
    (c.scanned rules k).IsOver input := by
  induction k with
  | zero => exact h
  | succ k ih =>
      rw [scanned_succ']
      exact ih.scan hempty

/-- The next scan from the cursor gives what the input prescribes at its place: the first rule for
the longest match if some rule matches there, an error if none does, nothing at the end. -/
structure ScansLongest (c : Cursor) (rules : Rules ρ) (input : List UInt8) : Prop where
  matched : ∀ m, 0 < m → m ≤ (input.drop c.span.stop).length →
    rules.MatchedBy ((input.drop c.span.stop).take m) →
    ∃ n r, m ≤ n ∧ rules.IsLongest (input.drop c.span.stop) n r ∧
      (c.scan rules).1 = .ok (some r) ∧
      (c.scan rules).2.lexeme = (input.drop c.span.stop).take n ∧
      (c.scan rules).2.span = ⟨c.span.stop, c.span.stop + n⟩
  unmatched : c.span.stop < input.length →
    (∀ m, 0 < m → m ≤ (input.drop c.span.stop).length →
      ¬ rules.MatchedBy ((input.drop c.span.stop).take m)) →
    ∃ e, (c.scan rules).1 = .error e ∧ e.offset = c.span.stop
  finished : c.span.stop = input.length → (c.scan rules).1 = .ok none

theorem IsOver.scansLongest (hempty : ¬ rules.MatchedBy []) (h : c.IsOver input) :
    c.ScansLongest rules input := by
  match hscan : c.scan rules with
  | (.error e, c') =>
      obtain ⟨hover, hnone, hoffset, hlt⟩ := h.of_error hscan
      refine ⟨fun m _ hm hmatched => absurd hmatched (hnone m hm), fun _ _ => ?_, fun hstop => ?_⟩
      · exact ⟨e, by rw [hscan], hoffset⟩
      · have hle := hover.stop_le
        omega
  | (.ok none, c') =>
      obtain ⟨-, hstop, -⟩ := h.of_none hempty hscan
      refine ⟨fun m hpos hm _ => ?_, fun hlt _ => ?_, fun _ => by rw [hscan]⟩
      · rw [hstop, List.drop_length, List.length_nil] at hm
        omega
      · omega
  | (.ok (some r), c') =>
      obtain ⟨hover, n, hpos, hlongest, hlexeme, hspan⟩ := h.of_match hempty hscan
      refine ⟨fun m _ hm hmatched => ?_, fun _ hnone => ?_, fun hstop => ?_⟩
      · rw [hscan]
        exact ⟨n, r, hlongest.le hm hmatched, hlongest, rfl, hlexeme, hspan⟩
      · exact absurd hlongest.matchedBy (hnone n hpos hlongest.le_length)
      · have hle := hover.stop_le
        simp only [hspan] at hle
        omega

/-! ## Tiling -/

/-- Lexemes lie in the input one after the other, the first at `p`, the last up to `q`, and each
holds the bytes of the input at its place. -/
inductive Tiles (input : List UInt8) : Nat → List Lexeme → Nat → Prop where
  | nil {p : Nat} : Tiles input p [] p
  | cons {p n q : Nat} {ls : List Lexeme} : 0 < n → Tiles input (p + n) ls q →
      Tiles input p (⟨(input.drop p).take n, ⟨p, p + n⟩⟩ :: ls) q

theorem Tiles.le {p q : Nat} {ls : List Lexeme} (h : Tiles input p ls q) : p ≤ q := by
  induction h with
  | nil => exact Nat.le_refl _
  | cons _ _ ih => omega

/-- The bytes of the lexemes are those of the input that they cover. -/
theorem Tiles.flatMap_bytes {p q : Nat} {ls : List Lexeme} (h : Tiles input p ls q) :
    ls.flatMap (·.bytes) = (input.drop p).take (q - p) := by
  induction h with
  | nil => simp
  | @cons p n q ls _ hrest ih =>
      have hle := hrest.le
      have hsplit : q - p = n + (q - (p + n)) := by omega
      rw [List.flatMap_cons, ih, hsplit, List.take_add, List.drop_drop]

/-- The lexemes of the next `k` scans. -/
def lexemes (rules : Rules ρ) : Nat → Cursor → List Lexeme
  | 0, _ => []
  | k + 1, c =>
    ⟨(c.scan rules).2.lexeme, (c.scan rules).2.span⟩ :: lexemes rules k (c.scan rules).2

/-- The next `k` scans are matches. -/
def MatchesUpTo (rules : Rules ρ) (k : Nat) (c : Cursor) : Prop :=
  ∀ i, i < k → ∃ r, ((c.scanned rules i).scan rules).1 = .ok (some r)

/-- The next `k` scans find something, a match or an error, and the one after them the end. -/
def EndsAfter (rules : Rules ρ) (k : Nat) (c : Cursor) : Prop :=
  (∀ i, i < k → ((c.scanned rules i).scan rules).1 ≠ .ok none) ∧
    ((c.scanned rules k).scan rules).1 = .ok none

/-- The end is found after one number of scans only. -/
theorem EndsAfter.unique {m : Nat} (h : EndsAfter rules k c) (h' : EndsAfter rules m c) :
    k = m := by
  rcases Nat.lt_trichotomy k m with hlt | heq | hlt
  · exact absurd h.2 (h'.1 k hlt)
  · exact heq
  · exact absurd h'.2 (h.1 m hlt)

theorem endsAfter_succ (hfirst : (c.scan rules).1 ≠ .ok none)
    (hrest : EndsAfter rules k (c.scan rules).2) : EndsAfter rules (k + 1) c := by
  refine ⟨fun i hi => ?_, by rw [scanned_succ]; exact hrest.2⟩
  cases i with
  | zero => exact hfirst
  | succ i =>
      rw [scanned_succ]
      exact hrest.1 i (Nat.lt_of_succ_lt_succ hi)

/-- As long as there are matches, their lexemes tile the input. -/
theorem IsOver.tiles (hempty : ¬ rules.MatchedBy []) (h : c.IsOver input)
    (hmatches : MatchesUpTo rules k c) :
    Tiles input c.span.stop (c.lexemes rules k) (c.scanned rules k).span.stop := by
  induction k generalizing c with
  | zero => exact .nil
  | succ k ih =>
      obtain ⟨r, hr⟩ := hmatches 0 (Nat.zero_lt_succ k)
      have hscan : c.scan rules = (.ok (some r), (c.scan rules).2) := Prod.ext hr rfl
      obtain ⟨hover, n, hn, -, hlexeme, hspan⟩ := h.of_match hempty hscan
      have hrest := ih hover fun i hi => by
        have hnext := hmatches (i + 1) (Nat.succ_lt_succ hi)
        rwa [scanned_succ] at hnext
      rw [lexemes, scanned_succ, hlexeme, hspan]
      rw [hspan] at hrest
      exact .cons hn hrest

end Argand.Cursor
