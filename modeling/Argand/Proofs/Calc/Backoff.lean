-- SUMMARY: The calculator's lexer pushes back three bytes a scan at most.
import Argand.Proofs.Backoff
import Argand.Proofs.Calc.Lexemes

/-!
# The back-off of the calculator's lexer

A numeral that has begun an exponent may have to be given back from the letter on: the letter, a
sign and the byte that is no digit. Nothing lags further behind (`lagsBy_rules`). For most rules the
bound is computed from the pattern; a keyword under way is an identifier all along, and before the
imaginary unit there is a numeral. So a scan pushes back three bytes at most.
-/
namespace Argand.Calc

open LexRule

variable {w : List UInt8} {r : LexRule} {k : Nat}

/-- The bound computed from a pattern bounds the rule among the others. -/
theorem lagsBy_of_lag? (h : r.pattern.lag? = some k) (hk : k ≤ 2) :
    r.pattern.LagsBy lexer.rules.MatchedBy 2 :=
  (Pattern.lagsBy_of_lag? h).mono (fun _ hw => .inr (matchedBy_rules_iff.mpr ⟨r, hw⟩)) hk

/-- A keyword matches as an identifier too. -/
theorem matches_ident_of_keyword (hr : r ∈ [abs, arg, norm, conj]) (h : r.pattern.Matches w) :
    ident.pattern.Matches w := by
  have hbytes : ∃ bs, r.pattern = .bytes bs ∧ ident.pattern.accepts bs = true := by
    simp only [List.mem_cons, List.not_mem_nil, or_false] at hr
    rcases hr with rfl | rfl | rfl | rfl <;> exact ⟨_, rfl, by decide⟩
  obtain ⟨bs, hbs, haccepts⟩ := hbytes
  rw [hbs, Pattern.matches_bytes_iff] at h
  rw [h]
  exact Pattern.accepts_iff.mp haccepts

theorem lagsBy_ident : ident.pattern.LagsBy lexer.rules.MatchedBy 2 :=
  lagsBy_of_lag? (k := 0) rfl (by decide)

/-- Before the imaginary unit the numeral is a match of its own. -/
theorem lagsBy_imaginary : imaginary.pattern.LagsBy lexer.rules.MatchedBy 2 := by
  have hnumeral : ∀ w, numeral.opt.Matches w → w = [] ∨ lexer.rules.MatchedBy w := fun w hw =>
    (Pattern.matches_opt_iff.mp hw).symm.imp_right fun h =>
      matchedBy_rules_iff.mpr ⟨.number, h⟩
  have hopt : numeral.opt.lag? = some 2 := by decide
  have hunit : (Pattern.literal ['i']).lag? = some 0 := by decide
  exact .seq ((Pattern.lagsBy_of_lag? hopt).mono hnumeral (Nat.le_refl 2)) hnumeral
    ((Pattern.lagsBy_of_lag? hunit).mono (fun _ => .inr) (Nat.zero_le 2))
    fun w hw => matchedBy_rules_iff.mpr ⟨.imaginary, hw⟩

/-- Every beginning of a lexeme is a lexeme, but for two bytes at most. -/
theorem lagsBy_rules : lexer.rules.LagsBy 2 := by
  have hrules : ∀ r ∈ LexRule.all, r ∈ [abs, arg, norm, conj] ∨ r = imaginary ∨
      r.pattern.lag?.any (· ≤ 2) = true := by decide
  intro a ha
  obtain ⟨r, hr, rfl⟩ := List.mem_map.mp ha
  rcases hrules r hr with hkeyword | rfl | hlag
  · exact lagsBy_ident.of_matches fun _ => matches_ident_of_keyword hkeyword
  · exact lagsBy_imaginary
  · obtain ⟨k, hlag, hk⟩ := (Option.any_eq_true _ _).mp hlag
    exact lagsBy_of_lag? hlag (of_decide_eq_true hk)

/-- Over any bytes: a scan, wherever it begins, pushes back three bytes at most; so after any scans
and actions, and after any calls, errors included, at most three bytes wait to be read again, and for
each scan at most three were pushed back. -/
theorem pushback_le_three :
    (∀ c : Cursor, (c.pushbacks lexer.rules).length ≤ 3 ∧
      (c.scan lexer.rules).2.counts.unreads ≤ c.counts.unreads + 3) ∧
    ∀ bs : List UInt8,
      (∀ uses, ((Cursor.ofBytes bs).used lexer.rules uses).IsBoundedBy 3) ∧
        ∀ k, (lexer.called k (.ofBytes bs)).cursor.IsBoundedBy 3 := by
  have hlag := lagsBy_rules
  refine ⟨fun c => ?_, fun bs => ⟨Cursor.isBoundedBy_used hlag Nat.two_pos bs,
    Lexer.isBoundedBy_called hlag Nat.two_pos bs⟩⟩
  have hback := Cursor.length_pushbacks_le hlag Nat.two_pos c
  refine ⟨hback, ?_⟩
  rw [Cursor.unreads_scan]
  exact Nat.add_le_add_left hback _

/-- An exponent without digits is given back up to its letter, as far as the bound allows. -/
example : ((Cursor.ofBytes [0x31, 0x65, 0x2B, 0x78]).scan lexer.rules).2.counts = ⟨3, 4, 1⟩ := rfl

end Argand.Calc
