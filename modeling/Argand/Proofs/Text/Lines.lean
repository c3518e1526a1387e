-- SUMMARY: Lines are cut where they were joined, and what stays on one line.
import Argand.Proofs.Text.Utf8
import Argand.Text.Lines
import Argand.Text.Quoted
import Mathlib.Data.List.Induction
import Mathlib.Data.List.TakeWhile

/-!
# Lines

Bytes that were put together from lines, each with a line feed after it, are cut into these lines
again, less a carriage return at their end (`lines_flatMap`). Trimming a line leaves out the white
space at its end and no more (`isTrimmed_trimEnd`), so the carriage return makes no difference to it
(`exists_trimEnd_eq`). Quotations never break a line (`isOneLine_quoted`).
-/
namespace Argand.Text

variable {l bs rest : List UInt8} {c : Char} {cs ds : List Char} {n : Nat} {s t : String}

/-! ## Cutting -/

theorem linesFrom_append (first : List UInt8) (h : 10 ∉ l) :
    linesFrom first (l ++ 10 :: rest) = dropReturn (first.reverse ++ l) :: linesFrom [] rest := by
  induction l generalizing first with
  | nil => simp [linesFrom]
  | cons b l ih =>
      have hb : b ≠ 10 := fun hb => h (hb ▸ List.mem_cons_self)
      rw [List.cons_append, linesFrom, if_neg hb, ih _ fun hl => h (List.mem_cons_of_mem _ hl)]
      simp

theorem linesFrom_of_not_mem (first : List UInt8) (h : 10 ∉ l) (hne : first.reverse ++ l ≠ []) :
    linesFrom first l = [first.reverse ++ l] := by
  induction l generalizing first with
  | nil => simpa [linesFrom] using hne
  | cons b l ih =>
      have hb : b ≠ 10 := fun hb => h (hb ▸ List.mem_cons_self)
      rw [linesFrom, if_neg hb, ih _ (fun hl => h (List.mem_cons_of_mem _ hl)) (by simp)]
      simp

/-- Lines that hold no line feed are cut where they were joined. -/
theorem lines_flatMap {ls : List (List UInt8)} (h : ∀ l ∈ ls, 10 ∉ l) :
    lines (ls.flatMap (· ++ [10]) ++ rest) = ls.map dropReturn ++ lines rest := by
  induction ls with
  | nil => rfl
  | cons l ls ih =>
      rw [lines, List.flatMap_cons, List.append_assoc, List.append_assoc, List.singleton_append,
        linesFrom_append [] (h l List.mem_cons_self)]
      simpa [lines] using ih fun l hl => h l (List.mem_cons_of_mem _ hl)

/-! ## Trimming -/

/-- The characters with the property `White_Space`. -/
def whiteSpace : List Char :=
  ['\t', '\n', '\x0b', '\x0c', '\r', ' ', '\u0085', '\u00a0', '\u1680', '\u2000', '\u2001',
    '\u2002', '\u2003', '\u2004', '\u2005', '\u2006', '\u2007', '\u2008', '\u2009', '\u200a',
    '\u2028', '\u2029', '\u202f', '\u205f', '\u3000']

/-- Between an odd change and the next even one the property holds. -/
theorem oddChanges_cons_cons {a b : Nat} {changes : List Nat} (hab : a ≤ b) :
    CharSet.oddChanges (a :: b :: changes) n = true ↔
      a ≤ n ∧ n < b ∨ b ≤ n ∧ CharSet.oddChanges changes n = true := by
  rcases Nat.lt_or_ge n a with ha | ha
  · simp [CharSet.oddChanges, ha, Nat.not_le.mpr ha, Nat.not_le.mpr (Nat.lt_of_lt_of_le ha hab)]
  · rcases Nat.lt_or_ge n b with hb | hb
    · simp [CharSet.oddChanges, ha, hb, Nat.not_lt.mpr ha]
    · simp [CharSet.oddChanges, hb, Nat.not_lt.mpr ha, Nat.not_lt.mpr hb]

theorem contains_blanks_iff : blanks.contains c = true ↔ c ∈ whiteSpace := by
  constructor
  · intro h
    have hcode : c.toNat ∈ whiteSpace.map Char.toNat := by
      simp (disch := decide) only [CharSet.contains, blanks, oddChanges_cons_cons] at h
      simp only [CharSet.oddChanges, Bool.false_eq_true, and_false, or_false] at h
      simp [whiteSpace]
      omega
    obtain ⟨d, hd, heq⟩ := List.mem_map.mp hcode
    rwa [← Char.ofNat_toNat c, ← heq, Char.ofNat_toNat]
  · have hall : whiteSpace.all blanks.contains = true := by decide
    exact List.all_eq_true.mp hall c

/-- The line is the text with nothing but white space behind it, and the text does not end in white
space. -/
def IsTrimmed (line t : String) : Prop :=
  ∃ blank : List Char, line.toList = t.toList ++ blank ∧ (∀ c ∈ blank, c ∈ whiteSpace) ∧
    ∀ c ∈ t.toList.getLast?, c ∉ whiteSpace

theorem isTrimmed_trimEnd (line : String) : IsTrimmed line (trimEnd line) := by
  refine ⟨(line.toList.reverse.takeWhile blanks.contains).reverse, ?_, fun c hc => ?_,
    fun c hc => ?_⟩
  · rw [trimEnd, String.toList_ofList, ← List.reverse_append, List.takeWhile_append_dropWhile,
      List.reverse_reverse]
  · exact contains_blanks_iff.mp (List.mem_takeWhile_imp (List.mem_reverse.mp hc))
  · rw [trimEnd, String.toList_ofList, List.getLast?_reverse] at hc
    have hnot := List.head?_dropWhile_not blanks.contains line.toList.reverse
    rw [Option.mem_def.mp hc] at hnot
    exact fun hblank => by simp [contains_blanks_iff.mpr hblank] at hnot

/-- A line has one trimmed text. -/
theorem IsTrimmed.eq_trimEnd {line t : String} (h : IsTrimmed line t) : t = trimEnd line := by
  obtain ⟨blank, hline, hblank, hlast⟩ := h
  have hall : ∀ c ∈ blank.reverse, blanks.contains c = true := fun c hc =>
    contains_blanks_iff.mpr (hblank c (List.mem_reverse.mp hc))
  have hdrop : t.toList.reverse.dropWhile blanks.contains = t.toList.reverse := by
    cases hreverse : t.toList.reverse with
    | nil => rfl
    | cons c cs =>
        refine List.dropWhile_cons_of_neg fun hc => hlast c ?_ (contains_blanks_iff.mp hc)
        rw [Option.mem_def, ← List.head?_reverse, hreverse, List.head?_cons]
  rw [trimEnd, hline, List.reverse_append, List.dropWhile_append_of_pos hall, hdrop,
    List.reverse_reverse, String.ofList_toList]

/-! ## Bytes of lines -/

theorem eq_of_mem_utf8EncodeChar {b : UInt8} (h : b ∈ String.utf8EncodeChar c)
    (hb : b.toNat < 128) : c = Char.ofNat b.toNat := by
  rw [← val_of_mem_utf8EncodeChar h hb, Char.toNat_val, Char.ofNat_toNat]

/-- A text without line feed has no byte that is one. -/
theorem newline_not_mem_utf8Bytes (h : '\n' ∉ s.toList) : 10 ∉ utf8Bytes s := by
  intro hmem
  obtain ⟨c, hc, hbyte⟩ := List.mem_flatMap.mp hmem
  exact h (eq_of_mem_utf8EncodeChar hbyte (by decide) ▸ hc)

theorem utf8Bytes_append_return : utf8Bytes (s ++ "\r") = utf8Bytes s ++ [13] :=
  utf8Bytes_append

/-- A carriage return that is dropped is the last character of a text. -/
theorem dropReturn_cases (s : String) :
    dropReturn (utf8Bytes s) = utf8Bytes s ∨
      ∃ t, s = t ++ "\r" ∧ dropReturn (utf8Bytes s) = utf8Bytes t := by
  unfold dropReturn
  split
  · rename_i hlast
    obtain ⟨cs, rfl⟩ : ∃ cs, s = String.ofList cs := ⟨s.toList, String.ofList_toList.symm⟩
    rw [utf8Bytes, String.toList_ofList] at hlast
    cases cs using List.reverseRecOn with
    | nil => cases hlast
    | append_singleton cs c =>
        rw [List.flatMap_append, List.flatMap_singleton,
          List.getLast?_append_of_ne_nil _ String.utf8EncodeChar_ne_nil] at hlast
        obtain rfl : c = '\r' := eq_of_mem_utf8EncodeChar (List.mem_of_getLast? hlast) (by decide)
        have hs : String.ofList (cs ++ ['\r']) = String.ofList cs ++ "\r" := String.ofList_append
        refine .inr ⟨String.ofList cs, hs, ?_⟩
        rw [hs, utf8Bytes_append_return, List.dropLast_concat]
  · exact .inl rfl

theorem trimEnd_append_return : trimEnd (s ++ "\r") = trimEnd s := by
  have hblank : blanks.contains '\r' = true := by decide
  have hreverse : (s ++ "\r").toList.reverse = '\r' :: s.toList.reverse := by simp
  rw [trimEnd, hreverse, List.dropWhile_cons_of_pos hblank, trimEnd]

/-- The text of a line, with or without a carriage return at its end, is the same when trimmed. -/
theorem exists_trimEnd_eq (s : String) :
    ∃ t, dropReturn (utf8Bytes s) = utf8Bytes t ∧ trimEnd t = trimEnd s := by
  rcases dropReturn_cases s with h | ⟨t, rfl, h⟩
  · exact ⟨s, h, rfl⟩
  · exact ⟨t, h, trimEnd_append_return.symm⟩

/-- Bytes that are no text are none without a carriage return at their end. -/
theorem ofUtf8?_dropReturn_eq_none (h : ∀ s, utf8Bytes s ≠ bs) :
    ofUtf8? (dropReturn bs) = none := by
  rw [Option.eq_none_iff_forall_ne_some]
  intro s hs
  have hbytes := ofUtf8?_eq_some_iff.mp hs
  unfold dropReturn at hbytes
  split at hbytes
  · rename_i hlast
    refine h (s ++ "\r") ?_
    rw [utf8Bytes_append_return, ← hbytes]
    exact List.dropLast_append_getLast? 13 hlast
  · exact h s hbytes.symm

/-! ## Texts on one line -/

/-- The characters that end a line. -/
def lineBreaks : List Char :=
  ['\n', '\x0b', '\x0c', '\r', '\u0085', '\u2028', '\u2029']

/-- The text has no line break. -/
def IsOneLine (s : String) : Prop :=
  ∀ c ∈ s.toList, c ∉ lineBreaks

instance : Decidable (IsOneLine s) :=
  List.decidableBAll (fun c => c ∉ lineBreaks) s.toList

theorem IsOneLine.append (hs : IsOneLine s) (ht : IsOneLine t) : IsOneLine (s ++ t) := by
  intro c hc
  rw [String.toList_append] at hc
  exact (List.mem_append.mp hc).elim (hs c) (ht c)

theorem isOneLine_ofList : IsOneLine (String.ofList cs) ↔ ∀ c ∈ cs, c ∉ lineBreaks := by
  rw [IsOneLine, String.toList_ofList]

theorem not_mem_lineBreaks_digitChar (n : Nat) : n.digitChar ∉ lineBreaks := by
  intro h
  simp only [lineBreaks, List.mem_cons, List.not_mem_nil, or_false] at h
  rcases h with h | h | h | h | h | h | h
  all_goals exact Nat.digitChar_ne _ (by decide) h

theorem not_mem_lineBreaks_toDigits {base : Nat} (hbase : 1 < base) (h : c ∈ Nat.toDigits base n) :
    c ∉ lineBreaks := by
  induction n using Nat.strongRecOn with
  | ind n ih =>
      rw [Nat.toDigits_eq_if hbase] at h
      split at h
      · exact List.mem_singleton.mp h ▸ not_mem_lineBreaks_digitChar n
      · rename_i hle
        rcases List.mem_append.mp h with h | h
        · exact ih _ (Nat.div_lt_self (by omega) hbase) h
        · exact List.mem_singleton.mp h ▸ not_mem_lineBreaks_digitChar _

theorem isOneLine_toString (n : Nat) : IsOneLine (toString n) := by
  rw [Nat.toString_eq_ofList_toDigits, isOneLine_ofList]
  exact fun c hc => not_mem_lineBreaks_toDigits (by decide) hc

theorem shortEscape?_eq_some {e : Char} (h : shortEscape? c = some e) : e ∉ lineBreaks := by
  unfold shortEscape? at h
  split at h
  · rename_i hc
    obtain rfl := Option.some.inj h
    rcases hc with rfl | rfl <;> decide
  · split_ifs at h <;> cases h <;> decide

/-- A character stands in a quotation as itself or escaped, and line breaks are escaped. -/
theorem not_mem_lineBreaks_quotedChar {d : Char} (h : d ∈ quotedChar c) : d ∉ lineBreaks := by
  have hhidden : lineBreaks.all unprintable.contains = true := by decide +kernel
  unfold quotedChar at h
  split at h
  · rename_i e he
    rcases List.mem_cons.mp h with rfl | h
    · decide
    · exact List.mem_singleton.mp h ▸ shortEscape?_eq_some he
  · split at h
    · rcases List.mem_append.mp h with h | h
      · rcases List.mem_append.mp h with h | h
        · simp only [List.mem_cons, List.not_mem_nil, or_false] at h
          rcases h with rfl | rfl | rfl <;> decide
        · exact not_mem_lineBreaks_toDigits (by decide) h
      · exact List.mem_singleton.mp h ▸ (by decide)
    · rename_i hshown
      obtain rfl := List.mem_singleton.mp h
      intro hd
      simp [List.all_eq_true.mp hhidden d hd] at hshown

/-- A quotation never breaks a line, whatever it quotes. -/
theorem isOneLine_quoted (s : String) : IsOneLine (quoted s) := by
  rw [quoted, isOneLine_ofList]
  intro c hc
  rcases List.mem_append.mp hc with hc | hc
  · rcases List.mem_cons.mp hc with rfl | hc
    · decide
    · obtain ⟨d, -, hd⟩ := List.mem_flatMap.mp hc
      exact not_mem_lineBreaks_quotedChar hd
  · exact List.mem_singleton.mp hc ▸ (by decide)

end Argand.Text
