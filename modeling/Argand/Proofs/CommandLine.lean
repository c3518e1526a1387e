-- SUMMARY: Lines give the same output from options, from a file and from standard input, one line for each that is not blank.
import Argand.CommandLine
import Argand.Proofs.Calc.RoundTrip
import Argand.Proofs.Text.Lines

/-!
# Lines on the command line

What a session answers to lines is said without the functions that print it (`Answers`): a line of
white space has no answer, and any other line has one, which is its value or its error. An answer
never breaks its line: values are written with digits, and messages quote what they name
(`Answers.isOneLine`). Lines that are read from bytes differ from lines given as options in a
carriage return at most, so the program prints the same answers (`outcome_of_lines`).
-/
namespace Argand

open Calc Text

/-! ## Values on one line -/

namespace Decimal

variable {d : Decimal} {x : Float} {cs : List Char} {n places : Nat}

theorem not_mem_lineBreaks_text {c : Char} (h : c ∈ d.text) : c ∉ lineBreaks := by
  have hdigits : ∀ {k : Nat}, ∀ c ∈ List.replicate k '0' ++ Nat.toDigits 10 d.digits,
      c ∉ lineBreaks := fun {k} c hc => by
    rcases List.mem_append.mp hc with hc | hc
    · obtain rfl := List.eq_of_mem_replicate hc
      decide
    · exact not_mem_lineBreaks_toDigits (by decide) hc
  unfold text at h
  split at h
  · rename_i zeros _
    exact hdigits (k := zeros) c (List.mem_append.mpr (List.mem_append.mp h).symm)
  · rw [pointed] at h
    rcases List.mem_append.mp h with h | h
    · exact hdigits c (List.mem_of_mem_take h)
    · rcases List.mem_cons.mp h with rfl | h
      · decide
      · exact hdigits c (List.mem_of_mem_drop h)

theorem isOneLine_ofFloat (x : Float) : IsOneLine (ofFloat x) := by
  have hsign : ∀ s, IsOneLine (signText s) := by
    rintro (_ | _) <;> decide
  unfold ofFloat
  split
  · decide
  · exact (hsign _).append (by decide)
  · exact (hsign _).append (by decide)
  · exact (hsign _).append (isOneLine_ofList.mpr fun c hc => not_mem_lineBreaks_text hc)

end Decimal

theorem Complex.isOneLine_text (z : Complex) : IsOneLine z.text := by
  have hunit : IsOneLine "i" := by decide
  have hplus : IsOneLine " + " := by decide
  unfold text
  split
  · decide
  · exact (Decimal.isOneLine_ofFloat _).append hunit
  · exact Decimal.isOneLine_ofFloat _
  · exact (((Decimal.isOneLine_ofFloat _).append hplus).append (Decimal.isOneLine_ofFloat _)).append
      hunit

/-! ## Errors on one line -/

namespace Calc

variable {env : Bindings} {e : Error}

/-- The first fault is an error of the lexer, names a symbol, or names what has no value. -/
theorem firstFault_cases {read : List Token} {ds : List (Delivery Token)}
    (h : firstFault env read ds = some e) :
    (∃ l, e = .lexical l) ∨ (∃ (X : Symbol) (n : Nat), e = .syntactic X.label n) ∨
      ∃ s, e = .semantic (.unbound s) := by
  induction ds generalizing read with
  | nil => simp [firstFault] at h
  | cons d ds ih =>
      cases d with
      | nothing => simp [firstFault] at h
      | failed l => exact .inl ⟨l, by simpa [firstFault, eq_comm] using h⟩
      | token t =>
          rw [firstFault] at h
          split at h
          · rename_i s _
            exact .inr (.inr ⟨s, (Option.some.inj h).symm⟩)
          · split at h
            · exact ih h
            · exact .inr (.inl ⟨t.kind, t.offset, (Option.some.inj h).symm⟩)

theorem isOneLine_label (X : Symbol) : IsOneLine X.label := by
  cases X <;> decide

theorem isOneLine_message {read : List Token} {ds : List (Delivery Token)}
    (h : firstFault env read ds = some e) : IsOneLine e.message := by
  have hunexpected : IsOneLine "unexpected " := by decide
  have hoffset : IsOneLine " at offset " := by decide
  have hunbound : IsOneLine "unbound identifier " := by decide
  rcases firstFault_cases h with ⟨l, rfl⟩ | ⟨X, n, rfl⟩ | ⟨s, rfl⟩
  · exact ((hunexpected.append (isOneLine_quoted _)).append hoffset).append (isOneLine_toString _)
  · exact ((hunexpected.append (isOneLine_label X)).append hoffset).append (isOneLine_toString n)
  · exact hunbound.append (isOneLine_quoted s)

theorem isOneLine_kind : ∀ e : Error, IsOneLine e.kind
  | .lexical _ => (by decide : IsOneLine "lexical error")
  | .syntactic _ _ => (by decide : IsOneLine "syntax error")
  | .semantic _ => (by decide : IsOneLine "semantic error")
  | .grammar _ => (by decide : IsOneLine "grammar error")

end Calc

namespace CommandLine

variable {s s' : Session} {line t : String} {lines texts : List String} {input : List UInt8}
  {e : Error} {z : Complex}

/-! ## Answers of a session -/

/-- What a session prints for some lines that are evaluated one after the other. A line of white
space prints nothing. Of any other line the white space at its end is left out, and it prints its
value, or the kind of its error in brackets and the message. -/
inductive Answers : Session → List String → List String → Prop where
  | done {s : Session} : Answers s [] []
  | blank {s : Session} {line : String} {lines texts : List String} :
      IsTrimmed line "" → Answers s lines texts → Answers s (line :: lines) texts
  | value {s s' : Session} {line t : String} {z : Complex} {lines texts : List String} :
      IsTrimmed line t → t ≠ "" → s.evaluate t = (.ok z, s') → Answers s' lines texts →
      Answers s (line :: lines) (z.text :: texts)
  | error {s s' : Session} {line t : String} {e : Error} {lines texts : List String} :
      IsTrimmed line t → t ≠ "" → s.evaluate t = (.error e, s') → Answers s' lines texts →
      Answers s (line :: lines) (("[" ++ e.kind ++ "] " ++ e.message) :: texts)

/-- The error of a line never breaks the line that it is printed on. -/
theorem isOneLine_error (h : s.evaluate line = (.error e, s')) :
    IsOneLine ("[" ++ e.kind ++ "] " ++ e.message) := by
  have hopen : IsOneLine "[" := by decide
  have hclose : IsOneLine "] " := by decide
  have herror : (evaluateBytes s.bindings (utf8Bytes line)).1 = .error e := (Prod.mk.inj h).1
  rcases evaluateBytes_cases s.bindings (utf8Bytes line) with
      ⟨e', hfault, heval⟩ | ⟨-, w, z, -, -, -, heval⟩ <;> rw [heval] at herror
  · obtain rfl := Except.error.inj herror
    exact ((hopen.append (isOneLine_kind e')).append hclose).append (isOneLine_message hfault)
  · cases herror

theorem Answers.isOneLine (h : Answers s lines texts) : ∀ text ∈ texts, IsOneLine text := by
  induction h with
  | done => simp
  | blank _ _ ih => exact ih
  | value _ _ _ _ ih => exact List.forall_mem_cons.mpr ⟨Complex.isOneLine_text _, ih⟩
  | error _ _ heval _ ih => exact List.forall_mem_cons.mpr ⟨isOneLine_error heval, ih⟩

/-- Whether a line is blank, and what is evaluated of it, is seen from the trimmed line. -/
theorem outputOfLines_cons (s : Session) (line : String) (lines : List String) :
    outputOfLines s (line :: lines) =
      if trimEnd line = "" then outputOfLines s lines
      else resultLine (s.evaluate (trimEnd line)).1 ::
        outputOfLines (s.evaluate (trimEnd line)).2 lines := by
  rw [outputOfLines, evaluateTrimmed]
  by_cases hblank : trimEnd line = "" <;> simp [hblank]

theorem outputOfLines_congr {lines' : List String} (h : lines'.map trimEnd = lines.map trimEnd) :
    outputOfLines s lines' = outputOfLines s lines := by
  induction lines generalizing lines' s with
  | nil =>
      obtain rfl := List.map_eq_nil_iff.mp h
      rfl
  | cons line lines ih =>
      obtain ⟨line', lines', rfl, hline, hlines⟩ := List.map_eq_cons_iff.mp h
      rw [outputOfLines_cons, outputOfLines_cons, hline, ih hlines, ih hlines]

theorem answers_outputOfLines (s : Session) (lines : List String) :
    Answers s lines (outputOfLines s lines) := by
  induction lines generalizing s with
  | nil => exact .done
  | cons line lines ih =>
      have htrimmed := isTrimmed_trimEnd line
      rw [outputOfLines_cons]
      split
      · rename_i hblank
        rw [hblank] at htrimmed
        exact .blank htrimmed (ih s)
      · rename_i hne
        rcases heval : s.evaluate (trimEnd line) with ⟨e | z, s'⟩
        · exact .error htrimmed hne heval (ih s')
        · exact .value htrimmed hne heval (ih s')

/-- A session answers lines in one way only. -/
theorem Answers.eq_outputOfLines (h : Answers s lines texts) : texts = outputOfLines s lines := by
  induction h with
  | done => rfl
  | blank htrimmed _ ih => rw [outputOfLines_cons, if_pos htrimmed.eq_trimEnd.symm, ih]
  | value htrimmed hne heval _ ih | error htrimmed hne heval _ ih =>
      obtain rfl := htrimmed.eq_trimEnd
      rw [outputOfLines_cons, if_neg hne, heval, ih]
      rfl

theorem evaluate_of_evaluates {ts : List Token}
    (htokens : tokenize (utf8Bytes line) = .ok (ts ++ [endToken (utf8Bytes line).length]))
    (h : Evaluates s.bindings .line ts z) :
    s.evaluate line = (.ok z, ⟨assigned s.bindings ts z⟩) := by
  rw [Session.evaluate, Calc.evaluate, evaluateBytes_of_evaluates htokens h]

/-! ## Outcomes -/

/-- The program ends with this exit code after it has printed the texts, a line feed after each. -/
structure Outcome.Prints (o : Outcome) (code : Nat) (texts : List String) : Prop where
  code_eq : o.code = code
  output_eq : o.output.toList = texts.flatMap fun text => text.toList ++ ['\n']

theorem Outcome.Prints.eq {o : Outcome} {code : Nat} (h : o.Prints code texts) :
    o = ⟨code, String.ofList (texts.flatMap fun text => text.toList ++ ['\n'])⟩ := by
  cases o
  simp only [← h.code_eq, ← h.output_eq, String.ofList_toList]

theorem prints_joinLines (code : Nat) (texts : List String) :
    Outcome.Prints ⟨code, joinLines texts⟩ code texts := by
  refine ⟨rfl, ?_⟩
  rw [joinLines, String.toList_join, List.flatMap_map]
  simp only [String.toList_append]
  rfl

/-! ## Lines read from bytes -/

/-- The bytes of some lines, each with a line feed after it. -/
def bytesOfLines (lines : List String) : List UInt8 :=
  lines.flatMap fun line => utf8Bytes line ++ [10]

theorem readableLines_append {ls : List (List UInt8)} :
    readableLines (lines.map utf8Bytes ++ ls) =
      (lines ++ (readableLines ls).1, (readableLines ls).2) := by
  induction lines with
  | nil => rfl
  | cons line rest ih =>
      rw [List.map_cons, List.cons_append, readableLines, ofUtf8?_utf8Bytes]
      simp [ih]

/-- What is read from the bytes of lines are these lines, less carriage returns at their ends. -/
theorem exists_lines_eq (lines : List String) :
    ∃ ts : List String, (lines.map utf8Bytes).map dropReturn = ts.map utf8Bytes ∧
      ts.map trimEnd = lines.map trimEnd := by
  induction lines with
  | nil => exact ⟨[], rfl, rfl⟩
  | cons line rest ih =>
      obtain ⟨ts, hts, htrim⟩ := ih
      obtain ⟨t, ht, htrim'⟩ := exists_trimEnd_eq line
      exact ⟨t :: ts, by simp [ht, ← hts], by simp [htrim, htrim']⟩

/-- The bytes that a request reads its lines from, if it reads any. -/
def Request.source? (input : List UInt8) (file : String → Option (List UInt8)) :
    Request → Option (List UInt8)
  | .standardInput => some input
  | .file path => file path
  | .evaluate _ | .grammar | .help | .version => none

theorem Request.outcome_of_source? {r : Request} {bs : List UInt8}
    {file : String → Option (List UInt8)} (h : r.source? input file = some bs) :
    r.outcome input file = evaluateInput bs := by
  cases r with
  | standardInput =>
      obtain rfl := Option.some.inj h
      rfl
  | file path =>
      rw [outcome, show file path = some bs from h]
  | _ => cases h

section

variable (hlines : ∀ line ∈ lines, '\n' ∉ line.toList)
include hlines

/-- Reading the bytes of lines and more gives lines with the same output and what more there is to
read. -/
theorem exists_readableLines (rest : List UInt8) :
    ∃ ts : List String, ts.map trimEnd = lines.map trimEnd ∧
      readableLines (Text.lines (bytesOfLines lines ++ rest)) =
        (ts ++ (readableLines (Text.lines rest)).1, (readableLines (Text.lines rest)).2) := by
  have hbytes : bytesOfLines lines = (lines.map utf8Bytes).flatMap (· ++ [10]) := by
    rw [bytesOfLines, List.flatMap_map]
  have hfeed : ∀ l ∈ lines.map utf8Bytes, 10 ∉ l := fun l hl => by
    obtain ⟨line, hline, rfl⟩ := List.mem_map.mp hl
    exact newline_not_mem_utf8Bytes (hlines line hline)
  obtain ⟨ts, hts, htrim⟩ := exists_lines_eq lines
  refine ⟨ts, htrim, ?_⟩
  rw [hbytes, lines_flatMap hfeed, hts, readableLines_append]

theorem evaluateInput_bytesOfLines :
    evaluateInput (bytesOfLines lines) = ⟨0, joinLines (outputOfLines .new lines)⟩ := by
  obtain ⟨ts, htrim, hread⟩ := exists_readableLines hlines []
  have hnone : readableLines (Text.lines []) = ([], false) := rfl
  rw [List.append_nil, hnone, List.append_nil] at hread
  simp only [evaluateInput, hread, outputOfLines_congr htrim]
  rfl

/-- A line that is not text ends the output, and nothing after it is looked at. -/
theorem evaluateInput_of_unreadable {bad rest : List UInt8} (hbad : ∀ s, utf8Bytes s ≠ bad)
    (hfeed : 10 ∉ bad) (hrest : rest = [] ∨ rest.head? = some 10) :
    evaluateInput (bytesOfLines lines ++ (bad ++ rest)) =
      ⟨1, joinLines (outputOfLines .new lines)⟩ := by
  obtain ⟨ts, htrim, hread⟩ := exists_readableLines hlines (bad ++ rest)
  have hnone : readableLines (Text.lines (bad ++ rest)) = ([], true) := by
    rcases hrest with rfl | hrest
    · have hne : bad ≠ [] := (hbad "").symm
      have hnone : ofUtf8? bad = none :=
        Option.eq_none_iff_forall_ne_some.mpr fun s hs => hbad s (ofUtf8?_eq_some_iff.mp hs).symm
      rw [List.append_nil, Text.lines, linesFrom_of_not_mem [] hfeed hne]
      simp [readableLines, hnone]
    · obtain ⟨rest, rfl⟩ := List.head?_eq_some_iff.mp hrest
      rw [Text.lines, linesFrom_append [] hfeed, readableLines]
      exact (ofUtf8?_dropReturn_eq_none hbad) ▸ rfl
  rw [hnone, List.append_nil] at hread
  simp only [evaluateInput, hread, outputOfLines_congr htrim]
  rfl

/-- Lines have the same output whether they are given as options, in a file or on standard input:
one line, which nothing in it breaks, for each line that is not white space, with the value or the
error that the line has in the session of the lines before it. No error of a line stops the lines
after it. A line that is not text ends the program with an error, after the output of the lines
before it. -/
theorem outcome_of_lines :
    (∃ texts, Answers .new lines texts) ∧
    ∀ texts, Answers .new lines texts →
      (∀ text ∈ texts, IsOneLine text) ∧
      (∀ input file, ((Request.evaluate lines).outcome input file).Prints 0 texts) ∧
      (∀ (r : Request) input file, r.source? input file = some (bytesOfLines lines) →
        (r.outcome input file).Prints 0 texts) ∧
      ∀ (r : Request) input file bad rest, (∀ s, utf8Bytes s ≠ bad) → 10 ∉ bad →
        rest = [] ∨ rest.head? = some 10 →
        r.source? input file = some (bytesOfLines lines ++ (bad ++ rest)) →
        (r.outcome input file).Prints 1 texts := by
  refine ⟨⟨_, answers_outputOfLines .new lines⟩, fun texts h => ⟨h.isOneLine, ?_⟩⟩
  obtain rfl := h.eq_outputOfLines
  refine ⟨fun _ _ => prints_joinLines 0 _, fun r input file hsource => ?_,
    fun r input file bad rest hbad hfeed hrest hsource => ?_⟩
  · rw [Request.outcome_of_source? hsource, evaluateInput_bytesOfLines hlines]
    exact prints_joinLines 0 _
  · rw [Request.outcome_of_source? hsource,
      evaluateInput_of_unreadable hlines hbad hfeed hrest]
    exact prints_joinLines 1 _

end

/-- An assignment with a carriage return behind it, a blank line, an error and a line that reads
what was assigned print three lines, as options and from standard input; and so they do with a line
that is not text behind them. -/
theorem outcome_of_lines_standardInput :
    (∀ line ∈ ["x = i\r", " \t", "?", "x * x"], '\n' ∉ line.toList) ∧
      (Request.evaluate ["x = i\r", " \t", "?", "x * x"]).outcome [] (fun _ => none) =
        ⟨0, "1i\n[lexical error] unexpected \"?\" at offset 0\n-1\n"⟩ ∧
      Request.standardInput.outcome (utf8Bytes "x = i\r\n \t\n?\nx * x\n") (fun _ => none) =
        ⟨0, "1i\n[lexical error] unexpected \"?\" at offset 0\n-1\n"⟩ ∧
      Request.standardInput.outcome (utf8Bytes "x = i\r\n \t\n?\nx * x\n" ++ [255, 10, 120])
          (fun _ => none) =
        ⟨1, "1i\n[lexical error] unexpected \"?\" at offset 0\n-1\n"⟩ := by
  have hlines : ∀ line ∈ ["x = i\r", " \t", "?", "x * x"], '\n' ∉ line.toList := by decide
  have hbad : ∀ s, utf8Bytes s ≠ [255] := fun s hs => by
    have hnone : ofUtf8? [255] = none := by decide
    simp [ofUtf8?_eq_some_iff.mpr hs.symm] at hnone
  have hassign : Session.new.evaluate "x = i" = (.ok .i, ⟨Bindings.empty.set "x" .i⟩) := by
    have htokens : tokenize (utf8Bytes "x = i") = .ok ([⟨.ident, .name "x", some ⟨0, 1⟩⟩,
        ⟨.equals, .absent, some ⟨2, 3⟩⟩, ⟨.imaginary, .number .i, some ⟨4, 5⟩⟩] ++
          [endToken 5]) := rfl
    have hvalue : Evaluates .empty .expr [⟨.imaginary, .number .i, some ⟨4, 5⟩⟩] .i :=
      .expr (.term (.factor (.inner (.operand rfl))))
    exact evaluate_of_evaluates htokens (.assign rfl rfl hvalue)
  have hwrong : ∀ s : Session, s.evaluate "?" = (.error (.lexical ⟨0, "?"⟩), s) := fun s => by
    have hfault : firstFault s.bindings [] (deliveriesOf (utf8Bytes "?")) =
        some (.lexical ⟨0, "?"⟩) := rfl
    rw [Session.evaluate, Calc.evaluate, evaluateBytes_of_fault hfault]
  have hsquare : Session.evaluate ⟨Bindings.empty.set "x" .i⟩ "x * x" =
      (.ok (.i * .i), ⟨Bindings.empty.set "x" .i⟩) := by
    have htokens : tokenize (utf8Bytes "x * x") = .ok ([⟨.ident, .name "x", some ⟨0, 1⟩⟩] ++
        ⟨.asterisk, .absent, some ⟨2, 3⟩⟩ :: [⟨.ident, .name "x", some ⟨4, 5⟩⟩] ++
          [endToken 5]) := rfl
    have hoperand : ∀ span, Evaluates (Bindings.empty.set "x" .i) .factor
        [⟨.ident, .name "x", span⟩] .i := fun _ => .factor (.inner (.operand rfl))
    exact evaluate_of_evaluates htokens
      (.eval (.expr (.product (.term (hoperand _)) rfl (hoperand _))))
  have hanswers : Answers .new ["x = i\r", " \t", "?", "x * x"]
      ["1i", "[lexical error] unexpected \"?\" at offset 0", "-1"] := by
    have htexts : Complex.i.text = "1i" ∧ (Complex.i * Complex.i).text = "-1" := by decide +kernel
    rw [← htexts.1, ← htexts.2]
    exact .value (isTrimmed_trimEnd "x = i\r") (by decide) hassign <|
      .blank (isTrimmed_trimEnd " \t") <|
      .error (isTrimmed_trimEnd "?") (by decide) (hwrong _) <|
      .value (isTrimmed_trimEnd "x * x") (by decide) hsquare .done
  obtain ⟨-, hoptions, hsource, hunreadable⟩ := (outcome_of_lines hlines).2 _ hanswers
  exact ⟨hlines, (hoptions [] fun _ => none).eq, (hsource .standardInput _ (fun _ => none) rfl).eq,
    (hunreadable .standardInput _ (fun _ => none) [255] [10, 120] hbad (by decide) (.inr rfl)
      rfl).eq⟩

end CommandLine
end Argand
