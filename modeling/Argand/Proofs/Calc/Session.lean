-- SUMMARY: What the bindings of a session are after any lines, whether these had values or not.
import Argand.Proofs.Calc.Evaluation

/-!
# Sessions over time

A line that has a value and assigns it writes its target; every other line leaves the bindings as
they are (`Session.evaluate_eq_written`). The bindings of a session are therefore those of all that
was written, a name in the place of its first assignment with the value of its last
(`Bindings.names_ofList`, `Bindings.lookup_of_mem_ofList`).
-/
namespace Argand.Calc

/-! ## Lists of assignments -/

namespace Bindings

variable {env : Bindings} {name : String} {z : Complex} {e : String × Complex}

theorem ofList_append_singleton (ws : List (String × Complex)) :
    ofList (ws ++ [e]) = (ofList ws).set e.1 e.2 := by
  simp [ofList]

/-- Names stand in the order of their first assignment. -/
theorem names_ofList (ws : List (String × Complex)) :
    (ofList ws).names = (ws.map (·.1)).eraseDups := by
  induction ws using List.reverseRecOn with
  | nil => rfl
  | append_singleton ws e ih =>
      have hmem : e.1 ∈ (ofList ws).names ↔ e.1 ∈ ws.map (·.1) := by
        rw [ih, List.mem_eraseDups]
      rw [ofList_append_singleton, names_set, List.map_append, List.map_singleton,
        List.eraseDups_append, ← ih]
      by_cases he : e.1 ∈ ws.map (·.1)
      · rw [if_pos (hmem.mpr he)]
        simp [List.removeAll, he]
      · rw [if_neg fun h => he (hmem.mp h)]
        simp [List.removeAll, he, List.eraseDups_cons]

/-- Names are bound once. -/
theorem nodup_names_ofList (ws : List (String × Complex)) : (ofList ws).names.Nodup := by
  induction ws using List.reverseRecOn with
  | nil => exact List.nodup_nil
  | append_singleton ws e ih =>
      rw [ofList_append_singleton, names_set]
      split
      · exact ih
      · rename_i hnot
        exact List.nodup_append.mpr ⟨ih, by simp, by
          intro x hx y hy heq
          exact hnot (List.mem_singleton.mp hy ▸ heq ▸ hx)⟩

/-- After binding a name its entry has the value, and the other entries are there already. -/
theorem mem_setIn {entries : List (String × Complex)} (hnodup : (entries.map (·.1)).Nodup)
    (he : e ∈ setIn name z entries) : e = (name, z) ∨ e ∈ entries ∧ e.1 ≠ name := by
  induction entries with
  | nil => exact .inl (by simpa [setIn] using he)
  | cons d rest ih =>
      obtain ⟨hnot, hrest⟩ := List.nodup_cons.mp hnodup
      rw [setIn] at he
      split at he
      · rename_i hd
        rcases List.mem_cons.mp he with rfl | he
        · exact .inl rfl
        · refine .inr ⟨List.mem_cons_of_mem _ he, fun heq => hnot ?_⟩
          exact List.mem_map.mpr ⟨e, he, heq.trans hd.symm⟩
      · rename_i hd
        rcases List.mem_cons.mp he with rfl | he
        · exact .inr ⟨List.mem_cons_self, hd⟩
        · rcases ih hrest he with heq | ⟨hmem, hne⟩
          · exact .inl heq
          · exact .inr ⟨List.mem_cons_of_mem _ hmem, hne⟩

/-- Every entry has the value assigned to its name last. -/
theorem lookup_of_mem_ofList (ws : List (String × Complex)) :
    ∀ e ∈ (ofList ws).entries, ws.reverse.lookup e.1 = some e.2 := by
  induction ws using List.reverseRecOn with
  | nil => simp [ofList, empty]
  | append_singleton ws d ih =>
      intro e he
      rw [ofList_append_singleton] at he
      rw [List.reverse_append, List.reverse_singleton, List.singleton_append, List.lookup_cons]
      rcases mem_setIn (nodup_names_ofList ws) he with rfl | ⟨hmem, hne⟩
      · simp
      · rw [beq_eq_false_iff_ne.mpr hne]
        exact ih e hmem

end Bindings

/-! ## Lines -/

/-- The name that a line of text assigns to. -/
def lineTarget? (line : String) : Option String :=
  match tokenize (Text.utf8Bytes line) with
  | .ok ts => target? ts
  | .error _ => none

namespace Session

/-- What a line writes: its target with its value, if it has both. -/
def written? (s : Session) (line : String) : Option (String × Complex) := do
  let z ← (s.evaluate line).1.toOption
  let name ← lineTarget? line
  return (name, z)

/-- What some lines write, one after the other. -/
def writes (s : Session) : List String → List (String × Complex)
  | [] => []
  | line :: rest => (s.written? line).toList ++ writes (s.evaluate line).2 rest

/-- A session after some lines. -/
def run (s : Session) (lines : List String) : Session :=
  lines.foldl (fun s line => (s.evaluate line).2) s

theorem target?_append_endToken (ts : List Token) (total : Nat) :
    target? (ts ++ [endToken total]) = target? ts := by
  match ts with
  | [] => rfl
  | [x] => simp [target?, isAssignment, endToken]
  | x :: e :: rest => simp [target?, isAssignment]

/-- Of a line there is its error, with the session as it was, or the value that its tokens have
under the bindings from before, which its target is set to. -/
theorem evaluate_cases (s : Session) (line : String) :
    (∃ e, s.evaluate line = (.error e, s)) ∨
      ∃ ts z, tokenize (Text.utf8Bytes line) =
          .ok (ts ++ [endToken (Text.utf8Bytes line).length]) ∧
        Descent.line ⟨s.bindings⟩ ts = some z ∧ lineTarget? line = target? ts ∧
        s.evaluate line = (.ok z, ⟨assigned s.bindings ts z⟩) := by
  rcases evaluateBytes_cases s.bindings (Text.utf8Bytes line) with
      ⟨e, -, heval⟩ | ⟨-, ts, z, hts, -, hvalue, heval⟩
  · exact .inl ⟨e, by rw [evaluate, Calc.evaluate, heval]⟩
  · have htokens := tokenize_eq_ok_iff.mpr hts
    refine .inr ⟨ts, z, htokens, hvalue.reads, ?_, by rw [evaluate, Calc.evaluate, heval]⟩
    rw [lineTarget?, htokens]
    exact target?_append_endToken ts _

/-- A line that writes sets its target, and another line changes nothing. -/
theorem evaluate_eq_written (s : Session) (line : String) :
    (s.evaluate line).2 =
      match s.written? line with
      | some (name, z) => ⟨s.bindings.set name z⟩
      | none => s := by
  have hcases := evaluate_cases s line
  rw [written?]
  -- What the line gives is replaced by a variable, so that nothing computes it.
  generalize s.evaluate line = r at hcases
  rcases hcases with ⟨e, rfl⟩ | ⟨ts, z, -, -, htarget, rfl⟩
  · rfl
  · simp only [htarget, assigned]
    cases target? ts with
    | none => rfl
    | some name => rfl

/-- The bindings after some lines are those before, with what the lines write. -/
theorem bindings_run (ws : List (String × Complex)) (s : Session) (lines : List String)
    (hs : s.bindings = Bindings.ofList ws) :
    (s.run lines).bindings = Bindings.ofList (ws ++ s.writes lines) := by
  induction lines generalizing s ws with
  | nil => simpa [run, writes] using hs
  | cons line rest ih =>
      have hnext : (s.evaluate line).2.bindings =
          Bindings.ofList (ws ++ (s.written? line).toList) := by
        rw [evaluate_eq_written]
        cases s.written? line with
        | none => simpa using hs
        | some e => rw [Option.toList_some, Bindings.ofList_append_singleton, hs]
      rw [writes, ← List.append_assoc, run, List.foldl_cons]
      exact ih _ _ hnext

theorem evaluate_of_error {s : Session} {line : String} {e : Error}
    (h : (s.evaluate line).1 = .error e) : (s.evaluate line).2 = s := by
  have hcases := evaluate_cases s line
  generalize s.evaluate line = r at h hcases
  rcases hcases with ⟨e, rfl⟩ | ⟨ts, z, -, -, -, rfl⟩
  · rfl
  · cases h

theorem evaluate_of_target?_eq_none {s : Session} {line : String} (h : lineTarget? line = none) :
    (s.evaluate line).2 = s := by
  have hcases := evaluate_cases s line
  generalize s.evaluate line = r at hcases
  rcases hcases with ⟨e, rfl⟩ | ⟨ts, z, -, -, htarget, rfl⟩
  · rfl
  · rw [assigned, ← htarget, h]

/-- An assignment has the value of its right-hand side under the bindings from before, and binds it.
-/
theorem evaluate_of_target? {s : Session} {line name : String} {z : Complex}
    (h : (s.evaluate line).1 = .ok z) (hname : lineTarget? line = some name) :
    (s.evaluate line).2 = ⟨s.bindings.set name z⟩ ∧
      ∃ ts, tokenize (Text.utf8Bytes line) =
          .ok (ts ++ [endToken (Text.utf8Bytes line).length]) ∧
        Descent.expr ⟨s.bindings⟩ (body ts) = some (z, []) := by
  have hcases := evaluate_cases s line
  generalize s.evaluate line = r at h hcases
  rcases hcases with ⟨e, rfl⟩ | ⟨ts, z', htokens, hvalue, htarget, rfl⟩
  · cases h
  · obtain rfl := Except.ok.inj h
    refine ⟨by rw [assigned, ← htarget, hname], ts, htokens, ?_⟩
    unfold Descent.line at hvalue
    split at hvalue
    · rename_i x hexpr
      obtain rfl := Option.some.inj hvalue
      exact hexpr
    · cases hvalue

/-- After any lines a session binds the targets of the assignments that had values, in the order of
their first such assignment, each to the value of its last. Of the next line, one that has an error
or assigns nothing changes nothing, and the value of an assignment is that of its right-hand side
under the bindings from before it. -/
theorem bindings_run_new (lines : List String) :
    (new.run lines).bindings.names = ((new.writes lines).map (·.1)).eraseDups ∧
    (∀ e ∈ (new.run lines).bindings.entries, (new.writes lines).reverse.lookup e.1 = some e.2) ∧
    ∀ line,
      (∀ e, ((new.run lines).evaluate line).1 = .error e →
        ((new.run lines).evaluate line).2 = new.run lines) ∧
      (lineTarget? line = none → ((new.run lines).evaluate line).2 = new.run lines) ∧
      ∀ name z, ((new.run lines).evaluate line).1 = .ok z → lineTarget? line = some name →
        ((new.run lines).evaluate line).2 = ⟨(new.run lines).bindings.set name z⟩ ∧
        ∃ ts, tokenize (Text.utf8Bytes line) =
            .ok (ts ++ [endToken (Text.utf8Bytes line).length]) ∧
          Descent.expr ⟨(new.run lines).bindings⟩ (body ts) = some (z, []) := by
  have hrun : (new.run lines).bindings = Bindings.ofList (new.writes lines) :=
    bindings_run [] new lines rfl
  refine ⟨?_, ?_, fun line => ⟨fun e he => evaluate_of_error he, evaluate_of_target?_eq_none,
    fun name z hz hname => evaluate_of_target? hz hname⟩⟩
  · rw [hrun]
    exact Bindings.names_ofList _
  · rw [hrun]
    exact Bindings.lookup_of_mem_ofList _

end Session
end Argand.Calc
