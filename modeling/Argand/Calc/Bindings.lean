-- SUMMARY: Names with their values, in the order of their first assignment.
import Argand.Complex
import Argand.Text.Quoted

/-!
# Bindings

Assigning a name again replaces its value and keeps its place. Reading a name never binds it.
-/
namespace Argand.Calc

/-- Why an operand has no value. -/
inductive SemanticError where
  /-- A name was read that has never been assigned. -/
  | unbound (name : String)
  /-- The operand at this place of a phrase carries no value of the kind the phrase needs. -/
  | operand (phrase : String) (index : Nat)
deriving DecidableEq

def SemanticError.message : SemanticError → String
  | .unbound name => "unbound identifier " ++ Text.quoted name
  | .operand phrase index => "operand " ++ toString index ++ " of " ++ phrase ++ " has no value"

structure Bindings where
  entries : List (String × Complex)

namespace Bindings

def empty : Bindings := ⟨[]⟩

def size (env : Bindings) : Nat :=
  env.entries.length

def isEmpty (env : Bindings) : Bool :=
  env.entries.isEmpty

/-- The names in the order of their first assignment. -/
def names (env : Bindings) : List String :=
  env.entries.map (·.1)

/-- The value of the first entry with this name. -/
def getIn? (name : String) : List (String × Complex) → Option Complex
  | [] => none
  | e :: rest => if e.1 = name then some e.2 else getIn? name rest

def get? (env : Bindings) (name : String) : Option Complex :=
  getIn? name env.entries

def contains (env : Bindings) (name : String) : Bool :=
  (env.get? name).isSome

/-- The value of a name that must have one. -/
def lookup (env : Bindings) (name : String) : Except SemanticError Complex :=
  match env.get? name with
  | some z => .ok z
  | none => .error (.unbound name)

/-- Replace the value of the first entry with this name, or put a new entry at the end. -/
def setIn (name : String) (z : Complex) : List (String × Complex) → List (String × Complex)
  | [] => [(name, z)]
  | e :: rest => if e.1 = name then (name, z) :: rest else e :: setIn name z rest

/-- Bind a name to a value. -/
def set (env : Bindings) (name : String) (z : Complex) : Bindings :=
  ⟨setIn name z env.entries⟩

/-- The bindings after a list of assignments. -/
def ofList (entries : List (String × Complex)) : Bindings :=
  entries.foldl (fun env e => env.set e.1 e.2) empty

/-! ## Laws -/

theorem get?_empty (name : String) : empty.get? name = none := rfl

theorem getIn?_setIn (name other : String) (z : Complex) (entries : List (String × Complex)) :
    getIn? other (setIn name z entries) =
      if name = other then some z else getIn? other entries := by
  induction entries with
  | nil => rfl
  | cons e rest ih =>
    by_cases he : e.1 = name
    · by_cases ho : name = other <;> simp [setIn, getIn?, he, ho]
    · by_cases ho : name = other <;> simp_all [setIn, getIn?]

/-- A name has the value bound last, and other names keep theirs. -/
theorem get?_set (env : Bindings) (name other : String) (z : Complex) :
    (env.set name z).get? other = if name = other then some z else env.get? other :=
  getIn?_setIn name other z env.entries

theorem map_fst_setIn (name : String) (z : Complex) (entries : List (String × Complex)) :
    (setIn name z entries).map (·.1) =
      if name ∈ entries.map (·.1) then entries.map (·.1) else entries.map (·.1) ++ [name] := by
  induction entries with
  | nil => rfl
  | cons e rest ih =>
    by_cases he : e.1 = name
    · simp [setIn, he]
    · have hne : ¬ name = e.1 := fun h => he h.symm
      rw [setIn, if_neg he, List.map_cons, ih, List.map_cons]
      simp only [List.mem_cons, hne, false_or]
      split <;> rfl

/-- Binding puts a name at the end, unless it has a place. -/
theorem names_set (env : Bindings) (name : String) (z : Complex) :
    (env.set name z).names = if name ∈ env.names then env.names else env.names ++ [name] :=
  map_fst_setIn name z env.entries

end Bindings
end Argand.Calc
