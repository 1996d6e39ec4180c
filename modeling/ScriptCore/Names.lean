import ScriptCore.Value

/-!
# Named bindings

A mapping from names to values: the locals of a frame, the globals, and the attributes of
classes and objects.  A name is found by its text; a binding keeps the string under which
it was first made.
-/

namespace ScriptCore

/-- Bindings, in the order in which their names first came. -/
abbrev Names := List (Str × Value)

namespace Names

/-- The value bound to a name. -/
def find? (names : Names) (name : String) : Option Value :=
  match names with
  | [] => none
  | (bound, value) :: rest => if bound.text == name then some value else find? rest name

/-- Bind a name, in place of an earlier binding of it. -/
def insert (names : Names) (name : Str) (value : Value) : Names :=
  match names with
  | [] => [(name, value)]
  | (bound, old) :: rest =>
      if bound.text == name.text then (bound, value) :: rest
      else (bound, old) :: insert rest name value

/-- Remove the binding of a name. -/
def erase (names : Names) (name : String) : Names :=
  names.filter fun binding => binding.1.text != name

/-- The bound names in increasing order. -/
def sorted (names : Names) : List Str :=
  Str.sort (names.map Prod.fst)

/-- After a binding its name gives the bound value, and every other name gives what it
gave before. -/
@[simp]
theorem find?_insert (names : Names) (name : Str) (value : Value) (other : String) :
    (names.insert name value).find? other =
      if name.text = other then some value else names.find? other := by
  induction names with
  | nil => simp [insert, find?]
  | cons binding rest ih =>
      obtain ⟨bound, old⟩ := binding
      by_cases same : bound.text = name.text
      · by_cases asked : name.text = other
        · simp [insert, find?, same, asked]
        · simp [insert, find?, same, asked]
      · by_cases asked : bound.text = other
        · subst asked
          have different : name.text ≠ bound.text := fun equal => same equal.symm
          simp [insert, find?, same, different]
        · simp [insert, find?, same, asked, ih]

/-- A removed name is bound to nothing, and every other name gives what it gave before. -/
@[simp]
theorem find?_erase (names : Names) (name other : String) :
    (names.erase name).find? other = if name = other then none else names.find? other := by
  induction names with
  | nil => simp [erase, find?]
  | cons binding rest ih =>
      obtain ⟨bound, value⟩ := binding
      unfold erase at ih ⊢
      by_cases same : bound.text = name
      · by_cases asked : name = other
        · simpa [same, asked] using ih
        · simp [find?, same, asked, ih]
      · by_cases asked : bound.text = other
        · subst asked
          simp [find?, same, Ne.symm same]
        · simp [find?, same, asked, ih]

/-- The references held by bindings. -/
def references (names : Names) : List CellId :=
  match names with
  | [] => []
  | (_, value) :: rest => value.referencesBefore (references rest)

end Names

end ScriptCore
