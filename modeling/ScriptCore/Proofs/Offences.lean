import Mathlib.Logic.Relation
import ScriptCore.Conversion

/-!
# What host data cannot be converted

A datum offends by something foreign in it, or by a container that is to be a key or a member.  A
container comes to the offences inside its members first, member by member and each key before its
value, and then to the keys or members that may not be hashed.  A conversion fails with the first
offence, and if there is none it gives a value.
-/

namespace ScriptCore

open Relation

namespace Datum

/-- The data directly inside a datum, each key before its value. -/
def parts : Datum → List Datum
  | seq items => items
  | tuple items => items
  | map entries => entries.flatMap fun entry => [entry.1, entry.2]
  | set items => items
  | _ => []

/-- The data that a datum is to hash: its keys or members. -/
def hashed : Datum → List Datum
  | map entries => entries.map Prod.fst
  | set items => items
  | _ => []

/-- What is wrong with a datum as a key or member. -/
def refusal? : Datum → Option Error
  | seq _ => some (.unhashable "list")
  | map _ => some (.unhashable "dict")
  | set _ => some (.unhashable "set")
  | _ => none

/-- What is wrong with a datum that is foreign. -/
def stranger? : Datum → Option Error
  | foreign typeName => some (.foreignDatum typeName)
  | _ => none

/-- One datum is another one or is inside it, at any depth. -/
def Within : Datum → Datum → Prop :=
  ReflTransGen fun part whole => part ∈ whole.parts

/-- Nothing foreign is in a datum, and no key or member in it is a list, a map or a set. -/
structure Convertible (datum : Datum) : Prop where
  known : ∀ typeName, ¬ Within (foreign typeName) datum
  hashable : ∀ whole : Datum, whole.Within datum → ∀ key ∈ whole.hashed, key.refusal? = none

mutual

/-- All that is wrong with a datum, in the order in which a conversion comes to it. -/
def offences : Datum → List Error
  | seq items => offencesAll items
  | tuple items => offencesAll items
  | map entries => offencesEntries entries ++ (entries.map Prod.fst).filterMap refusal?
  | set items => offencesAll items ++ items.filterMap refusal?
  | foreign typeName => [.foreignDatum typeName]
  | null => []
  | bool _ => []
  | int _ => []
  | float _ => []
  | text _ => []

def offencesAll : List Datum → List Error
  | [] => []
  | datum :: rest => offences datum ++ offencesAll rest

def offencesEntries : List (Datum × Datum) → List Error
  | [] => []
  | entry :: rest => offencesEntry entry ++ offencesEntries rest

def offencesEntry : Datum × Datum → List Error
  | (key, value) => offences key ++ offences value

end

theorem offencesAll_eq (data : List Datum) : offencesAll data = data.flatMap offences := by
  induction data with
  | nil => rfl
  | cons datum rest ih => rw [offencesAll, ih, List.flatMap_cons]

theorem offencesEntries_eq (entries : List (Datum × Datum)) :
    offencesEntries entries =
      (entries.flatMap fun entry => [entry.1, entry.2]).flatMap offences := by
  induction entries with
  | nil => rfl
  | cons entry rest ih =>
      obtain ⟨key, value⟩ := entry
      simp [offencesEntries, offencesEntry, ih]

/-- A datum offends by being foreign, then by what is inside its parts, and then by the keys or
members that are refused. -/
theorem offences_eq (datum : Datum) :
    datum.offences =
      datum.stranger?.toList ++ datum.parts.flatMap offences ++
        datum.hashed.filterMap refusal? := by
  cases datum with
  | map entries => simp [offences, stranger?, parts, hashed, offencesEntries_eq]
  | seq items => simp [offences, stranger?, parts, hashed, offencesAll_eq]
  | tuple items => simp [offences, stranger?, parts, hashed, offencesAll_eq]
  | set items => simp [offences, stranger?, parts, hashed, offencesAll_eq]
  | _ => rfl

theorem sizeOf_lt_of_mem_parts {part whole : Datum} (member : part ∈ whole.parts) :
    sizeOf part < sizeOf whole := by
  cases whole with
  | map entries =>
      obtain ⟨entry, stored, inEntry⟩ := List.mem_flatMap.mp member
      have smaller := List.sizeOf_lt_of_mem stored
      obtain ⟨key, value⟩ := entry
      simp only [List.mem_cons, List.not_mem_nil, or_false] at inEntry
      rcases inEntry with rfl | rfl <;> simp at smaller ⊢ <;> omega
  | seq items =>
      have smaller := List.sizeOf_lt_of_mem (show part ∈ items from member)
      simp; omega
  | tuple items =>
      have smaller := List.sizeOf_lt_of_mem (show part ∈ items from member)
      simp; omega
  | set items =>
      have smaller := List.sizeOf_lt_of_mem (show part ∈ items from member)
      simp; omega
  | _ => cases member

/-- What holds of a datum whenever it holds of its parts holds of every datum. -/
theorem induct_parts {Holds : Datum → Prop}
    (step : ∀ datum, (∀ part ∈ datum.parts, Holds part) → Holds datum) (datum : Datum) :
    Holds datum :=
  step datum fun part _ => induct_parts step part
termination_by sizeOf datum
decreasing_by exact sizeOf_lt_of_mem_parts ‹_›

theorem mem_offences {datum : Datum} {error : Error} :
    error ∈ datum.offences ↔ datum.stranger? = some error ∨
      (∃ part ∈ datum.parts, error ∈ part.offences) ∨
        ∃ key ∈ datum.hashed, key.refusal? = some error := by
  rw [offences_eq]
  simp

/-- Whatever offends inside a datum offends in the datum. -/
theorem offences_subset {part whole : Datum} (within : part.Within whole) :
    part.offences ⊆ whole.offences := by
  induction within with
  | refl => exact List.Subset.refl _
  | tail _ inside ih =>
      intro error member
      exact mem_offences.mpr (.inr (.inl ⟨_, inside, ih member⟩))

/-- What offends is something foreign, or a key or member that is a list, a map or a set. -/
theorem mem_offences_iff {datum : Datum} {error : Error} :
    error ∈ datum.offences ↔ ∃ whole : Datum, whole.Within datum ∧
      (whole.stranger? = some error ∨ ∃ key ∈ whole.hashed, key.refusal? = some error) := by
  constructor
  · induction datum using induct_parts with
    | step datum ih =>
        intro member
        rcases mem_offences.mp member with strange | ⟨part, inside, deeper⟩ | refused
        · exact ⟨datum, .refl, .inl strange⟩
        · obtain ⟨whole, within, offends⟩ := ih part inside deeper
          exact ⟨whole, within.tail inside, offends⟩
        · exact ⟨datum, .refl, .inr refused⟩
  · rintro ⟨whole, within, strange | refused⟩
    · exact offences_subset within (mem_offences.mpr (.inl strange))
    · exact offences_subset within (mem_offences.mpr (.inr (.inr refused)))

/-- Nothing offends exactly if nothing foreign is in a datum, and no key or member is mutable. -/
theorem offences_eq_nil_iff {datum : Datum} : datum.offences = [] ↔ datum.Convertible := by
  rw [List.eq_nil_iff_forall_not_mem]
  constructor
  · intro none
    constructor
    · intro typeName within
      exact none (.foreignDatum typeName) (mem_offences_iff.mpr ⟨_, within, .inl rfl⟩)
    · intro whole within key isHashed
      refine Option.eq_none_iff_forall_ne_some.mpr fun error refused => ?_
      exact none error (mem_offences_iff.mpr ⟨whole, within, .inr ⟨key, isHashed, refused⟩⟩)
  · intro convertible error member
    obtain ⟨whole, within, strange | ⟨key, isHashed, refused⟩⟩ := mem_offences_iff.mp member
    · cases whole with
      | foreign typeName => exact convertible.known typeName within
      | _ => cases strange
    · rw [convertible.hashable whole within key isHashed] at refused
      cases refused

end Datum

namespace Key

/-- What is wrong with a value as a key or member. -/
def refusal? (value : Value) : Option Error :=
  if value.isHashable then none else some (.unhashable (unhashableName value))

theorem exists_ofValue {value : Value} (accepted : refusal? value = none) :
    ∃ key, ofValue value = .ok key := by
  unfold refusal? at accepted
  split at accepted
  · rename_i hashable
    exact ⟨⟨value, hashable⟩, dif_pos hashable⟩
  · cases accepted

theorem ofValue_of_refusal {value : Value} {error : Error} (refused : refusal? value = some error) :
    ofValue value = .error error := by
  unfold refusal? at refused
  split at refused
  · cases refused
  · rename_i unhashable
    cases refused
    exact dif_neg unhashable

/-- Values are admitted one after the other, up to the first that is refused. -/
theorem mapM_of_refusals {α β : Type} (accept : α → Except Error β) (keyOf : α → Value)
    (accepts : ∀ item, refusal? (keyOf item) = none → ∃ result, accept item = .ok result)
    (refuses : ∀ item error, refusal? (keyOf item) = some error → accept item = .error error)
    (items : List α) :
    match (items.map keyOf).filterMap refusal? with
    | [] => ∃ results, items.mapM accept = .ok results
    | first :: _ => items.mapM accept = .error first := by
  induction items with
  | nil => exact ⟨[], rfl⟩
  | cons item rest ih =>
      rw [List.map_cons, List.filterMap_cons, List.mapM_cons]
      cases refused : refusal? (keyOf item) with
      | some error =>
          rw [refuses item error refused]
          rfl
      | none =>
          obtain ⟨result, admitted⟩ := accepts item refused
          rw [admitted]
          cases others : (rest.map keyOf).filterMap refusal? with
          | nil =>
              rw [others] at ih
              obtain ⟨results, rest⟩ := ih
              rw [rest]
              exact ⟨result :: results, rfl⟩
          | cons first further =>
              rw [others] at ih
              rw [ih]
              rfl

end Key

namespace Act

/-- An action fails with the first of some offences, or if there are none, gives a good result. -/
def Meets {α : Type} (action : Act α) (offences : List Error) (Good : α → Prop) : Prop :=
  ∀ machine : Machine,
    match offences with
    | [] => ∃ value after, action machine = .ok value after ∧ Good value
    | first :: _ => ∃ after, action machine = .error (.error first) after

section Composition

variable {α β : Type} {action : Act α} {next : α → Act β} {offences further : List Error}
  {Good : α → Prop} {Well : β → Prop}

theorem meets_pure {value : α} (good : Good value) : Meets (pure value) [] Good :=
  fun machine => ⟨value, machine, rfl, good⟩

theorem Meets.outcome (meets : Meets action offences Good) (machine : Machine) :
    (offences = [] ∧ ∃ value after, action machine = .ok value after ∧ Good value) ∨
      ∃ first after, offences.head? = some first ∧
        action machine = .error (.error first) after := by
  have ends := meets machine
  cases offences with
  | nil => exact .inl ⟨rfl, ends⟩
  | cons first rest =>
      obtain ⟨after, failed⟩ := ends
      exact .inr ⟨first, after, rfl, failed⟩

/-- What comes first offends first. -/
theorem Meets.bind (first : Meets action offences Good)
    (second : ∀ value, Good value → Meets (next value) further Well) :
    Meets (action >>= next) (offences ++ further) Well := by
  intro machine
  have before := first machine
  cases offences with
  | nil =>
      obtain ⟨value, middle, ran, good⟩ := before
      have onward := second value good middle
      simp only [List.nil_append, Bind.bind, EStateM.bind, ran]
      exact onward
  | cons error rest =>
      obtain ⟨after, failed⟩ := before
      refine ⟨after, ?_⟩
      simp only [Bind.bind, EStateM.bind, failed]

/-- What always succeeds adds no offences. -/
theorem Meets.bind_made (first : Meets action offences Good)
    (second : ∀ value, Good value → Meets (next value) [] Well) :
    Meets (action >>= next) offences Well := by
  have both := first.bind second
  rwa [List.append_nil] at both

end Composition

section Converting

variable {Good : Value → Prop}

/-- A container of keys or members offends by those that are refused. -/
theorem meets_ofExcept_bind {α : Type} {outcome : Except Error α} {next : α → Act Value}
    {refused : List Error}
    (admission : match refused with
      | [] => ∃ result, outcome = .ok result
      | first :: _ => outcome = .error first)
    (rest : ∀ result, Meets (next result) [] Good) :
    Meets (ofExcept outcome >>= next) refused Good := by
  intro machine
  cases refused with
  | nil =>
      obtain ⟨result, given⟩ := admission
      rw [given]
      exact rest result machine
  | cons first _ =>
      rw [admission]
      exact ⟨machine, rfl⟩

theorem meets_newDict (pairs : List (Value × Value)) :
    Meets (newDict pairs) ((pairs.map Prod.fst).filterMap Key.refusal?)
      (Key.refusal? · = some (.unhashable "dict")) := by
  refine meets_ofExcept_bind (Key.mapM_of_refusals _ Prod.fst ?_ ?_ pairs) fun keyed machine =>
    ⟨_, _, rfl, rfl⟩
  · intro pair accepted
    obtain ⟨key, admitted⟩ := Key.exists_ofValue accepted
    exact ⟨(key, pair.2), by rw [admitted]; rfl⟩
  · intro pair error refused
    rw [Key.ofValue_of_refusal refused]
    rfl

theorem meets_newSet (items : List Value) :
    Meets (newSet items) (items.filterMap Key.refusal?)
      (Key.refusal? · = some (.unhashable "set")) := by
  have admission := Key.mapM_of_refusals Key.ofValue id (fun _ => Key.exists_ofValue)
    (fun _ _ => Key.ofValue_of_refusal) items
  rw [List.map_id] at admission
  exact meets_ofExcept_bind admission fun keys machine => ⟨_, _, rfl, rfl⟩

mutual

/-- A conversion fails with the first offence, or gives a value that is refused as a key or member
if the datum is. -/
theorem meets_convert : ∀ datum : Datum,
    Meets (convert datum) datum.offences (Key.refusal? · = datum.refusal?)
  | .null => meets_pure rfl
  | .bool _ => meets_pure rfl
  | .int _ => meets_pure rfl
  | .float _ => meets_pure rfl
  | .text _ => fun _ => ⟨_, _, rfl, rfl⟩
  | .foreign _ => fun machine => ⟨machine, rfl⟩
  | .seq items => (meets_convertAll items).bind_made fun _ _ _ => ⟨_, _, rfl, rfl⟩
  | .tuple items => (meets_convertAll items).bind_made fun _ _ _ => ⟨_, _, rfl, rfl⟩
  | .map entries => (meets_convertEntries entries).bind fun pairs same => by
      rw [← same]
      exact meets_newDict pairs
  | .set items => (meets_convertAll items).bind fun values same => by
      rw [← same]
      exact meets_newSet values

theorem meets_convertAll : ∀ data : List Datum,
    Meets (convertAll data) (Datum.offencesAll data)
      fun values => values.filterMap Key.refusal? = data.filterMap Datum.refusal?
  | [] => meets_pure rfl
  | datum :: rest => by
      refine (meets_convert datum).bind fun value same => ?_
      refine (meets_convertAll rest).bind_made fun values others => meets_pure ?_
      rw [List.filterMap_cons, List.filterMap_cons, same, others]

theorem meets_convertEntries : ∀ entries : List (Datum × Datum),
    Meets (convertEntries entries) (Datum.offencesEntries entries)
      fun pairs => (pairs.map Prod.fst).filterMap Key.refusal? =
        (entries.map Prod.fst).filterMap Datum.refusal?
  | [] => meets_pure rfl
  | entry :: rest => by
      refine (meets_convertEntry entry).bind fun pair same => ?_
      refine (meets_convertEntries rest).bind_made fun pairs others => meets_pure ?_
      simp only [List.map_cons, List.filterMap_cons, same, others]

theorem meets_convertEntry : ∀ entry : Datum × Datum,
    Meets (convertEntry entry) (Datum.offencesEntry entry)
      fun pair => Key.refusal? pair.1 = entry.1.refusal?
  | (key, value) => by
      refine (meets_convert key).bind fun made same => ?_
      exact (meets_convert value).bind_made fun _ _ => meets_pure same

end

end Converting

/-- What does not offend becomes a value. -/
theorem exists_convert {datum : Datum} (none : datum.offences = []) (machine : Machine) :
    ∃ value after, convert datum machine = .ok value after := by
  have meets := meets_convert datum machine
  rw [none] at meets
  obtain ⟨value, after, ran, -⟩ := meets
  exact ⟨value, after, ran⟩

/-- Host data converts exactly if nothing foreign is in it and no key or member is a list, a map or
a set.  Otherwise the conversion fails with the first offence. -/
theorem conversion_fails_with_first_offence (datum : Datum) (machine : Machine) :
    ((∃ value after, convert datum machine = .ok value after) ↔ datum.Convertible) ∧
      (∀ stop, (∃ after, convert datum machine = .error stop after) ↔
        ∃ error, stop = .error error ∧ datum.offences.head? = some error) ∧
      ∀ error ∈ datum.offences, error.kind = .typeError ∧
        ((∃ typeName, error = .foreignDatum typeName ∧ (Datum.foreign typeName).Within datum) ∨
          ∃ name ∈ ["list", "dict", "set"], error = .unhashable name) := by
  have outcome := (meets_convert datum).outcome machine
  refine ⟨?_, ?_, ?_⟩
  · rw [← Datum.offences_eq_nil_iff]
    rcases outcome with ⟨none, value, after, ran, -⟩ | ⟨first, after, found, failed⟩
    · exact ⟨fun _ => none, fun _ => ⟨value, after, ran⟩⟩
    · refine ⟨fun ⟨value, last, ran⟩ => ?_, fun none => ?_⟩
      · rw [failed] at ran
        cases ran
      · rw [none] at found
        cases found
  · intro stop
    rcases outcome with ⟨none, value, after, ran, -⟩ | ⟨first, after, found, failed⟩
    · simp [ran, none]
    · simp [failed, found, eq_comm]
  · intro error member
    obtain ⟨whole, within, strange | ⟨key, -, refused⟩⟩ := Datum.mem_offences_iff.mp member
    · cases whole with
      | foreign typeName =>
          cases strange
          exact ⟨rfl, .inl ⟨typeName, rfl, within⟩⟩
      | _ => cases strange
    · cases key with
      | seq items =>
          cases refused
          exact ⟨rfl, .inr ⟨"list", by simp, rfl⟩⟩
      | map entries =>
          cases refused
          exact ⟨rfl, .inr ⟨"dict", by simp, rfl⟩⟩
      | set items =>
          cases refused
          exact ⟨rfl, .inr ⟨"set", by simp, rfl⟩⟩
      | _ => cases refused

/-- Something foreign in a late value comes before an early key that is refused. -/
example : (Datum.map [(.seq [], .null), (.null, .foreign "socket")]).offences =
    [.foreignDatum "socket", .unhashable "list"] :=
  rfl

end Act

end ScriptCore
