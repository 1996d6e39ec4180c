import ScriptCore.Proofs.Reading
import ScriptCore.Proofs.Representation

/-!
# What JSON documents become

Every document can be converted: nothing foreign is in it, and the names of members are texts.  An
array becomes a list of what its items become, and an object a dict with one entry for each member.
-/

namespace ScriptCore

open Relation

namespace Json

/-- The value that a number stands for: an integer as long as it has 64 signed bits, and the nearest
double beyond. -/
inductive Number.Stands : Number → Value → Prop
  | small (value : UInt64) (integer : Int64) (fits : value.toNat < 2 ^ 63)
      (exact : integer.toInt = value.toNat) : Stands (unsigned value) (.int integer)
  | large (value : UInt64) (beyond : 2 ^ 63 ≤ value.toNat) :
      Stands (unsigned value) (.double (.ofMagnitude false (Binary64.natBits value.toNat)))
  | signed (value : Int64) : Stands (signed value) (.int value)
  | double (value : Binary64) : Stands (double value) (.double value)

end Json

mutual

/-- A value is a document in a machine: a list for an array, item by item, and a dict for an object,
member by member. -/
inductive Stands (machine : Machine) : Json → Value → Prop
  | null : Stands machine .null .nothing
  | bool (value : Bool) : Stands machine (.bool value) (.bool value)
  | number (number : Json.Number) (value : Value) (stands : number.Stands value) :
      Stands machine (.number number) value
  | text (string : Str) : Stands machine (.text string.text) (.string string)
  | array (items : List Json) (cell : CellId) (values : List Value)
      (each : StandsAll machine items values)
      (content : machine.heap.get? cell = some (.list values)) :
      Stands machine (.array items) (.list cell)
  | object (members : List (String × Json)) (cell : CellId) (entries : Entries)
      (each : StandsMembers machine members entries)
      (content : machine.heap.get? cell = some (.dict entries)) :
      Stands machine (.object members) (.dict cell)

inductive StandsAll (machine : Machine) : List Json → List Value → Prop
  | nil : StandsAll machine [] []
  | cons {item : Json} {value : Value} {items : List Json} {values : List Value}
      (first : Stands machine item value) (rest : StandsAll machine items values) :
      StandsAll machine (item :: items) (value :: values)

inductive StandsMembers (machine : Machine) : List (String × Json) → Entries → Prop
  | nil : StandsMembers machine [] []
  | cons {json : Json} {value : Value} {members : List (String × Json)} {entries : Entries}
      (name : Str) (first : Stands machine json value)
      (rest : StandsMembers machine members entries) :
      StandsMembers machine ((name.text, json) :: members) ((.ofStr name, value) :: entries)

end

/-- A value is a document that is used as an index: an array of three is a tuple. -/
inductive StandsIndex (machine : Machine) : Json → Value → Prop
  | slice (items : List Json) (three : items.length = 3) (cell : CellId) (values : List Value)
      (each : StandsAll machine items values)
      (content : machine.heap.get? cell = some (.tuple values)) :
      StandsIndex machine (.array items) (.tuple cell)
  | other (json : Json) (value : Value)
      (noSlice : ∀ items, json = .array items → items.length ≠ 3)
      (stands : Stands machine json value) : StandsIndex machine json value

theorem StandsAll.length_eq {machine : Machine} {items : List Json} {values : List Value}
    (each : StandsAll machine items values) : values.length = items.length := by
  induction items generalizing values with
  | nil =>
      cases each
      rfl
  | cons item rest ih =>
      cases each with
      | cons first others => rw [List.length_cons, List.length_cons, ih others]

theorem StandsMembers.length_eq {machine : Machine} {members : List (String × Json)}
    {entries : Entries} (each : StandsMembers machine members entries) :
    entries.length = members.length := by
  induction members generalizing entries with
  | nil =>
      cases each
      rfl
  | cons member rest ih =>
      cases each with
      | cons name first others => rw [List.length_cons, List.length_cons, ih others]

section Standing

variable {machine : Machine}

theorem Json.Number.stands_of_represents {number : Number} {value : Value} {cells : List CellId}
    (represents : Represents machine number.toDatum value cells) : number.Stands value := by
  cases number with
  | unsigned natural =>
      by_cases small : natural.toNat < twoPow 63
      · rw [toDatum, if_pos small] at represents
        cases represents
        exact .small natural _ small (Int64.toInt_ofNat_of_lt small)
      · rw [toDatum, if_neg small] at represents
        cases represents
        exact .large natural (Nat.not_lt.mp small)
  | signed integer =>
      cases represents
      exact .signed integer
  | double double =>
      cases represents
      exact .double double

theorem StandsMembers.exists_name {members : List (String × Json)} {entries : Entries}
    (each : StandsMembers machine members entries) {entry : Key × Value}
    (member : entry ∈ entries) :
    ∃ name : Str, entry.1 = .ofStr name ∧ name.text ∈ members.map Prod.fst := by
  induction members generalizing entries with
  | nil =>
      cases each
      cases member
  | cons _ rest ih =>
      cases each with
      | cons name first others =>
          rcases List.mem_cons.mp member with rfl | later
          · exact ⟨name, rfl, List.mem_cons_self⟩
          · obtain ⟨other, same, listed⟩ := ih others later
            exact ⟨other, same, List.mem_cons_of_mem _ listed⟩

/-- Entries with different names are different entries. -/
theorem StandsMembers.apart {members : List (String × Json)} {entries : Entries}
    (each : StandsMembers machine members entries) (distinct : (members.map Prod.fst).Nodup) :
    entries.Pairwise fun earlier later => earlier.1.equal later.1 = false := by
  induction members generalizing entries with
  | nil =>
      cases each
      exact .nil
  | cons member rest ih =>
      cases each with
      | cons name first others =>
          obtain ⟨fresh, further⟩ := List.nodup_cons.mp distinct
          refine .cons (fun entry member => ?_) (ih others further)
          obtain ⟨other, sameKey, listed⟩ := others.exists_name member
          rw [sameKey]
          refine beq_eq_false_iff_ne.mpr fun same => fresh ?_
          rwa [← same] at listed

mutual

theorem stands_of_represents : ∀ {json : Json} {value : Value} {cells : List CellId},
    Represents machine json.toDatum value cells → json.Distinct → Stands machine json value
  | .null, _, _, represents, _ => by
      cases represents
      exact .null
  | .bool flag, _, _, represents, _ => by
      cases represents
      exact .bool flag
  | .number number, _, _, represents, _ =>
      .number number _ (Json.Number.stands_of_represents represents)
  | .text text, _, _, represents, _ => by
      cases represents with
      | text text string pooled =>
          obtain rfl := Interner.text_of_find? pooled
          exact .text string
  | .array items, _, _, represents, distinct => by
      cases represents with
      | seq data cell values inner each content =>
          exact .array items cell values
            (standsAll_of_represents each fun item member => distinct.of_mem_parts member) content
  | .object members, _, _, represents, distinct => by
      cases represents with
      | map entries cell given stored inner each collates content =>
          have members := standsMembers_of_represents each fun member listed =>
            distinct.of_mem_parts (List.mem_map_of_mem listed)
          obtain rfl := collates.eq_of_apart (members.apart (distinct _ .refl))
          exact .object _ cell stored members content

theorem standsAll_of_represents : ∀ {items : List Json} {values : List Value}
    {cells : List CellId}, RepresentsAll machine (Json.toData items) values cells →
      (∀ item ∈ items, item.Distinct) → StandsAll machine items values
  | [], _, _, each, _ => by
      cases each
      exact .nil
  | item :: rest, _, _, each, distinct => by
      cases each with
      | cons first others =>
          obtain ⟨own, further⟩ := List.forall_mem_cons.mp distinct
          exact .cons (stands_of_represents first own) (standsAll_of_represents others further)

theorem standsMembers_of_represents : ∀ {members : List (String × Json)} {given : Entries}
    {cells : List CellId},
    RepresentsAll machine ((Json.toEntries members).flatMap fun entry => [entry.1, entry.2])
        (Entries.values given) cells →
      (∀ member ∈ members, member.2.Distinct) → StandsMembers machine members given
  | [], given, _, each, _ => by
      cases given with
      | nil => exact .nil
      | cons entry others => cases each
  | (name, json) :: rest, given, _, each, distinct => by
      cases given with
      | nil => cases each
      | cons entry others =>
          obtain ⟨⟨key, hashable⟩, value⟩ := entry
          obtain ⟨own, further⟩ := List.forall_mem_cons.mp distinct
          cases each with
          | cons isKey each =>
              cases each with
              | cons isValue each =>
                  cases isKey with
                  | text text string pooled =>
                      obtain rfl := Interner.text_of_find? pooled
                      exact .cons string (stands_of_represents isValue own)
                        (standsMembers_of_represents each further)

end

end Standing

namespace Json

theorem keys_toEntries (members : List (String × Json)) :
    (toEntries members).map Prod.fst = members.map fun member => .text member.1 := by
  induction members with
  | nil => rfl
  | cons member rest ih =>
      obtain ⟨name, json⟩ := member
      rw [toEntries, List.map_cons, List.map_cons, ih]
      rfl

mutual

/-- Nothing in a document offends. -/
theorem offences_toDatum : ∀ json : Json, json.toDatum.offences = []
  | .null => rfl
  | .bool _ => rfl
  | .number numeral => by
      cases numeral with
      | unsigned natural =>
          rw [toDatum, Number.toDatum]
          split <;> rfl
      | signed integer => rfl
      | double double => rfl
  | .text _ => rfl
  | .array items => offencesAll_toData items
  | .object members => by
      rw [toDatum, Datum.offences, offencesEntries_toEntries members, keys_toEntries,
        List.filterMap_map]
      exact List.filterMap_eq_nil_iff.mpr fun _ _ => rfl

theorem offencesAll_toData : ∀ items : List Json, Datum.offencesAll (toData items) = []
  | [] => rfl
  | item :: rest => by
      rw [toData, Datum.offencesAll, offences_toDatum item, offencesAll_toData rest]
      rfl

theorem offencesEntries_toEntries : ∀ members : List (String × Json),
    Datum.offencesEntries (toEntries members) = []
  | [] => rfl
  | (name, json) :: rest => by
      rw [toEntries, Datum.offencesEntries, toEntry, Datum.offencesEntry, offences_toDatum json,
        offencesEntries_toEntries rest]
      rfl

end

/-- An index is a datum as any other, or a tuple of three. -/
theorem toIndex_cases (json : Json) :
    (∃ items, json = .array items ∧ items.length = 3 ∧ json.toIndex = .tuple (toData items)) ∨
      (∀ items, json = .array items → items.length ≠ 3) ∧ json.toIndex = json.toDatum := by
  unfold toIndex
  split
  · exact .inl ⟨_, rfl, rfl, rfl⟩
  · rename_i other
    refine .inr ⟨?_, rfl⟩
    rintro items rfl three
    obtain ⟨start, stop, step, rfl⟩ := List.length_eq_three.mp three
    exact other start stop step rfl

theorem offences_toIndex (json : Json) : json.toIndex.offences = [] := by
  rcases json.toIndex_cases with ⟨items, -, -, same⟩ | ⟨-, same⟩
  · rw [same]
    exact offencesAll_toData items
  · rw [same, offences_toDatum]

end Json

theorem standsIndex_of_represents {machine : Machine} {json : Json} {value : Value}
    {cells : List CellId} (represents : Represents machine json.toIndex value cells)
    (distinct : json.Distinct) : StandsIndex machine json value := by
  rcases json.toIndex_cases with ⟨items, rfl, three, same⟩ | ⟨noSlice, same⟩
  · rw [same] at represents
    cases represents with
    | tuple data cell values inner each content =>
        exact .slice items three cell values
          (standsAll_of_represents each fun item member => distinct.of_mem_parts member) content
  · rw [same] at represents
    exact .other json value noSlice (stands_of_represents represents distinct)

namespace Act

/-- A document becomes a value on every machine. -/
theorem exists_convert_toDatum (json : Json) (machine : Machine) :
    ∃ value after, convert json.toDatum machine = .ok value after ∧
      (json.Distinct → Stands after json value) := by
  obtain ⟨value, after, ran⟩ := exists_convert json.offences_toDatum machine
  obtain ⟨cells, -, represents⟩ := makes_convert ran
  exact ⟨value, after, ran, stands_of_represents represents⟩

/-- An index becomes a value on every machine. -/
theorem exists_convert_toIndex (json : Json) (machine : Machine) :
    ∃ value after, convert json.toIndex machine = .ok value after ∧
      (json.Distinct → StandsIndex after json value) := by
  obtain ⟨value, after, ran⟩ := exists_convert json.offences_toIndex machine
  obtain ⟨cells, -, represents⟩ := makes_convert ran
  exact ⟨value, after, ran, standsIndex_of_represents represents⟩

end Act

end ScriptCore
