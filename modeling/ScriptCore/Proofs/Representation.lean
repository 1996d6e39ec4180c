import ScriptCore.Proofs.Collation
import ScriptCore.Proofs.Dicts
import ScriptCore.Proofs.Offences
import ScriptCore.Proofs.Passes

/-!
# What host data becomes

A converted datum is a tree of new cells.  Each sequence, tuple, map and set in it has a cell of its
own, and only the texts are shared, as they come from the pool.
-/

namespace ScriptCore

open Relation

mutual

/-- A value is a datum in a machine.  The listed cells are those of its containers, each with its
content, and its texts are instances of the pool. -/
inductive Represents (machine : Machine) : Datum → Value → List CellId → Prop
  | null : Represents machine .null .nothing []
  | bool (value : Bool) : Represents machine (.bool value) (.bool value) []
  | int (value : Int64) : Represents machine (.int value) (.int value) []
  | float (value : Binary64) : Represents machine (.float value) (.double value) []
  | text (text : String) (string : Str) (pooled : machine.interner.find? text = some string) :
      Represents machine (.text text) (.string string) []
  | seq (items : List Datum) (cell : CellId) (values : List Value) (inner : List CellId)
      (each : RepresentsAll machine items values inner)
      (content : machine.heap.get? cell = some (.list values)) :
      Represents machine (.seq items) (.list cell) (cell :: inner)
  | tuple (items : List Datum) (cell : CellId) (values : List Value) (inner : List CellId)
      (each : RepresentsAll machine items values inner)
      (content : machine.heap.get? cell = some (.tuple values)) :
      Represents machine (.tuple items) (.tuple cell) (cell :: inner)
  | map (entries : List (Datum × Datum)) (cell : CellId) (given stored : Entries)
      (inner : List CellId)
      (each : RepresentsAll machine (entries.flatMap fun entry => [entry.1, entry.2])
        (Entries.values given) inner)
      (collates : Collates given stored)
      (content : machine.heap.get? cell = some (.dict stored)) :
      Represents machine (.map entries) (.dict cell) (cell :: inner)
  | set (items : List Datum) (cell : CellId) (given stored : Members) (inner : List CellId)
      (each : RepresentsAll machine items (Members.values given) inner)
      (collates : Collates given.entries stored.entries)
      (content : machine.heap.get? cell = some (.set stored)) :
      Represents machine (.set items) (.set cell) (cell :: inner)

/-- Values are data one by one, in cells of their own. -/
inductive RepresentsAll (machine : Machine) : List Datum → List Value → List CellId → Prop
  | nil : RepresentsAll machine [] [] []
  | cons {datum : Datum} {value : Value} {cells : List CellId} {data : List Datum}
      {values : List Value} {others : List CellId} (first : Represents machine datum value cells)
      (rest : RepresentsAll machine data values others) :
      RepresentsAll machine (datum :: data) (value :: values) (cells ++ others)

end

section Keeping

variable {before after : Machine}

mutual

theorem Represents.kept {datum : Datum} {value : Value} {cells : List CellId}
    (represents : Represents before datum value cells)
    (pool : ∀ text string, before.interner.find? text = some string →
      after.interner.find? text = some string)
    (same : ∀ cell ∈ cells, after.heap.get? cell = before.heap.get? cell) :
    Represents after datum value cells :=
  match represents with
  | .null => .null
  | .bool value => .bool value
  | .int value => .int value
  | .float value => .float value
  | .text text string pooled => .text text string (pool text string pooled)
  | .seq items cell values inner each content =>
      .seq items cell values inner
        (each.kept pool fun other member => same other (List.mem_cons_of_mem _ member))
        ((same cell List.mem_cons_self).trans content)
  | .tuple items cell values inner each content =>
      .tuple items cell values inner
        (each.kept pool fun other member => same other (List.mem_cons_of_mem _ member))
        ((same cell List.mem_cons_self).trans content)
  | .map entries cell given stored inner each collates content =>
      .map entries cell given stored inner
        (each.kept pool fun other member => same other (List.mem_cons_of_mem _ member)) collates
        ((same cell List.mem_cons_self).trans content)
  | .set items cell given stored inner each collates content =>
      .set items cell given stored inner
        (each.kept pool fun other member => same other (List.mem_cons_of_mem _ member)) collates
        ((same cell List.mem_cons_self).trans content)

theorem RepresentsAll.kept {data : List Datum} {values : List Value} {cells : List CellId}
    (represents : RepresentsAll before data values cells)
    (pool : ∀ text string, before.interner.find? text = some string →
      after.interner.find? text = some string)
    (same : ∀ cell ∈ cells, after.heap.get? cell = before.heap.get? cell) :
    RepresentsAll after data values cells :=
  match represents with
  | .nil => .nil
  | .cons first rest =>
      .cons (first.kept pool fun cell member => same cell (List.mem_append_left _ member))
        (rest.kept pool fun cell member => same cell (List.mem_append_right _ member))

end

end Keeping

namespace Datum

/-- Host data that become equal values at two places: containers never do. -/
def coincides : Datum → Datum → Bool
  | null, null => true
  | bool left, bool right => left == right
  | int left, int right => left == right
  | float left, float right => left.equal right
  | text left, text right => left == right
  | _, _ => false

end Datum

section Telling

variable {machine : Machine}

/-- Values in cells of their own are equal exactly if the data coincide. -/
theorem Represents.equal_eq {datum other : Datum} {value also : Value} {cells more : List CellId}
    (first : Represents machine datum value cells) (second : Represents machine other also more)
    (apart : cells.Disjoint more) : value.equal also = datum.coincides other := by
  have differ : ∀ {cell twin : CellId} {inner others : List CellId},
      (cell :: inner).Disjoint (twin :: others) → (cell == twin) = false := by
    intro cell twin inner others apart
    refine beq_eq_false_iff_ne.mpr fun same => ?_
    exact apart List.mem_cons_self (same ▸ List.mem_cons_self)
  cases first with
  | null => cases second <;> rfl
  | bool value => cases second <;> rfl
  | int value => cases second <;> rfl
  | float value => cases second <;> rfl
  | text text string pooled =>
      cases second with
      | text other twin alsoPooled =>
          rw [Value.equal, Str.equal, Interner.text_of_find? pooled,
            Interner.text_of_find? alsoPooled]
          rfl
      | _ => rfl
  | seq items cell values inner each content =>
      cases second with
      | seq => exact differ apart
      | _ => rfl
  | tuple items cell values inner each content =>
      cases second with
      | tuple => exact differ apart
      | _ => rfl
  | map entries cell given stored inner each collates content =>
      cases second with
      | map => exact differ apart
      | _ => rfl
  | set items cell given stored inner each collates content =>
      cases second with
      | set => exact differ apart
      | _ => rfl

theorem RepresentsAll.exists_represents {data : List Datum} {values : List Value}
    {cells : List CellId} (each : RepresentsAll machine data values cells) {place : Datum × Value}
    (member : place ∈ data.zip values) :
    ∃ own ⊆ cells, Represents machine place.1 place.2 own := by
  induction data generalizing values cells with
  | nil => cases member
  | cons datum rest ih =>
      cases each with
      | cons first others =>
          rcases List.mem_cons.mp member with rfl | later
          · exact ⟨_, List.subset_append_left _ _, first⟩
          · obtain ⟨own, inside, represents⟩ := ih others later
            exact ⟨own, fun _ among => List.mem_append_right _ (inside among), represents⟩

/-- Values side by side in one container are equal exactly if their data coincide. -/
theorem RepresentsAll.pairwise_equal {data : List Datum} {values : List Value}
    {cells : List CellId} (each : RepresentsAll machine data values cells)
    (distinct : cells.Nodup) :
    (data.zip values).Pairwise fun earlier later =>
      earlier.2.equal later.2 = earlier.1.coincides later.1 := by
  induction data generalizing values cells with
  | nil => exact .nil
  | cons datum rest ih =>
      cases each with
      | cons first others =>
          obtain ⟨_, distinctRest, apart⟩ := List.nodup_append'.mp distinct
          refine .cons (fun place member => ?_) (ih others distinctRest)
          obtain ⟨own, inside, represents⟩ := others.exists_represents member
          exact first.equal_eq represents fun cell early late => apart early (inside late)

end Telling

section Texts

variable {machine : Machine}

/-- A string is a value or is inside it, at any depth. -/
def Machine.HasText (machine : Machine) (value : Value) (string : Str) : Prop :=
  ReflTransGen machine.heap.Inside (.string string) value

/-- Every string in a value is an instance of the pool. -/
def Pooled (machine : Machine) (value : Value) : Prop :=
  ∀ string, machine.HasText value string → machine.interner.find? string.text = some string

theorem pooled_of_parts {value : Value} (noString : ∀ string, value ≠ .string string)
    (parts : ∀ part ∈ machine.heap.parts value, Pooled machine part) : Pooled machine value := by
  intro string within
  rcases ReflTransGen.cases_tail within with same | ⟨part, deeper, inside⟩
  · exact absurd same (noString string)
  · exact parts part inside string deeper

mutual

theorem Represents.pooled {datum : Datum} {value : Value} {cells : List CellId}
    (represents : Represents machine datum value cells) : Pooled machine value :=
  match represents with
  | .null => pooled_of_parts (by simp) (by simp [Heap.parts])
  | .bool _ => pooled_of_parts (by simp) (by simp [Heap.parts])
  | .int _ => pooled_of_parts (by simp) (by simp [Heap.parts])
  | .float _ => pooled_of_parts (by simp) (by simp [Heap.parts])
  | .text text string pooled => by
      intro other within
      rcases ReflTransGen.cases_tail within with same | ⟨part, deeper, inside⟩
      · cases same
        rwa [Interner.text_of_find? pooled]
      · cases inside
  | .seq items cell values inner each content => by
      refine pooled_of_parts (by simp) fun part member => each.pooled part ?_
      simpa [Heap.parts, Heap.listItems, content] using member
  | .tuple items cell values inner each content => by
      refine pooled_of_parts (by simp) fun part member => each.pooled part ?_
      simpa [Heap.parts, Heap.tupleItems, content] using member
  | .map entries cell given stored inner each collates content => by
      refine pooled_of_parts (by simp) fun part member => each.pooled part ?_
      simp only [Heap.parts, Heap.dictEntries, content] at member
      exact collates.values_subset member
  | .set items cell given stored inner each collates content => by
      refine pooled_of_parts (by simp) fun part member => each.pooled part ?_
      simp only [Heap.parts, Heap.setMembers, content] at member
      exact Members.values_subset collates member

theorem RepresentsAll.pooled {data : List Datum} {values : List Value} {cells : List CellId}
    (each : RepresentsAll machine data values cells) : ∀ value ∈ values, Pooled machine value :=
  match each with
  | .nil => by simp
  | .cons first rest => List.forall_mem_cons.mpr ⟨first.pooled, rest.pooled⟩

end

end Texts

namespace Machine

/-- The first machine becomes the second one by making cells, the listed ones among them, and by
pooling texts. -/
structure Makes (before : Machine) (cells : List CellId) (after : Machine) : Prop where
  size_le : before.heap.size ≤ after.heap.size
  kept : ∀ cell < before.heap.size, after.heap.get? cell = before.heap.get? cell
  pool : before.interner.Extends before.supply after.interner after.supply
  distinct : cells.Nodup
  new : ∀ cell ∈ cells, before.heap.size ≤ cell ∧ cell < after.heap.size

namespace Makes

variable {before middle after : Machine} {cells others : List CellId}

theorem none (machine : Machine) : machine.Makes [] machine :=
  ⟨Nat.le_refl _, fun _ _ => rfl, .refl _ _, .nil, by simp⟩

theorem append (first : before.Makes cells middle) (second : middle.Makes others after) :
    before.Makes (cells ++ others) after where
  size_le := Nat.le_trans first.size_le second.size_le
  kept cell made :=
    (second.kept cell (Nat.lt_of_lt_of_le made first.size_le)).trans (first.kept cell made)
  pool := first.pool.trans second.pool
  distinct := by
    refine List.nodup_append.mpr ⟨first.distinct, second.distinct, fun cell early other late => ?_⟩
    exact Nat.ne_of_lt (Nat.lt_of_lt_of_le (first.new cell early).2 (second.new other late).1)
  new cell member := by
    rcases List.mem_append.mp member with early | late
    · exact ⟨(first.new cell early).1, Nat.lt_of_lt_of_le (first.new cell early).2 second.size_le⟩
    · exact ⟨Nat.le_trans first.size_le (second.new cell late).1, (second.new cell late).2⟩

/-- A cell made last. -/
theorem alloc (makes : before.Makes cells after) (content : Cell) :
    before.Makes (after.heap.size :: cells)
      { after with heap := (after.heap.alloc content).2 } where
  size_le := by
    rw [Heap.size_alloc]
    exact Nat.le_succ_of_le makes.size_le
  kept cell made := by
    have different := Nat.ne_of_lt (Nat.lt_of_lt_of_le made makes.size_le)
    rw [Heap.get?_alloc, if_neg different, makes.kept cell made]
  pool := makes.pool
  distinct := List.nodup_cons.mpr
    ⟨fun member => Nat.lt_irrefl _ (makes.new _ member).2, makes.distinct⟩
  new cell member := by
    rw [Heap.size_alloc]
    rcases List.mem_cons.mp member with rfl | inner
    · exact ⟨makes.size_le, Nat.lt_succ_self _⟩
    · exact ⟨(makes.new cell inner).1, Nat.lt_succ_of_lt (makes.new cell inner).2⟩

theorem intern (machine : Machine) (text : String) :
    machine.Makes [] ((Act.intern text).leaves machine) :=
  ⟨Nat.le_refl _, fun _ _ => rfl, machine.interner.extends_intern machine.supply text, .nil,
    by simp⟩

/-- What was represented before stays so. -/
theorem represents (second : middle.Makes others after) {datum : Datum} {value : Value}
    (early : ∀ cell ∈ cells, cell < middle.heap.size)
    (represents : Represents middle datum value cells) : Represents after datum value cells :=
  represents.kept (fun _ _ => second.pool.find?_eq) fun cell member =>
    second.kept cell (early cell member)

end Makes

end Machine

/-- Values with their members are in a machine to which a cell is added. -/
theorem RepresentsAll.alloc {machine : Machine} {data : List Datum} {values : List Value}
    {cells : List CellId} (represents : RepresentsAll machine data values cells)
    (early : ∀ cell ∈ cells, cell < machine.heap.size) (content : Cell) :
    RepresentsAll { machine with heap := (machine.heap.alloc content).2 } data values cells := by
  refine represents.kept (fun _ _ => id) fun cell member => ?_
  rw [Heap.get?_alloc, if_neg (Nat.ne_of_lt (early cell member))]

namespace Act

theorem exists_of_bind_ran {α β : Type} {action : Act α} {next : α → Act β}
    {machine after : Machine} {result : β} (ran : (action >>= next) machine = .ok result after) :
    ∃ value middle, action machine = .ok value middle ∧ next value middle = .ok result after := by
  simp only [Bind.bind, EStateM.bind] at ran
  cases given : action machine with
  | ok value middle =>
      rw [given] at ran
      exact ⟨value, middle, rfl, ran⟩
  | error stop middle =>
      rw [given] at ran
      cases ran

theorem ran_newDict {pairs : List (Value × Value)} {machine after : Machine} {value : Value}
    (ran : newDict pairs machine = .ok value after) :
    ∃ keyed : List (Key × Value),
      (pairs.mapM fun pair => do return (← Key.ofValue pair.1, pair.2)) = .ok keyed ∧
        value = .dict machine.heap.size ∧
          after = { machine with
            heap := (machine.heap.alloc (.dict (Entries.ofList keyed))).2 } := by
  unfold newDict at ran
  cases admitted : (pairs.mapM fun pair => do return (← Key.ofValue pair.1, pair.2) :
      Except Error (List (Key × Value))) with
  | error error =>
      rw [admitted] at ran
      cases ran
  | ok keyed =>
      rw [admitted] at ran
      cases ran
      exact ⟨keyed, rfl, rfl, rfl⟩

theorem ran_newSet {items : List Value} {machine after : Machine} {value : Value}
    (ran : newSet items machine = .ok value after) :
    ∃ keys : List Key, items.mapM Key.ofValue = .ok keys ∧ value = .set machine.heap.size ∧
      after = { machine with
        heap := (machine.heap.alloc (.set (Members.ofList keys))).2 } := by
  unfold newSet at ran
  cases admitted : items.mapM Key.ofValue with
  | error error =>
      rw [admitted] at ran
      cases ran
  | ok keys =>
      rw [admitted] at ran
      cases ran
      exact ⟨keys, rfl, rfl, rfl⟩

mutual

/-- A conversion makes a tree of new cells, and it is the datum. -/
theorem makes_convert {machine after : Machine} {value : Value} :
    ∀ {datum : Datum}, convert datum machine = .ok value after →
      ∃ cells, machine.Makes cells after ∧ Represents after datum value cells
  | .null, ran => by
      cases ran
      exact ⟨[], .none machine, .null⟩
  | .bool flag, ran => by
      cases ran
      exact ⟨[], .none machine, .bool flag⟩
  | .int number, ran => by
      cases ran
      exact ⟨[], .none machine, .int number⟩
  | .float number, ran => by
      cases ran
      exact ⟨[], .none machine, .float number⟩
  | .text text, ran => by
      cases ran
      exact ⟨[], .intern machine text, .text text _ (Interner.find?_intern _ _ text)⟩
  | .foreign typeName, ran => by cases ran
  | .seq items, ran => by
      obtain ⟨values, middle, members, made⟩ := exists_of_bind_ran ran
      obtain ⟨inner, makes, each⟩ := makes_convertAll members
      cases made
      exact ⟨_, makes.alloc (.list values), .seq items _ values inner
        (each.alloc (fun cell member => (makes.new cell member).2) _) (Heap.get?_alloc_size _ _)⟩
  | .tuple items, ran => by
      obtain ⟨values, middle, members, made⟩ := exists_of_bind_ran ran
      obtain ⟨inner, makes, each⟩ := makes_convertAll members
      cases made
      exact ⟨_, makes.alloc (.tuple values), .tuple items _ values inner
        (each.alloc (fun cell member => (makes.new cell member).2) _) (Heap.get?_alloc_size _ _)⟩
  | .map entries, ran => by
      obtain ⟨pairs, middle, members, made⟩ := exists_of_bind_ran ran
      obtain ⟨inner, makes, each⟩ := makes_convertEntries members
      obtain ⟨keyed, admitted, rfl, rfl⟩ := ran_newDict made
      have given := map_of_mapM value_of_keyed admitted
      rw [← given, List.flatMap_map] at each
      exact ⟨_, makes.alloc _, .map entries _ keyed _ inner
        (each.alloc (fun cell member => (makes.new cell member).2) _)
        (Entries.collates_ofList keyed) (Heap.get?_alloc_size _ _)⟩
  | .set items, ran => by
      obtain ⟨values, middle, members, made⟩ := exists_of_bind_ran ran
      obtain ⟨inner, makes, each⟩ := makes_convertAll members
      obtain ⟨keys, admitted, rfl, rfl⟩ := ran_newSet made
      rw [← map_of_mapM (fun _ _ => Key.value_of_ofValue) admitted] at each
      exact ⟨_, makes.alloc _, .set items _ keys _ inner
        (each.alloc (fun cell member => (makes.new cell member).2) _)
        (Members.collates_ofList keys) (Heap.get?_alloc_size _ _)⟩

theorem makes_convertAll {machine after : Machine} {values : List Value} :
    ∀ {data : List Datum}, convertAll data machine = .ok values after →
      ∃ cells, machine.Makes cells after ∧ RepresentsAll after data values cells
  | [], ran => by
      cases ran
      exact ⟨[], .none machine, .nil⟩
  | datum :: rest, ran => by
      obtain ⟨value, middle, first, ran⟩ := exists_of_bind_ran ran
      obtain ⟨others, last, further, given⟩ := exists_of_bind_ran ran
      obtain ⟨cells, makes, represents⟩ := makes_convert first
      obtain ⟨more, makesMore, each⟩ := makes_convertAll further
      cases given
      have early : ∀ cell ∈ cells, cell < middle.heap.size :=
        fun cell member => (makes.new cell member).2
      exact ⟨cells ++ more, makes.append makesMore,
        .cons (makesMore.represents early represents) each⟩

theorem makes_convertEntries {machine after : Machine} {pairs : List (Value × Value)} :
    ∀ {entries : List (Datum × Datum)}, convertEntries entries machine = .ok pairs after →
      ∃ cells, machine.Makes cells after ∧
        RepresentsAll after (entries.flatMap fun entry => [entry.1, entry.2])
          (pairs.flatMap fun pair => [pair.1, pair.2]) cells
  | [], ran => by
      cases ran
      exact ⟨[], .none machine, .nil⟩
  | (key, value) :: rest, ran => by
      obtain ⟨pair, second, entry, ran⟩ := exists_of_bind_ran ran
      obtain ⟨others, last, further, given⟩ := exists_of_bind_ran ran
      obtain ⟨made, middle, first, entry⟩ := exists_of_bind_ran entry
      obtain ⟨stored, final, next, paired⟩ := exists_of_bind_ran entry
      obtain ⟨keyCells, makesKey, isKey⟩ := makes_convert first
      obtain ⟨valueCells, makesValue, isValue⟩ := makes_convert next
      obtain ⟨more, makesMore, each⟩ := makes_convertEntries further
      cases paired
      cases given
      refine ⟨keyCells ++ (valueCells ++ more), makesKey.append (makesValue.append makesMore),
        .cons ?_ (.cons ?_ each)⟩
      · exact (makesValue.append makesMore).represents (fun cell member =>
          (makesKey.new cell member).2) isKey
      · exact makesMore.represents (fun cell member => (makesValue.new cell member).2) isValue

end

end Act

namespace Machine

/-- All cells but that of one value are as before, and the pool is. -/
structure DiffersAt (before : Machine) (container : Value) (after : Machine) : Prop where
  apart : ∀ cell, container.cell? ≠ some cell → after.heap.get? cell = before.heap.get? cell
  interner : after.interner = before.interner

theorem DiffersAt.refl (machine : Machine) (container : Value) :
    machine.DiffersAt container machine :=
  ⟨fun _ _ => rfl, rfl⟩

theorem DiffersAt.set (machine : Machine) {container : Value} {cell : CellId}
    (named : container.cell? = some cell) (content : Cell) :
    machine.DiffersAt container { machine with heap := machine.heap.set cell content } := by
  refine ⟨fun other different => ?_, rfl⟩
  rw [Heap.get?_set, if_neg]
  rintro ⟨rfl, _⟩
  exact different named

theorem differsAt_setItem (machine : Machine) (container index value : Value) :
    machine.DiffersAt container ((Act.setItem container index value).leaves machine) := by
  have assigns := Act.assigns_setItem machine container index value
  unfold Act.leaves
  generalize Act.setItem container index value machine = outcome at assigns
  cases assigns with
  | refused stop => exact .refl _ _
  | entry cell key isDict keyed => exact .set machine (isDict ▸ rfl) _
  | item cell place isList => exact .set machine (isList ▸ rfl) _

theorem differsAt_deleteItem (machine : Machine) (container index : Value) :
    machine.DiffersAt container ((Act.deleteItem container index).leaves machine) := by
  have deletes := Act.deletes_deleteItem machine container index
  unfold Act.leaves
  generalize Act.deleteItem container index machine = outcome at deletes
  cases deletes with
  | refused stop => exact .refl _ _
  | entry cell key value isDict keyed found => exact .set machine (isDict ▸ rfl) _
  | item cell place item isList found => exact .set machine (isList ▸ rfl) _
  | range cell slice rest isList removed => exact .set machine (isList ▸ rfl) _

/-- What does not use the changed cell is what it was. -/
theorem DiffersAt.represents {before after : Machine} {container : Value}
    (differs : before.DiffersAt container after) {datum : Datum} {value : Value}
    {cells : List CellId} (outside : ∀ cell ∈ cells, container.cell? ≠ some cell)
    (represents : Represents before datum value cells) : Represents after datum value cells :=
  represents.kept (fun _ _ => differs.interner ▸ id) fun cell member =>
    differs.apart cell (outside cell member)

/-- A container is changed through one of its items. -/
inductive Modifies (before : Machine) (container : Value) : Machine → Prop
  | setItem (index value : Value) :
      Modifies before container ((Act.setItem container index value).leaves before)
  | deleteItem (index : Value) :
      Modifies before container ((Act.deleteItem container index).leaves before)

theorem Modifies.differsAt {before after : Machine} {container : Value}
    (modifies : before.Modifies container after) : before.DiffersAt container after := by
  cases modifies with
  | setItem index value => exact differsAt_setItem before container index value
  | deleteItem index => exact differsAt_deleteItem before container index

/-- A value is made for a datum, from new cells that nothing else has. -/
structure Renders (before : Machine) (datum : Datum) (value : Value) (cells : List CellId)
    (after : Machine) : Prop where
  represents : Represents after datum value cells
  distinct : cells.Nodup
  new : ∀ cell ∈ cells, before.heap.size ≤ cell
  kept : ∀ cell < before.heap.size, after.heap.get? cell = before.heap.get? cell

end Machine

namespace Act

/-- A converted datum is what it was, in cells of its own: equal to nothing but what it coincides
with, and unchanged by whatever is done to another container.  Only texts are shared, by all
conversions of one machine. -/
theorem conversion_is_faithful_and_shares_nothing {machine after : Machine} {datum : Datum}
    {value : Value} (converted : convert datum machine = .ok value after) :
    (∃ cells, machine.Renders datum value cells after) ∧
      (∀ {one other : Datum} {left right : Value} {cells more : List CellId},
        Represents after one left cells → Represents after other right more →
          cells.Disjoint more → left.equal right = one.coincides other) ∧
      (∀ {data : List Datum} {values : List Value} {cells : List CellId},
        RepresentsAll after data values cells → cells.Nodup →
          (data.zip values).Pairwise fun earlier later =>
            earlier.2.equal later.2 = earlier.1.coincides later.1) ∧
      (∀ {now later : Machine} {container : Value}, now.Modifies container later →
        (∀ cell, container.cell? ≠ some cell → later.heap.get? cell = now.heap.get? cell) ∧
          ∀ {one : Datum} {left : Value} {cells : List CellId},
            (∀ cell ∈ cells, container.cell? ≠ some cell) →
              Represents now one left cells → Represents later one left cells) ∧
      ∀ (standard : Bool) (natives : List (String × Native)) (earlier between : List Undertaking),
        machine = Undertaking.run earlier (Machine.build standard natives) →
          ∀ {other : Datum} {also : Value} {last : Machine},
            convert other (Undertaking.run between after) = .ok also last →
              ∀ string twin, after.HasText value string ∨ last.HasText also string →
                after.HasText value twin ∨ last.HasText also twin →
                  (string.same twin = true ↔ string.text = twin.text) := by
  obtain ⟨cells, makes, represents⟩ := makes_convert converted
  refine ⟨⟨cells, represents, makes.distinct, fun cell member => (makes.new cell member).1,
    makes.kept⟩, fun first second apart => first.equal_eq second apart,
    fun each distinct => each.pairwise_equal distinct, ?_, ?_⟩
  · intro now later container modifies
    have differs := modifies.differsAt
    exact ⟨differs.apart, fun outside represents => differs.represents outside represents⟩
  · rintro standard natives earlier between rfl other also last again string twin has hasTwin
    obtain ⟨_, _, representsOther⟩ := makes_convert again
    have onward : after.interner.Extends after.supply last.interner last.supply :=
      ((Undertaking.machineEvolves_run between after).trans
        ((evolves_convert other).of_ok again)).pool
    have whole := ((Undertaking.machineEvolves_run earlier (Machine.build standard natives)).trans
      ((evolves_convert datum).of_ok converted)).pool
    have canonical := onward.canonical (whole.canonical (Machine.canonical_build standard natives))
    have pooled : ∀ string, after.HasText value string ∨ last.HasText also string →
        last.interner.find? string.text = some string := by
      rintro string (first | second)
      · exact onward.find?_eq (represents.pooled string first)
      · exact representsOther.pooled string second
    exact canonical.same_iff (pooled string has) (pooled twin hasTwin)

/-- Under one text twice, the later value is kept, and the text inside the earlier one is shared. -/
theorem conversion_of_repeated_key_is_faithful :
    let start := Machine.build false []
    let datum : Datum := .map [(.text "key", .seq [.text "key"]), (.text "key", .tuple [])]
    ∃ value after, convert datum start = .ok value after ∧
      ∃ cells, start.Renders datum value cells after := by
  intro start datum
  have harmless : datum.offences = [] := rfl
  obtain ⟨value, after, converted⟩ := exists_convert harmless start
  exact ⟨value, after, converted, (conversion_is_faithful_and_shares_nothing converted).1⟩

end Act

end ScriptCore
