import Mathlib.Data.List.Induction
import ScriptCore.Proofs.InstanceAttributes
import ScriptCore.Proofs.KeyedEntries

/-!
# Dicts as finite maps

A dict is followed through any sequence of uses.  What it holds is told by the history of these
uses alone: under each key stands what was stored last under an equal key and not deleted since.
-/

namespace ScriptCore

/-- The reading, storing or deleting of an item of a dict. -/
inductive DictUse
  | read (dict : CellId) (key : Value)
  | store (dict : CellId) (key value : Value)
  | delete (dict : CellId) (key : Value)

namespace DictUse

/-- What a use does. -/
def act : DictUse → Act Value
  | read dict key => Act.getItem (.dict dict) key
  | store dict key value => do
      Act.setItem (.dict dict) key value
      return .nothing
  | delete dict key => Act.deleteItem (.dict dict) key

/-- The machine after a use, whether it fails or not. -/
def after (use : DictUse) (machine : Machine) : Machine :=
  use.act.leaves machine

/-- The machine after several uses in order. -/
def run (uses : List DictUse) (machine : Machine) : Machine :=
  uses.foldl (fun machine use => use.after machine) machine

/-- Whether a use stores or deletes under a key of a dict that equals `key`. -/
def Touches (dict : CellId) (key : Value) : DictUse → Prop
  | read _ _ => False
  | store other stored _ => other = dict ∧ stored.equal key = true
  | delete other deleted => other = dict ∧ deleted.equal key = true

/-- A value was stored under a key of a dict that equals `key`, and since then nothing was stored
or deleted under such a key. -/
def LastStored (history : List DictUse) (dict : CellId) (key value : Value) : Prop :=
  ∃ earlier stored later, history = earlier ++ store dict stored value :: later ∧
    stored.equal key = true ∧ ∀ use ∈ later, ¬ use.Touches dict key

/-- What stands under a key of a dict after a use, if `current` did before. -/
def standing (dict : CellId) (key : Value) (current : Option Value) : DictUse → Option Value
  | read _ _ => current
  | store other stored value =>
      if other = dict ∧ stored.equal key = true then some value else current
  | delete other deleted => if other = dict ∧ deleted.equal key = true then none else current

section Histories

variable {dict : CellId} {key value : Value}

theorem standing_of_not_touches {use : DictUse} (untouched : ¬ use.Touches dict key)
    (current : Option Value) : standing dict key current use = current := by
  cases use with
  | read other asked => rfl
  | store other stored value => exact if_neg untouched
  | delete other deleted => exact if_neg untouched

theorem foldl_standing_of_not_touches {uses : List DictUse}
    (untouched : ∀ use ∈ uses, ¬ use.Touches dict key) (current : Option Value) :
    uses.foldl (standing dict key) current = current := by
  induction uses with
  | nil => rfl
  | cons use rest ih =>
      obtain ⟨first, others⟩ := List.forall_mem_cons.mp untouched
      rw [List.foldl_cons, standing_of_not_touches first]
      exact ih others

/-- What stands at the end of a history is what was stored last and not deleted since. -/
theorem lastStored_iff (history : List DictUse) :
    LastStored history dict key value ↔
      history.foldl (standing dict key) none = some value := by
  constructor
  · rintro ⟨earlier, stored, later, rfl, same, untouched⟩
    rw [List.foldl_append, List.foldl_cons, foldl_standing_of_not_touches untouched]
    exact if_pos ⟨rfl, same⟩
  · -- Induction on the history from its end: the last use decides, or leaves it to those before.
    induction history using List.reverseRecOn with
    | nil => exact fun stands => nomatch stands
    | append_singleton history use ih =>
        intro stands
        rw [List.foldl_append, List.foldl_cons, List.foldl_nil] at stands
        by_cases touched : use.Touches dict key
        · cases use with
          | read other asked => exact touched.elim
          | store other stored given =>
              obtain ⟨rfl, same⟩ := touched
              rw [standing, if_pos ⟨rfl, same⟩] at stands
              cases stands
              exact ⟨history, stored, [], rfl, same, by simp⟩
          | delete other deleted =>
              obtain ⟨rfl, same⟩ := touched
              rw [standing, if_pos ⟨rfl, same⟩] at stands
              cases stands
        · rw [standing_of_not_touches touched] at stands
          obtain ⟨earlier, stored, later, rfl, same, untouched⟩ := ih stands
          refine ⟨earlier, stored, later ++ [use], by simp, same, ?_⟩
          simpa [or_imp, forall_and] using ⟨untouched, touched⟩

end Histories

end DictUse

namespace Machine

/-- The machine with other entries in a dict. -/
def withEntries (machine : Machine) (dict : CellId) (entries : Entries) : Machine :=
  { machine with heap := machine.heap.set dict (.dict entries) }

/-- The history tells what a dict holds. -/
structure Follows (machine : Machine) (dict : CellId) (history : List DictUse) : Prop where
  isDict : machine.heap.get? dict = some (.dict (machine.heap.dictEntries dict))
  distinct : (machine.heap.dictEntries dict).Distinct
  stands : ∀ key : Key, (machine.heap.dictEntries dict).find? key =
    history.foldl (DictUse.standing dict key.value) none

end Machine

namespace Act

variable (dict : CellId) (key : Key) (machine : Machine)

theorem getItem_dict :
    getItem (.dict dict) key.value machine =
      .ok (((machine.heap.dictEntries dict).find? key).getD .nothing) machine := by
  simp only [getItem, heap_bind, Key.ofValue, key.hashable, dite_true]
  rfl

theorem setItem_dict (value : Value) :
    setItem (.dict dict) key.value value machine =
      .ok () (machine.withEntries dict ((machine.heap.dictEntries dict).insert key value)) := by
  simp only [setItem, heap_bind, Key.ofValue, key.hashable, dite_true]
  rfl

theorem deleteItem_dict_of_find?_eq_some {value : Value}
    (found : (machine.heap.dictEntries dict).find? key = some value) :
    deleteItem (.dict dict) key.value machine =
      .ok value (machine.withEntries dict ((machine.heap.dictEntries dict).erase key)) := by
  simp only [deleteItem, heap_bind, Key.ofValue, key.hashable, dite_true, ofExcept, pure_bind,
    found]
  rfl

theorem deleteItem_dict_of_find?_eq_none
    (missing : (machine.heap.dictEntries dict).find? key = none) :
    deleteItem (.dict dict) key.value machine =
      .error (.error (.missingKey (machine.heap.repr .plain key.value))) machine := by
  simp only [deleteItem, heap_bind, Key.ofValue, key.hashable, dite_true, ofExcept, pure_bind,
    missing]
  rfl

end Act

namespace DictUse

/-- The key under which a dict is used. -/
def key : DictUse → Value
  | read _ key => key
  | store _ key _ => key
  | delete _ key => key

/-- A use under something that may not be a key fails and changes nothing. -/
theorem act_of_unhashable {use : DictUse} (unhashable : use.key.isHashable = false)
    (machine : Machine) :
    use.act machine = .error (.error (.unhashable (Key.unhashableName use.key))) machine := by
  have refused : Key.ofValue use.key = .error (.unhashable (Key.unhashableName use.key)) := by
    simp [Key.ofValue, unhashable]
  cases use with
  | read dict key =>
      simp only [DictUse.key] at refused
      simp only [act, Act.getItem, Act.heap_bind, refused]
      rfl
  | store dict key value =>
      simp only [DictUse.key] at refused
      simp only [act, Act.setItem, bind_assoc, Act.heap_bind, refused]
      rfl
  | delete dict key =>
      simp only [DictUse.key] at refused
      simp only [act, Act.deleteItem, Act.heap_bind, refused]
      rfl

theorem after_of_unhashable {use : DictUse} (unhashable : use.key.isHashable = false)
    (machine : Machine) : use.after machine = machine := by
  rw [after, Act.leaves, act_of_unhashable unhashable]

section Admitted

variable (dict : CellId) (key : Key) (machine : Machine)

theorem after_read : (read dict key.value).after machine = machine := by
  rw [after, Act.leaves, act, Act.getItem_dict]

theorem after_store (value : Value) :
    (store dict key.value value).after machine =
      machine.withEntries dict ((machine.heap.dictEntries dict).insert key value) := by
  rw [after, act, Act.leaves_bind_pure _ fun _ => Value.nothing, Act.leaves, Act.setItem_dict]

theorem after_delete_of_find?_eq_some {value : Value}
    (found : (machine.heap.dictEntries dict).find? key = some value) :
    (delete dict key.value).after machine =
      machine.withEntries dict ((machine.heap.dictEntries dict).erase key) := by
  rw [after, act, Act.leaves, Act.deleteItem_dict_of_find?_eq_some dict key machine found]

theorem after_delete_of_find?_eq_none
    (missing : (machine.heap.dictEntries dict).find? key = none) :
    (delete dict key.value).after machine = machine := by
  rw [after, act, Act.leaves, Act.deleteItem_dict_of_find?_eq_none dict key machine missing]

end Admitted

end DictUse

namespace Machine

section Entries

variable {machine : Machine} {dict : CellId}

theorem get?_withEntries_self (isDict : (machine.heap.get? dict).isSome) (entries : Entries) :
    (machine.withEntries dict entries).heap.get? dict = some (.dict entries) := by
  simp [withEntries, Heap.get?_set, Heap.contains, isDict]

theorem get?_withEntries_of_ne {other : CellId} (different : dict ≠ other) (entries : Entries) :
    (machine.withEntries other entries).heap.get? dict = machine.heap.get? dict := by
  simp [withEntries, Heap.get?_set, different]

end Entries

variable {machine : Machine} {dict : CellId} {history : List DictUse}

theorem Follows.of_get?_eq {after : Machine} (follows : machine.Follows dict history)
    (same : after.heap.get? dict = machine.heap.get? dict) : after.Follows dict history := by
  have entries : after.heap.dictEntries dict = machine.heap.dictEntries dict := by
    rw [Heap.dictEntries, Heap.dictEntries, same]
  constructor
  · rw [same, entries]
    exact follows.isDict
  · rw [entries]
    exact follows.distinct
  · rw [entries]
    exact follows.stands

/-- A dict follows a history if its entries do. -/
theorem Follows.of_entries {entries : Entries}
    (isDict : machine.heap.get? dict = some (.dict entries)) (distinct : entries.Distinct)
    (stands : ∀ key : Key, entries.find? key =
      history.foldl (DictUse.standing dict key.value) none) :
    machine.Follows dict history := by
  have same : machine.heap.dictEntries dict = entries := by rw [Heap.dictEntries, isDict]
  constructor
  · rw [same]
    exact isDict
  · rw [same]
    exact distinct
  · rw [same]
    exact stands

/-- A use that leaves a dict alone leaves alone what the history tells. -/
theorem Follows.of_untouched {after : Machine} {use : DictUse}
    (follows : machine.Follows dict history)
    (same : after.heap.get? dict = machine.heap.get? dict)
    (untouched : ∀ key : Key, ¬ use.Touches dict key.value) :
    after.Follows dict (history ++ [use]) := by
  obtain ⟨isDict, distinct, stands⟩ := follows.of_get?_eq same
  refine ⟨isDict, distinct, fun key => ?_⟩
  rw [stands key, List.foldl_append, List.foldl_cons, List.foldl_nil,
    DictUse.standing_of_not_touches (untouched key)]

theorem Follows.of_insert {after : Machine} (follows : machine.Follows dict history) {key : Key}
    {value : Value} (isDict : after.heap.get? dict =
      some (.dict ((machine.heap.dictEntries dict).insert key value))) :
    after.Follows dict (history ++ [.store dict key.value value]) := by
  refine .of_entries isDict (follows.distinct.insert key value) fun other => ?_
  rw [Entries.find?_insert, follows.stands, List.foldl_append, List.foldl_cons, List.foldl_nil]
  cases same : key.value.equal other.value <;> simp [DictUse.standing, Key.equal, same]

theorem Follows.of_erase {after : Machine} (follows : machine.Follows dict history) {key : Key}
    (isDict : after.heap.get? dict =
      some (.dict ((machine.heap.dictEntries dict).erase key))) :
    after.Follows dict (history ++ [.delete dict key.value]) := by
  refine .of_entries isDict (follows.distinct.erase key) fun other => ?_
  rw [Entries.find?_erase follows.distinct, follows.stands, List.foldl_append, List.foldl_cons,
    List.foldl_nil]
  cases same : key.value.equal other.value <;> simp [DictUse.standing, Key.equal, same]

end Machine

namespace DictUse

variable {machine : Machine} {dict : CellId} {history : List DictUse}

theorem not_touches_of_unhashable {use : DictUse} (unhashable : use.key.isHashable = false)
    (dict : CellId) (key : Key) : ¬ use.Touches dict key.value := by
  intro touched
  have same : use.key.equal key.value = true := by
    cases use with
    | read other asked => exact touched.elim
    | store other stored value => exact touched.2
    | delete other deleted => exact touched.2
  rw [Value.isHashable_of_equal same, key.hashable] at unhashable
  cases unhashable

theorem follows_store (follows : machine.Follows dict history) (other : CellId) (key : Key)
    (value : Value) :
    ((store other key.value value).after machine).Follows dict
      (history ++ [store other key.value value]) := by
  rw [after_store]
  by_cases same : other = dict
  · subst same
    exact follows.of_insert (Machine.get?_withEntries_self (by simp [follows.isDict]) _)
  · refine follows.of_untouched ?_ fun key touched => same touched.1
    exact Machine.get?_withEntries_of_ne (Ne.symm same) _

theorem follows_delete (follows : machine.Follows dict history) (other : CellId) (key : Key) :
    ((delete other key.value).after machine).Follows dict
      (history ++ [delete other key.value]) := by
  cases found : (machine.heap.dictEntries other).find? key with
  | none =>
      rw [after_delete_of_find?_eq_none other key machine found]
      by_cases same : other = dict
      · subst same
        refine follows.of_erase ?_
        rw [Entries.erase_of_find?_eq_none found]
        exact follows.isDict
      · exact follows.of_untouched rfl fun key touched => same touched.1
  | some value =>
      rw [after_delete_of_find?_eq_some other key machine found]
      by_cases same : other = dict
      · subst same
        exact follows.of_erase (Machine.get?_withEntries_self (by simp [follows.isDict]) _)
      · refine follows.of_untouched ?_ fun key touched => same touched.1
        exact Machine.get?_withEntries_of_ne (Ne.symm same) _

/-- One use, of this dict or of another one. -/
theorem follows_after (follows : machine.Follows dict history) (use : DictUse) :
    (use.after machine).Follows dict (history ++ [use]) := by
  cases hashable : use.key.isHashable with
  | false =>
      rw [after_of_unhashable hashable]
      exact follows.of_untouched rfl (not_touches_of_unhashable hashable dict)
  | true =>
      cases use with
      | read other key =>
          rw [after_read other ⟨key, hashable⟩]
          exact follows.of_untouched rfl fun _ => id
      | store other key value => exact follows_store follows other ⟨key, hashable⟩ value
      | delete other key => exact follows_delete follows other ⟨key, hashable⟩

theorem follows_run (follows : machine.Follows dict history) (uses : List DictUse) :
    (run uses machine).Follows dict (history ++ uses) := by
  induction uses generalizing machine history with
  | nil =>
      rw [List.append_nil]
      exact follows
  | cons use rest ih =>
      rw [← List.singleton_append, ← List.append_assoc]
      exact ih (follows_after follows use)

/-- The history of a new dict: its pairs were stored in order. -/
def making (dict : CellId) (pairs : List (Value × Value)) : List DictUse :=
  pairs.map fun pair => store dict pair.1 pair.2

/-- Entries that are stored one after the other are told by the history of these stores. -/
theorem ofList_making (dict : CellId) (keyed : List (Key × Value)) :
    (Entries.ofList keyed).Distinct ∧ ∀ key : Key, (Entries.ofList keyed).find? key =
      (making dict (keyed.map fun entry => (entry.1.value, entry.2))).foldl
        (standing dict key.value) none := by
  induction keyed using List.reverseRecOn with
  | nil => exact ⟨List.Pairwise.nil, fun _ => rfl⟩
  | append_singleton keyed entry ih =>
      obtain ⟨distinct, stands⟩ := ih
      have stored : Entries.ofList (keyed ++ [entry]) =
          (Entries.ofList keyed).insert entry.1 entry.2 := by
        simp [Entries.ofList]
      rw [stored]
      refine ⟨distinct.insert entry.1 entry.2, fun key => ?_⟩
      rw [Entries.find?_insert, stands key]
      cases same : entry.1.value.equal key.value <;>
        simp [making, List.foldl_append, standing, Key.equal, same]

end DictUse

/-- What is converted one by one is given back one by one. -/
theorem map_of_mapM {α β : Type} {convert : α → Except Error β} {back : β → α}
    (undoes : ∀ item result, convert item = .ok result → back result = item) {items : List α}
    {results : List β} (ran : items.mapM convert = .ok results) : results.map back = items := by
  induction items generalizing results with
  | nil =>
      cases ran
      rfl
  | cons item rest ih =>
      rw [List.mapM_cons] at ran
      cases first : convert item with
      | error error =>
          rw [first] at ran
          cases ran
      | ok result =>
          rw [first] at ran
          cases others : rest.mapM convert with
          | error error =>
              rw [others] at ran
              cases ran
          | ok further =>
              rw [others] at ran
              cases ran
              rw [List.map_cons, undoes item result first, ih others]

theorem value_of_keyed (pair : Value × Value) (entry : Key × Value)
    (admitted : (do return (← Key.ofValue pair.1, pair.2) : Except Error (Key × Value)) =
      .ok entry) :
    (entry.1.value, entry.2) = pair := by
  unfold Key.ofValue at admitted
  split at admitted
  · cases admitted
    rfl
  · cases admitted

namespace Machine

variable {machine made : Machine} {dict : CellId}

theorem follows_making {pairs : List (Value × Value)}
    (built : Act.newDict pairs machine = .ok (.dict dict) made) :
    made.Follows dict (DictUse.making dict pairs) := by
  rw [Act.newDict] at built
  cases admitted : (pairs.mapM fun pair => do return (← Key.ofValue pair.1, pair.2) :
      Except Error (List (Key × Value))) with
  | error error =>
      rw [admitted] at built
      cases built
  | ok keyed =>
      rw [admitted] at built
      cases built
      rw [← map_of_mapM value_of_keyed admitted]
      obtain ⟨distinct, stands⟩ := DictUse.ofList_making machine.heap.size keyed
      refine .of_entries ?_ distinct stands
      exact (Heap.get?_alloc _ _ _).trans (if_pos rfl)

/-- One entry of a dict answers for a key: its value is read, a deletion gives it and removes
exactly this entry, and a store replaces it and keeps the stored key. -/
def Finds (machine : Machine) (dict : CellId) (key : Key) (value : Value) : Prop :=
  ∃ before stored after,
    machine.heap.dictEntries dict = before ++ (stored, value) :: after ∧
    stored.equal key = true ∧
    Act.getItem (.dict dict) key.value machine = .ok value machine ∧
    Act.deleteItem (.dict dict) key.value machine =
      .ok value (machine.withEntries dict (before ++ after)) ∧
    ∀ new, Act.setItem (.dict dict) key.value new machine =
      .ok () (machine.withEntries dict (before ++ (stored, new) :: after))

/-- No entry of a dict answers for a key: nothing is read, a deletion fails, and a store adds an
entry. -/
def Misses (machine : Machine) (dict : CellId) (key : Key) : Prop :=
  Act.getItem (.dict dict) key.value machine = .ok .nothing machine ∧
  (∃ error, error.kind = .keyError ∧
    Act.deleteItem (.dict dict) key.value machine = .error (.error error) machine) ∧
  ∀ new, Act.setItem (.dict dict) key.value new machine =
    .ok () (machine.withEntries dict (machine.heap.dictEntries dict ++ [(key, new)]))

/-- A dict answers as the finite map that its history tells. -/
structure IsMap (machine : Machine) (dict : CellId) (history : List DictUse) : Prop where
  distinct : (machine.heap.dictEntries dict).Distinct
  length : machine.heap.length (.dict dict) = .ok (machine.heap.dictEntries dict).length
  finds : ∀ (key : Key) (value : Value),
    DictUse.LastStored history dict key.value value → machine.Finds dict key value
  misses : ∀ key : Key,
    (∀ value, ¬ DictUse.LastStored history dict key.value value) → machine.Misses dict key
  /-- What is read under a key changes only by uses under an equal key. -/
  unaffected : ∀ (use : DictUse) (other : Value), ¬ use.Touches dict other →
    Act.result (Act.getItem (.dict dict) other) (use.after machine) =
      Act.result (Act.getItem (.dict dict) other) machine
  misses_nan : ∀ double : Binary64, double.isNaN = true →
    machine.Misses dict ⟨.double double, rfl⟩
  /-- Mutable containers are refused as keys. -/
  refuses : ∀ key cell, key = .list cell ∨ key = .dict cell ∨ key = .set cell →
    ∃ error, error.kind = .typeError ∧
      Act.getItem (.dict dict) key machine = .error (.error error) machine ∧
      Act.deleteItem (.dict dict) key machine = .error (.error error) machine ∧
      ∀ new, Act.setItem (.dict dict) key new machine = .error (.error error) machine

theorem finds_of_splits {key stored : Key} {value : Value} {before after : Entries}
    (splits : (machine.heap.dictEntries dict).Splits key before stored value after) :
    machine.Finds dict key value := by
  refine ⟨before, stored, after, splits.whole, splits.found, ?_, ?_, fun new => ?_⟩
  · rw [Act.getItem_dict, splits.find?_eq]
    rfl
  · rw [Act.deleteItem_dict_of_find?_eq_some dict key machine splits.find?_eq, splits.erase_eq]
  · rw [Act.setItem_dict, splits.insert_eq]

theorem misses_of_lacks {key : Key} (lacks : (machine.heap.dictEntries dict).Lacks key) :
    machine.Misses dict key := by
  have missing := Entries.find?_eq_none_of_lacks lacks
  refine ⟨?_, ⟨_, rfl, Act.deleteItem_dict_of_find?_eq_none dict key machine missing⟩, ?_⟩
  · rw [Act.getItem_dict, missing]
    rfl
  · intro new
    rw [Act.setItem_dict, Entries.insert_of_lacks lacks]

namespace Follows

variable {history : List DictUse} (follows : machine.Follows dict history)
include follows

theorem lastStored_iff {key : Key} {value : Value} :
    DictUse.LastStored history dict key.value value ↔
      (machine.heap.dictEntries dict).find? key = some value := by
  rw [follows.stands]
  exact DictUse.lastStored_iff history

theorem finds {key : Key} {value : Value}
    (last : DictUse.LastStored history dict key.value value) : machine.Finds dict key value := by
  have found := follows.lastStored_iff.mp last
  rcases Entries.lacks_or_splits (machine.heap.dictEntries dict) key with
    lacks | ⟨before, stored, held, after, splits⟩
  · rw [Entries.find?_eq_none_of_lacks lacks] at found
    cases found
  · rw [splits.find?_eq] at found
    cases found
    exact finds_of_splits splits

theorem misses {key : Key} (never : ∀ value, ¬ DictUse.LastStored history dict key.value value) :
    machine.Misses dict key := by
  rcases Entries.lacks_or_splits (machine.heap.dictEntries dict) key with
    lacks | ⟨before, stored, held, after, splits⟩
  · exact misses_of_lacks lacks
  · exact absurd (follows.lastStored_iff.mpr splits.find?_eq) (never held)

theorem unaffected {use : DictUse} {other : Value} (untouched : ¬ use.Touches dict other) :
    Act.result (Act.getItem (.dict dict) other) (use.after machine) =
      Act.result (Act.getItem (.dict dict) other) machine := by
  cases hashable : other.isHashable with
  | false =>
      have refused : ∀ machine, Act.getItem (.dict dict) other machine = _ :=
        @DictUse.act_of_unhashable (.read dict other) hashable
      rw [Act.result, Act.result, refused, refused]
  | true =>
      have before := follows.stands ⟨other, hashable⟩
      have after := (DictUse.follows_after follows use).stands ⟨other, hashable⟩
      rw [List.foldl_append, List.foldl_cons, List.foldl_nil,
        DictUse.standing_of_not_touches untouched, ← before] at after
      rw [Act.result, Act.result, Act.getItem_dict dict ⟨other, hashable⟩,
        Act.getItem_dict dict ⟨other, hashable⟩, after]

end Follows

theorem not_lastStored_of_isNaN {double : Binary64} (nan : double.isNaN = true)
    (history : List DictUse) (dict : CellId) (value : Value) :
    ¬ DictUse.LastStored history dict (.double double) value := by
  rintro ⟨earlier, stored, later, -, same, -⟩
  rw [Value.equal_double_of_isNaN nan] at same
  cases same

/-- A dict is a finite map under the equality of values, whatever is done with it. -/
theorem dict_is_map {pairs : List (Value × Value)}
    (built : Act.newDict pairs machine = .ok (.dict dict) made) (uses : List DictUse) :
    (DictUse.run uses made).IsMap dict (DictUse.making dict pairs ++ uses) := by
  have follows := DictUse.follows_run (follows_making built) uses
  exact {
    distinct := follows.distinct
    length := rfl
    finds := fun _ _ => follows.finds
    misses := fun _ => follows.misses
    unaffected := fun _ _ => follows.unaffected
    misses_nan := fun _ nan => follows.misses (not_lastStored_of_isNaN nan _ _)
    refuses := by
      rintro key cell (rfl | rfl | rfl)
      · exact ⟨_, rfl, rfl, rfl, fun _ => rfl⟩
      · exact ⟨_, rfl, rfl, rfl, fun _ => rfl⟩
      · exact ⟨_, rfl, rfl, rfl, fun _ => rfl⟩ }

/-- Zeros of both signs are one key, and NaNs are many. -/
theorem dict_of_zeros_and_nans_is_map :
    let zero : Value := .double ⟨0⟩
    let minusZero : Value := .double ⟨0x8000000000000000⟩
    let nan : Value := .double ⟨0x7ff8000000000000⟩
    let pairs : List (Value × Value) := [(zero, .int 1), (nan, .int 2)]
    let uses : List DictUse :=
      [.store 0 minusZero (.int 3), .store 0 nan (.int 4), .delete 0 nan, .read 0 (.list 7)]
    ∃ made, Act.newDict pairs {} = .ok (.dict 0) made ∧
      (DictUse.run uses made).IsMap 0 (DictUse.making 0 pairs ++ uses) := by
  intro zero minusZero nan pairs uses
  have built : Act.newDict pairs {} = .ok (.dict 0) _ := rfl
  exact ⟨_, built, dict_is_map built uses⟩

end Machine

end ScriptCore
