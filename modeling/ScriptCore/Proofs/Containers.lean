import ScriptCore.Proofs.Values

/-!
# Items, passes and conversion

Reading, assigning and deleting items, passing over containers, and converting data of the host
are quiet: they free nothing.
-/

namespace ScriptCore

namespace Slice

variable {α : Type} {slice : Slice} {items chosen : List α}

/-- Every item that a slice selects is one of the items. -/
theorem subset_of_select (selected : slice.select items = .ok chosen) : chosen ⊆ items := by
  intro item member
  obtain ⟨places, -, gathered⟩ := exists_of_bind_eq_ok selected
  obtain ⟨place, -, found⟩ := exists_of_mem_mapM gathered member
  rw [List.getElem?_toArray] at found
  cases there : items[place]? with
  | none =>
      rw [there] at found
      cases found
  | some stored =>
      rw [there] at found
      cases found
      exact List.mem_of_getElem? there

end Slice

namespace Pass

/-- A pass over a container, which lists and tuples are read from. -/
def ReadsFrom (container : Value) : Pass → Prop
  | tuple cell _ => container = .tuple cell
  | list cell _ => container = .list cell
  | entries _ => True

/-- A pass over a container that can go on. -/
structure Owned (container : Value) (activity : Activity) (pass : Pass) : Prop where
  owns : activity.Owns container
  source : pass.ReadsFrom container
  entries : ∀ value ∈ pass.hold.values, activity.Owns value

theorem Owned.known {container : Value} {activity : Activity} {pass : Pass}
    (owned : pass.Owned container activity) {id : CellId} (reference : id ∈ pass.hold.references) :
    activity.Knows id := by
  cases pass with
  | tuple cell position =>
      obtain rfl := List.mem_singleton.mp reference
      have source : container = .tuple id := owned.source
      exact owned.owns.knows (by rw [source]; rfl)
  | list cell position =>
      obtain rfl := List.mem_singleton.mp reference
      have source : container = .list id := owned.source
      exact owned.owns.knows (by rw [source]; rfl)
  | entries rest =>
      obtain ⟨value, member, inside⟩ := Entries.mem_references_iff.mp reference
      exact (owned.entries value member).known id inside

end Pass

namespace Act

section Items

variable {near : CellId → Prop} {quiet : Bool} {before : Activity} (proper : before.Proper)

include proper

theorem conducts_pick {α : Type} {items : List α} {missing : Stop} {single : α → Act Value}
    {build : List α → Act Value} {index : Index}
    (one : ∀ item ∈ items, Conducts near quiet (single item) Activity.Owns before)
    (several : ∀ chosen, chosen ⊆ items → Conducts near quiet (build chosen) Activity.Owns before) :
    Conducts near quiet (pick items missing single build index) Activity.Owns before := by
  cases index with
  | position position =>
      apply Conducts.resume_bind proper
      intro place _
      cases found : items[place]? with
      | none => exact .throw proper
      | some item => exact one item (List.mem_of_getElem? found)
  | slice slice =>
      apply Conducts.resume_bind proper
      intro chosen selected
      exact several chosen (Slice.subset_of_select selected)

theorem conducts_getItem {container index : Value} (owns : before.Owns container) :
    Conducts near quiet (getItem container index) Activity.Owns before := by
  apply Conducts.heap
  cases container with
  | dict cell =>
      apply Conducts.ofExcept_bind proper
      intro key _
      apply Conducts.pure proper
      cases found : Entries.find? (before.machine.heap.dictEntries cell) key with
      | none => exact .of_cell?_eq_none rfl
      | some value =>
          exact Activity.owns_dictEntries proper (owns.knows rfl)
            (Entries.mem_values_of_find? found)
  | string value =>
      apply Conducts.ofExcept_bind proper
      intro position _
      exact conducts_pick proper (fun _ _ => conducts_newString proper _)
        fun _ _ => conducts_newString proper _
  | tuple cell =>
      apply Conducts.ofExcept_bind proper
      intro position _
      refine conducts_pick proper (fun item member => .pure proper ?_) fun chosen subset => ?_
      · exact Activity.owns_tupleItems proper (owns.knows rfl) member
      · exact conducts_newTuple proper fun item member =>
          Activity.owns_tupleItems proper (owns.knows rfl) (subset member)
  | list cell =>
      apply Conducts.ofExcept_bind proper
      intro position _
      refine conducts_pick proper (fun item member => .pure proper ?_) fun chosen subset => ?_
      · exact Activity.owns_listItems proper (owns.knows rfl) member
      · exact conducts_newList proper fun item member =>
          Activity.owns_listItems proper (owns.knows rfl) (subset member)
  | _ => exact .fail proper

/-- Storing new content in a cell that keeps its kind. -/
theorem conducts_store {container : Value} {id : CellId} {new : Cell}
    (owns : before.Owns container) (named : container.cell? = some id)
    (plain : new.isPlain = true) (kind : ∀ old, container.Fits old → old.isPlain = true ∧
      (∀ value : Value, value.Fits old → value.Fits new) ∧
      (before.machine.heap.get? id = some old →
        ∀ value ∈ new.values, value ∈ old.values ∨ before.Owns value)) :
    Conducts near quiet (store id new) (fun _ _ => True) before := by
  obtain ⟨old, found, fits⟩ := owns.fits id named
  obtain ⟨plainOld, alike, owned⟩ := kind old fits
  exact ⟨_, Activity.becomes_write proper found (owns.knows named) ⟨plainOld, plain⟩ alike
    (owned found), trivial⟩

theorem conducts_storeList {id : CellId} {items : List Value} (owns : before.Owns (.list id))
    (owned : ∀ item ∈ items, item ∈ before.machine.heap.listItems id ∨ before.Owns item) :
    Conducts near quiet (store id (.list items)) (fun _ _ => True) before := by
  refine conducts_store proper owns rfl rfl fun old fits => ?_
  cases old with
  | list stored =>
      refine ⟨rfl, fun value fits => ?_, fun found item member => ?_⟩
      · cases value <;> exact fits
      · simpa [Heap.listItems, found, Cell.values] using owned item member
  | _ => exact fits.elim

theorem conducts_storeDict {id : CellId} {entries : Entries} (owns : before.Owns (.dict id))
    (owned : ∀ value ∈ Entries.values entries,
      value ∈ Entries.values (before.machine.heap.dictEntries id) ∨ before.Owns value) :
    Conducts near quiet (store id (.dict entries)) (fun _ _ => True) before := by
  refine conducts_store proper owns rfl rfl fun old fits => ?_
  cases old with
  | dict stored =>
      refine ⟨rfl, fun value fits => ?_, fun found value member => ?_⟩
      · cases value <;> exact fits
      · simpa [Heap.dictEntries, found, Cell.values] using owned value member
  | _ => exact fits.elim

theorem conducts_setItem {container index value : Value} (ownsContainer : before.Owns container)
    (ownsIndex : before.Owns index) (owns : before.Owns value) :
    Conducts near quiet (setItem container index value) (fun _ _ => True) before := by
  apply Conducts.heap
  cases container with
  | dict cell =>
      apply Conducts.ofExcept_bind proper
      intro key admitted
      refine conducts_storeDict proper ownsContainer fun stored member => ?_
      rcases Entries.mem_values_of_insert member with old | rfl | rfl
      · exact Or.inl old
      · exact Or.inr (Key.value_of_ofValue admitted ▸ ownsIndex)
      · exact Or.inr owns
  | list cell =>
      apply Conducts.ofExcept_bind proper
      intro position _
      cases position with
      | slice slice => exact .fail proper
      | position position =>
          apply Conducts.resume_bind proper
          intro place _
          split
          · refine conducts_storeList proper ownsContainer fun item member => ?_
            rcases List.mem_or_eq_of_mem_set member with old | rfl
            · exact Or.inl old
            · exact Or.inr owns
          · exact .throw proper
  | _ => exact .fail proper

theorem conducts_deleteItem {container index : Value} (owns : before.Owns container) :
    Conducts near true (deleteItem container index) Activity.Owns before := by
  apply Conducts.heap
  cases container with
  | list cell =>
      apply Conducts.ofExcept_bind proper
      intro position _
      cases position with
      | position position =>
          apply Conducts.resume_bind proper
          intro place _
          split
          · exact .fail proper
          · cases found : (before.machine.heap.listItems cell)[Word.toPlace place]? with
            | none => exact .throw proper
            | some item =>
                have ownsItem : before.Owns item := Activity.owns_listItems proper
                  (owns.knows rfl) (List.mem_of_getElem? found)
                have stored : Conducts near true
                    (store cell (.list
                      ((before.machine.heap.listItems cell).eraseIdx (Word.toPlace place))))
                    (fun _ _ => True) before :=
                  conducts_storeList proper owns fun item member =>
                    Or.inl (List.mem_of_mem_eraseIdx member)
                apply stored.bind proper
                intro machine after _ becomes properAfter _
                exact .pure properAfter (becomes.keeps rfl item ownsItem)
      | slice slice =>
          apply Conducts.resume_bind proper
          intro rest removed
          have stored : Conducts near true (store cell (.list rest)) (fun _ _ => True) before :=
            conducts_storeList proper owns fun item member =>
              Or.inl ((Slice.sublist_of_remove removed).subset member)
          apply stored.bind proper
          intro machine after _ _ properAfter _
          exact .pure properAfter (.of_cell?_eq_none rfl)
  | dict cell =>
      apply Conducts.ofExcept_bind proper
      intro key _
      dsimp only
      split
      · rename_i value found
        have ownsValue : before.Owns value := Activity.owns_dictEntries proper (owns.knows rfl)
          (Entries.mem_values_of_find? found)
        have stored : Conducts near true
            (store cell (.dict (Entries.erase (before.machine.heap.dictEntries cell) key)))
            (fun _ _ => True) before :=
          conducts_storeDict proper owns fun value member =>
            Or.inl (Entries.mem_values_of_erase member)
        apply stored.bind proper
        intro machine after _ becomes properAfter _
        exact .pure properAfter (becomes.keeps rfl value ownsValue)
      · exact .fail proper
  | _ => exact .fail proper

end Items

section Iteration

variable {near : CellId → Prop} {before : Activity} {container : Value} {pass : Pass}

theorem conducts_next (proper : before.Proper) (owned : pass.Owned container before) :
    Conducts near true pass.next
      (fun after result => ∀ item rest, result = some (item, rest) →
        after.Owns item ∧ rest.Owned container after) before := by
  cases pass with
  | tuple cell position =>
      rw [Pass.next]
      apply Conducts.heap
      apply Conducts.pure proper
      intro item rest taken
      obtain ⟨stored, there, same⟩ := Option.map_eq_some_iff.mp taken
      cases same
      have source : container = .tuple cell := owned.source
      refine ⟨Activity.owns_tupleItems proper (owned.owns.knows ?_)
        (List.mem_of_getElem? there), owned.owns, source, ?_⟩
      · rw [source]
        rfl
      · exact fun value member => absurd member List.not_mem_nil
  | list cell position =>
      rw [Pass.next]
      apply Conducts.heap
      apply Conducts.pure proper
      intro item rest taken
      obtain ⟨stored, there, same⟩ := Option.map_eq_some_iff.mp taken
      cases same
      have source : container = .list cell := owned.source
      refine ⟨Activity.owns_listItems proper (owned.owns.knows ?_)
        (List.mem_of_getElem? there), owned.owns, source, ?_⟩
      · rw [source]
        rfl
      · exact fun value member => absurd member List.not_mem_nil
  | entries entries =>
      cases entries with
      | nil => exact .pure proper fun item rest taken => by cases taken
      | cons entry rest =>
          obtain ⟨key, value⟩ := entry
          have pair : Conducts near true (newTuple [key.value, value]) Activity.Owns before := by
            refine conducts_newTuple proper fun item member => owned.entries item ?_
            exact List.mem_append_left _ member
          apply pair.bind proper
          intro machine after item becomes properAfter owns
          refine .pure properAfter fun taken further same => ?_
          cases same
          refine ⟨owns, becomes.keeps rfl _ owned.owns, trivial, fun stored member => ?_⟩
          exact becomes.keeps rfl _ (owned.entries stored (List.mem_append_right _ member))

theorem conducts_drain (proper : before.Proper) (owned : pass.Owned container before)
    (limit : Nat) :
    Conducts near true (pass.drain limit) (fun after items => ∀ item ∈ items, after.Owns item)
      before := by
  induction limit generalizing before pass with
  | zero => exact .pure proper fun item member => absurd member List.not_mem_nil
  | succ limit ih =>
      apply (conducts_next proper owned).bind proper
      intro machine middle result becomes properMiddle taken
      cases result with
      | none => exact .pure properMiddle fun item member => absurd member List.not_mem_nil
      | some pair =>
          obtain ⟨item, rest⟩ := pair
          obtain ⟨owns, ownedRest⟩ := taken item rest rfl
          apply (ih properMiddle ownedRest).bind properMiddle
          intro machine after items onward properAfter ownedItems
          refine .pure properAfter fun other member => ?_
          rcases List.mem_cons.mp member with rfl | later
          · exact onward.keeps rfl _ owns
          · exact ownedItems other later

theorem owned_pass (proper : before.Proper) (owns : before.Owns container) {iterable : Iterable}
    (viewed : Iterable.ofValue before.machine.heap container = .ok iterable) :
    (iterable.pass before.machine.heap).Owned container before := by
  cases container <;> cases viewed
  · exact ⟨owns, rfl, fun value member => absurd member List.not_mem_nil⟩
  · exact ⟨owns, rfl, fun value member => absurd member List.not_mem_nil⟩
  · exact ⟨owns, trivial, fun value member =>
      Activity.owns_dictEntries proper (owns.knows rfl) member⟩

theorem conducts_elements (proper : before.Proper) (owns : before.Owns container) :
    Conducts near true (elements container) (fun after items => ∀ item ∈ items, after.Owns item)
      before := by
  apply Conducts.heap
  apply Conducts.ofExcept_bind proper
  intro iterable viewed
  exact conducts_drain proper (owned_pass proper owns viewed) _

end Iteration

section Conversion

variable {near : CellId → Prop}

mutual

theorem conducts_convert (datum : Datum) {before : Activity} (proper : before.Proper) :
    Conducts near true (convert datum) Activity.Owns before := by
  match datum with
  | .null => exact .pure proper (.of_cell?_eq_none rfl)
  | .bool value => exact .pure proper (.of_cell?_eq_none rfl)
  | .int value => exact .pure proper (.of_cell?_eq_none rfl)
  | .float value => exact .pure proper (.of_cell?_eq_none rfl)
  | .text value =>
      rw [convert]
      apply (conducts_intern proper value).bind proper
      intro machine after string _ properAfter _
      exact .pure properAfter (.of_cell?_eq_none rfl)
  | .seq items =>
      rw [convert]
      apply (conducts_convertAll items proper).bind proper
      intro machine after values _ properAfter owned
      exact conducts_newList properAfter owned
  | .tuple items =>
      rw [convert]
      apply (conducts_convertAll items proper).bind proper
      intro machine after values _ properAfter owned
      exact conducts_newTuple properAfter owned
  | .map entries =>
      rw [convert]
      apply (conducts_convertEntries entries proper).bind proper
      intro machine after pairs _ properAfter owned
      exact conducts_newDict properAfter owned
  | .set items =>
      rw [convert]
      apply (conducts_convertAll items proper).bind proper
      intro machine after values _ properAfter owned
      exact conducts_newSet properAfter owned
  | .foreign typeName => exact .fail proper

theorem conducts_convertAll (data : List Datum) {before : Activity} (proper : before.Proper) :
    Conducts near true (convertAll data) (fun after values => ∀ value ∈ values, after.Owns value)
      before := by
  match data with
  | [] => exact .pure proper fun value member => absurd member List.not_mem_nil
  | datum :: rest =>
      rw [convertAll]
      apply (conducts_convert datum proper).bind proper
      intro machine middle value _ properMiddle owns
      apply (conducts_convertAll rest properMiddle).bind properMiddle
      intro machine after values becomes properAfter owned
      refine .pure properAfter fun other member => ?_
      rcases List.mem_cons.mp member with rfl | later
      · exact becomes.keeps rfl _ owns
      · exact owned other later

theorem conducts_convertEntries (entries : List (Datum × Datum)) {before : Activity}
    (proper : before.Proper) :
    Conducts near true (convertEntries entries)
      (fun after pairs => ∀ pair ∈ pairs, after.Owns pair.1 ∧ after.Owns pair.2) before := by
  match entries with
  | [] => exact .pure proper fun value member => absurd member List.not_mem_nil
  | entry :: rest =>
      rw [convertEntries]
      apply (conducts_convertEntry entry proper).bind proper
      intro machine middle pair _ properMiddle owns
      apply (conducts_convertEntries rest properMiddle).bind properMiddle
      intro machine after pairs becomes properAfter owned
      refine .pure properAfter fun other member => ?_
      rcases List.mem_cons.mp member with rfl | later
      · exact ⟨becomes.keeps rfl _ owns.1, becomes.keeps rfl _ owns.2⟩
      · exact owned other later

theorem conducts_convertEntry (entry : Datum × Datum) {before : Activity}
    (proper : before.Proper) :
    Conducts near true (convertEntry entry)
      (fun after pair => after.Owns pair.1 ∧ after.Owns pair.2) before := by
  match entry with
  | (key, value) =>
      rw [convertEntry]
      apply (conducts_convert key proper).bind proper
      intro machine middle first _ properMiddle ownsKey
      apply (conducts_convert value properMiddle).bind properMiddle
      intro machine after second becomes properAfter owns
      exact .pure properAfter ⟨becomes.keeps rfl _ ownsKey, owns⟩

end

end Conversion

end Act

end ScriptCore
