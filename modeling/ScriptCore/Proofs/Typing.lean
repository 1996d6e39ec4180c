import ScriptCore.Proofs.RunInvariant

/-!
# Values and the cells they name

A value that names a cell fits a cell of its kind; a bound method names what its cell binds.  In
a typed machine all values fit, wherever they are stored.  Cells keep their kind as long as they
exist, so a value that fits goes on to fit while its cell exists.
-/

namespace ScriptCore

open Relation

namespace Value

/-- A value can name a cell with this content. -/
def Fits : Value → Cell → Prop
  | tuple _, .tuple _ => True
  | list _, .list _ => True
  | dict _, .dict _ => True
  | set _, .set _ => True
  | classObject _, .classObject _ => True
  | object _, .object _ => True
  | function _, .function _ => True
  | method _ receiver code, .method boundReceiver boundCode =>
      receiver = boundReceiver ∧ code = boundCode
  | _, _ => False

theorem not_fits_frame (value : Value) (content : Frame) : ¬value.Fits (.frame content) := by
  cases value <;> exact id

theorem mem_referencesBefore {value : Value} {further : List CellId} {id : CellId} :
    id ∈ value.referencesBefore further ↔ id ∈ value.references ∨ id ∈ further := by
  cases found : value.cell? <;> simp [referencesBefore, references, found]

theorem mem_allReferences {values : List Value} {id : CellId} :
    id ∈ allReferences values ↔ ∃ value ∈ values, id ∈ value.references := by
  induction values with
  | nil => simp [allReferences]
  | cons value rest ih => simp [allReferences, mem_referencesBefore, ih]

end Value

namespace Names

/-- The bound values. -/
def values (names : Names) : List Value :=
  names.map Prod.snd

theorem mem_references_iff {names : Names} {id : CellId} :
    id ∈ Names.references names ↔ ∃ value ∈ values names, id ∈ value.references := by
  induction names with
  | nil => simp [references, values]
  | cons binding rest ih =>
      obtain ⟨name, value⟩ := binding
      rw [references, Value.mem_referencesBefore, ih]
      simp [values]

theorem mem_values_of_insert {names : Names} {name : Str} {new value : Value}
    (member : value ∈ values (names.insert name new)) :
    value ∈ values names ∨ value = new := by
  induction names with
  | nil => exact Or.inr (by simpa [insert, values] using member)
  | cons binding rest ih =>
      obtain ⟨bound, old⟩ := binding
      unfold insert at member
      split at member
      · simp only [values, List.map_cons, List.mem_cons] at member ⊢
        tauto
      · simp only [values, List.map_cons, List.mem_cons] at member ⊢
        rcases member with here | later
        · exact Or.inl (Or.inl here)
        · exact (ih later).imp_left Or.inr

theorem mem_values_of_erase {names : Names} {name : String} {value : Value}
    (member : value ∈ values (names.erase name)) : value ∈ values names := by
  obtain ⟨binding, listed, rfl⟩ := List.mem_map.mp member
  exact List.mem_map_of_mem (List.mem_of_mem_filter listed)

theorem mem_values_of_find? {names : Names} {name : String} {value : Value}
    (found : names.find? name = some value) : value ∈ values names := by
  induction names with
  | nil => simp [find?] at found
  | cons binding rest ih =>
      obtain ⟨bound, old⟩ := binding
      unfold find? at found
      split at found
      · cases found
        exact List.mem_cons_self
      · exact List.mem_cons_of_mem _ (ih found)

end Names

namespace Entries

/-- The keys and values of entries. -/
def values (entries : Entries) : List Value :=
  entries.flatMap fun entry => [entry.1.value, entry.2]

theorem mem_references_iff {entries : Entries} {id : CellId} :
    id ∈ Entries.references entries ↔ ∃ value ∈ values entries, id ∈ value.references := by
  induction entries with
  | nil => simp [references, values]
  | cons entry rest ih =>
      obtain ⟨key, value⟩ := entry
      rw [references, Value.mem_referencesBefore, Value.mem_referencesBefore, ih]
      simp [values]

theorem mem_values_of_insert {entries : Entries} {key : Key} {new value : Value}
    (member : value ∈ values (entries.insert key new)) :
    value ∈ values entries ∨ value = key.value ∨ value = new := by
  induction entries with
  | nil => exact Or.inr (by simpa [insert, values] using member)
  | cons entry rest ih =>
      obtain ⟨stored, old⟩ := entry
      unfold insert at member
      split at member
      · simp only [values, List.flatMap_cons, List.cons_append, List.nil_append,
          List.mem_cons] at member ⊢
        tauto
      · simp only [values, List.flatMap_cons, List.cons_append, List.nil_append,
          List.mem_cons] at member ih ⊢
        tauto

theorem mem_values_of_erase {entries : Entries} {key : Key} {value : Value}
    (member : value ∈ values (entries.erase key)) : value ∈ values entries := by
  induction entries with
  | nil => exact member
  | cons entry rest ih =>
      obtain ⟨stored, old⟩ := entry
      unfold erase at member
      split at member
      · exact List.mem_append_right _ member
      · simp only [values, List.flatMap_cons, List.cons_append, List.nil_append,
          List.mem_cons] at member ih ⊢
        tauto

theorem mem_values_of_find? {entries : Entries} {key : Key} {value : Value}
    (found : entries.find? key = some value) : value ∈ values entries := by
  induction entries with
  | nil => simp [find?] at found
  | cons entry rest ih =>
      obtain ⟨stored, old⟩ := entry
      unfold find? at found
      split at found
      · cases found
        simp [values]
      · exact List.mem_append_right _ (ih found)

theorem mem_values_of_ofList {pairs : List (Key × Value)} {value : Value}
    (member : value ∈ values (ofList pairs)) :
    ∃ pair ∈ pairs, value = pair.1.value ∨ value = pair.2 := by
  have folded : ∀ (pairs : List (Key × Value)) (entries : Entries),
      value ∈ values (pairs.foldl (fun entries pair => entries.insert pair.1 pair.2) entries) →
      value ∈ values entries ∨ ∃ pair ∈ pairs, value = pair.1.value ∨ value = pair.2 := by
    intro pairs
    induction pairs with
    | nil => exact fun entries member => Or.inl member
    | cons pair rest ih =>
        intro entries member
        rcases ih _ member with stored | ⟨later, listed, same⟩
        · rcases mem_values_of_insert stored with old | new
          · exact Or.inl old
          · exact Or.inr ⟨pair, List.mem_cons_self, new⟩
        · exact Or.inr ⟨later, List.mem_cons_of_mem pair listed, same⟩
  exact (folded pairs [] member).resolve_left (by simp [values])

end Entries

namespace Members

/-- The values of members. -/
def values (members : Members) : List Value :=
  members.map Key.value

theorem mem_references_iff {members : Members} {id : CellId} :
    id ∈ Members.references members ↔ ∃ value ∈ values members, id ∈ value.references := by
  induction members with
  | nil => simp [references, values]
  | cons key rest ih =>
      rw [references, Value.mem_referencesBefore, ih]
      simp [values]

theorem mem_values_of_ofList {keys : List Key} {value : Value}
    (member : value ∈ values (ofList keys)) : ∃ key ∈ keys, value = key.value := by
  have folded : ∀ (keys : List Key) (members : Members),
      value ∈ values (keys.foldl insert members) →
      value ∈ values members ∨ ∃ key ∈ keys, value = key.value := by
    intro keys
    induction keys with
    | nil => exact fun members member => Or.inl member
    | cons key rest ih =>
        intro members member
        rcases ih _ member with stored | ⟨later, listed, same⟩
        · unfold insert at stored
          split at stored
          · exact Or.inl stored
          · simp only [values, List.map_append, List.mem_append, List.map_cons, List.map_nil,
              List.mem_singleton] at stored
            exact stored.imp_right fun new => ⟨key, List.mem_cons_self, new⟩
        · exact Or.inr ⟨later, List.mem_cons_of_mem key listed, same⟩
  exact (folded keys [] member).resolve_left (by simp [values])

end Members

namespace Cell

/-- The values a cell holds.  The class of an object, the superclass of a class and what a bound
method binds count as values. -/
def values : Cell → List Value
  | tuple items => items
  | list items => items
  | dict entries => Entries.values entries
  | set members => Members.values members
  | classObject content =>
      (content.superclass.map Value.classObject).toList ++ Names.values content.attributes
  | object content => .classObject content.classCell :: Names.values content.attributes
  | function _ => []
  | method receiver code => [.object receiver, .function code]
  | frame { scope := .global, .. } => []
  | frame { scope := .nested _ bindings, .. } => Names.values bindings

theorem mem_references_of_mem_values {cell : Cell} {value : Value} (member : value ∈ cell.values)
    {id : CellId} (reference : id ∈ value.references) : id ∈ cell.references := by
  match cell with
  | tuple items => exact Value.mem_allReferences.mpr ⟨value, member, reference⟩
  | list items => exact Value.mem_allReferences.mpr ⟨value, member, reference⟩
  | dict entries => exact Entries.mem_references_iff.mpr ⟨value, member, reference⟩
  | set members => exact Members.mem_references_iff.mpr ⟨value, member, reference⟩
  | classObject content =>
      rcases List.mem_append.mp member with inherited | bound
      · apply List.mem_append_left
        cases link : content.superclass with
        | none => simp [link] at inherited
        | some parent =>
            simp only [link, Option.map_some, Option.toList_some, List.mem_singleton] at inherited
            subst inherited
            exact reference
      · exact List.mem_append_right _ (Names.mem_references_iff.mpr ⟨value, bound, reference⟩)
  | object content =>
      rcases List.mem_cons.mp member with rfl | bound
      · exact List.mem_cons.mpr (Or.inl (List.mem_singleton.mp reference))
      · exact List.mem_cons_of_mem _ (Names.mem_references_iff.mpr ⟨value, bound, reference⟩)
  | function content => simp [values] at member
  | method receiver code =>
      simp only [values, List.mem_cons, List.not_mem_nil, or_false] at member
      rcases member with rfl | rfl
      · simpa [Value.references, Value.cell?, references] using Or.inl reference
      · simpa [Value.references, Value.cell?, references] using Or.inr reference
  | frame { scope := .global, .. } => simp [values] at member
  | frame { scope := .nested parent bindings, .. } =>
      exact List.mem_cons_of_mem _ (Names.mem_references_iff.mpr ⟨value, member, reference⟩)

/-- All references of a cell that is neither a frame nor a function are in its values. -/
theorem frame?_eq_none_of_isPlain {cell : Cell} (plain : cell.isPlain = true) :
    cell.frame? = none := by
  cases cell <;> simp_all [isPlain, frame?]

theorem exists_mem_values {cell : Cell} (plain : cell.isPlain = true) {id : CellId}
    (reference : id ∈ cell.references) : ∃ value ∈ cell.values, id ∈ value.references := by
  cases cell with
  | tuple items => exact Value.mem_allReferences.mp reference
  | list items => exact Value.mem_allReferences.mp reference
  | dict entries => exact Entries.mem_references_iff.mp reference
  | set members => exact Members.mem_references_iff.mp reference
  | classObject content =>
      rcases List.mem_append.mp reference with inherited | bound
      · refine ⟨.classObject id, List.mem_append_left _ ?_, by simp [Value.references, Value.cell?]⟩
        simpa using inherited
      · obtain ⟨value, member, inside⟩ := Names.mem_references_iff.mp bound
        exact ⟨value, List.mem_append_right _ member, inside⟩
  | object content =>
      rcases List.mem_cons.mp reference with rfl | bound
      · exact ⟨_, List.mem_cons_self, by simp [Value.references, Value.cell?]⟩
      · obtain ⟨value, member, inside⟩ := Names.mem_references_iff.mp bound
        exact ⟨value, List.mem_cons_of_mem _ member, inside⟩
  | method receiver code =>
      simp only [references, List.mem_cons, List.not_mem_nil, or_false] at reference
      rcases reference with rfl | rfl
      · exact ⟨.object id, by simp [values], by simp [Value.references, Value.cell?]⟩
      · exact ⟨.function id, by simp [values], by simp [Value.references, Value.cell?]⟩
  | function content => simp [isPlain] at plain
  | frame content => simp [isPlain] at plain

end Cell

namespace Hold

/-- The values that are held. -/
def values : Hold → List Value
  | cell _ => []
  | value held => [held]
  | names bindings => Names.values bindings
  | entries rest => Entries.values rest

theorem mem_references_of_mem_values {hold : Hold} {value : Value} (member : value ∈ hold.values)
    {id : CellId} (reference : id ∈ value.references) : id ∈ hold.references := by
  cases hold with
  | cell id => simp [values] at member
  | value held =>
      rw [List.mem_singleton.mp member] at reference
      exact reference
  | names bindings => exact Names.mem_references_iff.mpr ⟨value, member, reference⟩
  | entries rest => exact Entries.mem_references_iff.mpr ⟨value, member, reference⟩

end Hold

namespace Heap

/-- The cell a value names is of its kind. -/
def Fits (heap : Heap) (value : Value) : Prop :=
  ∀ id ∈ value.cell?, ∃ cell, heap.get? id = some cell ∧ value.Fits cell

/-- Cells of the first heap have the same kind in the second, if they are still there, and none
comes back. -/
structure Lasts (before after : Heap) : Prop where
  size_le : before.size ≤ after.size
  gone : ∀ id < before.size, before.get? id = none → after.get? id = none
  kind : ∀ id old new, before.get? id = some old → after.get? id = some new →
    ∀ value : Value, value.Fits old → value.Fits new
  frame : ∀ id old new, before.get? id = some old → after.get? id = some new →
    new.frame?.isSome = old.frame?.isSome

section Fitting

variable {before middle after : Heap} {value : Value}

theorem Fits.frame?_eq_none {heap : Heap} (fits : heap.Fits value) {id : CellId}
    (reference : id ∈ value.references) : heap.frame? id = none := by
  obtain ⟨cell, found, ofKind⟩ := fits id (by simpa [Value.references] using reference)
  rw [frame?, found]
  cases cell with
  | frame content => exact absurd ofKind (value.not_fits_frame content)
  | _ => rfl

theorem Lasts.of_get?_eq (size_le : before.size ≤ after.size)
    (same : ∀ id < before.size, after.get? id = before.get? id) : before.Lasts after where
  size_le := size_le
  gone id inside none := (same id inside).trans none
  kind id old new was now value fits := by
    rw [same id (lt_size_of_get? was), was] at now
    cases now
    exact fits
  frame id old new was now := by
    rw [same id (lt_size_of_get? was), was] at now
    cases now
    rfl

theorem Lasts.refl (heap : Heap) : heap.Lasts heap :=
  .of_get?_eq (Nat.le_refl _) fun _ _ => rfl

theorem Lasts.alloc (heap : Heap) (cell : Cell) : heap.Lasts (heap.alloc cell).2 := by
  refine .of_get?_eq (by simp) fun id inside => ?_
  rw [get?_alloc, if_neg (Nat.ne_of_lt inside)]

theorem Lasts.trans (first : before.Lasts middle) (second : middle.Lasts after) :
    before.Lasts after where
  size_le := Nat.le_trans first.size_le second.size_le
  gone id inside none :=
    second.gone id (Nat.lt_of_lt_of_le inside first.size_le) (first.gone id inside none)
  kind id old new was now value fits := by
    have inside := Nat.lt_of_lt_of_le (lt_size_of_get? was) first.size_le
    cases between : middle.get? id with
    | none => simp [second.gone id inside between] at now
    | some cell =>
        have fitsBetween := first.kind id old cell was between value fits
        exact second.kind id cell new between now value fitsBetween
  frame id old new was now := by
    have inside := Nat.lt_of_lt_of_le (lt_size_of_get? was) first.size_le
    cases between : middle.get? id with
    | none => simp [second.gone id inside between] at now
    | some cell =>
        exact (second.frame id cell new between now).trans (first.frame id old cell was between)

theorem Lasts.set {heap : Heap} {id : CellId} {old new : Cell} (found : heap.get? id = some old)
    (alike : ∀ value : Value, value.Fits old → value.Fits new)
    (isFrame : new.frame?.isSome = old.frame?.isSome) : heap.Lasts (heap.set id new) := by
  have content : ∀ other, (heap.set id new).get? other =
      if other = id then some new else heap.get? other := by
    intro other
    simp [get?_set, contains, found]
  refine ⟨by simp, fun other _ none => ?_, fun other was now foundWas foundNow value fits => ?_,
    fun other was now foundWas foundNow => ?_⟩
  · have different : other ≠ id := by
      rintro rfl
      simp [found] at none
    rw [content, if_neg different, none]
  · rw [content] at foundNow
    split at foundNow
    · rename_i same
      subst same
      rw [found] at foundWas
      cases foundWas
      cases foundNow
      exact alike value fits
    · rw [foundWas] at foundNow
      cases foundNow
      exact fits
  · rw [content] at foundNow
    split at foundNow
    · rename_i same
      subst same
      rw [found] at foundWas
      cases foundWas
      cases foundNow
      exact isFrame
    · rw [foundWas] at foundNow
      cases foundNow
      rfl

theorem get?_capture (heap : Heap) (frame id : CellId) :
    (heap.capture frame).get? id = heap.get? id ∨
      ∃ content, heap.get? id = some (.frame content) ∧
        (heap.capture frame).get? id = some (.frame { content with captured := true }) := by
  rcases heap.get?_captureUpTo (heap.size + 1) frame id with same | ⟨content, was, now, -⟩
  · exact Or.inl same
  · exact Or.inr ⟨content, was, now⟩

theorem Lasts.capture (heap : Heap) (frame : CellId) : heap.Lasts (heap.capture frame) := by
  refine ⟨Nat.le_of_eq (size_capture heap frame).symm, fun id _ none => ?_,
    fun id old new found now value fits => ?_, fun id old new found now => ?_⟩
  · rcases heap.get?_capture frame id with same | ⟨content, was, -⟩
    · exact same.trans none
    · simp [none] at was
  · rcases heap.get?_capture frame id with same | ⟨content, was, -⟩
    · rw [same, found] at now
      cases now
      exact fits
    · rw [found] at was
      cases was
      exact absurd fits (value.not_fits_frame content)
  · rcases heap.get?_capture frame id with same | ⟨content, was, marked⟩
    · rw [same, found] at now
      cases now
      rfl
    · rw [found] at was
      rw [now] at marked
      cases was
      cases marked
      rfl

theorem Lasts.isFrame (lasts : before.Lasts after) {id : CellId}
    (isFrame : (before.frame? id).isSome = true) (present : after.contains id = true) :
    (after.frame? id).isSome = true := by
  obtain ⟨content, found⟩ := Option.isSome_iff_exists.mp isFrame
  obtain ⟨new, now⟩ := Option.isSome_iff_exists.mp present
  rw [frame?_eq_bind, now]
  exact lasts.frame id _ new (frame?_eq_some_iff.mp found) now

theorem Lasts.fits (lasts : before.Lasts after) (fits : before.Fits value)
    (present : ∀ id ∈ value.references, after.contains id = true) : after.Fits value := by
  intro id named
  obtain ⟨old, found, ofKind⟩ := fits id named
  have there := present id (by simpa [Value.references] using named)
  obtain ⟨new, now⟩ := Option.isSome_iff_exists.mp there
  exact ⟨new, now, lasts.kind id old new found now value ofKind⟩

/-- Tidying changes the kind of no cell: it frees cells, and takes names of frames. -/
theorem Tidied.lasts {outside : List CellId} {cleared : Set CellId}
    (tidied : Tidied outside cleared before after) : before.Lasts after where
  size_le := Nat.le_of_eq tidied.size_eq.symm
  gone id _ none := by
    rcases tidied.cell id with same | gone | ⟨-, frame, was, -⟩
    · exact same.trans none
    · exact gone
    · simp [none] at was
  kind id old new was now value fits := by
    rcases tidied.cell id with same | gone | ⟨-, frame, wasFrame, -⟩
    · rw [same, was] at now
      cases now
      exact fits
    · simp [gone] at now
    · rw [was] at wasFrame
      cases wasFrame
      exact absurd fits (value.not_fits_frame frame)
  frame id old new was now := by
    rcases tidied.cell id with same | gone | ⟨-, frame, wasFrame, nowFrame⟩
    · rw [same, was] at now
      cases now
      rfl
    · simp [gone] at now
    · rw [was] at wasFrame
      rw [now] at nowFrame
      cases wasFrame
      cases nowFrame
      rfl

end Fitting

end Heap

namespace Machine

/-- All values fit, in cells, among the globals and among what is held, and frames are kept by
name. -/
structure Typed (machine : Machine) : Prop where
  cells : ∀ id cell, machine.heap.get? id = some cell →
    ∀ value ∈ cell.values, machine.heap.Fits value
  globals : ∀ value ∈ Names.values machine.globals, machine.heap.Fits value
  held : ∀ hold ∈ machine.held, ∀ value ∈ hold.values, machine.heap.Fits value
  handles : ∀ handle ∈ machine.handles, (machine.heap.frame? handle.2).isSome = true

end Machine

namespace Activity

/-- The evaluation can pass on a value: it can get at the cell the value names, and the value
fits. -/
structure Owns (activity : Activity) (value : Value) : Prop where
  fits : activity.machine.heap.Fits value
  known : ∀ id ∈ value.references, activity.Knows id

/-- A frame that the evaluation can get at. -/
structure Hosts (activity : Activity) (frame : CellId) : Prop where
  known : activity.Knows frame
  isFrame : (activity.machine.heap.frame? frame).isSome = true

/-- A sound activity in which all values fit. -/
structure Proper (activity : Activity) : Prop where
  sound : activity.Sound
  typed : activity.machine.Typed

section Owning

variable {activity : Activity} {value : Value}

theorem Owns.offers (owns : activity.Owns value) {id : CellId} (reference : id ∈ value.references) :
    activity.Offers id :=
  ⟨owns.known id reference, owns.fits.frame?_eq_none reference⟩

theorem Owns.of_cell?_eq_none (plain : value.cell? = none) : activity.Owns value := by
  refine ⟨fun id named => ?_, fun id reference => ?_⟩
  · simp [plain] at named
  · simp [Value.references, plain] at reference

theorem Owns.of_start (fits : activity.machine.heap.Fits value)
    (start : ∀ id ∈ value.references, id ∈ activity.starts) : activity.Owns value :=
  ⟨fits, fun id reference => .of_mem (start id reference)⟩

/-- What a known cell holds can be passed on. -/
theorem Proper.owns_of_mem_values (proper : activity.Proper) {id : CellId} {cell : Cell}
    (found : activity.machine.heap.get? id = some cell) (known : activity.Knows id)
    (member : value ∈ cell.values) : activity.Owns value := by
  refine ⟨proper.typed.cells id cell found value member, fun target reference => ?_⟩
  apply known.tail
  rw [Heap.Refers, Heap.referencesOf_of_get? found]
  exact Cell.mem_references_of_mem_values member reference

theorem knows_handle {activity : Activity} {handle : String × CellId}
    (listed : handle ∈ activity.machine.handles) : activity.Knows handle.2 := by
  apply Heap.ReachedFrom.of_mem
  apply List.mem_append_left
  apply List.mem_append_left
  exact List.mem_append_right _ (List.mem_map_of_mem listed)

theorem Proper.hosts_handle (proper : activity.Proper) {handle : String × CellId}
    (listed : handle ∈ activity.machine.handles) : activity.Hosts handle.2 :=
  ⟨Activity.knows_handle listed, proper.typed.handles handle listed⟩

theorem Proper.owns_global (proper : activity.Proper)
    (member : value ∈ Names.values activity.machine.globals) : activity.Owns value := by
  refine .of_start (proper.typed.globals value member) fun id reference => ?_
  simp only [starts, Machine.roots, List.append_assoc, List.mem_append]
  exact Or.inl (Names.mem_references_iff.mpr ⟨value, member, reference⟩)

theorem Proper.owns_held (proper : activity.Proper) {hold : Hold}
    (listed : hold ∈ activity.machine.held) (member : value ∈ hold.values) :
    activity.Owns value := by
  refine .of_start (proper.typed.held hold listed value member) fun id reference => ?_
  apply List.mem_append_left
  apply List.mem_append_right
  exact List.mem_flatMap.mpr ⟨hold, listed, Hold.mem_references_of_mem_values member reference⟩

/-- All values fit after a change in which cells keep their kind, if all that are stored
afterwards fitted before. -/
theorem typed_of_lasts {before after : Activity} (sound : after.Sound)
    (lasts : before.machine.heap.Lasts after.machine.heap)
    (cells : ∀ id cell, after.machine.heap.get? id = some cell →
      ∀ value ∈ cell.values, before.machine.heap.Fits value)
    (globals : ∀ value ∈ Names.values after.machine.globals, before.machine.heap.Fits value)
    (held : ∀ hold ∈ after.machine.held, ∀ value ∈ hold.values, before.machine.heap.Fits value)
    (handles : ∀ handle ∈ after.machine.handles,
      (before.machine.heap.frame? handle.2).isSome = true) : after.machine.Typed where
  cells id cell found value member := by
    refine lasts.fits (cells id cell found value member) fun target reference => ?_
    refine sound.closed target (Or.inr ⟨id, ?_⟩)
    rw [Heap.Refers, Heap.referencesOf_of_get? found]
    exact Cell.mem_references_of_mem_values member reference
  globals value member := by
    refine lasts.fits (globals value member) fun target reference => ?_
    refine sound.closed target (Or.inl (List.mem_append_left _ (List.mem_append_left _ ?_)))
    exact List.mem_append_left _ (Names.mem_references_iff.mpr ⟨value, member, reference⟩)
  held hold listed value member := by
    refine lasts.fits (held hold listed value member) fun target reference => ?_
    refine sound.closed target (Or.inl (List.mem_append_left _ (List.mem_append_right _ ?_)))
    exact List.mem_flatMap.mpr ⟨hold, listed, Hold.mem_references_of_mem_values member reference⟩
  handles handle listed :=
    lasts.isFrame (handles handle listed) (sound.contains_of_knows (knows_handle listed))

/-- A value can still be passed on after cells were freed, if it is in reach. -/
theorem Owns.of_lasts {before after : Activity} (owns : before.Owns value) (sound : after.Sound)
    (lasts : before.machine.heap.Lasts after.machine.heap)
    (known : ∀ id ∈ value.references, after.Knows id) : after.Owns value :=
  ⟨lasts.fits owns.fits fun id reference => sound.contains_of_knows (known id reference), known⟩

end Owning

end Activity

end ScriptCore
