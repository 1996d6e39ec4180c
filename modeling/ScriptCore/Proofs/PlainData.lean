import ScriptCore.Proofs.Unfolding
import ScriptCore.Proofs.UniqueReading

/-!
# Plain data in the heap

A value without cycles, built of nothing, truth values, integers, texts and containers, is a tree.
It is printed as the tree is written, so values that are printed alike are the same tree, in
whatever heaps they are.
-/

namespace ScriptCore

open Relation Text

namespace Value

/-- The value is plain data, or a container. -/
def isPlain : Value → Bool
  | nothing | bool _ | int _ | string _ | tuple _ | list _ | dict _ | set _ => true
  | _ => false

/-- The container that a cell with this content is. -/
def container? (id : CellId) : Cell → Option Value
  | .tuple _ => some (tuple id)
  | .list _ => some (list id)
  | .dict _ => some (dict id)
  | .set _ => some (set id)
  | _ => none

theorem container?_of_fits {value : Value} {id : CellId} {content : Cell}
    (plain : value.isPlain = true) (cell : value.cell? = some id) (fits : value.Fits content) :
    container? id content = some value := by
  cases value with
  | tuple own =>
      cases cell
      cases content <;> first | rfl | exact fits.elim
  | list own =>
      cases cell
      cases content <;> first | rfl | exact fits.elim
  | dict own =>
      cases cell
      cases content <;> first | rfl | exact fits.elim
  | set own =>
      cases cell
      cases content <;> first | rfl | exact fits.elim
  | nothing | bool _ | int _ | string _ => cases cell
  | _ => cases plain

/-- A value and a tree are of one kind, and hold the same if they are no containers. -/
inductive Alike : Value → Form → Prop
  | nothing : Alike .nothing .nothing
  | bool (value : Bool) : Alike (.bool value) (.bool value)
  | int (value : Int64) : Alike (.int value) (.int value)
  | string (value : Str) : Alike (.string value) (.text value.text)
  | tuple (cell : CellId) (items : List Form) : Alike (.tuple cell) (.tuple items)
  | list (cell : CellId) (items : List Form) : Alike (.list cell) (.list items)
  | dict (cell : CellId) (entries : List (Form × Form)) : Alike (.dict cell) (.dict entries)
  | set (cell : CellId) (members : List Form) : Alike (.set cell) (.set members)

end Value

namespace Form

/-- The trees directly inside a tree, in order. -/
def parts : Form → List Form
  | tuple items => items
  | list items => items
  | dict entries => entries.flatMap fun entry => [entry.1, entry.2]
  | set members => members
  | _ => []

theorem eq_of_flatMap_eq {entries others : List (Form × Form)}
    (same : (entries.flatMap fun entry => [entry.1, entry.2]) =
      others.flatMap fun entry => [entry.1, entry.2]) : entries = others := by
  induction entries generalizing others with
  | nil =>
      cases others with
      | nil => rfl
      | cons other others => cases same
  | cons entry entries ih =>
      cases others with
      | nil => cases same
      | cons other others =>
          simp only [List.flatMap_cons, List.cons_append, List.nil_append, List.cons.injEq] at same
          obtain ⟨keys, values, rest⟩ := same
          rw [ih rest, Prod.ext keys values]

variable {value : Value} {form other : Form}

/-- A tree is told by its kind and what is directly inside it. -/
theorem eq_of_parts_eq (alike : value.Alike form) (alsoAlike : value.Alike other)
    (same : form.parts = other.parts) : form = other := by
  cases alike with
  | tuple cell items =>
      cases alsoAlike
      exact congrArg tuple same
  | list cell items =>
      cases alsoAlike
      exact congrArg list same
  | dict cell entries =>
      cases alsoAlike
      exact congrArg dict (eq_of_flatMap_eq same)
  | set cell members =>
      cases alsoAlike
      exact congrArg set same
  | _ =>
      cases alsoAlike
      rfl

end Form

namespace Heap

/-- A value is the tree that has its kind, and inside it the trees of its parts. -/
inductive Depicts (heap : Heap) : Value → Form → Prop
  | intro {value : Value} {form : Form} (alike : value.Alike form)
      (length_eq : form.parts.length = (heap.parts value).length)
      (each : ∀ (place : Nat) (part : Value) (inner : Form),
        (heap.parts value)[place]? = some part → form.parts[place]? = some inner →
        Depicts heap part inner) : Depicts heap value form

/-- A value is plain data through and through, all of it exists, and none of it holds itself. -/
structure Plain (heap : Heap) (value : Value) : Prop where
  kind : ∀ inner, ReflTransGen heap.Inside inner value → inner.isPlain = true
  fits : ∀ inner, ReflTransGen heap.Inside inner value → heap.Fits inner
  acyclic : ∀ inner, ReflTransGen heap.Inside inner value → ¬TransGen heap.Inside inner inner

variable {heap : Heap} {value part : Value} {form other : Form}

/-- A value is at most one tree. -/
theorem Depicts.unique (depicts : heap.Depicts value form) (also : heap.Depicts value other) :
    form = other := by
  induction depicts generalizing other with
  | @intro value form alike length_eq each ih =>
      obtain ⟨otherAlike, otherLength, otherEach⟩ := also
      refine Form.eq_of_parts_eq alike otherAlike ?_
      refine List.ext_getElem (length_eq.trans otherLength.symm) fun place inside within => ?_
      have listed : place < (heap.parts value).length := length_eq ▸ inside
      exact ih place _ _ (List.getElem?_eq_getElem listed) (List.getElem?_eq_getElem inside)
        (otherEach place _ _ (List.getElem?_eq_getElem listed) (List.getElem?_eq_getElem within))

/-- Whatever is chosen for its parts, there is a tree for a value of plain data. -/
theorem exists_alike (heap : Heap) (plain : value.isPlain = true) (formOf : Value → Form) :
    ∃ form, value.Alike form ∧ form.parts = (heap.parts value).map formOf := by
  cases value with
  | nothing => exact ⟨_, .nothing, rfl⟩
  | bool value => exact ⟨_, .bool value, rfl⟩
  | int value => exact ⟨_, .int value, rfl⟩
  | string value => exact ⟨_, .string value, rfl⟩
  | tuple cell => exact ⟨_, .tuple cell ((heap.tupleItems cell).map formOf), rfl⟩
  | list cell => exact ⟨_, .list cell ((heap.listItems cell).map formOf), rfl⟩
  | dict cell =>
      refine ⟨_, .dict cell ((heap.dictEntries cell).map fun entry =>
        (formOf entry.1.value, formOf entry.2)), ?_⟩
      simp [Form.parts, parts, Entries.values, List.flatMap_map, List.map_flatMap]
  | set cell => exact ⟨_, .set cell ((Members.values (heap.setMembers cell)).map formOf), rfl⟩
  | _ => cases plain

/-- A tree is written as a value of its kind is composed of the texts of its parts. -/
theorem compose_eq_write (heap : Heap) (alike : value.Alike form) :
    heap.compose .plain value (form.parts.map Form.write) = form.write := by
  cases alike with
  | tuple cell items => rw [Form.write, Form.writeAll_eq_map]; rfl
  | list cell items => rw [Form.write, Form.writeAll_eq_map]; rfl
  | dict cell entries =>
      have texts : joinPairs ((Form.dict entries).parts.map Form.write) =
          Form.writeEntries entries := by
        rw [Form.writeEntries_eq_map, Form.parts, List.map_flatMap]
        exact joinPairs_flatMap entries (fun entry => entry.1.write) fun entry => entry.2.write
      rw [compose, texts, Form.write]
      rfl
  | set cell members => rw [Form.write, Form.writeAll_eq_map]; rfl
  | _ => rfl

theorem Plain.of_inside (plain : heap.Plain value) (inside : heap.Inside part value) :
    heap.Plain part where
  kind inner chain := plain.kind inner (chain.tail inside)
  fits inner chain := plain.fits inner (chain.tail inside)
  acyclic inner chain := plain.acyclic inner (chain.tail inside)

/-- A container is plain data if all its parts are: being a part of one of them, it would be on no
cycle. -/
theorem Plain.of_parts (kind : value.isPlain = true) (fits : heap.Fits value)
    (parts : ∀ part ∈ heap.parts value, heap.Plain part) : heap.Plain value := by
  have cases_inside : ∀ inner, ReflTransGen heap.Inside inner value →
      inner = value ∨ ∃ part ∈ heap.parts value, ReflTransGen heap.Inside inner part := by
    intro inner chain
    rcases ReflTransGen.cases_tail chain with rfl | ⟨part, onward, inside⟩
    · exact Or.inl rfl
    · exact Or.inr ⟨part, inside, onward⟩
  refine ⟨fun inner chain => ?_, fun inner chain => ?_, fun inner chain => ?_⟩
  · rcases cases_inside inner chain with rfl | ⟨part, member, onward⟩
    · exact kind
    · exact (parts part member).kind inner onward
  · rcases cases_inside inner chain with rfl | ⟨part, member, onward⟩
    · exact fits
    · exact (parts part member).fits inner onward
  · rcases cases_inside inner chain with rfl | ⟨part, member, onward⟩
    · intro cycle
      obtain ⟨part, back, inside⟩ := TransGen.tail'_iff.mp cycle
      exact (parts part inside).acyclic inner back cycle
    · exact (parts part member).acyclic inner onward

/-- A part of plain data is in another cell than the whole. -/
theorem Plain.cell?_ne (plain : heap.Plain value) (inside : heap.Inside part value)
    {inner : Value} (chain : ReflTransGen heap.Inside inner part) {id : CellId}
    (cell : value.cell? = some id) : inner.cell? ≠ some id := by
  intro same
  obtain ⟨content, found, fits⟩ := plain.fits value .refl id cell
  obtain ⟨other, foundOther, otherFits⟩ := plain.fits inner (chain.tail inside) id same
  cases found.symm.trans foundOther
  have whole := Value.container?_of_fits (plain.kind value .refl) cell fits
  have again := Value.container?_of_fits (plain.kind inner (chain.tail inside)) same otherFits
  obtain rfl := Option.some.inj (whole.symm.trans again)
  exact plain.acyclic value .refl (TransGen.tail' chain inside)

/-- Plain data is a tree, and at a sufficient depth it is printed as the tree is written. -/
theorem Plain.exists_depicts (plain : heap.Plain value) {path : List CellId}
    (distinct : path.Nodup) (within : ∀ id ∈ path, id < heap.size)
    (apart : ∀ inner, ReflTransGen heap.Inside inner value → ∀ id ∈ inner.cell?, id ∉ path)
    {depth : Nat} (sufficient : heap.size < depth + path.length) :
    ∃ form, heap.Depicts value form ∧
      ∀ active ⊆ path, heap.render .plain depth active value = form.write := by
  -- Induction on the depth: with each step inward one more cell is on the path, and none twice.
  induction depth generalizing value path with
  | zero =>
      have fewer := (List.subperm_of_subset distinct fun id member =>
        List.mem_range.mpr (within id member)).length_le
      rw [List.length_range] at fewer
      omega
  | succ depth ih =>
      have inactive : ∀ active ⊆ path, value.watch?.any active.contains = false := by
        intro active subset
        rw [Option.any_eq_false]
        intro id watch
        have fresh := apart value .refl id (Value.cell?_of_watch? watch)
        simpa using fun listed => fresh (subset listed)
      have each : ∀ part ∈ heap.parts value, ∃ form, heap.Depicts part form ∧
          ∀ active ⊆ value.cell?.toList ++ path,
            heap.render .plain depth active part = form.write := by
        intro part inside
        obtain ⟨id, content, cell, found, -⟩ := exists_container inside
        rw [cell]
        refine ih (plain.of_inside inside) ?_ ?_ ?_ ?_
        · exact List.nodup_cons.mpr ⟨apart value .refl id cell, distinct⟩
        · exact List.forall_mem_cons.mpr ⟨lt_size_of_get? found, within⟩
        · intro inner chain other named
          refine List.not_mem_cons_of_ne_of_not_mem ?_ (apart inner (chain.tail inside) other named)
          rintro rfl
          exact plain.cell?_ne inside chain cell named
        · simp only [Option.toList_some, List.singleton_append, List.length_cons]
          omega
      have : Nonempty Form := ⟨.nothing⟩
      choose! formOf depicts render_eq using each
      obtain ⟨form, alike, parts_eq⟩ := heap.exists_alike (plain.kind value .refl) formOf
      refine ⟨form, .intro alike (by rw [parts_eq, List.length_map]) ?_, fun active subset => ?_⟩
      · intro place part inner listed depicted
        rw [parts_eq, List.getElem?_map, listed, Option.map_some, Option.some.injEq] at depicted
        exact depicted ▸ depicts part (List.mem_of_getElem? listed)
      · have further : value.watch?.toList ++ active ⊆ value.cell?.toList ++ path := by
          cases watch : value.watch? with
          | none => exact fun id member => List.mem_append_right _ (subset member)
          | some id =>
              rw [Value.cell?_of_watch? watch]
              exact List.cons_subset_cons id subset
        rw [render_succ, inactive active subset, ← compose_eq_write heap alike, parts_eq,
          List.map_map]
        refine congrArg (heap.compose .plain value) (List.map_congr_left fun part inside => ?_)
        exact render_eq part inside _ further

theorem Plain.exists_repr_eq (plain : heap.Plain value) :
    ∃ form, heap.Depicts value form ∧ heap.repr .plain value = String.ofList form.write := by
  have sufficient : heap.size < heap.renderDepth + ([] : List CellId).length := by
    rw [renderDepth, List.length_nil, Nat.add_zero, Nat.succ_mul]
    omega
  obtain ⟨form, depicts, render_eq⟩ :=
    plain.exists_depicts List.nodup_nil (by simp) (by simp) sufficient
  exact ⟨form, depicts, congrArg String.ofList (render_eq [] (List.Subset.refl _))⟩

/-- The printed form of plain data is unambiguous: two values are printed alike, entries in the
order in which they are held, exactly if they are the same tree.  A quoted text shows where it
ends, whatever follows. -/
theorem repr_is_unambiguous (left right : Heap) (value other : Value) (plain : left.Plain value)
    (alsoPlain : right.Plain other) :
    (left.repr .plain value = right.repr .plain other ↔
      ∃ form, left.Depicts value form ∧ right.Depicts other form) ∧
    ∀ text also after rest : List Char,
      quotedChars text ++ after = quotedChars also ++ rest → text = also ∧ after = rest := by
  obtain ⟨form, depicts, repr_eq⟩ := plain.exists_repr_eq
  obtain ⟨otherForm, otherDepicts, otherRepr⟩ := alsoPlain.exists_repr_eq
  refine ⟨?_, fun _ _ _ _ => quotedChars_append_inj⟩
  rw [repr_eq, otherRepr]
  constructor
  · intro same
    obtain rfl := Form.write_injective (String.ofList_injective same)
    exact ⟨form, depicts, otherDepicts⟩
  · rintro ⟨common, first, second⟩
    rw [depicts.unique first, otherDepicts.unique second]

/-- Two lists of a tuple and an empty set.  In the first the tuple holds one text, and in the second
two texts. -/
def lookalikes : Heap :=
  ⟨#[
    some (.tuple [.string ⟨"a', 'b", 0⟩]),
    some (.tuple [.string ⟨"a", 1⟩, .string ⟨"b", 2⟩]),
    some (.set []),
    some (.list [.tuple 0, .set 2]),
    some (.list [.tuple 1, .set 2])]⟩

theorem lookalikes_are_told_apart :
    lookalikes.Plain (.list 3) ∧ lookalikes.Plain (.list 4) ∧
      lookalikes.repr .plain (.list 3) ≠ lookalikes.repr .plain (.list 4) ∧
      ¬∃ form, lookalikes.Depicts (.list 3) form ∧ lookalikes.Depicts (.list 4) form := by
  have fits : ∀ (value : Value) (id : CellId) (content : Cell), value.cell? = some id →
      lookalikes.get? id = some content → value.Fits content → lookalikes.Fits value := by
    intro value id content cell found fits other named
    obtain rfl := Option.some.inj (cell.symm.trans named)
    exact ⟨content, found, fits⟩
  have text : ∀ value : Str, lookalikes.Plain (.string value) := fun value =>
    .of_parts rfl (fun _ => nofun) fun _ => nofun
  have empty : lookalikes.Plain (.set 2) :=
    .of_parts rfl (fits _ _ _ rfl rfl trivial) fun _ => nofun
  have one : lookalikes.Plain (.tuple 0) :=
    .of_parts rfl (fits _ _ _ rfl rfl trivial)
      (List.forall_mem_cons.mpr ⟨text _, fun _ => nofun⟩)
  have two : lookalikes.Plain (.tuple 1) :=
    .of_parts rfl (fits _ _ _ rfl rfl trivial)
      (List.forall_mem_cons.mpr ⟨text _, List.forall_mem_cons.mpr ⟨text _, fun _ => nofun⟩⟩)
  have first : lookalikes.Plain (.list 3) :=
    .of_parts rfl (fits _ _ _ rfl rfl trivial)
      (List.forall_mem_cons.mpr ⟨one, List.forall_mem_cons.mpr ⟨empty, fun _ => nofun⟩⟩)
  have second : lookalikes.Plain (.list 4) :=
    .of_parts rfl (fits _ _ _ rfl rfl trivial)
      (List.forall_mem_cons.mpr ⟨two, List.forall_mem_cons.mpr ⟨empty, fun _ => nofun⟩⟩)
  have different : lookalikes.repr .plain (.list 3) ≠ lookalikes.repr .plain (.list 4) := by
    decide +kernel
  exact ⟨first, second, different,
    mt (repr_is_unambiguous lookalikes lookalikes (.list 3) (.list 4) first second).1.mpr different⟩

end Heap

end ScriptCore
