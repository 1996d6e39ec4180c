import Mathlib.Data.Finset.Card
import ScriptCore.Proofs.Typing
import ScriptCore.Repr

/-!
# Printed forms as unfoldings

Lists and dicts may hold themselves, so what is printed is a tree that a value is unfolded to: a
list or dict that lies on the path to itself is cut there, and nothing else is.
-/

namespace ScriptCore

open Relation Text

namespace Value

/-- The cell of a list or dict, which is watched while it is printed. -/
def watch? : Value → Option CellId
  | list cell => some cell
  | dict cell => some cell
  | _ => none

theorem cell?_of_watch? {value : Value} {id : CellId} (watch : value.watch? = some id) :
    value.cell? = some id := by
  cases value with
  | list cell => exact watch
  | dict cell => exact watch
  | _ => cases watch

/-- Whether a cell is that of a list or of a dict is told by its content. -/
theorem eq_of_watch? {value other : Value} {id : CellId} {content : Cell}
    (watch : value.watch? = some id) (also : other.watch? = some id) (fits : value.Fits content)
    (otherFits : other.Fits content) : value = other := by
  cases value with
  | list cell =>
      cases other with
      | list cell => exact congrArg list (Option.some.inj (watch.trans also.symm))
      | dict cell => cases content <;> first | exact fits.elim | exact otherFits.elim
      | _ => cases also
  | dict cell =>
      cases other with
      | dict cell => exact congrArg dict (Option.some.inj (watch.trans also.symm))
      | list cell => cases content <;> first | exact fits.elim | exact otherFits.elim
      | _ => cases also
  | _ => cases watch

/-- What is printed for a list or dict that is being printed further out. -/
def cutText : Value → List Char
  | list _ => "[...]".toList
  | dict _ => "\x7b...\x7d".toList
  | _ => []

end Value

namespace Cell

/-- The cell is a tuple, list, dict or set. -/
def isContainer : Cell → Bool
  | tuple _ | list _ | dict _ | set _ => true
  | _ => false

/-- The cell is a tuple or set, which never changes. -/
def isFixed : Cell → Bool
  | tuple _ | set _ => true
  | _ => false

theorem isContainer_of_isFixed {cell : Cell} (fixed : cell.isFixed = true) :
    cell.isContainer = true := by
  cases cell <;> first | rfl | cases fixed

end Cell

/-- The texts of entries, from those of their keys and values in turn. -/
def Text.joinPairs : List (List Char) → List (List Char)
  | key :: value :: rest => (key ++ ':' :: ' ' :: value) :: joinPairs rest
  | _ => []

theorem Text.joinPairs_flatMap {α : Type} (items : List α) (key value : α → List Char) :
    joinPairs (items.flatMap fun item => [key item, value item]) =
      items.map fun item => key item ++ ':' :: ' ' :: value item := by
  induction items with
  | nil => rfl
  | cons item rest ih => simp [joinPairs, ih]

namespace Heap

/-- The values printed inside a value, in order. -/
def parts (heap : Heap) : Value → List Value
  | .tuple cell => heap.tupleItems cell
  | .list cell => heap.listItems cell
  | .dict cell => Entries.values (heap.dictEntries cell)
  | .set cell => Members.values (heap.setMembers cell)
  | _ => []

/-- The printed form of a value, from those of its parts. -/
def compose (heap : Heap) (style : Style) (value : Value) (texts : List (List Char)) : List Char :=
  match value with
  | .tuple _ =>
      match texts with
      | [text] => enclosed "(" ",)" text
      | texts => enclosed "(" ")" (commaSeparated texts)
  | .list _ => enclosed "[" "]" (commaSeparated texts)
  | .dict _ => enclosed "\x7b" "\x7d" (commaSeparated (style.arrange (joinPairs texts)))
  | .set _ =>
      match texts with
      | [] => "set()".toList
      | texts => enclosed "\x7b" "\x7d" (commaSeparated (style.arrange texts))
  | value => style.leaf (heap.leafText value)

section Printing

variable (heap : Heap) (style : Style)

/-- A watched value that is active is cut, and any other is composed of its parts, inside which it
is active itself. -/
theorem render_succ (fuel : Nat) (active : List CellId) (value : Value) :
    heap.render style (fuel + 1) active value =
      if value.watch?.any active.contains then value.cutText
      else heap.compose style value
        ((heap.parts value).map (heap.render style fuel (value.watch?.toList ++ active))) := by
  cases value with
  | tuple cell =>
      simp only [render, Value.watch?, parts, compose]
      rcases heap.tupleItems cell with _ | ⟨first, _ | ⟨second, rest⟩⟩ <;> rfl
  | list cell => rfl
  | dict cell =>
      simp only [parts, compose, Entries.values, List.map_flatMap, List.map_cons, List.map_nil,
        joinPairs_flatMap]
      rfl
  | set cell =>
      simp only [render, Value.watch?, parts, compose, Members.values]
      cases heap.setMembers cell with
      | nil => rfl
      | cons first rest => simp [Function.comp_def]
  | _ => rfl

/-- Printing with a stack of the containers that are being printed: each watched container is put
on it, and taken off when its parts are printed. -/
def printer : Nat → Value → StateM (List CellId) (List Char)
  | 0, _ => return []
  | fuel + 1, value =>
      match value.watch? with
      | none => do
          let texts ← (heap.parts value).mapM (printer fuel)
          return heap.compose style value texts
      | some cell => do
          if (← get).contains cell then return value.cutText
          else
            modify (cell :: ·)
            let texts ← (heap.parts value).mapM (printer fuel)
            modify List.tail
            return heap.compose style value texts

/-- What leaves the stack alone for each item leaves it alone for a list of them. -/
theorem run_mapM {α β : Type} {action : α → StateM (List CellId) β} {given : α → β}
    {active : List CellId} (runs : ∀ item, (action item).run active = (given item, active))
    (items : List α) : (items.mapM action).run active = (items.map given, active) := by
  induction items with
  | nil => rfl
  | cons item rest ih =>
      have stepwise : ((item :: rest).mapM action).run active =
          let first := (action item).run active
          let others := (rest.mapM action).run first.2
          (first.1 :: others.1, others.2) := by
        rw [List.mapM_cons]
        rfl
      simp only [stepwise, runs, ih, List.map_cons]

/-- The stack is the same after printing a value as before. -/
theorem run_printer (fuel : Nat) (active : List CellId) (value : Value) :
    (heap.printer style fuel value).run active = (heap.render style fuel active value, active) := by
  induction fuel generalizing active value with
  | zero => rfl
  | succ fuel ih =>
      rw [render_succ, printer]
      cases watched : value.watch? with
      | none =>
          have printed := run_mapM (fun item => ih active item) (heap.parts value)
          simp only [StateT.run_bind, printed]
          rfl
      | some cell =>
          have printed := run_mapM (fun item => ih (cell :: active) item) (heap.parts value)
          by_cases member : cell ∈ active
          · simp only [Option.any_some, List.contains_iff_mem, StateT.run_bind, StateT.run_get,
              pure_bind, member, if_true]
            rfl
          · simp only [Option.any_some, List.contains_iff_mem, StateT.run_bind, StateT.run_get,
              StateT.run_modify, pure_bind, member, if_false, printed]
            rfl

end Printing

end Heap

/-- What a value is unfolded to. -/
inductive Unfolding
  /-- A list or dict that is being printed further out. -/
  | cut (value : Value)
  /-- A value with its parts in order. -/
  | node (value : Value) (parts : List Unfolding)

namespace Unfolding

/-- The value that is unfolded. -/
def value : Unfolding → Value
  | cut value => value
  | node value _ => value

mutual

/-- The text of an unfolding. -/
def text (heap : Heap) (style : Style) : Unfolding → List Char
  | cut value => value.cutText
  | node value parts => heap.compose style value (texts heap style parts)

/-- The texts of unfoldings in order. -/
def texts (heap : Heap) (style : Style) : List Unfolding → List (List Char)
  | [] => []
  | part :: rest => text heap style part :: texts heap style rest

end

theorem texts_eq_map (heap : Heap) (style : Style) (trees : List Unfolding) :
    texts heap style trees = trees.map (text heap style) := by
  induction trees with
  | nil => rfl
  | cons tree rest ih => rw [texts, ih, List.map_cons]

/-- An unfolding occurs in another one. -/
inductive Occurs (inner : Unfolding) : Unfolding → Prop
  | whole : Occurs inner inner
  | part (value : Value) {parts : List Unfolding} {outer : Unfolding} (member : outer ∈ parts)
      (occurs : Occurs inner outer) : Occurs inner (.node value parts)

end Unfolding

namespace Heap

/-- The unfolding of a value inside the values of a path, the nearest first.  A list or dict is cut
exactly when it is on the path. -/
inductive Unfolds (heap : Heap) : List Value → Value → Unfolding → Prop
  | cut {path : List Value} {value : Value} (watched : value.watch?.isSome = true)
      (active : value ∈ path) : Unfolds heap path value (.cut value)
  | node {path : List Value} {value : Value} {parts : List Unfolding}
      (inactive : value.watch?.isSome = true → value ∉ path)
      (length_eq : parts.length = (heap.parts value).length)
      (each : ∀ (place : Nat) (part : Value) (tree : Unfolding),
        (heap.parts value)[place]? = some part → parts[place]? = some tree →
        Unfolds heap (value :: path) part tree) :
      Unfolds heap path value (.node value parts)

/-- A value is printed directly inside another one. -/
def Inside (heap : Heap) (part whole : Value) : Prop :=
  part ∈ heap.parts whole

/-- Containers refer to cells of the right kind, and tuples and sets to older ones. -/
structure WellBuilt (heap : Heap) : Prop where
  fits : ∀ id cell, heap.get? id = some cell → cell.isContainer = true →
    ∀ value ∈ cell.values, heap.Fits value
  older : ∀ id cell, heap.get? id = some cell → cell.isFixed = true →
    ∀ value ∈ cell.values, ∀ part, value.cell? = some part → part < id

section Unfolding

variable {heap : Heap} {path : List Value} {value : Value} {tree : Unfolding}

/-- A value has at most one unfolding. -/
theorem Unfolds.unique (unfolds : heap.Unfolds path value tree) {other : Unfolding}
    (also : heap.Unfolds path value other) : tree = other := by
  induction unfolds generalizing other with
  | cut watched active =>
      cases also with
      | cut _ _ => rfl
      | node inactive _ _ => exact absurd active (inactive watched)
  | @node path value parts inactive length_eq each ih =>
      cases also with
      | cut watched active => exact absurd active (inactive watched)
      | @node _ _ others _ otherLength otherEach =>
          congr 1
          refine List.ext_getElem (length_eq.trans otherLength.symm) fun place inside within => ?_
          have listed : place < (heap.parts value).length := length_eq ▸ inside
          exact ih place _ _ (List.getElem?_eq_getElem listed) (List.getElem?_eq_getElem inside)
            (otherEach place _ _ (List.getElem?_eq_getElem listed)
              (List.getElem?_eq_getElem within))

/-- The path counts only as far as its values can be reached. -/
theorem Unfolds.congr (unfolds : heap.Unfolds path value tree) {other : List Value}
    (agree : ∀ inner, ReflTransGen heap.Inside inner value → (inner ∈ path ↔ inner ∈ other)) :
    heap.Unfolds other value tree := by
  induction unfolds generalizing other with
  | cut watched active => exact .cut watched ((agree _ .refl).mp active)
  | @node path value parts inactive length_eq each ih =>
      have stays : value.watch?.isSome = true → value ∉ other :=
        fun watched listed => inactive watched ((agree _ .refl).mpr listed)
      refine .node stays length_eq fun place part tree listed unfolded => ?_
      refine ih place part tree listed unfolded fun inner reached => ?_
      have onward := agree inner (reached.tail (List.mem_of_getElem? listed))
      simp [onward]

/-- What occurs in an unfolding is unfolded inside values that it is inside of, or that the whole
is inside of. -/
theorem Unfolds.of_occurs (unfolds : heap.Unfolds path value tree) {inner : Unfolding}
    (occurs : inner.Occurs tree) :
    ∃ around, heap.Unfolds around inner.value inner ∧
      ReflTransGen heap.Inside inner.value value ∧
      ∀ outer ∈ around, outer ∈ path ∨ TransGen heap.Inside inner.value outer := by
  induction unfolds with
  | cut watched active =>
      cases occurs
      exact ⟨_, .cut watched active, .refl, fun outer => .inl⟩
  | @node path value parts inactive length_eq each ih =>
      cases occurs with
      | whole => exact ⟨path, .node inactive length_eq each, .refl, fun outer => .inl⟩
      | part _ member occurs =>
          obtain ⟨place, inside, rfl⟩ := List.getElem_of_mem member
          have listed : place < (heap.parts value).length := length_eq ▸ inside
          obtain ⟨around, unfolded, reached, fromAround⟩ := ih place _ _
            (List.getElem?_eq_getElem listed) (List.getElem?_eq_getElem inside) occurs
          have below : TransGen heap.Inside inner.value value :=
            .tail' reached (List.getElem_mem listed)
          refine ⟨around, unfolded, below.to_reflTransGen, fun outer member => ?_⟩
          rcases fromAround outer member with listed | above
          · rcases List.mem_cons.mp listed with rfl | further
            · exact .inr below
            · exact .inl further
          · exact .inr above

/-- What is not on a cycle is unfolded everywhere as it is on its own. -/
theorem Unfolds.of_acyclic (unfolds : heap.Unfolds [] value tree) {inner : Unfolding}
    (occurs : inner.Occurs tree) (acyclic : ¬ TransGen heap.Inside inner.value inner.value) :
    heap.Unfolds [] inner.value inner := by
  obtain ⟨around, unfolded, -, fromAround⟩ := unfolds.of_occurs occurs
  refine unfolded.congr fun other reached => iff_of_false (fun listed => ?_) List.not_mem_nil
  have above := (fromAround other listed).resolve_left List.not_mem_nil
  exact acyclic (above.trans_left reached)

end Unfolding

section Depth

variable (heap : Heap)

/-- The cells of the lists and dicts on a path. -/
def watched (path : List Value) : List CellId :=
  path.filterMap Value.watch?

/-- How many cells are not those of a list or dict on a path. -/
def room (path : List Value) : Nat :=
  ((Finset.range heap.size).filter fun id => id ∉ watched path).card

/-- A tuple or set ranks above all older ones, and any other value below. -/
def rank : Value → Nat
  | .tuple cell => cell + 1
  | .set cell => cell + 1
  | _ => 0

/-- What is left before a value inside the values of a path must be cut or have no parts. -/
def height (path : List Value) (value : Value) : Nat :=
  heap.room path * (heap.size + 1) + rank value

variable {heap} {path : List Value} {value part : Value}

theorem room_le_size (path : List Value) : heap.room path ≤ heap.size := by
  have filtered := Finset.card_filter_le (Finset.range heap.size) fun id => id ∉ watched path
  rwa [Finset.card_range] at filtered

theorem watched_cons_of_watch? {cell : CellId} (watch : value.watch? = some cell) :
    watched (value :: path) = cell :: watched path := by
  simp [watched, watch]

theorem watched_cons_of_not_watch? (unwatched : value.watch? = none) :
    watched (value :: path) = watched path := by
  simp [watched, unwatched]

theorem room_lt {cell : CellId} (watch : value.watch? = some cell) (inside : cell < heap.size)
    (inactive : cell ∉ watched path) : heap.room (value :: path) < heap.room path := by
  refine Finset.card_lt_card (Finset.ssubset_iff_of_subset ?_ |>.mpr ⟨cell, ?_, ?_⟩)
  · intro id member
    rw [watched_cons_of_watch? watch] at member
    simp only [Finset.mem_filter, List.mem_cons, not_or] at member ⊢
    exact ⟨member.1, member.2.2⟩
  · simp [inside, inactive]
  · simp [watched_cons_of_watch? watch]

theorem rank_le_size (fits : heap.Fits value) : rank value ≤ heap.size := by
  cases value with
  | tuple cell =>
      obtain ⟨content, found, -⟩ := fits cell rfl
      exact lt_size_of_get? found
  | set cell =>
      obtain ⟨content, found, -⟩ := fits cell rfl
      exact lt_size_of_get? found
  | _ => exact Nat.zero_le _

/-- The printing depth is sufficient for every value on its own. -/
theorem height_lt_renderDepth (fits : heap.Fits value) :
    heap.height [] value < heap.renderDepth := by
  have room := Nat.mul_le_mul_right (heap.size + 1) (@room_le_size heap [])
  have rank := rank_le_size fits
  unfold height renderDepth
  rw [Nat.succ_mul]
  omega

/-- What is inside a value is in its cell. -/
theorem exists_container (inside : heap.Inside part value) :
    ∃ id cell, value.cell? = some id ∧ heap.get? id = some cell ∧ cell.isContainer = true ∧
      part ∈ cell.values ∧ (value.watch? = none → cell.isFixed = true ∧ rank value = id + 1) := by
  cases value with
  | tuple id =>
      rw [Inside, parts, tupleItems] at inside
      split at inside
      · rename_i items found
        exact ⟨id, _, rfl, found, rfl, inside, fun _ => ⟨rfl, rfl⟩⟩
      · cases inside
  | list id =>
      rw [Inside, parts, listItems] at inside
      split at inside
      · rename_i items found
        exact ⟨id, _, rfl, found, rfl, inside, nofun⟩
      · cases inside
  | dict id =>
      rw [Inside, parts, dictEntries] at inside
      split at inside
      · rename_i entries found
        exact ⟨id, _, rfl, found, rfl, inside, nofun⟩
      · cases inside
  | set id =>
      rw [Inside, parts, setMembers] at inside
      split at inside
      · rename_i members found
        exact ⟨id, _, rfl, found, rfl, inside, fun _ => ⟨rfl, rfl⟩⟩
      · cases inside
  | _ => cases inside

theorem render_eq_compose {style : Style} {depth : Nat}
    (inactive : ∀ id, value.watch? = some id → id ∉ watched path) :
    heap.render style (depth + 1) (watched path) value =
      heap.compose style value
        ((heap.parts value).map (heap.render style depth (watched (value :: path)))) := by
  rw [render_succ, if_neg]
  · cases watch : value.watch? with
    | none => simp [watched_cons_of_not_watch? watch]
    | some id => simp [watched_cons_of_watch? watch]
  · rw [Option.any_eq_true]
    rintro ⟨id, watch, active⟩
    exact inactive id watch (List.contains_iff_mem.mp active)

/-- A list or dict is on a path when its cell is watched there. -/
theorem mem_watched_iff {id : CellId} (fits : heap.Fits value)
    (fitting : ∀ outer ∈ path, heap.Fits outer) (watch : value.watch? = some id) :
    id ∈ watched path ↔ value ∈ path := by
  refine ⟨fun member => ?_, fun member => List.mem_filterMap.mpr ⟨value, member, watch⟩⟩
  obtain ⟨outer, listed, also⟩ := List.mem_filterMap.mp member
  obtain ⟨cell, found, kind⟩ := fits id (Value.cell?_of_watch? watch)
  obtain ⟨other, foundOther, otherKind⟩ := fitting outer listed id (Value.cell?_of_watch? also)
  cases found.symm.trans foundOther
  rwa [Value.eq_of_watch? watch also kind otherKind]

namespace WellBuilt

theorem fits_part (wellBuilt : heap.WellBuilt) (inside : heap.Inside part value) :
    heap.Fits part := by
  obtain ⟨id, cell, -, found, container, member, -⟩ := exists_container inside
  exact wellBuilt.fits id cell found container part member

theorem rank_lt (wellBuilt : heap.WellBuilt) (inside : heap.Inside part value)
    (unwatched : value.watch? = none) : rank part < rank value := by
  obtain ⟨id, cell, -, found, -, member, fixed⟩ := exists_container inside
  obtain ⟨isFixed, ranked⟩ := fixed unwatched
  have older := wellBuilt.older id cell found isFixed part member
  rw [ranked]
  cases part with
  | tuple cell => exact Nat.succ_lt_succ (older cell rfl)
  | set cell => exact Nat.succ_lt_succ (older cell rfl)
  | _ => exact Nat.succ_pos id

/-- Every step inward comes closer to the end: either one more list or dict is on the path, or the
next tuple or set is older. -/
theorem height_lt (wellBuilt : heap.WellBuilt) (fits : heap.Fits value)
    (inside : heap.Inside part value)
    (inactive : ∀ cell, value.watch? = some cell → cell ∉ watched path) :
    heap.height (value :: path) part < heap.height path value := by
  unfold height
  cases watch : value.watch? with
  | none =>
      have same : heap.room (value :: path) = heap.room path := by
        rw [room, room, watched_cons_of_not_watch? watch]
      have lower := wellBuilt.rank_lt inside watch
      rw [same]
      omega
  | some cell =>
      obtain ⟨content, found, -⟩ := fits cell (Value.cell?_of_watch? watch)
      have fewer := room_lt watch (lt_size_of_get? found) (inactive cell watch)
      have low := rank_le_size (wellBuilt.fits_part inside)
      calc
        heap.room (value :: path) * (heap.size + 1) + rank part
            < (heap.room (value :: path) + 1) * (heap.size + 1) := by
          rw [Nat.succ_mul]
          omega
        _ ≤ heap.room path * (heap.size + 1) := Nat.mul_le_mul_right _ fewer
        _ ≤ heap.room path * (heap.size + 1) + rank value := Nat.le_add_right _ _

/-- Inside any path, a value is unfolded to a tree, and what is printed at a sufficient depth is the
text of the tree. -/
theorem exists_unfolds (wellBuilt : heap.WellBuilt) (depth : Nat) (fits : heap.Fits value)
    (fitting : ∀ outer ∈ path, heap.Fits outer) (sufficient : heap.height path value < depth) :
    ∃ tree, heap.Unfolds path value tree ∧
      ∀ style, heap.render style depth (watched path) value = tree.text heap style := by
  -- Induction on the depth, for all paths at once: the height goes down with every step inward.
  induction depth generalizing path value with
  | zero => exact absurd sufficient (Nat.not_lt_zero _)
  | succ depth ih =>
      by_cases cut : ∃ id, value.watch? = some id ∧ id ∈ watched path
      · obtain ⟨id, watch, active⟩ := cut
        refine ⟨.cut value, .cut (by simp [watch]) ((mem_watched_iff fits fitting watch).mp active),
          fun style => ?_⟩
        simp [render_succ, watch, active, Unfolding.text]
      · have inactive : ∀ id, value.watch? = some id → id ∉ watched path :=
          fun id watch active => cut ⟨id, watch, active⟩
        have each : ∀ part ∈ heap.parts value, ∃ tree, heap.Unfolds (value :: path) part tree ∧
            ∀ style, heap.render style depth (watched (value :: path)) part =
              tree.text heap style := by
          intro part inside
          refine ih (wellBuilt.fits_part inside) (List.forall_mem_cons.mpr ⟨fits, fitting⟩) ?_
          exact Nat.lt_of_lt_of_le (wellBuilt.height_lt fits inside inactive)
            (Nat.le_of_lt_succ sufficient)
        have : Nonempty Unfolding := ⟨.cut value⟩
        choose! tree unfolds render_eq using each
        refine ⟨.node value ((heap.parts value).map tree), .node ?_ (List.length_map _) ?_, ?_⟩
        · intro watched active
          obtain ⟨id, watch⟩ := Option.isSome_iff_exists.mp watched
          exact inactive id watch ((mem_watched_iff fits fitting watch).mpr active)
        · intro place part unfolding listed unfolded
          rw [List.getElem?_map, listed, Option.map_some, Option.some.injEq] at unfolded
          exact unfolded ▸ unfolds part (List.mem_of_getElem? listed)
        · intro style
          rw [render_eq_compose inactive, Unfolding.text, Unfolding.texts_eq_map, List.map_map]
          exact congrArg (heap.compose style value)
            (List.map_congr_left fun part inside => render_eq part inside style)

end WellBuilt

end Depth

/-- A value is printed as the unfolding that it has on its own. -/
structure PrintsAs (heap : Heap) (value : Value) (tree : Unfolding) : Prop where
  unfolds : heap.Unfolds [] value tree
  unique : ∀ other, heap.Unfolds [] value other → other = tree
  repr_eq : ∀ style, heap.repr style value = String.ofList (tree.text heap style)
  /-- Printing ends with the text, and more depth makes no difference. -/
  ends : ∀ style depth, heap.renderDepth ≤ depth →
    (heap.printer style depth value).run [] = (tree.text heap style, [])
  /-- The stack is the same after printing as before. -/
  balanced : ∀ style depth active, ((heap.printer style depth value).run active).2 = active
  /-- What is on no cycle is printed in full wherever it occurs. -/
  shared : ∀ inner : Unfolding, inner.Occurs tree → ¬ TransGen heap.Inside inner.value inner.value →
    heap.Unfolds [] inner.value inner ∧
      ∀ style, String.ofList (inner.text heap style) = heap.repr style inner.value
  /-- Only what is on a cycle is cut. -/
  cyclic : ∀ cut : Value, (Unfolding.cut cut).Occurs tree → TransGen heap.Inside cut cut

section Printed

variable {heap : Heap} {value : Value} {tree : Unfolding}

/-- All that is inside an existing value exists. -/
theorem WellBuilt.fits_of_inside (wellBuilt : heap.WellBuilt) {inner : Value}
    (inside : ReflTransGen heap.Inside inner value) (fits : heap.Fits value) :
    heap.Fits inner := by
  cases inside using ReflTransGen.head_induction_on with
  | refl => exact fits
  | head part _ => exact wellBuilt.fits_part part

/-- What is printed at a sufficient depth is the text of the unfolding. -/
theorem WellBuilt.render_eq_text (wellBuilt : heap.WellBuilt) (fits : heap.Fits value)
    (unfolds : heap.Unfolds [] value tree) {depth : Nat} (sufficient : heap.renderDepth ≤ depth)
    (style : Style) : heap.render style depth [] value = tree.text heap style := by
  have enough := Nat.lt_of_lt_of_le (height_lt_renderDepth fits) sufficient
  obtain ⟨other, also, render_eq⟩ := wellBuilt.exists_unfolds depth fits (by simp) enough
  rw [unfolds.unique also]
  exact render_eq style

theorem WellBuilt.repr_eq_text (wellBuilt : heap.WellBuilt) (fits : heap.Fits value)
    (unfolds : heap.Unfolds [] value tree) (style : Style) :
    heap.repr style value = String.ofList (tree.text heap style) := by
  rw [repr, wellBuilt.render_eq_text fits unfolds (Nat.le_refl _)]

/-- In a well built heap every existing value is printed as an unfolding. -/
theorem WellBuilt.exists_printsAs (wellBuilt : heap.WellBuilt) (fits : heap.Fits value) :
    ∃ tree, heap.PrintsAs value tree := by
  obtain ⟨tree, unfolds, -⟩ :=
    wellBuilt.exists_unfolds heap.renderDepth fits (by simp) (height_lt_renderDepth fits)
  refine ⟨tree, {
    unfolds := unfolds
    unique := fun other also => also.unique unfolds
    repr_eq := wellBuilt.repr_eq_text fits unfolds
    ends := fun style depth sufficient => ?_
    balanced := fun style depth active => ?_
    shared := fun inner occurs acyclic => ?_
    cyclic := fun cut occurs => ?_ }⟩
  · rw [run_printer, wellBuilt.render_eq_text fits unfolds sufficient]
  · rw [run_printer]
  · have onItsOwn := unfolds.of_acyclic occurs acyclic
    obtain ⟨-, -, inside, -⟩ := unfolds.of_occurs occurs
    have exists_inner := wellBuilt.fits_of_inside inside fits
    exact ⟨onItsOwn, fun style => (wellBuilt.repr_eq_text exists_inner onItsOwn style).symm⟩
  · by_contra acyclic
    -- On its own nothing is cut, since nothing is around it.
    cases unfolds.of_acyclic occurs acyclic with
    | cut _ active => cases active

end Printed

end Heap

end ScriptCore
