import ScriptCore.Proofs.AttributeBuiltins
import ScriptCore.Proofs.Chains
import ScriptCore.Proofs.ReservedNames

/-!
# Inheritance

A class is made below a class that there is already, and stays there.  So the superclasses of a
class form a line that ends, inheriting is an order in which the classes above a class are
comparable, and whatever a class has, the classes below it have too.
-/

namespace ScriptCore

open Relation

namespace Heap

/-- Every class was made after its superclass. -/
def Founded (heap : Heap) : Prop :=
  ∀ cls parent, heap.superclass? cls = some parent → parent < cls

/-- A class is another one, or its superclass descends from it. -/
def Descends (heap : Heap) : CellId → CellId → Prop :=
  ReflTransGen fun lower upper => heap.superclass? lower = some upper

/-- A class, its superclass, and so on up to a class without one, no class twice. -/
structure IsLine (heap : Heap) (cls : CellId) (line : List CellId) : Prop where
  starts : line.head? = some cls
  linked : line.IsChain fun lower upper => heap.superclass? lower = some upper
  ends : ∀ top ∈ line.getLast?, heap.superclass? top = none
  distinct : line.Nodup

theorem superclass?_eq_some_iff {heap : Heap} {cls parent : CellId} :
    heap.superclass? cls = some parent ↔
      ∃ name, heap.nature? cls = some (.ofClass name (some parent)) := by
  constructor
  · intro link
    obtain ⟨content, found, above⟩ := Option.bind_eq_some_iff.mp link
    exact ⟨content.name, above ▸ nature?_of_class? found⟩
  · rintro ⟨name, nature⟩
    obtain ⟨content, found, -, above⟩ := class?_of_nature? nature
    rw [superclass?, found]
    exact above

theorem lt_size_of_superclass? {heap : Heap} {cls parent : CellId}
    (link : heap.superclass? cls = some parent) : cls < heap.size := by
  obtain ⟨content, found, -⟩ := Option.bind_eq_some_iff.mp link
  exact lt_size_of_get? (class?_eq_some_iff.mp found)

/-- Classes keep their superclass, so only a new one could come before its own. -/
theorem Founded.of_carries {before after : Heap} (founded : before.Founded)
    (carries : before.Carries after)
    (classless : ∀ id, before.size ≤ id → after.class? id = none) : after.Founded := by
  intro cls parent link
  by_cases inside : cls < before.size
  · obtain ⟨name, nature⟩ := superclass?_eq_some_iff.mp link
    have kept := carries.nature? cls _ inside nature
    exact founded cls parent (superclass?_eq_some_iff.mpr ⟨name, kept⟩)
  · rw [superclass?, classless cls (Nat.not_lt.mp inside)] at link
    cases link

section Lines

variable {heap : Heap} (founded : heap.Founded) {cls lower upper : CellId}

include founded

theorem ancestors_eq_cons (cls : CellId) :
    heap.ancestors cls =
      cls :: match heap.superclass? cls with
        | some parent => heap.ancestors parent
        | none => [] := by
  refine follow_eq_cons founded fun linked => ?_
  obtain ⟨parent, link⟩ := Option.isSome_iff_exists.mp linked
  exact lt_size_of_superclass? link

theorem mem_ancestors_iff : upper ∈ heap.ancestors lower ↔ heap.Descends lower upper := by
  cases link : heap.superclass? lower with
  | none =>
      rw [ancestors_of_superclass?_eq_none link, List.mem_singleton, Descends,
        ReflTransGen.cases_head_iff]
      simp [link, eq_comm]
  | some parent =>
      exact mem_follow_iff founded (Nat.lt_succ_of_lt (lt_size_of_superclass? link)) upper

theorem isLine_ancestors (cls : CellId) : heap.IsLine cls (heap.ancestors cls) where
  starts := by rw [ancestors_eq_cons founded, List.head?_cons]
  linked := isChain_follow _ _ _
  distinct := nodup_follow founded _ _
  ends := by
    cases link : heap.superclass? cls with
    | none =>
        rw [ancestors_of_superclass?_eq_none link]
        rintro top isLast
        cases isLast
        exact link
    | some parent =>
        exact next_getLast?_follow founded (Nat.lt_succ_of_lt (lt_size_of_superclass? link))

theorem isSubclass_iff : heap.isSubclass lower upper = true ↔ heap.Descends lower upper := by
  rw [isSubclass, List.contains_iff_mem, mem_ancestors_iff founded]

theorem Descends.le (descends : heap.Descends lower upper) : upper ≤ lower := by
  induction descends with
  | refl => exact Nat.le_refl _
  | tail _ link ih => exact Nat.le_trans (Nat.le_of_lt (founded _ _ link)) ih

theorem Descends.antisymm (down : heap.Descends lower upper) (up : heap.Descends upper lower) :
    lower = upper :=
  Nat.le_antisymm (up.le founded) (down.le founded)

omit founded in
/-- Each class has one superclass at most, so there is only one way up. -/
theorem Descends.comparable {first second : CellId} (toFirst : heap.Descends cls first)
    (toSecond : heap.Descends cls second) :
    heap.Descends first second ∨ heap.Descends second first := by
  refine ReflTransGen.total_of_right_unique ?_ toFirst toSecond
  intro lower upper other link also
  exact Option.some.inj (link.symm.trans also)

/-- What a class has itself, else what its superclass has. -/
theorem findAttr_eq (cls : CellId) (name : String) :
    heap.findAttr cls name =
      ((heap.classAttributes cls).find? name <|>
        (heap.superclass? cls).bind fun parent => heap.findAttr parent name) := by
  rw [findAttr, ancestors_eq_cons founded, List.findSome?_cons]
  cases (heap.classAttributes cls).find? name with
  | some value => rfl
  | none => cases heap.superclass? cls <;> rfl

theorem exists_findAttr_of_descends {name : String} {value : Value}
    (descends : heap.Descends lower upper) (found : heap.findAttr upper name = some value) :
    ∃ nearest, heap.findAttr lower name = some nearest := by
  induction descends using ReflTransGen.head_induction_on with
  | refl => exact ⟨value, found⟩
  | head link _ ih =>
      obtain ⟨nearest, inherited⟩ := ih
      rw [findAttr_eq founded, link, Option.bind_some, inherited]
      cases (heap.classAttributes _).find? name with
      | some own => exact ⟨own, rfl⟩
      | none => exact ⟨nearest, rfl⟩

theorem findAttr_of_unbound {name : String} (descends : heap.Descends lower upper)
    (unbound : ∀ between, heap.Descends lower between → heap.Descends between upper →
      between ≠ upper → (heap.classAttributes between).find? name = none) :
    heap.findAttr lower name = heap.findAttr upper name := by
  induction descends using ReflTransGen.head_induction_on with
  | refl => rfl
  | @head lower parent link above ih =>
      have apart : lower ≠ upper := by
        rintro rfl
        exact Nat.not_lt.mpr (Descends.le founded above) (founded _ _ link)
      have own := unbound lower .refl (.head link above) apart
      have inherited := ih fun between below => unbound between (.head link below)
      rw [findAttr_eq founded, own, link, ← inherited]
      rfl

end Lines

end Heap

/-- One step of a machine as far as classes go. -/
inductive ClassStep (machine : Machine) : Machine → Prop
  /-- A class is made, at the top or below a class that there is. -/
  | newClass (name : Str) (superclass : Option CellId) (attributes : Names)
      (known : ∀ parent ∈ superclass, (machine.heap.class? parent).isSome = true) :
      ClassStep machine ((Act.newClass name superclass attributes).leaves machine)
  | setAttr (target : Value) (name : Str) (value : Value) :
      ClassStep machine ((Act.setAttr target name value).leaves machine)
  | delAttr (target : Value) (name : String) :
      ClassStep machine ((Act.delAttr target name).leaves machine)
  /-- Anything else, if it makes no class. -/
  | other (after : Machine) (evolves : machine.Evolves after)
      (classless : ∀ id, machine.heap.size ≤ id → after.heap.class? id = none) :
      ClassStep machine after

namespace Act

theorem size_leaves_setAttr (target : Value) (name : Str) (value : Value) (machine : Machine) :
    ((setAttr target name value).leaves machine).heap.size = machine.heap.size := by
  rw [leaves, setAttr_eq]
  cases written : machine.heap.setAttr target name value with
  | ok after =>
      obtain ⟨-, -, rfl⟩ := Heap.withOwn_of_setAttr written
      exact machine.heap.size_withOwn target _
  | error error => rfl

theorem size_leaves_delAttr (target : Value) (name : String) (machine : Machine) :
    ((delAttr target name).leaves machine).heap.size = machine.heap.size := by
  rw [leaves, delAttr_eq]
  cases removed : machine.heap.delAttr target name with
  | ok result =>
      obtain ⟨-, -, after⟩ := Heap.withOwn_of_delAttr removed
      exact (congrArg Heap.size after).trans (machine.heap.size_withOwn target _)
  | error error => rfl

theorem leaves_newClass (name : Str) (superclass : Option CellId) (attributes : Names)
    (machine : Machine) :
    (newClass name superclass attributes).leaves machine = machine ∨
      (newClass name superclass attributes).leaves machine =
        { machine with
          heap := (machine.heap.alloc (.classObject { name, superclass, attributes })).2 } := by
  rw [newClass]
  split
  · exact .inl rfl
  · exact .inr rfl

end Act

namespace Heap

theorem class?_of_size_le {heap : Heap} {id : CellId} (beyond : heap.size ≤ id) :
    heap.class? id = none := by
  cases found : heap.class? id with
  | none => rfl
  | some content =>
      have inside := lt_size_of_get? (class?_eq_some_iff.mp found)
      exact absurd inside (Nat.not_lt.mpr beyond)

/-- A new class comes after the class that it is made below. -/
theorem Founded.alloc {heap : Heap} (founded : heap.Founded) {content : ClassCell}
    (known : ∀ parent ∈ content.superclass, parent < heap.size) :
    (heap.alloc (.classObject content)).2.Founded := by
  intro cls parent link
  obtain ⟨stored, found, above⟩ := Option.bind_eq_some_iff.mp link
  rw [class?, get?_alloc] at found
  by_cases new : cls = heap.size
  · simp only [if_pos new, Option.some.injEq] at found
    rw [new]
    exact known parent (found ▸ above)
  · simp only [if_neg new] at found
    exact founded cls parent (Option.bind_eq_some_iff.mpr ⟨stored, found, above⟩)

theorem isInstance_iff {heap : Heap} {value : Value} {cls : CellId} :
    heap.isInstance value cls = true ↔
      ∃ object content, value = .object object ∧ heap.object? object = some content ∧
        cls ∈ heap.ancestors content.classCell := by
  cases value with
  | object object =>
      cases found : heap.object? object with
      | none => simp [isInstance, found]
      | some content => simp [isInstance, found, isSubclass]
  | _ => simp [isInstance]

end Heap

namespace ClassStep

variable {before after : Machine}

theorem evolves (step : ClassStep before after) : before.Evolves after := by
  cases step with
  | newClass name superclass attributes known => exact Act.evolves_newClass _ _ _ _
  | setAttr target name value => exact Act.evolves_setAttr _ _ _ _
  | delAttr target name => exact Act.evolves_delAttr _ _ _
  | other _ evolves classless => exact evolves

/-- Classes keep their superclass, so only a new one has to be looked at. -/
theorem founded (step : ClassStep before after) (founded : before.heap.Founded) :
    after.heap.Founded := by
  have carries := step.evolves.heap.carries
  cases step with
  | newClass name superclass attributes known =>
      rcases Act.leaves_newClass name superclass attributes before with refused | made
      · rw [refused]
        exact founded
      · rw [made]
        refine founded.alloc fun parent above => ?_
        obtain ⟨content, found⟩ := Option.isSome_iff_exists.mp (known parent above)
        exact Heap.lt_size_of_get? (Heap.class?_eq_some_iff.mp found)
  | setAttr target name value =>
      refine founded.of_carries carries fun id beyond => Heap.class?_of_size_le ?_
      rwa [Act.size_leaves_setAttr]
  | delAttr target name =>
      refine founded.of_carries carries fun id beyond => Heap.class?_of_size_le ?_
      rwa [Act.size_leaves_delAttr]
  | other _ _ classless => exact founded.of_carries carries classless

end ClassStep

namespace Machine

/-- A machine that comes about from a new one while classes are made and changed. -/
def Classed (machine : Machine) : Prop :=
  ∃ standard natives, ReflTransGen ClassStep (build standard natives) machine

theorem Classed.founded {machine : Machine} (classed : machine.Classed) :
    machine.heap.Founded := by
  obtain ⟨standard, natives, steps⟩ := classed
  induction steps with
  | refl =>
      rw [heap_build]
      intro cls parent link
      simp [Heap.superclass?, Heap.class?, Heap.get?] at link
  | tail _ step ih => exact step.founded ih

/-- Classes form a forest, and attributes come down it.  However classes are made and changed, the
superclasses of a class form a line that ends; inheriting orders the classes, those above a class
in a line; an object is an instance of the classes in the line of its class; and what a class has
the classes below it have, with the same value where no class in between has its own. -/
theorem inheritance_is_forest_order {machine : Machine} (classed : machine.Classed) :
    (∀ cls, machine.heap.IsLine cls (machine.heap.ancestors cls)) ∧
    (∀ cls, machine.heap.isSubclass cls cls = true) ∧
    (∀ lower middle upper, machine.heap.isSubclass lower middle = true →
      machine.heap.isSubclass middle upper = true →
      machine.heap.isSubclass lower upper = true) ∧
    (∀ cls other, machine.heap.isSubclass cls other = true →
      machine.heap.isSubclass other cls = true → cls = other) ∧
    (∀ cls first second, machine.heap.isSubclass cls first = true →
      machine.heap.isSubclass cls second = true →
      machine.heap.isSubclass first second = true ∨
        machine.heap.isSubclass second first = true) ∧
    (∀ value cls, ∃ answer,
      Act.runStandard .isinstance [value, .classObject cls] machine = .ok (.bool answer) machine ∧
      (answer = true ↔ ∃ object content, value = .object object ∧
        machine.heap.object? object = some content ∧
        cls ∈ machine.heap.ancestors content.classCell)) ∧
    ∀ lower upper name value, machine.heap.isSubclass lower upper = true →
      machine.heap.findAttr upper name = some value →
      (∃ nearest, machine.heap.findAttr lower name = some nearest) ∧
      ((∀ between, machine.heap.isSubclass lower between = true →
          machine.heap.isSubclass between upper = true → between ≠ upper →
          (machine.heap.classAttributes between).find? name = none) →
        machine.heap.findAttr lower name = some value) := by
  have founded := classed.founded
  simp only [Heap.isSubclass_iff founded]
  refine ⟨Heap.isLine_ancestors founded, fun cls => .refl, fun lower middle upper => .trans,
    fun cls other => Heap.Descends.antisymm founded,
    fun cls first second => Heap.Descends.comparable,
    fun value cls => ⟨_, rfl, Heap.isInstance_iff⟩, fun lower upper name value descends found => ?_⟩
  refine ⟨Heap.exists_findAttr_of_descends founded descends found, fun unbound => ?_⟩
  rw [Heap.findAttr_of_unbound founded descends unbound, found]

/-- A class with an attribute. -/
def founder : Machine :=
  (Act.newClass ⟨"Top", 0⟩ none [(⟨"limit", 1⟩, .bool true)]).leaves (build false [])

/-- Two more classes below it, one below the other, with another attribute in between. -/
def lineage : Machine :=
  (Act.newClass ⟨"Bottom", 4⟩ (some 1) []).leaves
    ((Act.newClass ⟨"Middle", 2⟩ (some 0) [(⟨"step", 3⟩, .nothing)]).leaves founder)

theorem classed_lineage : lineage.Classed := by
  refine ⟨false, [], ?_⟩
  have top : ClassStep (build false []) founder := .newClass _ _ _ (by simp)
  have middle : ClassStep founder _ := .newClass ⟨"Middle", 2⟩ (some 0) [(⟨"step", 3⟩, .nothing)]
    (by rintro parent ⟨⟩; rfl)
  have bottom : ClassStep _ lineage := .newClass ⟨"Bottom", 4⟩ (some 1) []
    (by rintro parent ⟨⟩; rfl)
  exact ((ReflTransGen.single top).tail middle).tail bottom

/-- The lowest class has the attribute of the highest, and inherits from no other class there is
but the two above. -/
theorem lowest_of_lineage_inherits :
    lineage.Classed ∧ lineage.heap.findAttr 0 "limit" = some (.bool true) ∧
      lineage.heap.findAttr 2 "limit" = some (.bool true) ∧
      lineage.heap.ancestors 2 = [2, 1, 0] ∧ [2, 1, 0].Nodup := by
  obtain ⟨lines, -, -, -, -, -, inherits⟩ := inheritance_is_forest_order classed_lineage
  have line : lineage.heap.ancestors 2 = [2, 1, 0] := rfl
  have found : lineage.heap.findAttr 0 "limit" = some (.bool true) := rfl
  refine ⟨classed_lineage, found, ?_, line, line ▸ (lines 2).distinct⟩
  refine (inherits 2 0 "limit" _ rfl found).2 fun between below above apart => ?_
  rw [Heap.isSubclass, line] at below
  simp only [List.contains_iff_mem, List.mem_cons, List.not_mem_nil, or_false] at below
  obtain rfl | rfl | rfl := below
  · rfl
  · rfl
  · exact absurd rfl apart

end Machine

end ScriptCore
