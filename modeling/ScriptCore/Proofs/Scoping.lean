import ScriptCore.Proofs.CallFrames
import ScriptCore.Proofs.Calls

/-!
# Lexical scoping

A name means what the nearest frame outward binds it to.  The frames outward end at the top
level, whose names are the globals, so the globals need no look of their own.  Binding or removing
a name in a frame therefore changes what the name means in exactly the frames that look it up
there: those inside it that meet no nearer binding.  Frames elsewhere, that of a caller among them,
have no say.
-/

namespace ScriptCore

open Relation

namespace Heap

theorem frameChain_eq_cons {heap : Heap} (ordered : heap.Ordered) (id : CellId) :
    heap.frameChain id =
      id :: match heap.parent? id with
        | some parent => heap.frameChain parent
        | none => [] := by
  refine follow_eq_cons ordered fun linked => ?_
  obtain ⟨parent, link⟩ := Option.isSome_iff_exists.mp linked
  obtain ⟨frame, found, -⟩ := Option.bind_eq_some_iff.mp link
  exact lt_size_of_get? (frame?_eq_some_iff.mp found)

/-- A frame lies in another: it is that frame, or the frame around it lies in it. -/
def LiesIn (heap : Heap) : CellId → CellId → Prop :=
  ReflTransGen fun inner outer => heap.parent? inner = some outer

/-- A cell is a frame at the top level. -/
def IsTop (heap : Heap) (id : CellId) : Prop :=
  ∃ frame, heap.frame? id = some frame ∧ frame.isTop = true

/-- Two frames have the same names: they are one frame, or both are at the top level. -/
def SharesScope (heap : Heap) (frame other : CellId) : Prop :=
  frame = other ∨ heap.IsTop frame ∧ heap.IsTop other

end Heap

namespace Machine

/-- From a frame outward, no frame before `scope` binds the name. -/
def Sees (machine : Machine) (name : String) : CellId → CellId → Prop :=
  ReflTransGen fun inner outer =>
    machine.heap.parent? inner = some outer ∧ (machine.localsOf inner).find? name = none

/-- A name is looked up from `inner` among the names of `frame`, unless it is found nearer. -/
def Governs (machine : Machine) (name : String) (frame inner : CellId) : Prop :=
  ∃ scope, machine.Sees name inner scope ∧ machine.heap.SharesScope frame scope

/-- Frames lie in frames made before them. -/
structure Nesting (machine : Machine) : Prop where
  ordered : machine.heap.Ordered
  linked : ∀ id parent, machine.heap.parent? id = some parent →
    (machine.heap.frame? parent).isSome = true

/-- What the frames outward bind a name to. -/
def resolve (machine : Machine) (frame : CellId) (name : String) : Option Value :=
  (machine.heap.frameChain frame).findSome? fun scope => (machine.localsOf scope).find? name

section Resolving

variable {machine : Machine} (nesting : machine.Nesting)

include nesting

theorem resolve_of_find?_eq_some {frame : CellId} {name : String} {value : Value}
    (bound : (machine.localsOf frame).find? name = some value) :
    machine.resolve frame name = some value := by
  rw [resolve, Heap.frameChain_eq_cons nesting.ordered, List.findSome?_cons, bound]

theorem resolve_of_find?_eq_none {frame : CellId} {name : String}
    (unbound : (machine.localsOf frame).find? name = none) :
    machine.resolve frame name =
      (machine.heap.parent? frame).bind fun parent => machine.resolve parent name := by
  rw [resolve, Heap.frameChain_eq_cons nesting.ordered, List.findSome?_cons, unbound]
  cases machine.heap.parent? frame with
  | none => rfl
  | some parent => rfl

/-- What holds at a frame whenever it holds at the frame around it holds at every frame. -/
theorem outward_induction {motive : CellId → Prop}
    (step : ∀ frame, (∀ parent, machine.heap.parent? frame = some parent → motive parent) →
      motive frame) (frame : CellId) : motive frame := by
  induction frame using Nat.strongRecOn with
  | ind frame ih =>
      exact step frame fun parent link => ih parent (nesting.ordered frame parent link)

theorem resolve_of_sees {frame scope : CellId} {name : String} {value : Value}
    (sees : machine.Sees name frame scope)
    (bound : (machine.localsOf scope).find? name = some value) :
    machine.resolve frame name = some value := by
  induction sees using ReflTransGen.head_induction_on with
  | refl => exact resolve_of_find?_eq_some nesting bound
  | head link _ ih =>
      rw [resolve_of_find?_eq_none nesting link.2, link.1]
      exact ih

theorem exists_sees_of_resolve {frame : CellId} {name : String} {value : Value}
    (resolved : machine.resolve frame name = some value) :
    ∃ scope, machine.Sees name frame scope ∧
      (machine.localsOf scope).find? name = some value := by
  induction frame using outward_induction nesting with
  | step frame ih =>
      cases bound : (machine.localsOf frame).find? name with
      | some own =>
          rw [resolve_of_find?_eq_some nesting bound] at resolved
          exact ⟨frame, .refl, bound.trans resolved⟩
      | none =>
          rw [resolve_of_find?_eq_none nesting bound] at resolved
          obtain ⟨parent, link, onward⟩ := Option.bind_eq_some_iff.mp resolved
          obtain ⟨scope, sees, found⟩ := ih parent link onward
          exact ⟨scope, .head ⟨link, bound⟩ sees, found⟩

theorem find?_eq_none_of_resolve {frame scope : CellId} {name : String}
    (unresolved : machine.resolve frame name = none) (inside : machine.heap.LiesIn frame scope) :
    (machine.localsOf scope).find? name = none := by
  -- As long as the name is not resolved, every frame met so far is passed.
  have sees : machine.Sees name frame scope := by
    induction inside with
    | refl => exact .refl
    | @tail middle outer _ link ih =>
        refine ih.tail ⟨link, ?_⟩
        cases bound : (machine.localsOf middle).find? name with
        | none => rfl
        | some value => simp [resolve_of_sees nesting ih bound] at unresolved
  cases bound : (machine.localsOf scope).find? name with
  | none => rfl
  | some value => simp [resolve_of_sees nesting sees bound] at unresolved

/-- Machines that agree on the frames passed on the way outward resolve a name alike. -/
theorem resolve_congr {other : Machine} (nestingOther : other.Nesting) {frame : CellId}
    {name : String}
    (same : ∀ scope, machine.Sees name frame scope →
      other.heap.parent? scope = machine.heap.parent? scope ∧
        (other.localsOf scope).find? name = (machine.localsOf scope).find? name) :
    other.resolve frame name = machine.resolve frame name := by
  induction frame using outward_induction nesting with
  | step frame ih =>
      obtain ⟨link, own⟩ := same frame .refl
      cases bound : (machine.localsOf frame).find? name with
      | some value =>
          rw [resolve_of_find?_eq_some nesting bound,
            resolve_of_find?_eq_some nestingOther (own.trans bound)]
      | none =>
          rw [resolve_of_find?_eq_none nesting bound,
            resolve_of_find?_eq_none nestingOther (own.trans bound), link]
          cases outward : machine.heap.parent? frame with
          | none => rfl
          | some parent =>
              exact ih parent outward fun scope sees => same scope (.head ⟨outward, bound⟩ sees)

theorem isFrame_of_liesIn {frame scope : CellId} (inside : machine.heap.LiesIn frame scope)
    (isFrame : (machine.heap.frame? frame).isSome = true) :
    (machine.heap.frame? scope).isSome = true := by
  induction inside with
  | refl => exact isFrame
  | tail _ link _ => exact nesting.linked _ _ link

theorem exists_top {frame : CellId} (isFrame : (machine.heap.frame? frame).isSome = true) :
    ∃ top, machine.heap.LiesIn frame top ∧ machine.heap.IsTop top := by
  induction frame using outward_induction nesting with
  | step frame ih =>
      cases link : machine.heap.parent? frame with
      | none =>
          obtain ⟨content, found⟩ := Option.isSome_iff_exists.mp isFrame
          refine ⟨frame, .refl, content, found, ?_⟩
          simpa [Heap.parent?, found, Frame.isTop] using link
      | some parent =>
          obtain ⟨top, inside, isTop⟩ := ih parent link (nesting.linked frame parent link)
          exact ⟨top, .head link inside, isTop⟩

omit nesting in
theorem localsOf_of_isTop {top : CellId} (isTop : machine.heap.IsTop top) :
    machine.localsOf top = machine.globals := by
  obtain ⟨⟨scope, captured⟩, found, unparented⟩ := isTop
  cases scope with
  | global => simp [localsOf, found]
  | nested parent bindings => simp [Frame.isTop, Frame.parent?] at unparented

/-- The globals are among the frames outward, so a look at them after those finds nothing. -/
theorem find?_globals_of_resolve {frame : CellId} {name : String}
    (isFrame : (machine.heap.frame? frame).isSome = true)
    (unresolved : machine.resolve frame name = none) : machine.globals.find? name = none := by
  obtain ⟨top, inside, isTop⟩ := exists_top nesting isFrame
  rw [← localsOf_of_isTop isTop]
  exact find?_eq_none_of_resolve nesting unresolved inside

theorem lookup_eq {frame : CellId} (name : String)
    (isFrame : (machine.heap.frame? frame).isSome = true) :
    machine.lookup frame name =
      match machine.resolve frame name with
      | some value => .ok value
      | none =>
          match machine.builtin? name with
          | some builtin => .ok (.builtin builtin)
          | none => .error (.undefinedName name) := by
  have same : machine.lookup frame name =
      match machine.resolve frame name <|> machine.globals.find? name with
      | some value => .ok value
      | none =>
          match machine.builtin? name with
          | some builtin => .ok (.builtin builtin)
          | none => .error (.undefinedName name) := rfl
  rw [same]
  cases resolved : machine.resolve frame name with
  | some value => rfl
  | none => rw [find?_globals_of_resolve nesting isFrame resolved]; rfl

/-- The nearest frame outward that binds a name decides, and the builtins if none does. -/
theorem lookup_cases {frame : CellId} (isFrame : (machine.heap.frame? frame).isSome = true)
    (name : String) :
    (∃ scope value, machine.Sees name frame scope ∧
      (machine.localsOf scope).find? name = some value ∧
      machine.lookup frame name = .ok value) ∨
    (∀ scope, machine.heap.LiesIn frame scope → (machine.localsOf scope).find? name = none) ∧
      machine.lookup frame name =
        match machine.builtin? name with
        | some builtin => .ok (.builtin builtin)
        | none => .error (.undefinedName name) := by
  rw [lookup_eq nesting name isFrame]
  cases resolved : machine.resolve frame name with
  | some value =>
      obtain ⟨scope, sees, bound⟩ := exists_sees_of_resolve nesting resolved
      exact Or.inl ⟨scope, value, sees, bound, rfl⟩
  | none => exact Or.inr ⟨fun scope => find?_eq_none_of_resolve nesting resolved, rfl⟩

end Resolving

section Renaming

variable {machine : Machine} {target scope : CellId} {names : Names}

theorem setLocals_cases (machine : Machine) (target : CellId) (names : Names) :
    machine.heap.frame? target = none ∧ machine.setLocals target names = machine ∨
    (∃ captured, machine.heap.frame? target = some { scope := .global, captured } ∧
      machine.setLocals target names = { machine with globals := names }) ∨
    ∃ parent bindings captured,
      machine.heap.frame? target = some { scope := .nested parent bindings, captured } ∧
      machine.setLocals target names =
        { machine with
          heap := machine.heap.set target
            (.frame { scope := .nested parent names, captured }) } := by
  cases found : machine.heap.frame? target with
  | none => exact Or.inl ⟨rfl, by simp [setLocals, found]⟩
  | some content =>
      obtain ⟨scope, captured⟩ := content
      cases scope with
      | global => exact Or.inr (Or.inl ⟨captured, rfl, by simp [setLocals, found]⟩)
      | nested parent bindings =>
          exact Or.inr (Or.inr ⟨parent, bindings, captured, rfl, by simp [setLocals, found]⟩)

theorem frame?_set_frame {heap : Heap} {id : CellId} {old new : Frame}
    (found : heap.frame? id = some old) (other : CellId) :
    (heap.set id (.frame new)).frame? other =
      if other = id then some new else heap.frame? other := by
  have stored := Heap.frame?_eq_some_iff.mp found
  by_cases same : other = id
  · subst same
    simp [Heap.frame?, Heap.get?_set, Heap.contains, stored]
  · simp [Heap.frame?, Heap.get?_set, same]

theorem parent?_setLocals (machine : Machine) (target : CellId) (names : Names) (id : CellId) :
    (machine.setLocals target names).heap.parent? id = machine.heap.parent? id := by
  obtain ⟨-, same⟩ | ⟨captured, -, same⟩ | ⟨parent, bindings, captured, found, same⟩ :=
    machine.setLocals_cases target names
  · rw [same]
  · rw [same]
  · rw [same, Heap.parent?, Heap.parent?, frame?_set_frame found]
    by_cases here : id = target
    · subst here
      simp [found, Frame.parent?]
    · simp [here]

theorem frame?_isSome_setLocals (machine : Machine) (target : CellId) (names : Names)
    (id : CellId) :
    ((machine.setLocals target names).heap.frame? id).isSome = (machine.heap.frame? id).isSome := by
  obtain ⟨-, same⟩ | ⟨captured, -, same⟩ | ⟨parent, bindings, captured, found, same⟩ :=
    machine.setLocals_cases target names
  · rw [same]
  · rw [same]
  · rw [same, frame?_set_frame found]
    by_cases here : id = target
    · simp [here, found]
    · simp [here]

theorem builtin?_setLocals (machine : Machine) (target : CellId) (names : Names) (name : String) :
    (machine.setLocals target names).builtin? name = machine.builtin? name := by
  obtain ⟨-, same⟩ | ⟨captured, -, same⟩ | ⟨parent, bindings, captured, -, same⟩ :=
    machine.setLocals_cases target names <;> rw [same] <;> rfl

theorem Nesting.setLocals (nesting : machine.Nesting) (target : CellId) (names : Names) :
    (machine.setLocals target names).Nesting where
  ordered id parent link :=
    nesting.ordered id parent (machine.parent?_setLocals target names id ▸ link)
  linked id parent link := by
    rw [frame?_isSome_setLocals]
    exact nesting.linked id parent (machine.parent?_setLocals target names id ▸ link)

theorem localsOf_setLocals_of_shares (isFrame : (machine.heap.frame? target).isSome = true)
    (shares : machine.heap.SharesScope target scope) :
    (machine.setLocals target names).localsOf scope = names := by
  obtain ⟨absent, -⟩ | ⟨captured, found, same⟩ | ⟨parent, bindings, captured, found, same⟩ :=
    machine.setLocals_cases target names
  · simp [absent] at isFrame
  · have isTop : machine.heap.IsTop scope := by
      rcases shares with rfl | ⟨-, isTop⟩
      · exact ⟨_, found, rfl⟩
      · exact isTop
    rw [same]
    exact @localsOf_of_isTop { machine with globals := names } scope isTop
  · have here : scope = target := by
      rcases shares with rfl | ⟨⟨content, foundTop, isTop⟩, -⟩
      · rfl
      · rw [found] at foundTop
        cases foundTop
        simp [Frame.isTop, Frame.parent?] at isTop
    rw [same, here, localsOf, frame?_set_frame found, if_pos rfl]

theorem localsOf_setLocals_of_not_shares (apart : ¬machine.heap.SharesScope target scope) :
    (machine.setLocals target names).localsOf scope = machine.localsOf scope := by
  obtain ⟨-, same⟩ | ⟨captured, found, same⟩ | ⟨parent, bindings, captured, found, same⟩ :=
    machine.setLocals_cases target names
  · rw [same]
  · have notTop : ¬machine.heap.IsTop scope := fun isTop =>
      apart (Or.inr ⟨⟨_, found, rfl⟩, isTop⟩)
    rw [same, localsOf, localsOf]
    cases inScope : machine.heap.frame? scope with
    | none => rfl
    | some content =>
        obtain ⟨kind, marked⟩ := content
        cases kind with
        | global => exact absurd ⟨_, inScope, rfl⟩ notTop
        | nested parent bindings => rfl
  · have elsewhere : scope ≠ target := fun here => apart (Or.inl here.symm)
    rw [same, localsOf, localsOf, frame?_set_frame found, if_neg elsewhere]

theorem localsOf_eq_of_shares (shares : machine.heap.SharesScope target scope) :
    machine.localsOf scope = machine.localsOf target := by
  rcases shares with rfl | ⟨topTarget, topScope⟩
  · rfl
  · rw [localsOf_of_isTop topTarget, localsOf_of_isTop topScope]

end Renaming

section Changes

variable {machine : Machine} (nesting : machine.Nesting) {frame target : CellId} {names : Names}

include nesting

/-- Names that are not looked up there may be changed without being missed. -/
theorem resolve_setLocals_of_not_governs {name : String}
    (apart : ¬machine.Governs name target frame) :
    (machine.setLocals target names).resolve frame name = machine.resolve frame name := by
  refine resolve_congr nesting (nesting.setLocals target names) fun scope sees =>
    ⟨parent?_setLocals _ _ _ _, ?_⟩
  rw [localsOf_setLocals_of_not_shares fun shares => apart ⟨scope, sees, shares⟩]

/-- A name whose binding stays the same means the same everywhere. -/
theorem resolve_setLocals_of_find?_eq {name : String}
    (same : names.find? name = (machine.localsOf target).find? name) (frame : CellId) :
    (machine.setLocals target names).resolve frame name = machine.resolve frame name := by
  refine resolve_congr nesting (nesting.setLocals target names) fun scope _ =>
    ⟨parent?_setLocals _ _ _ _, ?_⟩
  by_cases shares : machine.heap.SharesScope target scope
  · by_cases isFrame : (machine.heap.frame? target).isSome = true
    · rw [localsOf_setLocals_of_shares isFrame shares, localsOf_eq_of_shares shares, same]
    · have absent : machine.heap.frame? target = none := by simpa using isFrame
      simp [setLocals, absent]
  · rw [localsOf_setLocals_of_not_shares shares]

theorem resolve_setLocals_of_governs {name : String} {value : Value}
    (isFrame : (machine.heap.frame? target).isSome = true)
    (bound : names.find? name = some value) (governs : machine.Governs name target frame) :
    (machine.setLocals target names).resolve frame name = some value := by
  have renamed := nesting.setLocals target names
  have found : ∀ {scope}, machine.heap.SharesScope target scope →
      (machine.setLocals target names).resolve scope name = some value := by
    intro scope shares
    apply resolve_of_find?_eq_some renamed
    rw [localsOf_setLocals_of_shares isFrame shares]
    exact bound
  obtain ⟨scope, sees, shares⟩ := governs
  induction sees using ReflTransGen.head_induction_on with
  | refl => exact found shares
  | @head inner outer link _ ih =>
      by_cases here : machine.heap.SharesScope target inner
      · exact found here
      · rw [resolve_of_find?_eq_none renamed (localsOf_setLocals_of_not_shares here ▸ link.2),
          parent?_setLocals, link.1]
        exact ih

variable (isFrame : (machine.heap.frame? frame).isSome = true)

include isFrame

theorem lookup_setLocals {name : String}
    (same : (machine.setLocals target names).resolve frame name = machine.resolve frame name) :
    (machine.setLocals target names).lookup frame name = machine.lookup frame name := by
  rw [lookup_eq nesting name isFrame, lookup_eq (nesting.setLocals target names) name
    ((machine.frame?_isSome_setLocals target names frame).trans isFrame), same,
    builtin?_setLocals]

/-- New names of a frame that bind all but one name as before are noticed only where that name
is looked up there. -/
theorem governs_of_lookup_ne {name other : String}
    (others : ∀ different, different ≠ name →
      names.find? different = (machine.localsOf target).find? different)
    (changed : (machine.setLocals target names).lookup frame other ≠
      machine.lookup frame other) : other = name ∧ machine.Governs name target frame := by
  have sameName : other = name := by
    by_contra different
    exact changed (lookup_setLocals nesting isFrame
      (resolve_setLocals_of_find?_eq nesting (others other different) frame))
  subst sameName
  refine ⟨rfl, ?_⟩
  by_contra apart
  exact changed (lookup_setLocals nesting isFrame (resolve_setLocals_of_not_governs nesting apart))

theorem lookup_define_of_governs {name : Str} {value : Value}
    (governs : machine.Governs name.text target frame) :
    (machine.define target name value).lookup frame name.text = .ok value := by
  have isFrameTarget : (machine.heap.frame? target).isSome = true := by
    obtain ⟨scope, sees, rfl | ⟨⟨content, found, -⟩, -⟩⟩ := governs
    · exact isFrame_of_liesIn nesting
        (ReflTransGen.mono (fun _ _ link => link.1) _ _ sees) isFrame
    · rw [found]
      rfl
  have resolved : (machine.define target name value).resolve frame name.text = some value :=
    resolve_setLocals_of_governs nesting isFrameTarget (by simp) governs
  rw [define] at resolved ⊢
  rw [lookup_eq (nesting.setLocals target _) name.text
    ((machine.frame?_isSome_setLocals target _ frame).trans isFrame), resolved]

end Changes

section Calling

variable {machine : Machine} (nesting : machine.Nesting) {function : FunctionCell}
  (isFrame : (machine.heap.frame? function.defining).isSome = true)

include nesting isFrame

omit nesting isFrame in
theorem frame?_calling (machine : Machine) (function : FunctionCell) (id : CellId) :
    (machine.calling function).heap.frame? id =
      if id = machine.heap.size then some { scope := .nested function.defining [] }
      else machine.heap.frame? id := by
  by_cases new : id = machine.heap.size
  · simp [calling, Heap.frame?, Heap.get?_alloc, new]
  · simp [calling, Heap.frame?, Heap.get?_alloc, new]

theorem Nesting.calling : (machine.calling function).Nesting := by
  have below := Activity.Grows.lt_size_of_frame? isFrame
  have stays : ∀ id, (machine.heap.frame? id).isSome = true →
      ((machine.calling function).heap.frame? id).isSome = true := by
    intro id isFrame
    rw [frame?_calling, if_neg (Nat.ne_of_lt (Activity.Grows.lt_size_of_frame? isFrame))]
    exact isFrame
  have cases_link : ∀ id parent, (machine.calling function).heap.parent? id = some parent →
      id = machine.heap.size ∧ parent = function.defining ∨
        machine.heap.parent? id = some parent := by
    intro id parent link
    rw [Heap.parent?, frame?_calling] at link
    split at link
    · rename_i new
      exact Or.inl ⟨new, by simpa [Frame.parent?, eq_comm] using link⟩
    · exact Or.inr link
  refine ⟨fun id parent link => ?_, fun id parent link => ?_⟩
  · obtain ⟨rfl, rfl⟩ | old := cases_link id parent link
    · exact below
    · exact nesting.ordered id parent old
  · obtain ⟨rfl, rfl⟩ | old := cases_link id parent link
    · exact stays _ isFrame
    · exact stays _ (nesting.linked id parent old)

/-- The frame of a call sees at first just what the frame its function was made in sees. -/
theorem lookup_calling (name : String) :
    (machine.calling function).lookup machine.heap.size name =
      machine.lookup function.defining name := by
  have calling := Nesting.calling nesting isFrame
  have new : (machine.calling function).heap.frame? machine.heap.size =
      some { scope := .nested function.defining [] } := by
    rw [frame?_calling, if_pos rfl]
  have outward : (machine.calling function).resolve machine.heap.size name =
      machine.resolve function.defining name := by
    rw [resolve_of_find?_eq_none calling (by simp [localsOf, new, Names.find?]), Heap.parent?, new]
    refine resolve_congr nesting calling fun scope sees => ?_
    have inside : (machine.heap.frame? scope).isSome = true :=
      isFrame_of_liesIn nesting (ReflTransGen.mono (fun _ _ link => link.1) _ _ sees) isFrame
    have old : (machine.calling function).heap.frame? scope = machine.heap.frame? scope := by
      rw [frame?_calling, if_neg (Nat.ne_of_lt (Activity.Grows.lt_size_of_frame? inside))]
    simp only [Heap.parent?, localsOf, old]
    exact ⟨trivial, rfl⟩
  rw [lookup_eq calling name (by rw [new]; rfl), lookup_eq nesting name isFrame, outward]
  rfl

end Calling

end Machine

namespace Activity

theorem Sound.nesting {activity : Activity} (sound : activity.Sound) :
    activity.machine.Nesting where
  ordered := sound.ordered
  linked id parent link := by
    obtain ⟨frame, found, inside⟩ := Option.bind_eq_some_iff.mp link
    exact sound.linked id _ parent (Heap.frame?_eq_some_iff.mp found) inside

/-- In every state of every run a name means what the nearest frame outward binds it to, else the
builtin of that name.  Binding or removing a name in a frame is noticed only where the name is
looked up in that frame, and frames that do not lie around a frame have no say in it: the frame
of a call begins by seeing what the frame its function was made in sees. -/
theorem names_are_resolved_lexically (activity : Activity) (run : activity.Reachable)
    (frame : CellId) (isFrame : (activity.machine.heap.frame? frame).isSome = true) :
    (∀ name,
      (∃ scope value, activity.machine.Sees name frame scope ∧
        (activity.machine.localsOf scope).find? name = some value ∧
        activity.machine.lookup frame name = .ok value) ∨
      (∀ scope, activity.machine.heap.LiesIn frame scope →
        (activity.machine.localsOf scope).find? name = none) ∧
      activity.machine.lookup frame name =
        match activity.machine.builtin? name with
        | some builtin => .ok (.builtin builtin)
        | none => .error (.undefinedName name)) ∧
    (∃ top, activity.machine.heap.LiesIn frame top ∧ activity.machine.heap.IsTop top ∧
      activity.machine.localsOf top = activity.machine.globals) ∧
    (∀ target name value other,
      (activity.machine.define target name value).lookup frame other ≠
        activity.machine.lookup frame other →
      other = name.text ∧ activity.machine.Governs name.text target frame) ∧
    (∀ target name value, activity.machine.Governs name.text target frame →
      (activity.machine.define target name value).lookup frame name.text = .ok value) ∧
    (∀ target name other,
      (activity.machine.removeLocal target name).lookup frame other ≠
        activity.machine.lookup frame other →
      other = name ∧ activity.machine.Governs name target frame) ∧
    (∀ elsewhere names,
      (∀ scope, activity.machine.heap.LiesIn frame scope →
        ¬activity.machine.heap.SharesScope elsewhere scope) →
      ∀ name, (activity.machine.setLocals elsewhere names).lookup frame name =
        activity.machine.lookup frame name) ∧
    ∀ code function, activity.machine.heap.function? code = some function →
      ∀ name, (activity.machine.calling function).lookup activity.machine.heap.size name =
        activity.machine.lookup function.defining name := by
  have sound := run.sound
  have nesting := sound.nesting
  refine ⟨Machine.lookup_cases nesting isFrame, ?_, ?_, ?_, ?_, ?_, ?_⟩
  · obtain ⟨top, inside, isTop⟩ := Machine.exists_top nesting isFrame
    exact ⟨top, inside, isTop, Machine.localsOf_of_isTop isTop⟩
  · intro target name value other
    refine Machine.governs_of_lookup_ne nesting isFrame fun different unequal => ?_
    rw [Names.find?_insert, if_neg unequal.symm]
  · exact fun target name value => Machine.lookup_define_of_governs nesting isFrame
  · intro target name other
    refine Machine.governs_of_lookup_ne nesting isFrame fun different unequal => ?_
    rw [Names.find?_erase, if_neg unequal.symm]
  · intro elsewhere names apart name
    refine Machine.lookup_setLocals nesting isFrame
      (Machine.resolve_setLocals_of_not_governs nesting ?_)
    rintro ⟨scope, sees, shares⟩
    exact apart scope (ReflTransGen.mono (fun _ _ link => link.1) _ _ sees) shares
  · intro code function found
    exact Machine.lookup_calling nesting
      (sound.linked code _ function.defining (Heap.function?_eq_some_iff.mp found) rfl)

/-- From inside a call the name bound there is found there, and one that is bound at the top level
meanwhile is found at the top level. -/
theorem names_are_resolved_in_returningCall :
    returningCall.Reachable ∧ (returningCall.machine.heap.frame? 2).isSome = true ∧
      returningCall.machine.Governs "limit" 0 2 ∧
      (returningCall.machine.define 0 ⟨"limit", 2⟩ (.bool true)).lookup 2 "limit" =
        .ok (.bool true) ∧
      (returningCall.machine.define 0 ⟨"inner", 1⟩ .nothing).lookup 2 "inner" =
        returningCall.machine.lookup 2 "inner" := by
  have run : returningCall.Reachable := run_returningCall.reachable
  have isFrame : (returningCall.machine.heap.frame? 2).isSome = true := rfl
  obtain ⟨-, -, changed, gives, -, -, -⟩ :=
    names_are_resolved_lexically returningCall run 2 isFrame
  have governs : returningCall.machine.Governs "limit" 0 2 :=
    ⟨0, .single ⟨rfl, rfl⟩, Or.inl rfl⟩
  refine ⟨run, isFrame, governs, gives 0 ⟨"limit", 2⟩ (.bool true) governs, ?_⟩
  by_contra noticed
  -- The call's frame binds the name itself, so the top level is never asked for it.
  obtain ⟨-, scope, sees, shares⟩ := changed 0 ⟨"inner", 1⟩ .nothing "inner" noticed
  rcases ReflTransGen.cases_head sees with rfl | ⟨outer, passed, -⟩
  · rcases shares with same | ⟨-, content, found, isTop⟩
    · cases same
    · cases found
      cases isTop
  · cases passed.2

end Activity

end ScriptCore
