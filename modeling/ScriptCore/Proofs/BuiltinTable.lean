import ScriptCore.Proofs.Evaluation
import ScriptCore.Proofs.Pooling
import ScriptCore.Proofs.ReservedNames
import ScriptCore.Proofs.Scoping
import ScriptCore.Proofs.TextOrder

/-!
# The builtin table

The table of builtins is what was registered, the last native under each name, and it stays so.  The
pool begins with the names of the builtins and nothing else.
-/

namespace ScriptCore

open Relation

namespace Machine

/-- Register natives in order. -/
def registerAll (machine : Machine) (registrations : List (String × Native)) : Machine :=
  registrations.foldl (fun machine registration => machine.register registration.1 registration.2)
    machine

/-- The table has what was registered, each name once and as the pool has it, and the pool has
nothing else. -/
structure Tabulates (machine : Machine) (registrations : List (String × Native)) : Prop where
  natives : ∀ name,
    (machine.builtin? name).map Builtin.native = registrations.reverse.lookup name
  keys : (machine.builtins.map fun builtin => builtin.name.text).Nodup
  pooled : ∀ builtin ∈ machine.builtins,
    machine.interner.find? builtin.name.text = some builtin.name
  listed : ∀ string ∈ machine.interner.pool,
    string.text ∈ machine.builtins.map fun builtin => builtin.name.text

section Registering

variable {machine : Machine} {registrations : List (String × Native)}

theorem text_intern (machine : Machine) (name : String) :
    (machine.interner.intern machine.supply name).1.text = name :=
  Interner.text_of_find? (Interner.find?_intern _ _ _)

theorem builtins_register (machine : Machine) (name : String) (native : Native) :
    ∃ serial, (machine.register name native).builtins =
      (machine.builtins.filter fun builtin => builtin.name.text != name) ++
        [{ name := (machine.interner.intern machine.supply name).1, native, serial }] :=
  ⟨_, rfl⟩

/-- A registration replaces what was registered under its name. -/
theorem native?_register (machine : Machine) (name : String) (native : Native) (other : String) :
    ((machine.register name native).builtin? other).map Builtin.native =
      if other = name then some native else (machine.builtin? other).map Builtin.native := by
  obtain ⟨serial, builtins⟩ := machine.builtins_register name native
  rw [builtin?, builtin?, builtins, List.find?_append, List.find?_filter, List.find?_singleton,
    text_intern]
  by_cases asked : other = name
  · subst asked
    rw [List.find?_eq_none.mpr (by simp), Option.none_or, if_pos (beq_self_eq_true _), if_pos rfl]
    rfl
  · have kept : (fun builtin : Builtin =>
        decide ((builtin.name.text != name) = true ∧ (builtin.name.text == other) = true)) =
          fun builtin => builtin.name.text == other := by
      funext builtin
      by_cases same : builtin.name.text = other
      · simp [same, asked]
      · simp [same]
    rw [kept, if_neg (by simpa using Ne.symm asked), Option.or_none, if_neg asked]

theorem mem_keys_register {name : String} {native : Native} {text : String}
    (known : text ∈ machine.builtins.map (fun builtin => builtin.name.text) ∨ text = name) :
    text ∈ (machine.register name native).builtins.map fun builtin => builtin.name.text := by
  obtain ⟨serial, builtins⟩ := machine.builtins_register name native
  rw [builtins, List.map_append, List.mem_append, List.map_singleton, List.mem_singleton,
    text_intern]
  rcases known with old | new
  · obtain ⟨builtin, member, rfl⟩ := List.mem_map.mp old
    by_cases same : builtin.name.text = name
    · exact .inr same
    · exact .inl (List.mem_map_of_mem (List.mem_filter.mpr ⟨member, bne_iff_ne.mpr same⟩))
  · exact .inr new

theorem Tabulates.register (tabulates : machine.Tabulates registrations) (name : String)
    (native : Native) :
    (machine.register name native).Tabulates (registrations ++ [(name, native)]) where
  natives other := by
    rw [native?_register, tabulates.natives, List.reverse_append, List.reverse_singleton,
      List.singleton_append, List.lookup_cons]
    by_cases same : other = name
    · simp [same]
    · simp [same, beq_false_of_ne same]
  keys := by
    obtain ⟨serial, builtins⟩ := machine.builtins_register name native
    rw [builtins, List.map_append]
    refine List.nodup_append.mpr ⟨?_, List.nodup_singleton _, ?_⟩
    · exact tabulates.keys.sublist (List.filter_sublist.map _)
    · rintro key member other new rfl
      obtain ⟨builtin, kept, rfl⟩ := List.mem_map.mp member
      rw [List.map_singleton, List.mem_singleton, text_intern] at new
      simp [new] at kept
  pooled builtin member := by
    obtain ⟨serial, builtins⟩ := machine.builtins_register name native
    rw [builtins] at member
    rcases List.mem_append.mp member with old | new
    · exact (machine.extends_register name native).find?_eq
        (tabulates.pooled builtin (List.mem_of_mem_filter old))
    · rw [List.mem_singleton.mp new, text_intern]
      exact Interner.find?_intern _ _ _
  listed string member := by
    apply mem_keys_register
    rcases Interner.mem_intern member with old | rfl
    · exact .inl (tabulates.listed string old)
    · exact .inr rfl

theorem Tabulates.registerAll (tabulates : machine.Tabulates registrations)
    (further : List (String × Native)) :
    (machine.registerAll further).Tabulates (registrations ++ further) := by
  induction further generalizing machine registrations with
  | nil => rwa [List.append_nil]
  | cons registration rest ih =>
      rw [List.append_cons]
      exact ih (tabulates.register registration.1 registration.2)

theorem tabulates_build (standard : Bool) (natives : List (String × Native)) :
    (build standard natives).Tabulates
      ((if standard then standardNatives else []) ++ natives) := by
  have new : ({} : Machine).Tabulates [] := ⟨fun _ => rfl, .nil, by simp, by simp⟩
  exact new.registerAll _

section Reading

variable (tabulates : machine.Tabulates registrations)

theorem text_of_builtin? {name : String} {builtin : Builtin}
    (found : machine.builtin? name = some builtin) : builtin.name.text = name := by
  simpa using List.find?_some found

include tabulates

theorem Tabulates.builtin?_eq {builtin : Builtin} (member : builtin ∈ machine.builtins) :
    machine.builtin? builtin.name.text = some builtin := by
  cases found : machine.builtin? builtin.name.text with
  | none => simpa using List.find?_eq_none.mp found builtin member
  | some other =>
      have same := List.inj_on_of_nodup_map tabulates.keys (List.mem_of_find?_eq_some found) member
        (text_of_builtin? found)
      rw [same]

theorem Tabulates.mem_keys_iff {name : String} :
    name ∈ machine.builtins.map (fun builtin => builtin.name.text) ↔
      name ∈ registrations.map Prod.fst := by
  have registered := congrArg Option.isSome (tabulates.natives name)
  rw [Option.isSome_map, Bool.eq_iff_iff, builtin?, List.find?_isSome,
    List.lookup_isSome_iff] at registered
  simp only [beq_iff_eq, List.mem_reverse] at registered
  rw [List.mem_map, List.mem_map]
  exact registered.trans (exists_congr fun registration => and_congr_right fun _ => eq_comm)

theorem Tabulates.mem_texts_iff {text : String} :
    text ∈ machine.interner.pool.map Str.text ↔
      text ∈ machine.builtins.map fun builtin => builtin.name.text := by
  constructor
  · intro member
    obtain ⟨string, held, rfl⟩ := List.mem_map.mp member
    exact tabulates.listed string held
  · intro member
    obtain ⟨builtin, registered, rfl⟩ := List.mem_map.mp member
    exact List.mem_map_of_mem
      (List.mem_of_find?_eq_some (tabulates.pooled builtin registered))

end Reading

end Registering

/-- Without repeats the order of registration does not matter. -/
theorem lookup_reverse {registrations : List (String × Native)}
    (distinct : (registrations.map Prod.fst).Nodup) (name : String) :
    registrations.reverse.lookup name = registrations.lookup name := by
  induction registrations with
  | nil => rfl
  | cons registration rest ih =>
      obtain ⟨new, onward⟩ := List.nodup_cons.mp distinct
      rw [List.reverse_cons, List.lookup_append, ih onward, List.lookup_cons, List.lookup_cons]
      by_cases same : name = registration.1
      · have missing : rest.lookup name = none := by
          refine List.lookup_eq_none_iff.mpr fun other member => ?_
          rw [bne_iff_ne]
          rintro rfl
          exact new (same ▸ List.mem_map_of_mem member)
        rw [missing, beq_iff_eq.mpr same]
        rfl
      · rw [beq_false_of_ne same]
        exact Option.or_none

/-- Something that is done with a machine later on. -/
inductive Later (machine : Machine) : Machine → Prop
  | define (frame : CellId) (name : Str) (value : Value) :
      Later machine (machine.define frame name value)
  | removeLocal (frame : CellId) (name : String) : Later machine (machine.removeLocal frame name)
  /-- The globals are replaced from outside. -/
  | globals (names : Names) : Later machine { machine with globals := names }
  | collect : Later machine machine.collect.2
  | undertaking (deed : Undertaking) : Later machine (deed.act.leaves machine)
  | step (step : Step) : Later machine (machine.answer (Act.takeStep step)).2

theorem evolves_answer (machine : Machine) {action : Act Answer} (evolves : action.Evolves) :
    machine.Evolves (machine.answer action).2 := by
  have during := evolves machine
  rw [Act.leaves] at during
  rw [answer]
  cases ran : action machine with
  | ok answered after =>
      rw [ran] at during
      exact during.trans (.of_heap (.refl _) rfl)
  | error stop after =>
      rw [ran] at during
      exact during.trans (.of_heap (.refl _) rfl)

theorem Later.evolves {before after : Machine} (later : Later before after) :
    before.Evolves after := by
  cases later with
  | define frame name value => exact before.evolves_setLocals frame _
  | removeLocal frame name => exact before.evolves_setLocals frame _
  | globals names => exact .of_heap (.refl _) rfl
  | collect => exact before.evolves_collect
  | undertaking deed => exact Undertaking.evolves_act deed before
  | step step => exact before.evolves_answer (Act.evolves_takeStep step)

/-- Nothing that is done later changes the table. -/
theorem builtins_of_later {before after : Machine} (later : ReflTransGen Later before after) :
    after.builtins = before.builtins := by
  induction later with
  | refl => rfl
  | tail _ step ih => exact step.evolves.builtins.trans ih

theorem later_after (machine : Machine) (steps : List Step) :
    ReflTransGen Later machine (machine.after steps) := by
  induction steps generalizing machine with
  | nil => exact .refl
  | cons step rest ih => exact .head (.step step) (ih _)

/-- The builtin table is what was registered.  A name gives what was registered last under it, else
the standard builtin of that name if there are standard builtins; the names are listed each once in
the order of their bytes, and the pool has just these.  Nothing that is done later changes the
table, and a name that is looked up gives what the table has exactly if no frame outward binds
it. -/
theorem builtin_table_is_what_was_registered (standard : Bool) (natives : List (String × Native))
    {start : Machine} (built : start = build standard natives) :
    (∀ name, (start.builtin? name).map Builtin.native =
      (natives.reverse.lookup name).or
        (if standard then standardNatives.lookup name else none)) ∧
    (∀ name builtin, start.builtin? name = some builtin ↔
      builtin ∈ start.builtins ∧ builtin.name.text = name) ∧
    (∀ name builtin, start.builtin? name = some builtin →
      start.interner.find? name = some builtin.name) ∧
    (start.builtinNames.Pairwise fun left right => Text.bytes left < Text.bytes right) ∧
    (∀ name, name ∈ start.builtinNames ↔
      name ∈ natives.map Prod.fst ∨ standard = true ∧ name ∈ standardNatives.map Prod.fst) ∧
    (start.interner.pool.map Str.text).Perm start.builtinNames ∧
    (∀ later, ReflTransGen Later start later →
      ∀ name, later.builtin? name = start.builtin? name) ∧
    (∀ activity : Activity, activity.Reachable → activity.machine.builtins = start.builtins →
      ∀ frame name, (activity.machine.heap.frame? frame).isSome = true →
      (∃ scope value, activity.machine.Sees name frame scope ∧
        (activity.machine.localsOf scope).find? name = some value ∧
        activity.machine.lookup frame name = .ok value) ∨
      (∀ scope, activity.machine.heap.LiesIn frame scope →
        (activity.machine.localsOf scope).find? name = none) ∧
      activity.machine.lookup frame name =
        match start.builtin? name with
        | some builtin => .ok (.builtin builtin)
        | none => .error (.undefinedName name)) ∧
    ∀ steps, ReflTransGen Later start (start.after steps) ∧
      ∃ activity : Activity, activity.Reachable ∧ activity.machine = start.after steps := by
  have tabulates : start.Tabulates _ := built ▸ tabulates_build standard natives
  have canonical : start.interner.Canonical start.supply := built ▸ canonical_build standard natives
  have listed : start.builtinNames.Perm _ := Text.perm_sort _
  refine ⟨fun name => ?_, fun name builtin => ⟨fun found => ?_, ?_⟩, fun name builtin found => ?_,
    Text.pairwise_lt_sort _ tabulates.keys, fun name => ?_, ?_, ?_, ?_, fun steps => ?_⟩
  · rw [tabulates.natives, List.reverse_append, List.lookup_append]
    cases standard with
    | true => exact congrArg _ (lookup_reverse (by decide) name)
    | false => rfl
  · exact ⟨List.mem_of_find?_eq_some found, text_of_builtin? found⟩
  · rintro ⟨member, rfl⟩
    exact tabulates.builtin?_eq member
  · rw [← text_of_builtin? found]
    exact tabulates.pooled builtin (List.mem_of_find?_eq_some found)
  · rw [listed.mem_iff, tabulates.mem_keys_iff, List.map_append, List.mem_append, or_comm]
    cases standard with
    | true => simp
    | false => simp
  · refine List.Perm.trans ?_ listed.symm
    exact (List.perm_ext_iff_of_nodup canonical.texts tabulates.keys).mpr fun text =>
      tabulates.mem_texts_iff
  · intro later steps name
    rw [builtin?, builtin?, builtins_of_later steps]
  · intro activity run table frame name isFrame
    have cases := lookup_cases run.sound.nesting isFrame name
    rwa [builtin?, table] at cases
  · obtain ⟨activity, run, -, machine⟩ := Activity.exists_reachable_after standard natives steps
    exact ⟨later_after start steps, activity, run, built ▸ machine⟩

/-- The standard builtin of the name gives way, and so does the first native under it. -/
theorem last_len_stays_registered :
    ∃ start, start = build true [("len", .arguments), ("probe", .apply), ("len", .peek)] ∧
      (start.builtin? "len").map Builtin.native = some .peek ∧
      (start.builtin? "repr").map Builtin.native = some (.standard .repr) ∧
      (start.after [.collect, .globals]).builtin? "len" = start.builtin? "len" := by
  obtain ⟨natives, -, -, -, -, -, stays, -, sessions⟩ :=
    builtin_table_is_what_was_registered true
      [("len", .arguments), ("probe", .apply), ("len", .peek)] rfl
  exact ⟨_, rfl, (natives "len").trans (by decide), (natives "repr").trans (by decide),
    stays _ (sessions [.collect, .globals]).1 "len"⟩

end Machine

end ScriptCore
