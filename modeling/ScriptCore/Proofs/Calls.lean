import ScriptCore.Proofs.Conduct

/-!
# Calls as steps

Whatever an evaluator does, a call of a function is the steps `call` and `finish` with steps
between them: the parameters are bound by renaming the new frame, and the body is run by the
evaluator.
-/

namespace ScriptCore

open Relation

namespace Completion

/-- The value a block came to. -/
def value : Completion → Value
  | reached last => last
  | given result => result

end Completion

/-- What a block came to can be passed on. -/
def Activity.Completes (after : Activity) (completion : Completion) : Prop :=
  after.Owns completion.value

/-- In a frame that stays in place, an evaluator takes steps and gives what can be passed on.  It
gets at no other frame that is secluded. -/
structure Evaluator.Behaves (evaluator : Evaluator) : Prop where
  expr : ∀ expression {frame before}, before.Proper → before.Stands frame →
    Act.Conducts (frame = ·) false (evaluator.expr expression frame) Activity.Owns before
  block : ∀ block {frame before}, before.Proper → before.Stands frame →
    Act.Conducts (frame = ·) false (evaluator.block block frame) Activity.Completes before

namespace Machine

/-- The machine in which a call of a function binds its parameters and runs its body. -/
def calling (machine : Machine) (function : FunctionCell) : Machine :=
  { machine with
    heap := (machine.heap.alloc (.frame { scope := .nested function.defining [] })).2
    held := .cell machine.heap.size :: machine.held }

/-- A frame that is secluded from a call is none of those the call runs in. -/
theorem Respects.of_call {near : CellId → Prop} {machine last after : Machine} {code : CellId}
    {function : FunctionCell} (found : machine.heap.function? code = some function)
    (inner : (machine.calling function).Respects
      (fun id => id = machine.heap.size ∨ id = function.defining) last)
    (ended : last.Respects (fun id => .cell id ∉ machine.held) after) :
    machine.Respects near after := by
  have made : machine.heap.get? code = some (.function function) :=
    Heap.function?_eq_some_iff.mp found
  have begun : machine.Respects near (machine.calling function) := by
    refine Respects.with_held (.alloc fun target link => ?_) (List.subset_cons_self _ _)
    exact Or.inr ⟨code, _, made, link⟩
  intro hidden apart secludes
  obtain ⟨during, same⟩ := begun hidden apart secludes
  have other : ¬(hidden = machine.heap.size ∨ hidden = function.defining) := by
    rintro (rfl | rfl)
    · exact Nat.lt_irrefl _ (Activity.Grows.lt_size_of_frame? secludes.isFrame)
    · exact secludes.unlinked code _ made rfl
  obtain ⟨still, unchanged⟩ := inner hidden other during
  obtain ⟨inTheEnd, kept⟩ := ended hidden (not_not.mpr secludes.held) still
  exact ⟨inTheEnd, kept.trans (unchanged.trans same)⟩

end Machine

namespace Act

section Binding

variable {evaluator : Evaluator} {near : CellId → Prop} {quiet : Bool} {before : Activity}
  {frame : CellId}

theorem conducts_define (proper : before.Proper) (known : before.Knows frame)
    (inside : near frame) {name : Str} {value : Value} (owns : before.Owns value) :
    Conducts near quiet (define frame name value) (fun _ _ => True) before := by
  refine ⟨_, Activity.becomes_rename proper known inside fun stored member => ?_, trivial⟩
  rcases Names.mem_values_of_insert member with old | rfl
  · exact Or.inl old
  · exact Or.inr owns

theorem conducts_bindArguments (proper : before.Proper) (stands : before.Stands frame)
    (inside : near frame) {pairs : List (Str × Value)}
    (owned : ∀ pair ∈ pairs, before.Owns pair.2) :
    Conducts near true (bindArguments frame pairs) (fun _ _ => True) before := by
  induction pairs generalizing before with
  | nil => exact .pure proper trivial
  | cons pair rest ih =>
      obtain ⟨param, argument⟩ := pair
      apply (conducts_define proper stands.knows inside (owned _ List.mem_cons_self)).bind proper
      intro machine after _ becomes properAfter _
      apply ih properAfter (becomes.stands proper stands)
      intro pair member
      exact becomes.keeps rfl _ (owned pair (List.mem_cons_of_mem _ member))

theorem conducts_bindDefaults (behaves : evaluator.Behaves) (proper : before.Proper)
    (stands : before.Stands frame) (inside : near frame) {defining : CellId}
    (standsAround : before.Stands defining) (insideAround : near defining)
    (pairs : List (Str × Expr)) :
    Conducts near false (bindDefaults evaluator defining frame pairs) (fun _ _ => True) before := by
  induction pairs generalizing before with
  | nil => exact .pure proper trivial
  | cons pair rest ih =>
      obtain ⟨param, default⟩ := pair
      have evaluated := (behaves.expr default proper standsAround).widen
        fun id (same : defining = id) => same ▸ insideAround
      apply evaluated.bind proper
      intro machine middle value becomes properMiddle owns
      have standsMiddle := becomes.stands proper stands
      apply (conducts_define properMiddle standsMiddle.knows inside owns).bind properMiddle
      intro machine after _ defined properAfter _
      apply ih properAfter (defined.stands properMiddle standsMiddle)
      exact defined.stands properMiddle (becomes.stands proper standsAround)

theorem conducts_bindParams (behaves : evaluator.Behaves) (proper : before.Proper)
    (stands : before.Stands frame) (inside : near frame) {function : FunctionCell}
    (standsAround : before.Stands function.defining) (insideAround : near function.defining)
    {arguments : List Value}
    (owned : ∀ argument ∈ arguments, before.Owns argument) :
    Conducts near false (bindParams evaluator function frame arguments) (fun _ _ => True)
      before := by
  unfold bindParams
  cases function.checkArity arguments.length with
  | error error => exact .throw proper
  | ok _ =>
      have bound : Conducts near true (bindArguments frame (function.params.zip arguments))
          (fun _ _ => True) before :=
        conducts_bindArguments proper stands inside fun pair member =>
          owned pair.2 (List.of_mem_zip member).2
      apply bound.weaken.bind proper
      intro machine after _ becomes properAfter _
      exact conducts_bindDefaults behaves properAfter (becomes.stands proper stands) inside
        (becomes.stands proper standsAround) insideAround _

theorem conducts_body (behaves : evaluator.Behaves) (proper : before.Proper)
    (stands : before.Stands frame) (block : Block) :
    Conducts (frame = ·) false (evaluator.body block frame) Activity.Owns before := by
  apply (behaves.block block proper stands).bind proper
  intro machine after completion _ properAfter owns
  cases completion with
  | given result => exact .pure properAfter owns
  | reached last => exact .pure properAfter (.of_cell?_eq_none rfl)

/-- What happens in the frame of a call. -/
theorem conducts_inFrame (behaves : evaluator.Behaves) (proper : before.Proper)
    (stands : before.Stands frame) (inside : near frame) {function : FunctionCell}
    (standsAround : before.Stands function.defining) (insideAround : near function.defining)
    {arguments : List Value}
    (owned : ∀ argument ∈ arguments, before.Owns argument) :
    Conducts near false (do
        bindParams evaluator function frame arguments
        evaluator.body function.body frame)
      Activity.Owns before := by
  apply (conducts_bindParams behaves proper stands inside standsAround insideAround owned).bind
    proper
  intro machine after _ becomes properAfter _
  exact (conducts_body behaves properAfter (becomes.stands proper stands) function.body).widen
    fun id (same : frame = id) => same ▸ inside

end Binding

/-- A call of a function, with the machine in which its parameters are bound and its body runs,
and the end of the call. -/
theorem callFunction_of_function? {evaluator : Evaluator} {code : CellId} {arguments : List Value}
    {machine : Machine} {function : FunctionCell}
    (found : machine.heap.function? code = some function) :
    callFunction evaluator code arguments machine =
      match (do
        bindParams evaluator function machine.heap.size arguments
        evaluator.body function.body machine.heap.size : Act Value) (machine.calling function) with
      | .ok value after =>
          .ok value
            { ({ after with held := .value value :: after.held } : Machine).release
                machine.heap.size with
              held := machine.held }
      | .error stop after =>
          .error stop { after.release machine.heap.size with held := machine.held } := by
  have start : callFunction evaluator code arguments machine =
      holding (.cell machine.heap.size) (do
        let result ← outcome do
          bindParams evaluator function machine.heap.size arguments
          evaluator.body function.body machine.heap.size
        releaseFrame machine.heap.size result
        resume result)
        { machine with
          heap := (machine.heap.alloc (.frame { scope := .nested function.defining [] })).2 } := by
    rw [callFunction, heap_bind, found]
    exact alloc_bind _ _ machine
  rw [start, holding]
  generalize ran : (do
      bindParams evaluator function machine.heap.size arguments
      evaluator.body function.body machine.heap.size : Act Value) (machine.calling function) =
    result
  simp only [bind, EStateM.bind, outcome, Machine.calling] at ran ⊢
  rw [ran]
  cases result with
  | ok value after => rfl
  | error stop after => rfl

end Act

namespace Activity

variable {activity : Activity}

/-- The beginning of a call: the new frame is held, and stands inside the one its function was
made in. -/
theorem exists_call (proper : activity.Proper) {code : CellId} {function : FunctionCell}
    (found : activity.machine.heap.function? code = some function)
    (known : activity.Knows code) :
    ∃ begun, ReflTransGen Step activity begun ∧ begun.Proper ∧
      begun.machine = activity.machine.calling function ∧
      begun.running = activity.machine.heap.size :: activity.running ∧
      begun.Stands activity.machine.heap.size ∧ begun.Stands function.defining ∧
      activity.machine.heap.Lasts begun.machine.heap ∧
      ∀ value, activity.Owns value → begun.Owns value := by
  let begun : Activity :=
    { activity.grasp with
      machine := activity.machine.calling function
      running := activity.machine.heap.size :: activity.running }
  have soundGrasp := (step_grasp proper.sound).sound proper.sound
  have step : Step activity.grasp begun :=
    .call activity.grasp code function found (known.grasp proper.sound)
  have content : ∀ id, begun.machine.heap.get? id =
      if id = activity.machine.heap.size then
        some (.frame { scope := .nested function.defining [] })
      else activity.machine.heap.get? id := by
    intro id
    exact Heap.get?_alloc _ _ _
  have sound := step.sound soundGrasp
  have lasts : activity.machine.heap.Lasts begun.machine.heap := .alloc _ _
  have typed : begun.machine.Typed := by
    refine typed_of_lasts sound lasts ?_ proper.typed.globals ?_ proper.typed.handles
    · intro id cell foundCell
      rw [content] at foundCell
      split at foundCell
      · cases foundCell
        exact fun value member => absurd member List.not_mem_nil
      · exact proper.typed.cells id cell foundCell
    · intro hold listed
      rcases List.mem_cons.mp listed with rfl | old
      · exact fun value member => absurd member List.not_mem_nil
      · exact proper.typed.held hold old
  have held : .cell activity.machine.heap.size ∈ begun.machine.held := List.mem_cons_self
  have isFrame : (begun.machine.heap.frame? activity.machine.heap.size).isSome = true := by
    simp [Heap.frame?, content]
  have link : begun.machine.heap.parent? activity.machine.heap.size = some function.defining := by
    simp [Heap.parent?, Heap.frame?, content, Frame.parent?]
  refine ⟨begun, .tail (.single (step_grasp proper.sound)) step, ⟨sound, typed⟩, rfl, rfl,
    ⟨_, held, isFrame, .refl⟩, ⟨_, held, isFrame, .single link⟩, lasts,
    fun value owns => ?_⟩
  refine owns.of_lasts sound lasts fun id reference => ?_
  apply Heap.ReachedFrom.of_mem
  apply List.mem_append_right
  exact (mem_hand_grasp proper.sound).mpr (owns.known id reference)

section Return

variable {frame : CellId} {rest : List CellId} {held : List Hold}

theorem proper_afterCall (proper : activity.Proper) (running : activity.running = frame :: rest)
    (handle : activity.machine.held.Perm (.cell frame :: held)) :
    (activity.afterCall frame rest held).Proper := by
  have tidies := tidies_afterCall proper.sound running handle
  refine ⟨tidies.sound proper.sound, typed_of_tidies proper tidies ?_ ?_ ?_⟩
  · exact fun hold listed => handle.mem_iff.mpr (List.mem_cons_of_mem _ listed)
  · exact Machine.release_globals _ _
  · rw [afterCall, Machine.release_eq]

theorem respects_afterCall (sound : activity.Sound) (running : activity.running = frame :: rest)
    (handle : activity.machine.held.Perm (.cell frame :: held)) :
    activity.machine.Respects (fun id => .cell id ∉ held)
      (activity.afterCall frame rest held).machine := by
  intro hidden kept secludes
  refine secludes.of_spares (tidies_afterCall sound running handle).spares (not_not.mp kept) ?_
  rw [afterCall, Machine.release_eq]

/-- The end of a call with a failure. -/
theorem exists_failure (proper : activity.Proper) (running : activity.running = frame :: rest)
    (handle : activity.machine.held = .cell frame :: held) :
    ∃ after, ReflTransGen Step activity after ∧ after.machine.Typed ∧
      activity.machine.heap.Lasts after.machine.heap ∧
      activity.machine.Respects (fun id => .cell id ∉ held) after.machine ∧
      after.running = rest ∧
      after.machine = { activity.machine.release frame with held } := by
  have perm : activity.machine.held.Perm (.cell frame :: held) := handle ▸ .refl _
  exact ⟨_, .single (.finish activity frame rest held running perm),
    (proper_afterCall proper running perm).typed,
    (tidies_afterCall proper.sound running perm).spares.lasts,
    respects_afterCall proper.sound running perm, rfl, rfl⟩

/-- The end of a call with a value, which is held while the frame is released. -/
theorem exists_return (proper : activity.Proper) (running : activity.running = frame :: rest)
    (handle : activity.machine.held = .cell frame :: held) {value : Value}
    (owns : activity.Owns value) :
    ∃ after, ReflTransGen Step activity after ∧ after.machine.Typed ∧
      activity.machine.heap.Lasts after.machine.heap ∧
      activity.machine.Respects (fun id => .cell id ∉ held) after.machine ∧
      after.running = rest ∧
      after.machine =
        { ({ activity.machine with held := .value value :: activity.machine.held } :
            Machine).release frame with held } ∧
      after.Owns value := by
  obtain ⟨holding, hold, properHolding, machineHolding, runningHolding, -⟩ :=
    @exists_holding activity (.value value) proper
      (fun other member => List.mem_singleton.mp member ▸ owns.fits) owns.known
  have perm : holding.machine.held.Perm (.cell frame :: .value value :: held) := by
    rw [machineHolding, handle]
    exact .swap ..
  have runningFirst := runningHolding.trans running
  have finish := Step.finish holding frame rest _ runningFirst perm
  have properFinished := proper_afterCall properHolding runningFirst perm
  have heldRunning : ∀ other ∈ rest, .cell other ∈ held := by
    intro other listed
    rcases List.mem_cons.mp (properFinished.sound.held other listed) with impossible | kept
    · cases impossible
    · exact kept
  obtain ⟨after, letGo, machineAfter, runningAfter, typed, kept⟩ :=
    exists_letGo properFinished rfl heldRunning
  have lasts := (tidies_afterCall properHolding.sound runningFirst perm).spares.lasts
  rw [machineHolding] at lasts
  refine ⟨after, (hold.tail finish).trans letGo, typed, ?_, ?_, runningAfter, ?_, kept value ?_⟩
  · rw [machineAfter]
    exact lasts
  · rw [machineAfter]
    intro hidden isHeld secludes
    have during : holding.machine.Secludes hidden := by
      rw [machineHolding]
      exact ⟨secludes.isFrame, List.mem_cons_of_mem _ secludes.held, secludes.unlinked,
        secludes.unkept⟩
    have released := respects_afterCall properHolding.sound runningFirst perm hidden
      (fun gone => isHeld fun listed => gone (List.mem_cons_of_mem _ listed)) during
    obtain ⟨still, same⟩ := released
    refine ⟨⟨still.isFrame, not_not.mp isHeld, still.unlinked, still.unkept⟩, same.trans ?_⟩
    rw [machineHolding]
  · rw [machineAfter, ← machineHolding]
    rfl
  · exact properFinished.owns_held List.mem_cons_self (List.mem_singleton_self value)

end Return

end Activity

namespace Act

/-- A call of a known function with values that can be passed on is a number of steps, whatever
the evaluator does in between. -/
theorem conducts_callFunction {evaluator : Evaluator} (behaves : evaluator.Behaves)
    {near : CellId → Prop} {before : Activity} (proper : before.Proper) {code : CellId}
    (known : before.Knows code) {arguments : List Value}
    (owned : ∀ argument ∈ arguments, before.Owns argument) :
    Conducts near false (callFunction evaluator code arguments) Activity.Owns before := by
  cases found : before.machine.heap.function? code with
  | none =>
      have stopped : callFunction evaluator code arguments before.machine =
          .error (.malformed "no function in this cell") before.machine := by
        rw [callFunction, heap_bind, found]
        rfl
      rw [Conducts, stopped]
      exact ⟨before, .refl proper⟩
  | some function =>
      obtain ⟨begun, begin, properBegun, machine, running, stands, standsAround, lasts,
        ownedBegun⟩ :=
        Activity.exists_call proper found known
      let inner (id : CellId) : Prop := id = before.machine.heap.size ∨ id = function.defining
      have ran := conducts_inFrame behaves properBegun stands (show inner _ from Or.inl rfl)
        standsAround (Or.inr rfl) fun argument listed =>
          ownedBegun argument (owned argument listed)
      rw [Conducts, machine] at ran
      rw [Conducts, callFunction_of_function? found]
      generalize (do
        bindParams evaluator function before.machine.heap.size arguments
        evaluator.body function.body before.machine.heap.size : Act Value)
          (before.machine.calling function) = result at ran ⊢
      -- However the call ends, its frame is the first of those in progress and its handle the
      -- last that is held.
      have ending : ∀ {near last finished}, begun.Becomes near false last finished →
          finished.running = before.machine.heap.size :: before.running ∧
          finished.machine.held = .cell before.machine.heap.size :: before.machine.held := by
        intro near last finished becomes
        refine ⟨becomes.running.trans running, ?_⟩
        rw [becomes.held, machine, Machine.calling]
      cases result with
      | error stop last =>
          obtain ⟨finished, becomes⟩ := ran
          obtain ⟨runningFinished, handle⟩ := ending becomes
          obtain ⟨after, steps, typed, lastsAfter, spared, rest, machineAfter⟩ :=
            Activity.exists_failure (becomes.proper properBegun) runningFinished handle
          rw [becomes.machine_eq] at machineAfter
          exact ⟨after, begin.trans (becomes.steps.trans steps), machineAfter, rest,
            by rw [machineAfter], typed, lasts.trans (becomes.lasts.trans lastsAfter),
            .of_call found (machine ▸ becomes.respects) spared,
            fun still => absurd still Bool.false_ne_true⟩
      | ok value last =>
          obtain ⟨finished, becomes, owns⟩ := ran
          obtain ⟨runningFinished, handle⟩ := ending becomes
          obtain ⟨after, steps, typed, lastsAfter, spared, rest, machineAfter, ownsAfter⟩ :=
            Activity.exists_return (becomes.proper properBegun) runningFinished handle owns
          rw [becomes.machine_eq] at machineAfter
          exact ⟨after, ⟨begin.trans (becomes.steps.trans steps), machineAfter, rest,
            by rw [machineAfter], typed, lasts.trans (becomes.lasts.trans lastsAfter),
            .of_call found (machine ▸ becomes.respects) spared,
            fun still => absurd still Bool.false_ne_true⟩, ownsAfter⟩

end Act

end ScriptCore
