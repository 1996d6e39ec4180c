import ScriptCore.Proofs.Operations
import ScriptCore.Session

/-!
# Every session is a run

The evaluator that programs run with behaves, at every depth it may nest to.  So whatever the
steps of a session do, the machine they leave is the machine of a state that a run reaches, and
what holds of all runs holds of it.
-/

namespace ScriptCore

open Relation

namespace Act

section Expressions

variable {inner : Evaluator} {before : Activity} {frame : CellId}

theorem conducts_evalOperands (behaves : inner.Behaves) (proper : before.Proper)
    (stands : before.Stands frame) (operands : List Expr) :
    Conducts (frame = ·) false (evalOperands (inner.expr · frame) operands)
      (fun after values => ∀ value ∈ values, after.Owns value) before := by
  induction operands generalizing before with
  | nil => exact .pure proper fun value member => absurd member List.not_mem_nil
  | cons operand rest ih =>
      apply (behaves.expr operand proper stands).bind proper
      intro machine middle value becomes properMiddle owns
      have standsMiddle := becomes.stands proper stands
      refine (Conducts.holdingValue properMiddle
        (fun after values => ∀ value ∈ values, after.Owns value) owns
        (fun during properDuring _ standsDuring _ =>
          ih properDuring (standsDuring _ standsMiddle))
        fun kept owned value member => kept value (owned value member)).bind properMiddle ?_
      rintro machine after values - properAfter ⟨ownsFirst, owned⟩
      refine .pure properAfter fun other member => ?_
      rcases List.mem_cons.mp member with rfl | later
      · exact ownsFirst
      · exact owned other later

theorem conducts_evalAttributes (behaves : inner.Behaves) (proper : before.Proper)
    (stands : before.Stands frame) {made : Names}
    (owned : ∀ value ∈ Names.values made, before.Owns value) (attributes : List (String × Expr)) :
    Conducts (frame = ·) false (evalAttributes (inner.expr · frame) made attributes)
      (fun after names => ∀ value ∈ Names.values names, after.Owns value) before := by
  induction attributes generalizing before made with
  | nil => exact .pure proper owned
  | cons binding rest ih =>
      obtain ⟨name, expression⟩ := binding
      have known : ∀ id ∈ (Hold.names made).references, before.Knows id := by
        intro id reference
        obtain ⟨value, member, inside⟩ := Names.mem_references_iff.mp reference
        exact (owned value member).known id inside
      refine (Conducts.holding proper (.names made) Activity.Owns
        (fun value member => (owned value member).fits) known
        (fun during properDuring _ standsDuring _ =>
          behaves.expr expression properDuring (standsDuring _ stands))
        fun kept owns => kept _ owns).bind proper ?_
      rintro machine middle value becomes properMiddle ⟨keptMade, owns⟩
      apply (conducts_intern properMiddle name).keeping.bind properMiddle
      rintro machine after string interned properAfter ⟨-, kept⟩
      apply ih properAfter (interned.stands properMiddle (becomes.stands proper stands))
      intro stored member
      apply kept
      rcases Names.mem_values_of_insert member with old | rfl
      · refine keptMade stored (owned stored old) fun id reference => ?_
        exact Names.mem_references_iff.mpr ⟨stored, old, reference⟩
      · exact owns

theorem conducts_evalSequence (behaves : inner.Behaves) (proper : before.Proper)
    (stands : before.Stands frame) {last : Value} (owns : before.Owns last) (parts : List Expr) :
    Conducts (frame = ·) false (evalSequence (inner.expr · frame) last parts) Activity.Owns
      before := by
  induction parts generalizing before last with
  | nil => exact .pure proper owns
  | cons part rest ih =>
      apply (behaves.expr part proper stands).bind proper
      intro machine after value becomes properAfter ownsValue
      exact ih properAfter (becomes.stands proper stands) ownsValue

theorem conducts_superclassOf {near : CellId → Prop} (proper : before.Proper) (value : Value) :
    Conducts near false (superclassOf value)
      (fun _ parent => ∀ cls ∈ parent, Value.classObject cls = value) before := by
  cases value with
  | classObject cell =>
      refine .pure proper fun cls link => ?_
      rw [Option.some.inj link]
  | nothing => exact .pure proper fun cls link => by cases link
  | _ => exact .malformed proper

theorem conducts_evalCall (behaves : inner.Behaves) (proper : before.Proper)
    (stands : before.Stands frame) (callee : Expr) (arguments : List Expr) :
    Conducts (frame = ·) false (evalExpr inner frame (.call callee arguments)) Activity.Owns
      before := by
  apply (behaves.expr callee proper stands).bind proper
  intro machine middle value becomes properMiddle owns
  have standsMiddle := becomes.stands proper stands
  refine (Conducts.holdingValue properMiddle Activity.Owns owns
    (fun during properDuring machineDuring standsDuring _ => ?_)
    fun kept owns => kept _ owns).imp fun _ given => given.2
  have standsDuring := standsDuring _ standsMiddle
  apply (conducts_evalOperands behaves properDuring standsDuring arguments).bind properDuring
  intro machine after values evaluated properAfter owned
  -- The callee is held while the arguments are evaluated.
  have heldCallee : .value value ∈ after.machine.held := by
    rw [evaluated.held, machineDuring]
    exact List.mem_cons_self
  exact conducts_call behaves properAfter (evaluated.stands properDuring standsDuring)
    (properAfter.owns_held heldCallee (List.mem_singleton_self value)) owned

theorem conducts_evalFunction (proper : before.Proper) (stands : before.Stands frame)
    (name : String) (params : List String) (defaults : List Expr) (body : Block) :
    Conducts (frame = ·) false (evalExpr inner frame (.function name params defaults body))
      Activity.Owns before := by
  apply (conducts_intern proper name).bind proper
  intro machine middle string becomes properMiddle _
  apply (conducts_internAll properMiddle params).bind properMiddle
  intro machine after strings interned properAfter _
  exact conducts_newFunction properAfter
    (interned.stands properMiddle (becomes.stands proper stands)) rfl _ _ _ _

theorem conducts_evalClass (behaves : inner.Behaves) (proper : before.Proper)
    (stands : before.Stands frame) (name : String) (superclass : Expr)
    (attributes : List (String × Expr)) :
    Conducts (frame = ·) false (evalExpr inner frame (.makeClass name superclass attributes))
      Activity.Owns before := by
  apply (behaves.expr superclass proper stands).bind proper
  intro machine middle value becomes properMiddle owns
  have standsMiddle := becomes.stands proper stands
  refine (Conducts.holdingValue properMiddle Activity.Owns owns
    (fun during properDuring machineDuring standsDuring ownedDuring => ?_)
    fun kept owns => kept _ owns).imp fun _ given => given.2
  apply (conducts_superclassOf properDuring value).bind properDuring
  intro machine named parent found properNamed sameParent
  apply (conducts_intern properNamed name).bind properNamed
  intro machine interned string pooled properInterned _
  have standsInterned := pooled.stands properNamed
    (found.stands properDuring (standsDuring _ standsMiddle))
  apply (conducts_evalAttributes behaves properInterned standsInterned
    (fun value member => absurd member List.not_mem_nil) attributes).bind properInterned
  intro machine after names evaluated properAfter owned
  -- The superclass is held while the attributes are evaluated.
  have heldSuperclass : .value value ∈ after.machine.held := by
    rw [evaluated.held, pooled.held, found.held, machineDuring]
    exact List.mem_cons_self
  refine conducts_newClass properAfter (fun cls link => ?_) owned
  rw [sameParent cls link]
  exact properAfter.owns_held heldSuperclass (List.mem_singleton_self value)

theorem conducts_evalCapture (behaves : inner.Behaves) (proper : before.Proper)
    (stands : before.Stands frame) (body : Expr) :
    Conducts (frame = ·) false (evalExpr inner frame (.capture body)) Activity.Owns before := by
  apply (behaves.expr body proper stands).handling proper
  intro machine middle error becomes properMiddle
  apply (conducts_newString properMiddle _).keeping.bind properMiddle
  rintro machine further kind - properFurther ⟨ownsKind, -⟩
  apply (conducts_newString properFurther _).keeping.bind properFurther
  rintro machine after message - properAfter ⟨ownsMessage, kept⟩
  refine conducts_newTuple properAfter fun item member => ?_
  simp only [List.mem_cons, List.not_mem_nil, or_false] at member
  rcases member with rfl | rfl
  · exact kept _ ownsKind
  · exact ownsMessage

theorem conducts_evalExpr (behaves : inner.Behaves) (proper : before.Proper)
    (stands : before.Stands frame) (expression : Expr) :
    Conducts (frame = ·) false (evalExpr inner frame expression) Activity.Owns before := by
  cases expression with
  | operate operation operands =>
      apply (conducts_evalOperands behaves proper stands operands).bind proper
      intro machine after values becomes properAfter owned
      exact conducts_perform properAfter (becomes.stands proper stands) rfl owned
  | call callee arguments => exact conducts_evalCall behaves proper stands callee arguments
  | function name params defaults body =>
      exact conducts_evalFunction proper stands name params defaults body
  | makeClass name superclass attributes =>
      exact conducts_evalClass behaves proper stands name superclass attributes
  | choose condition onTrue onFalse =>
      apply (behaves.expr condition proper stands).bind proper
      intro machine after value becomes properAfter _
      have standsAfter := becomes.stands proper stands
      apply Conducts.heap
      split
      · exact behaves.expr onTrue properAfter standsAfter
      · exact behaves.expr onFalse properAfter standsAfter
  | sequence parts =>
      exact conducts_evalSequence behaves proper stands (.of_cell?_eq_none rfl) parts
  | attempt body kind handler =>
      apply (behaves.expr body proper stands).handling proper
      intro machine after error becomes properAfter
      split
      · exact behaves.expr handler properAfter (becomes.stands proper stands)
      · exact .fail properAfter
  | capture body => exact conducts_evalCapture behaves proper stands body

end Expressions

section Statements

variable {inner : Evaluator} {before : Activity} {frame : CellId}

theorem conducts_runTimes {run : Act Completion} (proper : before.Proper)
    (stands : before.Stands frame)
    (runs : ∀ {during : Activity}, during.Proper → during.Stands frame →
      Conducts (frame = ·) false run Activity.Completes during) (times : Nat) :
    Conducts (frame = ·) false (runTimes run times) Activity.Completes before := by
  induction times generalizing before with
  | zero => exact .pure proper (.of_cell?_eq_none rfl)
  | succ times ih =>
      apply (runs proper stands).bind proper
      intro machine after completion becomes properAfter owns
      cases completion with
      | given result => exact .pure properAfter owns
      | reached last => exact ih properAfter (becomes.stands proper stands)

/-- The container of a pass stays held, and the rest of the pass while the block runs. -/
theorem conducts_runEach {run : Act Completion} (proper : before.Proper)
    (stands : before.Stands frame)
    (runs : ∀ {during : Activity}, during.Proper → during.Stands frame →
      Conducts (frame = ·) false run Activity.Completes during)
    {container : Value} (held : .value container ∈ before.machine.held) {pass : Pass}
    (owned : pass.Owned container before) (name : String) (limit : Nat) :
    Conducts (frame = ·) false (runEach frame name run limit pass) Activity.Completes before := by
  induction limit generalizing before pass with
  | zero => exact .pure proper (.of_cell?_eq_none rfl)
  | succ limit ih =>
      apply (conducts_next proper owned).weaken.bind proper
      intro machine next result stepped properNext taken
      cases result with
      | none => exact .pure properNext (.of_cell?_eq_none rfl)
      | some pair =>
          obtain ⟨item, rest⟩ := pair
          obtain ⟨ownsItem, ownedRest⟩ := taken item rest rfl
          have standsNext := stepped.stands proper stands
          apply (conducts_intern properNext name).keeping.bind properNext
          rintro machine pooled string interned properPooled ⟨-, kept⟩
          have standsPooled := interned.stands properNext standsNext
          apply (conducts_define properPooled standsPooled.knows rfl
            (kept _ ownsItem)).keeping.bind properPooled
          rintro machine bound _ defined properBound ⟨-, keptBound⟩
          have standsBound := defined.stands properPooled standsPooled
          have ownedBound : rest.Owned container bound :=
            ⟨keptBound _ (kept _ ownedRest.owns), ownedRest.source, fun value member =>
              keptBound _ (kept _ (ownedRest.entries value member))⟩
          refine (Conducts.holding properBound rest.hold Activity.Completes
            (fun value member => (ownedBound.entries value member).fits)
            (fun id reference => ownedBound.known reference)
            (fun during properDuring _ standsDuring _ =>
              runs properDuring (standsDuring _ standsBound))
            fun kept owns => kept _ owns).bind properBound ?_
          rintro machine after completion ran properAfter ⟨keptRest, owns⟩
          cases completion with
          | given result => exact .pure properAfter owns
          | reached last =>
              have heldAfter : .value container ∈ after.machine.held := by
                rw [ran.held, defined.held, interned.held, stepped.held]
                exact held
              refine ih properAfter (ran.stands properBound standsBound) heldAfter
                ⟨properAfter.owns_held heldAfter (List.mem_singleton_self container),
                  ownedRest.source, fun value member => ?_⟩
              exact keptRest value (ownedBound.entries value member) fun id reference =>
                Hold.mem_references_of_mem_values member reference

theorem conducts_runStatement (behaves : inner.Behaves) (proper : before.Proper)
    (stands : before.Stands frame) (statement : Statement) :
    Conducts (frame = ·) false (runStatement inner frame statement) Activity.Completes before := by
  cases statement with
  | expr expression =>
      apply (behaves.expr expression proper stands).bind proper
      intro machine after value _ properAfter owns
      exact .pure properAfter owns
  | give result =>
      apply (behaves.expr result proper stands).bind proper
      intro machine after value _ properAfter owns
      exact .pure properAfter owns
  | choose condition onTrue onFalse =>
      apply (behaves.expr condition proper stands).bind proper
      intro machine middle value becomes properMiddle _
      apply Conducts.heap
      apply (behaves.block _ properMiddle (becomes.stands proper stands)).bind properMiddle
      intro machine after completion _ properAfter owns
      cases completion with
      | given result => exact .pure properAfter owns
      | reached last => exact .pure properAfter (.of_cell?_eq_none rfl)
  | forEach name container body =>
      apply (behaves.expr container proper stands).bind proper
      intro machine middle value becomes properMiddle owns
      apply Conducts.heap
      apply Conducts.ofExcept_bind properMiddle
      intro iterable viewed
      have ownedPass := owned_pass properMiddle owns viewed
      refine (Conducts.holdingValue properMiddle Activity.Completes owns
        (fun during properDuring machineDuring standsDuring ownedDuring => ?_)
        fun kept owns => kept _ owns).imp fun _ given => given.2
      have held : .value value ∈ during.machine.held := by
        rw [machineDuring]
        exact List.mem_cons_self
      have ownedPassDuring : (iterable.pass middle.machine.heap).Owned value during :=
        ⟨ownedDuring _ owns, ownedPass.source, fun value member =>
          ownedDuring _ (ownedPass.entries value member)⟩
      exact conducts_runEach properDuring (standsDuring _ (becomes.stands proper stands))
        (behaves.block body) held ownedPassDuring name _
  | loop times body => exact conducts_runTimes proper stands (behaves.block body) times

theorem conducts_runStatements {run : Statement → Act Completion} (proper : before.Proper)
    (stands : before.Stands frame)
    (runs : ∀ statement {during : Activity}, during.Proper → during.Stands frame →
      Conducts (frame = ·) false (run statement) Activity.Completes during)
    {last : Value} (owns : before.Owns last) (statements : List Statement) :
    Conducts (frame = ·) false (runStatements run last statements) Activity.Completes before := by
  induction statements generalizing before last with
  | nil => exact .pure proper owns
  | cons statement rest ih =>
      apply (runs statement proper stands).bind proper
      intro machine after completion becomes properAfter ownsValue
      cases completion with
      | given result => exact .pure properAfter ownsValue
      | reached value => exact ih properAfter (becomes.stands proper stands) ownsValue

end Statements

end Act

namespace Evaluator

/-- Evaluation behaves, however deep it may nest. -/
theorem behaves_ofFuel (fuel : Nat) : (ofFuel fuel).Behaves := by
  induction fuel with
  | zero => exact ⟨fun _ _ _ proper _ => .throw proper, fun _ _ _ proper _ => .throw proper⟩
  | succ fuel ih =>
      refine ⟨fun expression frame before proper stands => ?_,
        fun block frame before proper stands => ?_⟩
      · exact Act.conducts_evalExpr ih proper stands expression
      · exact Act.conducts_runStatements proper stands
          (fun statement _ properDuring standsDuring =>
            Act.conducts_runStatement ih properDuring standsDuring statement)
          (.of_cell?_eq_none rfl) block

end Evaluator

namespace Act

section Sessions

variable {near : CellId → Prop} {quiet : Bool} {before : Activity} {frame : CellId}

theorem conducts_newFrame (proper : before.Proper) {content : Frame}
    (admitted : before.grasp.Admits (.frame content)) (empty : (Cell.frame content).values = [])
    (inside : ∀ parent, content.parent? = some parent → near parent) :
    Conducts near quiet (alloc (.frame content)) Activity.Hosts before := by
  refine ⟨_, Activity.becomes_make proper admitted (fun value member => ?_)
    fun parent link => Or.inl (inside parent link), .of_mem ?_, ?_⟩
  · rw [empty] at member
    exact absurd member List.not_mem_nil
  · exact List.mem_append_right _ List.mem_cons_self
  · have found : (before.machine.heap.alloc (.frame content)).2.get? before.machine.heap.size =
        some (.frame content) := (Heap.get?_alloc _ _ _).trans (if_pos rfl)
    exact Option.isSome_iff_exists.mpr ⟨content, Heap.frame?_eq_some_iff.mpr found⟩

theorem conducts_topFrame (proper : before.Proper) :
    Conducts near quiet topFrame Activity.Hosts before :=
  conducts_newFrame proper rfl rfl fun _ link => by cases link

theorem conducts_childFrame (proper : before.Proper) (hosts : before.Hosts frame)
    (inside : near frame) :
    Conducts near quiet (childFrame frame) Activity.Hosts before :=
  conducts_newFrame proper ⟨rfl, rfl, hosts.known.grasp proper.sound, hosts.isFrame⟩ rfl
    fun _ link => Option.some.inj link ▸ inside

theorem conducts_handle (proper : before.Proper) (name : String) :
    Conducts near quiet (handle name) Activity.Hosts before := by
  apply Conducts.get
  cases kept : before.machine.handle? name with
  | none => exact .malformed proper
  | some frame =>
      obtain ⟨entry, found, rfl⟩ := Option.map_eq_some_iff.mp kept
      exact .pure proper (proper.hosts_handle (List.mem_of_find?_eq_some found))

theorem conducts_program {evaluator : Evaluator} (behaves : evaluator.Behaves)
    (proper : before.Proper) (stands : before.Stands frame) (block : Block) :
    Conducts (frame = ·) false (evaluator.program block frame) Activity.Owns before := by
  apply (behaves.block block proper stands).bind proper
  intro machine after completion _ properAfter owns
  cases completion with
  | given result => exact .pure properAfter owns
  | reached last => exact .pure properAfter owns

theorem conducts_showProgram (proper : before.Proper) (hosts : before.Hosts frame)
    (inside : near frame) (block : Block) :
    Conducts near false (showProgram block frame) (fun _ _ => True) before := by
  refine (Conducts.holdingCell proper (fun _ _ => True) hosts.known
    (fun during properDuring machineDuring _ _ => ?_) fun _ _ => trivial).imp fun _ _ => trivial
  have stands : during.Stands frame := by
    refine ⟨frame, ?_, ?_, .refl⟩
    · rw [machineDuring]
      exact List.mem_cons_self
    · rw [machineDuring]
      exact hosts.isFrame
  apply ((conducts_program (Evaluator.behaves_ofFuel _) properDuring stands block).widen
    fun id (same : frame = id) => same ▸ inside).bind properDuring
  intro machine after value _ properAfter _
  exact .heap (.pure properAfter trivial)

theorem conducts_takeStep (proper : before.Proper) (step : Step) :
    Conducts (fun _ => True) false (takeStep step) (fun _ _ => True) before := by
  cases step with
  | run block =>
      apply (conducts_topFrame proper).bind proper
      intro machine after frame _ properAfter hosts
      exact conducts_showProgram properAfter hosts trivial block
  | within name block =>
      apply (conducts_handle proper name).bind proper
      intro machine after frame _ properAfter hosts
      exact conducts_showProgram properAfter hosts trivial block
  | child name parent =>
      have kept : ∀ {middle outer}, middle.Proper → middle.Hosts outer →
          Conducts (fun _ => True) false (do
            let frame ← childFrame outer
            keepFrame name frame
            return Answer.depth ((← get).depth frame)) (fun _ _ => True) middle := by
        intro middle outer properMiddle hosts
        apply (conducts_childFrame properMiddle hosts trivial).bind properMiddle
        intro machine inner frame _ properInner hostsInner
        apply (conducts_keepFrame properInner hostsInner trivial name).weaken.bind properInner
        intro machine after _ _ properAfter _
        exact .get (.pure properAfter trivial)
      cases parent with
      | some parent =>
          apply (conducts_handle proper parent).bind proper
          intro machine middle outer _ properMiddle hosts
          exact kept properMiddle hosts
      | none =>
          apply (conducts_topFrame proper).bind proper
          intro machine middle outer _ properMiddle hosts
          exact kept properMiddle hosts
  | drop name =>
      refine ⟨_, Activity.becomes_move proper rfl rfl rfl (fun value => proper.owns_global)
        (fun entry listed => ?_) fun _ _ => Or.inl trivial, trivial⟩
      exact proper.hosts_handle (List.mem_of_mem_filter listed)
  | collect => exact ⟨_, Activity.becomes_collect proper, trivial⟩
  | builtins => exact .get (.pure proper trivial)
  | globals => exact .get (.pure proper trivial)
  | describeFrame name =>
      apply Conducts.get
      apply (conducts_handle proper name).bind proper
      intro machine after frame _ properAfter _
      exact .pure properAfter trivial
  | describe => exact .get (.pure proper trivial)

end Sessions

end Act

namespace Activity

variable {near : CellId → Prop} {quiet : Bool} {before after : Activity}

theorem Reachable.of_steps (reachable : before.Reachable)
    (steps : ReflTransGen Step before after) : after.Reachable := by
  induction steps with
  | refl => exact reachable
  | tail _ step ih => exact .step ih step trivial

/-- A new machine holds no values. -/
theorem proper_start (standard : Bool) (natives : List (String × Native)) :
    ({ machine := .build standard natives } : Activity).Proper := by
  refine ⟨sound_start standard natives, ?_⟩
  obtain ⟨builtins, interner, supply, built⟩ := exists_build_eq standard natives
  rw [built]
  refine ⟨fun id cell found => ?_, ?_, ?_, ?_⟩
  · simp [Heap.get?] at found
  · simp [Names.values]
  · simp
  · simp

/-- What was printed is taken from the machine. -/
theorem Becomes.exists_silent {machine : Machine}
    (becomes : before.Becomes near quiet machine after) (proper : before.Proper) :
    ∃ silent, before.Becomes near quiet { machine with output := "" } silent := by
  have properAfter := becomes.proper proper
  have silent : after.Becomes near quiet { after.machine with output := "" }
      { after.grasp with machine := { after.machine with output := "" } } :=
    becomes_move properAfter rfl rfl rfl (fun _ => properAfter.owns_global)
      (fun _ => properAfter.hosts_handle) fun _ => Or.inr
  rw [becomes.machine_eq] at silent
  exact ⟨_, becomes.trans silent⟩

/-- A step of a session is a number of steps of the activity, and no call that it begins is in
progress after it. -/
theorem exists_becomes_answer (proper : before.Proper) (step : ScriptCore.Step) :
    ∃ after, before.Becomes (fun _ => True) false (before.machine.answer (Act.takeStep step)).2
      after := by
  have conducts := Act.conducts_takeStep proper step
  rw [Act.Conducts] at conducts
  rw [Machine.answer]
  cases ran : Act.takeStep step before.machine with
  | ok answer machine =>
      simp only [ran] at conducts ⊢
      obtain ⟨middle, becomes, -⟩ := conducts
      exact becomes.exists_silent proper
  | error stop machine =>
      simp only [ran] at conducts ⊢
      obtain ⟨middle, becomes⟩ := conducts
      exact becomes.exists_silent proper

theorem exists_becomes_after (proper : before.Proper) (steps : List ScriptCore.Step) :
    ∃ after, before.Becomes (fun _ => True) false (before.machine.after steps) after := by
  induction steps generalizing before with
  | nil => exact ⟨before, .refl proper⟩
  | cons step rest ih =>
      obtain ⟨middle, becomes⟩ := exists_becomes_answer proper step
      obtain ⟨after, onward⟩ := ih (becomes.proper proper)
      rw [becomes.machine_eq] at onward
      exact ⟨after, becomes.trans onward⟩

/-- The machine that a session leaves is that of a state of a run, between calls. -/
theorem exists_reachable_after (standard : Bool) (natives : List (String × Native))
    (steps : List ScriptCore.Step) :
    ∃ activity : Activity, activity.Reachable ∧ activity.running = [] ∧
      activity.machine = (Machine.build standard natives).after steps := by
  obtain ⟨after, becomes⟩ := exists_becomes_after (proper_start standard natives) steps
  exact ⟨after, .of_steps (.start standard natives trivial) becomes.steps, becomes.running,
    becomes.machine_eq⟩

end Activity

namespace Machine

section After

variable (standard : Bool) (natives : List (String × Native)) (steps : List Step)

/-- No session frees a cell that can still be reached. -/
theorem contains_of_reached_after {id : CellId}
    (reached : ((build standard natives).after steps).heap.ReachedFrom
      ((build standard natives).after steps).roots id) :
    ((build standard natives).after steps).heap.contains id = true := by
  obtain ⟨activity, run, -, machine⟩ := Activity.exists_reachable_after standard natives steps
  rw [← machine] at reached ⊢
  exact run.sound.contains_of_knows (reached.mono fun _ root => List.mem_append_left _ root)

/-- What collections rely on holds after every session. -/
theorem orderly_after : ((build standard natives).after steps).Orderly := by
  obtain ⟨activity, run, -, machine⟩ := Activity.exists_reachable_after standard natives steps
  rw [← machine]
  exact run.sound.orderly

/-- Every value in the machine that a session leaves names a cell of its kind. -/
theorem typed_after : ((build standard natives).after steps).Typed := by
  have start := Activity.proper_start standard natives
  obtain ⟨activity, becomes⟩ := Activity.exists_becomes_after start steps
  rw [← becomes.machine_eq]
  exact (becomes.proper start).typed

end After

end Machine

end ScriptCore
