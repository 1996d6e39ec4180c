import Mathlib.Data.Set.Card
import ScriptCore.Proofs.Cycles

/-!
# Clearing frames in any order

The frames to clear are kept in a table, and nothing is said about the order in which the table
gives them.  Whatever the order is, the same heap is left, and the same frames stay retained.  The
number that is reported is another matter: a frame that is freed before its turn is not counted.
It counts in every order exactly if it is held up without the names of the others.
-/

namespace ScriptCore

open Relation

section Discovery

variable {next : CellId → List CellId} {limit : Nat} {marks : Marks}
  {pending before after : List CellId} {id : CellId}

/-- A cell that a search finds was pending, or a cell found earlier leads to it. -/
theorem search_discovered (found : search next limit marks pending = before ++ id :: after) :
    id ∈ pending ∨ ∃ holder ∈ before, id ∈ next holder := by
  induction limit generalizing marks pending before with
  | zero => simp [search] at found
  | succ limit ih =>
      unfold search at found
      cases unmarked : pending.dropWhile marks.contains with
      | nil => simp [unmarked] at found
      | cons first rest =>
          obtain ⟨subset, -⟩ := dropWhile_marked_eq_cons unmarked
          rw [unmarked] at found
          rcases List.cons_eq_append_iff.mp found with ⟨-, same⟩ | ⟨earlier, rfl, later⟩
          · obtain ⟨rfl, -⟩ := List.cons.inj same
            exact Or.inl (subset id List.mem_cons_self)
          · rcases ih later with waiting | ⟨holder, member, child⟩
            · rcases List.mem_append.mp waiting with child | old
              · exact Or.inr ⟨first, List.mem_cons_self, child⟩
              · exact Or.inl (subset id (List.mem_cons_of_mem first old))
            · exact Or.inr ⟨holder, List.mem_cons_of_mem first member, child⟩

/-- A search gets to a cell through cells found earlier. -/
theorem search_path (found : search next limit marks pending = before ++ id :: after) :
    ∃ start ∈ pending,
      ReflTransGen (fun holder target => holder ∈ before ∧ target ∈ next holder) start id := by
  induction length : before.length using Nat.strong_induction_on generalizing before id after with
  | _ count ih =>
      rcases search_discovered found with start | ⟨holder, member, child⟩
      · exact ⟨id, start, .refl⟩
      · obtain ⟨earlier, later, rfl⟩ := List.append_of_mem member
        have shorter : earlier.length < count := by
          rw [← length, List.length_append, List.length_cons]
          omega
        obtain ⟨start, listed, path⟩ :=
          ih earlier.length shorter (found.trans (List.append_assoc _ _ _)) rfl
        refine ⟨start, listed, .tail (ReflTransGen.mono ?_ _ _ path) ⟨member, child⟩⟩
        exact fun _ _ step => ⟨List.mem_append_left _ step.1, step.2⟩

end Discovery

namespace Heap

variable {heap : Heap} {outside : List CellId} {root id : CellId}

/-- The frames that lose their names when a frame is reclaimed: those of the graph around it that
are not reached, unless it is reached itself. -/
def doomed (heap : Heap) (outside : List CellId) (root : CellId) : Set CellId :=
  {id | heap.Adrift outside root ∧ id ∈ heap.unreachedFrames outside root}

/-- Each of the frames to clear is held up without the names of the others. -/
def Steady (heap : Heap) (outside : List CellId) (root : CellId) : Prop :=
  ∀ frame ∈ heap.doomed outside root,
    (heap.strip (heap.doomed outside root \ {frame})).Upheld (root :: outside) frame

theorem contains_of_isFrame (isFrame : (heap.frame? id).isSome = true) :
    heap.contains id = true := by
  obtain ⟨frame, found⟩ := Option.isSome_iff_exists.mp isFrame
  exact contains_of_frame? found

/-- The fewer frames have lost their names, the more references there are. -/
theorem refers_of_strip_of_subset {group more : Set CellId} (subset : group ⊆ more)
    {holder : CellId} (edge : (heap.strip more).Refers holder id) :
    (heap.strip group).Refers holder id := by
  by_cases member : holder ∈ group
  · refine (refers_iff_of_get?_eq ?_ id).mp edge
    rw [get?_strip_of_mem member, get?_strip_of_mem (subset member)]
  · exact (refers_iff_of_get?_eq (get?_strip_of_not_mem member) id).mpr (refers_of_strip edge)

end Heap

namespace Counted

section Orders

variable {outside ids order : List CellId} {counted after : Counted} {root : CellId}

/-- What can come of reclaiming a frame, if the frames to clear are taken in some order. -/
def Reclaims (counted : Counted) (root : CellId) (cleared : Nat) (after : Counted) : Prop :=
  ∃ order, order.Perm (counted.doomedFrames root) ∧ clearFrames order counted = (cleared, after)

theorem clearFrames_le_length (ids : List CellId) (counted : Counted) :
    (clearFrames ids counted).1 ≤ ids.length := by
  induction ids generalizing counted with
  | nil => simp [clearFrames]
  | cons first rest ih =>
      unfold clearFrames
      split
      · exact Nat.succ_le_succ (ih _)
      · exact Nat.le_succ_of_le (ih _)

/-- All frames are counted if each is there at its turn. -/
theorem clearFrames_eq_length_iff (ids : List CellId) (counted : Counted) :
    (clearFrames ids counted).1 = ids.length ↔
      ∀ earlier id later, ids = earlier ++ id :: later →
        (clearFrames earlier counted).2.heap.contains id = true := by
  induction ids generalizing counted with
  | nil => simp [clearFrames]
  | cons first rest ih =>
      by_cases present : counted.heap.contains first = true
      · have count : (clearFrames (first :: rest) counted).1 = (first :: rest).length ↔
            (clearFrames rest (counted.clearFrame first)).1 = rest.length := by
          simp [clearFrames, present]
        rw [count, ih]
        constructor
        · intro all earlier id later split
          rcases List.cons_eq_append_iff.mp split with ⟨rfl, same⟩ | ⟨between, rfl, next⟩
          · obtain ⟨rfl, -⟩ := List.cons.inj same
            exact present
          · simpa [clearFrames, present] using all between id later next
        · intro all earlier id later split
          simpa [clearFrames, present] using all (first :: earlier) id later (by rw [split]; rfl)
      · have fewer : (clearFrames (first :: rest) counted).1 ≤ rest.length := by
          simpa [clearFrames, present] using clearFrames_le_length rest counted
        constructor
        · intro all
          rw [all, List.length_cons] at fewer
          omega
        · exact fun all => absurd (all [] first rest rfl) present

/-- A frame is there at its turn if it is held up without the names of those before it. -/
theorem contains_clearFrames_iff (exact : counted.Exact outside) (settled : counted.Settled)
    {id : CellId} (present : counted.heap.contains id = true) :
    (clearFrames ids counted).2.heap.contains id = true ↔
      (counted.heap.strip {id | id ∈ ids}).Upheld outside id := by
  obtain ⟨exactAfter, settledAfter, -⟩ := clearFrames_spec exact settled ids
  exact contains_iff_upheld exactAfter settledAfter (tidied_clearFrames exact settled ids)
    (by simpa using present)

theorem mem_doomedFrames_iff_mem_doomed (exact : counted.Exact (root :: outside)) (id : CellId) :
    id ∈ counted.doomedFrames root ↔ id ∈ counted.heap.doomed outside root := by
  by_cases adrift : counted.heap.Adrift outside root
  · simp [mem_doomedFrames_iff exact adrift, Heap.doomed, adrift]
  · have empty : counted.doomedFrames root = [] := by
      have live : root ∉ ((counted.trace root).discount root).garbage := fun member =>
        adrift ((mem_garbage_iff exact root).mp member)
      simp [doomedFrames, live]
    simp [empty, Heap.doomed, adrift]

/-- The frames to clear are listed in the order of discovery. -/
theorem doomedFrames_eq_filter (counted : Counted) (root : CellId) :
    ∃ keeps : CellId → Bool,
      counted.doomedFrames root = (counted.trace root).nodes.filter keeps := by
  unfold doomedFrames
  dsimp only
  split
  · exact ⟨_, List.filter_filter⟩
  · exact ⟨fun _ => false, by simp⟩

theorem nodup_doomedFrames (exact : counted.Exact (root :: outside)) :
    (counted.doomedFrames root).Nodup := by
  obtain ⟨keeps, listed⟩ := counted.doomedFrames_eq_filter root
  rw [listed]
  exact (nodup_trace_nodes exact).filter keeps

theorem length_doomedFrames (exact : counted.Exact (root :: outside)) :
    (counted.doomedFrames root).length = (counted.heap.doomed outside root).ncard := by
  have same : counted.heap.doomed outside root = ↑(counted.doomedFrames root).toFinset := by
    ext id
    simp [mem_doomedFrames_iff_mem_doomed exact]
  rw [same, Set.ncard_coe_finset, List.toFinset_card_of_nodup (nodup_doomedFrames exact)]

/-- A frame is discovered without the names of those that are listed behind it. -/
theorem reaches_strip_of_listed (exact : counted.Exact (root :: outside)) {id : CellId}
    {before behind : List CellId} (listed : counted.doomedFrames root = before ++ id :: behind) :
    (counted.heap.strip {other | other ∈ behind}).Reaches root id := by
  obtain ⟨keeps, filtered⟩ := counted.doomedFrames_eq_filter root
  obtain ⟨front, back, nodes, -, backParts⟩ :=
    List.filter_eq_append_iff.mp (filtered.symm.trans listed)
  obtain ⟨skipped, rest, rfl, -, -, restParts⟩ := List.filter_eq_cons_iff.mp backParts
  rw [← List.append_assoc] at nodes
  have distinct := nodup_trace_nodes exact
  rw [nodes] at distinct
  -- The cells found before it are not behind it, so they have kept their names.
  have apart : ∀ holder ∈ front ++ skipped, holder ∉ behind := by
    intro holder found again
    rw [← restParts] at again
    exact (List.nodup_append.mp distinct).2.2 holder found holder
      (List.mem_cons_of_mem id (List.mem_of_mem_filter again)) rfl
  obtain ⟨start, listedStart, path⟩ :=
    search_path ((nodes_trace exact.grounded exact.root_made).symm.trans nodes)
  rw [List.mem_singleton.mp (List.mem_of_mem_filter listedStart)] at path
  refine ReflTransGen.mono (fun holder target step => ?_) _ _ path
  have kept : (counted.heap.strip {other | other ∈ behind}).get? holder =
      counted.heap.get? holder := Heap.get?_strip_of_not_mem (apart holder step.1)
  exact (Heap.refers_iff_of_get?_eq kept target).mpr (List.mem_of_mem_filter step.2)

/-- In the reverse order of discovery every frame is there at its turn. -/
theorem clearFrames_reverse (exact : counted.Exact (root :: outside))
    (settled : counted.Settled) :
    (clearFrames (counted.doomedFrames root).reverse counted).1 =
      (counted.doomedFrames root).length := by
  rw [← List.length_reverse, clearFrames_eq_length_iff]
  intro earlier id later split
  have listed : counted.doomedFrames root = later.reverse ++ id :: earlier.reverse := by
    rw [← List.reverse_reverse (counted.doomedFrames root), split]
    simp
  have member : id ∈ counted.doomedFrames root := by simp [listed]
  have reached := reaches_strip_of_listed exact listed
  simp only [List.mem_reverse] at reached
  rw [contains_clearFrames_iff exact settled
    (Heap.contains_of_isFrame (mem_doomedFrames member).2)]
  exact Or.inl ⟨root, List.mem_cons_self, reached⟩

/-- The same heap is left whatever the order is. -/
theorem clearFrames_perm (exact : counted.Exact outside) (settled : counted.Settled)
    (perm : order.Perm ids) : (clearFrames order counted).2 = (clearFrames ids counted).2 := by
  obtain ⟨exactOrder, settledOrder, -⟩ := clearFrames_spec exact settled order
  obtain ⟨exactIds, settledIds, -⟩ := clearFrames_spec exact settled ids
  have same : {id | id ∈ order} = {id | id ∈ ids} := by
    ext id
    exact perm.mem_iff
  have tidied := tidied_clearFrames exact settled order
  rw [same] at tidied
  exact eq_of_tidied exactOrder settledOrder tidied exactIds settledIds
    (tidied_clearFrames exact settled ids)

/-- Every order counts all frames exactly if each frame is held up without the names of the
others. -/
theorem clearFrames_eq_length_of_perm_iff (exact : counted.Exact (root :: outside))
    (settled : counted.Settled) :
    (∀ order, order.Perm (counted.doomedFrames root) →
      (clearFrames order counted).1 = (counted.doomedFrames root).length) ↔
    counted.heap.Steady outside root := by
  have presentOf : ∀ id ∈ counted.heap.doomed outside root,
      counted.heap.contains id = true :=
    fun id member => Heap.contains_of_isFrame member.2.2
  have distinct := nodup_doomedFrames exact
  constructor
  · intro all frame member
    -- In the order that leaves the frame for last, it is there at its turn.
    have listed := (mem_doomedFrames_iff_mem_doomed exact frame).mpr member
    have perm : ((counted.doomedFrames root).erase frame ++ [frame]).Perm
        (counted.doomedFrames root) :=
      List.perm_append_comm.trans (List.perm_cons_erase listed).symm
    have last := (clearFrames_eq_length_iff _ counted).mp
      ((all _ perm).trans perm.length_eq.symm) _ frame [] rfl
    have others : {id | id ∈ (counted.doomedFrames root).erase frame} =
        counted.heap.doomed outside root \ {frame} := by
      ext id
      simp [distinct.mem_erase_iff, mem_doomedFrames_iff_mem_doomed exact, and_comm]
    rwa [contains_clearFrames_iff exact settled (presentOf frame member), others] at last
  · intro steady order perm
    rw [← perm.length_eq, clearFrames_eq_length_iff]
    rintro earlier id later rfl
    have member : id ∈ counted.heap.doomed outside root :=
      (mem_doomedFrames_iff_mem_doomed exact id).mp (perm.mem_iff.mp (by simp))
    rw [contains_clearFrames_iff exact settled (presentOf id member)]
    refine (steady id member).mono fun _ _ => Heap.refers_of_strip_of_subset ?_
    intro other before
    have listed := perm.mem_iff.mp (List.mem_append_left (id :: later) before)
    refine ⟨(mem_doomedFrames_iff_mem_doomed exact other).mp listed, ?_⟩
    rintro rfl
    exact (List.nodup_append.mp (perm.nodup_iff.mpr distinct)).2.2 other before other
      List.mem_cons_self rfl

end Orders

end Counted

/-- What is known of an outcome that differs from order to order, of which one is `actual`: the
same is left in all, and the number reported is at most `most`, which it is in some order, and in
all orders if `steady` holds and only then. -/
structure Tally {α : Type} (outcome : Nat → α → Prop) (actual : Nat × α) (most : Nat)
    (steady : Prop) : Prop where
  occurs : outcome actual.1 actual.2
  same : ∀ count result, outcome count result → result = actual.2
  le : ∀ count result, outcome count result → count ≤ most
  attained : outcome most actual.2
  eq_iff : (∀ count result, outcome count result → count = most) ↔ steady

/-- Two counts make one that is their sum. -/
theorem Tally.seq {α β γ : Type} {first : Nat → α → Prop} {second : Nat → β → Prop}
    {both : Nat → γ → Prop} {begun : Nat × α} {ended : Nat × β} {after : γ} {most more : Nat}
    {steady calm : Prop} (left : Tally first begun most steady)
    (right : Tally second ended more calm)
    (split : ∀ count result, both count result ↔
      ∃ one two, first one begun.2 ∧ second two ended.2 ∧ count = one + two ∧ result = after) :
    Tally both (begun.1 + ended.1, after) (most + more) (steady ∧ calm) where
  occurs := (split _ _).mpr ⟨_, _, left.occurs, right.occurs, rfl, rfl⟩
  same count result outcome := by
    obtain ⟨_, _, -, -, -, rfl⟩ := (split _ _).mp outcome
    rfl
  le count result outcome := by
    obtain ⟨one, two, before, later, rfl, -⟩ := (split _ _).mp outcome
    exact Nat.add_le_add (left.le _ _ before) (right.le _ _ later)
  attained := (split _ _).mpr ⟨_, _, left.attained, right.attained, rfl, rfl⟩
  eq_iff := by
    rw [← left.eq_iff, ← right.eq_iff]
    constructor
    · intro all
      constructor
      · intro count result outcome
        obtain rfl := left.same _ _ outcome
        exact Nat.add_right_cancel
          (all _ _ ((split _ _).mpr ⟨_, _, outcome, right.attained, rfl, rfl⟩))
      · intro count result outcome
        obtain rfl := right.same _ _ outcome
        exact Nat.add_left_cancel
          (all _ _ ((split _ _).mpr ⟨_, _, left.attained, outcome, rfl, rfl⟩))
    · rintro ⟨allLeft, allRight⟩ count result outcome
      obtain ⟨one, two, before, later, rfl, -⟩ := (split _ _).mp outcome
      rw [allLeft _ _ before, allRight _ _ later]

namespace Counted

section Collecting

variable {outside : List CellId} {counted : Counted} {root : CellId}

theorem tally_reclaims (exact : counted.Exact (root :: outside)) (settled : counted.Settled) :
    Tally (counted.Reclaims root) (counted.reclaim root)
      (counted.heap.doomed outside root).ncard (counted.heap.Steady outside root) where
  occurs := ⟨counted.doomedFrames root, .refl _, rfl⟩
  same := by
    rintro count result ⟨order, perm, cleared⟩
    rw [reclaim, ← clearFrames_perm exact settled perm, cleared]
  le := by
    rintro count result ⟨order, perm, cleared⟩
    have fewer := clearFrames_le_length order counted
    rwa [cleared, perm.length_eq, length_doomedFrames exact] at fewer
  attained := by
    refine ⟨(counted.doomedFrames root).reverse, List.reverse_perm _, Prod.ext ?_ ?_⟩
    · exact (clearFrames_reverse exact settled).trans (length_doomedFrames exact)
    · exact clearFrames_perm exact settled (List.reverse_perm _)
  eq_iff := by
    rw [← clearFrames_eq_length_of_perm_iff exact settled, length_doomedFrames exact]
    constructor
    · exact fun all order perm => all _ _ ⟨order, perm, rfl⟩
    · rintro all count result ⟨order, perm, cleared⟩
      rw [← all order perm, cleared]

/-- Whether anything is cleared is the same in every order. -/
theorem Reclaims.eq_zero_iff {cleared : Nat} {after : Counted}
    (reclaims : counted.Reclaims root cleared after) :
    cleared = 0 ↔ (counted.reclaim root).1 = 0 := by
  have none_iff : ∀ ids, (∀ id ∈ ids, id ∈ counted.doomedFrames root) →
      ((clearFrames ids counted).1 = 0 ↔ ids = []) := by
    intro ids doomed
    cases ids with
    | nil => simp [clearFrames]
    | cons first rest =>
        obtain ⟨-, isFrame⟩ := mem_doomedFrames (doomed first List.mem_cons_self)
        have present := Heap.contains_of_isFrame isFrame
        simp [Nat.ne_of_gt (clearFrames_pos rest present)]
  obtain ⟨order, perm, result⟩ := reclaims
  have count : (clearFrames order counted).1 = cleared := by rw [result]
  rw [← count, reclaim, none_iff order fun id => perm.mem_iff.mp, none_iff _ fun _ => id,
    ← List.length_eq_zero_iff, perm.length_eq, List.length_eq_zero_iff]

/-- What can come of reclaiming each of the given frames that still exists, if the frames to clear
are taken in some order at each turn. -/
inductive ReclaimsEach : List CellId → Counted → Nat → List CellId × Counted → Prop
  | nil (counted : Counted) : ReclaimsEach [] counted 0 ([], counted)
  | gone {id : CellId} {rest kept : List CellId} {counted last : Counted} {cleared : Nat}
      (absent : counted.heap.contains id = false)
      (later : ReclaimsEach rest counted cleared (kept, last)) :
      ReclaimsEach (id :: rest) counted cleared (kept, last)
  | turn {id : CellId} {rest kept : List CellId} {counted after last : Counted}
      {cleared more : Nat} (present : counted.heap.contains id = true)
      (reclaims : (counted.hold id).Reclaims id cleared after)
      (later : ReclaimsEach rest (after.drop id) more (kept, last)) :
      ReclaimsEach (id :: rest) counted (cleared + more)
        (if cleared = 0 then id :: kept else kept, last)

/-- The turns of a collection: the frames that are still there, each with the heap that it is
reclaimed in. -/
def stages : List CellId → Counted → List (CellId × Heap)
  | [], _ => []
  | id :: rest, counted =>
      if counted.heap.contains id then (id, counted.heap) :: stages rest (counted.turn id)
      else stages rest counted

theorem tally_reclaimsEach (exact : counted.Exact outside) (settled : counted.Settled)
    (ids : List CellId) :
    Tally (ReclaimsEach ids counted) (reclaimEach ids counted)
      ((stages ids counted).map fun stage => (stage.2.doomed outside stage.1).ncard).sum
      (∀ stage ∈ stages ids counted, stage.2.Steady outside stage.1) := by
  induction ids generalizing counted with
  | nil =>
      refine ⟨.nil counted, ?_, ?_, .nil counted, iff_of_true ?_ (by simp [stages])⟩
      · rintro count result ⟨⟩
        rfl
      · rintro count result ⟨⟩
        simp
      · rintro count result ⟨⟩
        simp [stages]
  | cons id rest ih =>
      by_cases present : counted.heap.contains id = true
      · have inside := Heap.lt_size_of_contains present
        obtain ⟨exactHeld, settledHeld⟩ := hold_spec exact settled inside
        obtain ⟨exactTurn, settledTurn, -⟩ := turn_spec exact settled inside
        have first : Tally ((counted.hold id).Reclaims id) ((counted.hold id).reclaim id)
            (counted.heap.doomed outside id).ncard (counted.heap.Steady outside id) :=
          tally_reclaims exactHeld settledHeld
        have others := ih exactTurn settledTurn
        simp only [stages, present, if_true, List.map_cons, List.sum_cons, List.forall_mem_cons]
        rw [reclaimEach_cons_of_contains rest present]
        refine first.seq others fun count result => ?_
        constructor
        · rintro (_ | ⟨absent, -⟩ | ⟨-, reclaims, later⟩)
          · simp [present] at absent
          · obtain rfl := first.same _ _ reclaims
            obtain same := others.same _ _ later
            refine ⟨_, _, reclaims, same ▸ later, rfl, ?_⟩
            simp only [reclaims.eq_zero_iff, ← same]
        · rintro ⟨cleared, more, reclaims, later, rfl, rfl⟩
          simpa only [reclaims.eq_zero_iff] using ReclaimsEach.turn present reclaims later
      · have absent : counted.heap.contains id = false := by simpa using present
        have same : ReclaimsEach (id :: rest) counted = ReclaimsEach rest counted := by
          ext count result
          constructor
          · rintro (_ | ⟨-, later⟩ | ⟨present, -, -⟩)
            · exact later
            · simp [absent] at present
          · exact .gone absent
        rw [same, reclaimEach_cons_of_not_contains rest absent]
        simpa [stages, absent] using ih exact settled

end Collecting

end Counted

namespace Machine

/-- What can come of looking through the retained frames, if the frames to clear are taken in some
order at each turn. -/
def Collects (machine : Machine) (cleared : Nat) (after : Machine) : Prop :=
  ∃ kept last, Counted.ReclaimsEach machine.retained.frames machine.counted cleared (kept, last) ∧
    after = { machine with
      retained := { frames := kept, limit := 2 * kept.length }
      heap := last.heap }

theorem tally_collects {machine : Machine} (bounded : machine.Bounded) :
    Tally machine.Collects machine.collect
      ((Counted.stages machine.retained.frames machine.counted).map fun stage =>
        (stage.2.doomed machine.roots stage.1).ncard).sum
      (∀ stage ∈ Counted.stages machine.retained.frames machine.counted,
        stage.2.Steady machine.roots stage.1) := by
  obtain ⟨exact, settled, -⟩ := counted_spec bounded
  have each := Counted.tally_reclaimsEach exact settled machine.retained.frames
  refine ⟨⟨_, _, each.occurs, rfl⟩, ?_, ?_, ⟨_, _, each.attained, rfl⟩, ?_⟩
  · rintro count result ⟨kept, last, reclaims, rfl⟩
    obtain ⟨rfl, rfl⟩ := Prod.ext_iff.mp (each.same _ _ reclaims)
    rfl
  · rintro count result ⟨kept, last, reclaims, rfl⟩
    exact each.le _ _ reclaims
  · rw [← each.eq_iff]
    constructor
    · exact fun all count result reclaims => all count _ ⟨_, _, reclaims, rfl⟩
    · rintro all count result ⟨kept, last, reclaims, rfl⟩
      exact all _ _ reclaims

/-- The order in which frames are cleared decides nothing but the number reported.  Reclaiming a
frame leaves the same heap in every order, and so does a collection.  The number reported is at
most that of the frames that are not reached, which some order reports, and all orders do exactly
if each of these frames is held up without the names of the others. -/
theorem clearing_order_decides_count_only (counted : Counted) (outside : List CellId)
    (root : CellId) (exact : counted.Exact (root :: outside)) (settled : counted.Settled)
    (machine : Machine) (bounded : machine.Bounded) :
    Tally (counted.Reclaims root) (counted.reclaim root)
      (counted.heap.doomed outside root).ncard (counted.heap.Steady outside root) ∧
    Tally machine.Collects machine.collect
      ((Counted.stages machine.retained.frames machine.counted).map fun stage =>
        (stage.2.doomed machine.roots stage.1).ncard).sum
      (∀ stage ∈ Counted.stages machine.retained.frames machine.counted,
        stage.2.Steady machine.roots stage.1) :=
  ⟨Counted.tally_reclaims exact settled, tally_collects bounded⟩

/-- Two calls have returned.  The frame of the first is kept by the function that was made in it,
and that function by the frame of the second, which also holds a function of its own. -/
def knottedChain : Machine where
  heap := ⟨#[
    some (.frame { scope := .global, captured := true }),
    some (.frame { scope := .nested 0 [], captured := true }),
    some (.function
      { name := ⟨"link", 0⟩, params := [], defaults := [], body := [], defining := 1 }),
    some (.frame
      { scope := .nested 0 [(⟨"next", 1⟩, .function 2), (⟨"knot", 2⟩, .function 4)]
        captured := true }),
    some (.function
      { name := ⟨"knot", 2⟩, params := [], defaults := [], body := [], defining := 3 })]⟩
  globals := []
  held := [.cell 0]
  retained := { frames := [1, 3] }

theorem knottedChain_tally :
    (knottedChain.counted.hold 3).Exact (3 :: knottedChain.roots) ∧
      (knottedChain.counted.hold 3).Settled ∧ knottedChain.Bounded ∧
      Tally ((knottedChain.counted.hold 3).Reclaims 3) ((knottedChain.counted.hold 3).reclaim 3)
        ((knottedChain.counted.hold 3).heap.doomed knottedChain.roots 3).ncard
        ((knottedChain.counted.hold 3).heap.Steady knottedChain.roots 3) ∧
      Tally knottedChain.Collects knottedChain.collect
        ((Counted.stages knottedChain.retained.frames knottedChain.counted).map fun stage =>
          (stage.2.doomed knottedChain.roots stage.1).ncard).sum
        (∀ stage ∈ Counted.stages knottedChain.retained.frames knottedChain.counted,
          stage.2.Steady knottedChain.roots stage.1) := by
  have bounded : knottedChain.Bounded := by decide
  obtain ⟨exactRoots, settledRoots, -⟩ := counted_spec bounded
  have inside : 3 < knottedChain.counted.heap.size := by decide +kernel
  obtain ⟨exact, settled⟩ := Counted.hold_spec exactRoots settledRoots inside
  exact ⟨exact, settled, bounded,
    clearing_order_decides_count_only _ _ 3 exact settled knottedChain bounded⟩

/-- If the frame of the second call is cleared first, the frame of the first is gone by its turn;
the other way round both are counted. -/
theorem knottedChain_counts_one_or_two :
    (∃ after, (knottedChain.counted.hold 3).Reclaims 3 1 after ∧
      (knottedChain.counted.hold 3).Reclaims 3 2 after) ∧
    ∃ after, knottedChain.Collects 1 after ∧ knottedChain.Collects 2 after := by
  have bounded : knottedChain.Bounded := by decide
  obtain ⟨exactRoots, settledRoots, -⟩ := counted_spec bounded
  have inside : 3 < knottedChain.counted.heap.size := by decide +kernel
  obtain ⟨exact, settled⟩ := Counted.hold_spec exactRoots settledRoots inside
  have outcome : ∀ order cleared, order.Perm ((knottedChain.counted.hold 3).doomedFrames 3) →
      (Counted.clearFrames order (knottedChain.counted.hold 3)).1 = cleared →
      (knottedChain.counted.hold 3).Reclaims 3 cleared
        ((knottedChain.counted.hold 3).reclaim 3).2 := fun order cleared perm count =>
    ⟨order, perm, Prod.ext count (Counted.clearFrames_perm exact settled perm)⟩
  have one := outcome [3, 1] 1 (by decide +kernel) (by decide +kernel)
  have two := outcome [1, 3] 2 (by decide +kernel) (by decide +kernel)
  -- The frame of the first call is still held when it has its turn.
  have spared : (knottedChain.counted.hold 1).Reclaims 1 0 (knottedChain.counted.hold 1) :=
    ⟨[], by decide +kernel, rfl⟩
  have collects : ∀ cleared after, (knottedChain.counted.hold 3).Reclaims 3 cleared after →
      cleared ≠ 0 → knottedChain.Collects cleared
        { knottedChain with
          retained := { frames := [1], limit := 2 }
          heap := (after.drop 3).heap } := by
    intro cleared after reclaims positive
    refine ⟨[1], after.drop 3, ?_, rfl⟩
    have last := Counted.ReclaimsEach.turn (by decide +kernel) reclaims (.nil (after.drop 3))
    rw [← Counted.drop_hold settledRoots 1] at last
    change Counted.ReclaimsEach [1, 3] knottedChain.counted cleared ([1], after.drop 3)
    simpa [positive] using Counted.ReclaimsEach.turn (by decide +kernel) spared last
  exact ⟨⟨_, one, two⟩, _, collects 1 _ one (by decide), collects 2 _ two (by decide)⟩

end Machine

end ScriptCore
