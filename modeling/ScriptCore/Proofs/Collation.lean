import ScriptCore.Proofs.Typing

/-!
# Entries that come together

Entries stored one after the other come together by their keys: where keys are equal, the first key
stays and the last value counts.  A NaN equals no key, so it stays by itself.  Members come together
in the same way, without values.
-/

namespace ScriptCore

variable {α : Type}

/-- The value that counts for a key: the last one given under an equal key, or else `value`. -/
def lastUnder (key : Key) (value : α) (given : List (Key × α)) : α :=
  ((given.filter fun entry => key.equal entry.1).map Prod.snd).getLastD value

/-- Stored entries are one for each class of equal keys among the given entries, in the order of
the first keys: the first key of the class with the last value. -/
inductive Collates : List (Key × α) → List (Key × α) → Prop
  | nil : Collates [] []
  | cons (key : Key) (value : α) (others stored : List (Key × α))
      (rest : Collates (others.filter fun entry => !key.equal entry.1) stored) :
      Collates ((key, value) :: others) ((key, lastUnder key value others) :: stored)

theorem lastUnder_cons (key : Key) (value : α) (entry : Key × α) (given : List (Key × α)) :
    lastUnder key value (entry :: given) =
      lastUnder key (if key.equal entry.1 then entry.2 else value) given := by
  unfold lastUnder
  rw [List.filter_cons]
  split
  · rw [List.map_cons, List.getLastD_cons]
  · rfl

namespace Collates

variable {given stored : List (Key × α)}

/-- Each stored key was given. -/
theorem exists_given (collates : Collates given stored) {entry : Key × α}
    (member : entry ∈ stored) : ∃ source ∈ given, source.1 = entry.1 := by
  induction collates with
  | nil => cases member
  | cons key value others stored _ ih =>
      rcases List.mem_cons.mp member with rfl | later
      · exact ⟨(key, value), List.mem_cons_self, rfl⟩
      · obtain ⟨source, kept, same⟩ := ih later
        exact ⟨source, List.mem_cons_of_mem _ (List.mem_filter.mp kept).1, same⟩

theorem lastUnder_mem (key : Key) (value : α) (given : List (Key × α)) :
    lastUnder key value given = value ∨ lastUnder key value given ∈ given.map Prod.snd := by
  unfold lastUnder
  rw [List.getLastD_eq_getLast?]
  cases last : ((given.filter fun entry => key.equal entry.1).map Prod.snd).getLast? with
  | none => exact .inl rfl
  | some found =>
      obtain ⟨entry, kept, same⟩ := List.mem_map.mp (List.mem_of_getLast? last)
      exact .inr (List.mem_map.mpr ⟨entry, (List.mem_filter.mp kept).1, same⟩)

/-- Each stored value was given. -/
theorem value_mem (collates : Collates given stored) {entry : Key × α} (member : entry ∈ stored) :
    entry.2 ∈ given.map Prod.snd := by
  induction collates with
  | nil => cases member
  | cons key value others stored _ ih =>
      rcases List.mem_cons.mp member with rfl | later
      · rw [List.map_cons]
        rcases lastUnder_mem key value others with own | other
        · rw [own]
          exact List.mem_cons_self
        · exact List.mem_cons_of_mem _ other
      · obtain ⟨source, kept, same⟩ := List.mem_map.mp (ih later)
        exact List.mem_map.mpr
          ⟨source, List.mem_cons_of_mem _ (List.mem_filter.mp kept).1, same⟩

/-- No two stored keys are equal. -/
theorem distinct (collates : Collates given stored) :
    stored.Pairwise fun earlier later => earlier.1.equal later.1 = false := by
  induction collates with
  | nil => exact .nil
  | cons key value others stored rest ih =>
      refine .cons (fun entry member => ?_) ih
      obtain ⟨source, kept, same⟩ := rest.exists_given member
      have different := (List.mem_filter.mp kept).2
      rw [same] at different
      simpa using different

/-- Entries stay what they are if no two given keys are equal. -/
theorem eq_of_apart (collates : Collates given stored)
    (apart : given.Pairwise fun earlier later => earlier.1.equal later.1 = false) :
    stored = given := by
  induction collates with
  | nil => rfl
  | cons key value others stored rest ih =>
      obtain ⟨differs, othersApart⟩ := List.pairwise_cons.mp apart
      have none : (others.filter fun entry => key.equal entry.1) = [] :=
        List.filter_eq_nil_iff.mpr fun entry member => by simp [differs entry member]
      have all : (others.filter fun entry => !key.equal entry.1) = others :=
        List.filter_eq_self.mpr fun entry member => by simp [differs entry member]
      rw [all] at ih
      rw [ih othersApart, lastUnder, none]
      rfl

/-- What a dict holds was given. -/
theorem values_subset {given stored : Entries} (collates : Collates given stored) :
    Entries.values stored ⊆ Entries.values given := by
  intro value member
  obtain ⟨entry, isStored, among⟩ := List.mem_flatMap.mp member
  simp only [List.mem_cons, List.not_mem_nil, or_false] at among
  rcases among with rfl | rfl
  · obtain ⟨source, listed, same⟩ := collates.exists_given isStored
    exact List.mem_flatMap.mpr ⟨source, listed, by simp [same]⟩
  · obtain ⟨source, listed, same⟩ := List.mem_map.mp (collates.value_mem isStored)
    exact List.mem_flatMap.mpr ⟨source, listed, by simp [same]⟩

end Collates

namespace Entries

/-- Entries under the key of the first entry go into it, all others behind it. -/
theorem foldl_insert_cons (key : Key) (value : Value) (behind : Entries)
    (given : List (Key × Value)) :
    given.foldl (fun entries pair => insert entries pair.1 pair.2) ((key, value) :: behind) =
      (key, lastUnder key value given) ::
        (given.filter fun entry => !key.equal entry.1).foldl
          (fun entries pair => insert entries pair.1 pair.2) behind := by
  induction given generalizing value behind with
  | nil => rfl
  | cons entry rest ih =>
      rw [List.foldl_cons, lastUnder_cons, insert]
      cases same : key.equal entry.1 with
      | true => simp [same, ih]
      | false => simp [same, ih]

theorem collates_ofList (given : List (Key × Value)) : Collates given (ofList given) := by
  match given with
  | [] => exact .nil
  | (key, value) :: others =>
      have rest := collates_ofList (others.filter fun entry => !key.equal entry.1)
      have whole : ofList ((key, value) :: others) =
          (key, lastUnder key value others) ::
            ofList (others.filter fun entry => !key.equal entry.1) :=
        foldl_insert_cons key value [] others
      rw [whole]
      exact .cons key value others _ rest
termination_by given.length
decreasing_by exact Nat.lt_succ_of_le (List.length_filter_le _ _)

end Entries

namespace Members

/-- Members equal to the first one are dropped, all others go behind it. -/
theorem foldl_insert_cons (first : Key) (behind : Members) (keys : List Key) :
    keys.foldl insert (first :: behind) =
      first :: (keys.filter fun key => !first.equal key).foldl insert behind := by
  induction keys generalizing behind with
  | nil => rfl
  | cons key rest ih =>
      rw [List.foldl_cons, insert, List.any_cons]
      cases same : first.equal key with
      | true => simp [same, ih]
      | false =>
          cases found : behind.any fun stored => stored.equal key with
          | true => simp [same, found, ih, insert]
          | false => simp [same, found, ih, insert]

/-- Keys as entries without values. -/
def entries (keys : Members) : List (Key × Unit) :=
  keys.map fun key => (key, ())

theorem filter_entries (first : Key) (keys : List Key) :
    (entries keys).filter (fun entry => !first.equal entry.1) =
      entries (keys.filter fun key => !first.equal key) :=
  List.filter_map

theorem collates_ofList (keys : List Key) : Collates (entries keys) (entries (ofList keys)) := by
  match keys with
  | [] => exact .nil
  | first :: others =>
      have rest := collates_ofList (others.filter fun key => !first.equal key)
      rw [← filter_entries] at rest
      have whole : ofList (first :: others) =
          first :: ofList (others.filter fun key => !first.equal key) :=
        foldl_insert_cons first [] others
      rw [whole]
      exact Collates.cons first () (entries others) _ rest
termination_by keys.length
decreasing_by exact Nat.lt_succ_of_le (List.length_filter_le _ _)

/-- A stored member was given. -/
theorem values_subset {given stored : Members} (collates : Collates given.entries stored.entries) :
    values stored ⊆ values given := by
  intro value member
  obtain ⟨key, isStored, rfl⟩ := List.mem_map.mp member
  obtain ⟨source, given, same⟩ := collates.exists_given (List.mem_map_of_mem isStored)
  obtain ⟨origin, listed, rfl⟩ := List.mem_map.mp given
  exact List.mem_map.mpr ⟨origin, listed, congrArg Key.value same⟩

end Members

end ScriptCore
