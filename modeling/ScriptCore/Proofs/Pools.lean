import Mathlib.Data.List.Dedup
import Mathlib.Logic.Function.Basic
import ScriptCore.Proofs.Pooling

/-!
# Strings from pools and from elsewhere

Strings are asked for one after the other, from any of several pools or new.  A pool gives the same
instance for the same text, however much later it is asked for, and no instance comes from two
pools or from a pool and from elsewhere.
-/

namespace ScriptCore

/-- A string that is asked for. -/
inductive Request
  | pooled (index : Nat) (text : String)
  /-- A new string, outside all pools. -/
  | plain (text : String)
deriving DecidableEq

namespace Request

def text : Request → String
  | pooled _ text => text
  | plain text => text

/-- The text that is asked for from a pool. -/
def textFor? (index : Nat) : Request → Option String
  | pooled asked text => if asked = index then some text else none
  | plain _ => none

theorem textFor?_eq_some_iff {index : Nat} {request : Request} {text : String} :
    request.textFor? index = some text ↔ request = pooled index text := by
  cases request with
  | pooled asked other => simp [textFor?]
  | plain other => simp [textFor?]

end Request

/-- Pools by number, which draw on one supply. -/
structure Pools where
  pool : Nat → Interner := fun _ => {}
  supply : Supply := {}

namespace Pools

/-- Give the string that is asked for. -/
def give (pools : Pools) : Request → Str × Pools
  | .pooled index text =>
      let (string, interner, supply) := (pools.pool index).intern pools.supply text
      (string, { pool := Function.update pools.pool index interner, supply })
  | .plain text =>
      let (serial, supply) := pools.supply.fresh
      (⟨text, serial⟩, { pools with supply })

/-- The strings given for requests, in order. -/
def given (pools : Pools) : List Request → List (Request × Str)
  | [] => []
  | request :: rest => (request, (pools.give request).1) :: given (pools.give request).2 rest

/-- The pools after requests. -/
def after (pools : Pools) (requests : List Request) : Pools :=
  requests.foldl (fun pools request => (pools.give request).2) pools

/-- A string was given for a request.  What a pool gave it has; what came from elsewhere no pool
has. -/
def Gave (pools : Pools) : Request → Str → Prop
  | .pooled index text, string => (pools.pool index).find? text = some string
  | .plain text, string => string.text = text ∧ string.serial < pools.supply.next ∧
      ∀ index, ∀ pooled ∈ (pools.pool index).pool, pooled.serial ≠ string.serial

/-- Each pool has one instance for each text, and no two have an instance in common. -/
structure Distinct (pools : Pools) : Prop where
  canonical : ∀ index, (pools.pool index).Canonical pools.supply
  apart : ∀ first second, ∀ string ∈ (pools.pool first).pool,
    ∀ other ∈ (pools.pool second).pool, string.serial = other.serial → first = second

theorem distinct_new : ({} : Pools).Distinct where
  canonical _ := ⟨.nil, .nil, by simp⟩
  apart first second string member := by cases member

section Step

variable (pools : Pools) (request : Request)

theorem text_give : (pools.give request).1.text = request.text := by
  cases request with
  | pooled index text => exact Interner.text_of_find? (Interner.find?_intern _ _ text)
  | plain text => rfl

theorem extends_give (index : Nat) :
    (pools.pool index).Extends pools.supply ((pools.give request).2.pool index)
      (pools.give request).2.supply := by
  cases request with
  | pooled asked text =>
      have grown := (pools.pool asked).extends_intern pools.supply text
      by_cases here : index = asked
      · subst here
        simpa only [give, Function.update_self] using grown
      · simpa only [give, Function.update_of_ne here] using .of_le grown.drawn
  | plain text => exact Interner.extends_fresh _ _

/-- What comes into a pool is what is asked for from it, under the next number. -/
theorem mem_give {index : Nat} {string : Str}
    (member : string ∈ ((pools.give request).2.pool index).pool) :
    string ∈ (pools.pool index).pool ∨
      request = .pooled index string.text ∧ string.serial = pools.supply.next := by
  cases request with
  | plain text => exact .inl member
  | pooled asked text =>
      by_cases here : index = asked
      · subst here
        simp only [give, Function.update_self] at member
        rcases Interner.mem_intern member with old | rfl
        · exact .inl old
        · exact .inr ⟨rfl, rfl⟩
      · simp only [give, Function.update_of_ne here] at member
        exact .inl member

end Step

theorem Gave.text {pools : Pools} {request : Request} {string : Str}
    (gave : pools.Gave request string) : string.text = request.text := by
  cases request with
  | pooled index text => exact Interner.text_of_find? gave
  | plain text => exact gave.1

/-- What was given goes on to be what was given. -/
theorem Gave.later {pools : Pools} (request : Request) {earlier : Request} {string : Str}
    (gave : pools.Gave earlier string) :
    (pools.give request).2.Gave earlier string := by
  cases earlier with
  | pooled index text => exact (pools.extends_give request index).find?_eq gave
  | plain text =>
      obtain ⟨same, drawn, outside⟩ := gave
      refine ⟨same, Nat.lt_of_lt_of_le drawn (pools.extends_give request 0).drawn, ?_⟩
      intro index pooled member
      rcases pools.mem_give request member with old | ⟨-, new⟩
      · exact outside index pooled old
      · omega

section Run

variable {pools : Pools} (distinct : pools.Distinct) (request : Request)

include distinct

theorem Distinct.give : (pools.give request).2.Distinct where
  canonical index := (pools.extends_give request index).canonical (distinct.canonical index)
  apart first second string member other also same := by
    rcases pools.mem_give request member with old | ⟨asked, new⟩
    · rcases pools.mem_give request also with oldOther | ⟨-, newOther⟩
      · exact distinct.apart first second string old other oldOther same
      · have drawn := (distinct.canonical first).drawn string old
        omega
    · rcases pools.mem_give request also with oldOther | ⟨askedOther, -⟩
      · have drawn := (distinct.canonical second).drawn other oldOther
        omega
      · rw [asked] at askedOther
        exact (Request.pooled.inj askedOther).1

theorem Gave.drawn {string : Str} (gave : pools.Gave request string) :
    string.serial < pools.supply.next := by
  cases request with
  | pooled index text =>
      exact (distinct.canonical index).drawn string (List.mem_of_find?_eq_some gave)
  | plain text => exact gave.2.1

theorem gave_give : (pools.give request).2.Gave request (pools.give request).1 := by
  cases request with
  | pooled index text =>
      have found := Interner.find?_intern (pools.pool index) pools.supply text
      simpa only [Gave, give, Function.update_self] using found
  | plain text =>
      refine ⟨rfl, Nat.lt_succ_self _, fun index pooled member => ?_⟩
      exact Nat.ne_of_lt ((distinct.canonical index).drawn pooled member)

/-- An instance is given again exactly if the same text is asked for from the same pool. -/
theorem Gave.same_iff {earlier : Request} {string : Str} (gave : pools.Gave earlier string) :
    string.same (pools.give request).1 = true ↔
      ∃ index text, earlier = .pooled index text ∧ request = .pooled index text := by
  have later := gave.later request
  have given := gave_give distinct request
  have apart := (distinct.give request).apart
  cases request with
  | plain text =>
      have drawn := gave.drawn distinct earlier
      simpa [Str.same, give, Supply.fresh] using Nat.ne_of_lt drawn
  | pooled index text =>
      have member := List.mem_of_find?_eq_some given
      cases earlier with
      | plain other =>
          simpa [Str.same] using (later.2.2 index _ member).symm
      | pooled first other =>
          constructor
          · intro same
            obtain rfl := apart first index string (List.mem_of_find?_eq_some later) _ member
              (beq_iff_eq.mp same)
            have texts := ((distinct.give _).canonical first).same_iff later given
            exact ⟨first, other, rfl, by rw [texts.mp same]⟩
          · rintro ⟨_, _, ⟨⟩, ⟨⟩⟩
            exact (((distinct.give _).canonical _).same_iff later given).mpr rfl

theorem Distinct.after (requests : List Request) : (pools.after requests).Distinct := by
  induction requests generalizing pools with
  | nil => exact distinct
  | cons request rest ih => exact ih (distinct.give request)

/-- Whatever is asked for in between. -/
theorem Gave.forall_given {earlier : Request} {string : Str} (gave : pools.Gave earlier string)
    (requests : List Request) :
    ∀ entry ∈ pools.given requests,
      (string.same entry.2 = true ↔
        ∃ index text, earlier = .pooled index text ∧ entry.1 = .pooled index text) ∧
      (string.equal entry.2 = true ↔ earlier.text = entry.1.text) := by
  induction requests generalizing pools with
  | nil => exact fun entry member => nomatch member
  | cons request rest ih =>
      refine List.forall_mem_cons.mpr ⟨⟨gave.same_iff distinct request, ?_⟩, ?_⟩
      · rw [Str.equal, beq_iff_eq, gave.text, text_give]
      · exact ih (distinct.give request) (gave.later request)

end Run

section Contents

theorem extends_after (pools : Pools) (requests : List Request) (index : Nat) :
    (pools.pool index).Extends pools.supply ((pools.after requests).pool index)
      (pools.after requests).supply := by
  induction requests generalizing pools with
  | nil => exact .refl _ _
  | cons request rest ih => exact (pools.extends_give request index).trans (ih _)

/-- A pool has the texts that it had, and what is asked for from it. -/
theorem mem_texts_give (pools : Pools) (request : Request) (index : Nat) (text : String) :
    text ∈ ((pools.give request).2.pool index).pool.map Str.text ↔
      text ∈ (pools.pool index).pool.map Str.text ∨ request = .pooled index text := by
  constructor
  · intro member
    obtain ⟨string, held, rfl⟩ := List.mem_map.mp member
    rcases pools.mem_give request held with old | ⟨rfl, -⟩
    · exact .inl (List.mem_map_of_mem old)
    · exact .inr rfl
  · rintro (old | rfl)
    · exact ((pools.extends_give request index).kept.map Str.text).subset old
    · have found := Interner.find?_intern (pools.pool index) pools.supply text
      simp only [give, Function.update_self]
      exact List.mem_map.mpr ⟨_, List.mem_of_find?_eq_some found, Interner.text_of_find? found⟩

theorem mem_texts_after (pools : Pools) (requests : List Request) (index : Nat) (text : String) :
    text ∈ ((pools.after requests).pool index).pool.map Str.text ↔
      text ∈ (pools.pool index).pool.map Str.text ∨ .pooled index text ∈ requests := by
  induction requests generalizing pools with
  | nil => simp [after]
  | cons request rest ih =>
      refine (ih (pools.give request).2).trans ?_
      rw [mem_texts_give, List.mem_cons, or_assoc, eq_comm]

/-- As many as there are distinct texts among what was asked for. -/
theorem size_after (requests : List Request) (index : Nat) :
    ((({} : Pools).after requests).pool index).size =
      (requests.filterMap (Request.textFor? index)).dedup.length := by
  have distinct := (distinct_new.after requests).canonical index
  have same : List.Perm ((({} : Pools).after requests).pool index |>.pool.map Str.text)
      (requests.filterMap (Request.textFor? index)).dedup := by
    refine (List.perm_ext_iff_of_nodup distinct.texts (List.nodup_dedup _)).mpr fun text => ?_
    rw [mem_texts_after, List.mem_dedup, List.mem_filterMap]
    simp [Request.textFor?_eq_some_iff]
  rw [Interner.size, ← List.length_map Str.text, same.length_eq]

theorem size_le_size_after (pools : Pools) (requests : List Request) (index : Nat) :
    (pools.pool index).size ≤ ((pools.after requests).pool index).size :=
  (pools.extends_after requests index).kept.length_le

end Contents

section Given

variable (pools : Pools) (requests : List Request)

theorem requests_given : (pools.given requests).map Prod.fst = requests := by
  induction requests generalizing pools with
  | nil => rfl
  | cons request rest ih => rw [given, List.map_cons, ih]

theorem text_of_mem_given {entry : Request × Str} (member : entry ∈ pools.given requests) :
    entry.2.text = entry.1.text := by
  induction requests generalizing pools with
  | nil => nomatch member
  | cons request rest ih =>
      rcases List.mem_cons.mp member with rfl | later
      · exact pools.text_give request
      · exact ih _ later

/-- Of what is given in a run, the earlier against the later. -/
theorem pairwise_given (distinct : pools.Distinct) :
    (pools.given requests).Pairwise fun first second =>
      (first.2.same second.2 = true ↔
        ∃ index text, first.1 = .pooled index text ∧ second.1 = .pooled index text) ∧
      (first.2.equal second.2 = true ↔ first.1.text = second.1.text) := by
  induction requests generalizing pools with
  | nil => exact .nil
  | cons request rest ih =>
      refine List.pairwise_cons.mpr ⟨?_, ih _ (distinct.give request)⟩
      exact (gave_give distinct request).forall_given (distinct.give request) rest

end Given

/-- Pooling is canonical, in runs that ask for strings from any of several pools and outside them.
A pool has one string for each distinct text that it was asked for and never loses one; what it
gives has the text.  Strings are the same instance exactly if they were asked for from the same pool
with the same text, and equal exactly if their texts are. -/
theorem pooling_is_canonical (requests : List Request) :
    (∀ index,
      ((({} : Pools).after requests).pool index |>.pool.map Str.text).Nodup ∧
      ((({} : Pools).after requests).pool index).size =
        (requests.filterMap (Request.textFor? index)).dedup.length) ∧
    (∀ index further,
      ((({} : Pools).after requests).pool index).size ≤
        ((({} : Pools).after (requests ++ further)).pool index).size) ∧
    (({} : Pools).given requests).map Prod.fst = requests ∧
    (∀ entry ∈ ({} : Pools).given requests, entry.2.text = entry.1.text) ∧
    (({} : Pools).given requests).Pairwise fun first second =>
      (first.2.same second.2 = true ↔
        ∃ index text, first.1 = .pooled index text ∧ second.1 = .pooled index text) ∧
      (first.2.equal second.2 = true ↔ first.1.text = second.1.text) := by
  refine ⟨fun index => ?_, fun index further => ?_, requests_given _ requests, ?_, ?_⟩
  · exact ⟨((distinct_new.after requests).canonical index).texts, size_after requests index⟩
  · have grown := size_le_size_after (({} : Pools).after requests) further index
    rwa [after, after, ← List.foldl_append] at grown
  · exact fun entry member => text_of_mem_given {} requests member
  · exact pairwise_given {} requests distinct_new

/-- One text from two pools and from elsewhere, and again from the first pool. -/
def repeated : List Request :=
  [.pooled 0 "name", .plain "name", .pooled 1 "name", .pooled 0 "self", .pooled 0 "name"]

theorem repeated_gives_first_again :
    ((({} : Pools).after repeated).pool 0).size = 2 ∧
    ((({} : Pools).given repeated)[0].2.same (({} : Pools).given repeated)[4].2) = true ∧
    ((({} : Pools).given repeated)[0].2.equal (({} : Pools).given repeated)[1].2) = true ∧
    ¬ ((({} : Pools).given repeated)[0].2.same (({} : Pools).given repeated)[1].2) = true := by
  obtain ⟨contents, -, -, -, laws⟩ := pooling_is_canonical repeated
  have law := List.pairwise_iff_getElem.mp laws
  obtain ⟨⟨-, again⟩, -⟩ := law 0 4 (by decide) (by decide) (by decide)
  obtain ⟨⟨plain, -⟩, -, equal⟩ := law 0 1 (by decide) (by decide) (by decide)
  refine ⟨(contents 0).2.trans (by decide), again ⟨0, "name", rfl, rfl⟩, equal rfl, ?_⟩
  intro same
  obtain ⟨_, _, -, ⟨⟩⟩ := plain same

end Pools

end ScriptCore
