import Mathlib.Data.List.Nodup
import ScriptCore.Machine.Build

/-!
# What a string pool keeps

A pool only grows, and a number is never given twice.  So the instance of a text stays what it is,
and two instances of one pool are the same exactly if their texts are equal.
-/

namespace ScriptCore

namespace Interner

/-- One instance for each text, under a number that was taken from the supply. -/
structure Canonical (interner : Interner) (supply : Supply) : Prop where
  texts : (interner.pool.map Str.text).Nodup
  serials : (interner.pool.map Str.serial).Nodup
  drawn : ∀ string ∈ interner.pool, string.serial < supply.next

/-- A pool and a supply come from earlier ones by pooling texts and taking numbers. -/
structure Extends (before : Interner) (supply : Supply) (after : Interner) (later : Supply) :
    Prop where
  kept : before.pool <+: after.pool
  drawn : supply.next ≤ later.next
  canonical : before.Canonical supply → after.Canonical later

variable {before middle after : Interner} {supply between later : Supply}

namespace Extends

theorem refl (interner : Interner) (supply : Supply) :
    interner.Extends supply interner supply :=
  ⟨List.prefix_refl _, Nat.le_refl _, id⟩

theorem trans (first : before.Extends supply middle between)
    (second : middle.Extends between after later) : before.Extends supply after later :=
  ⟨first.kept.trans second.kept, Nat.le_trans first.drawn second.drawn,
    fun canonical => second.canonical (first.canonical canonical)⟩

/-- Numbers may be taken for other things. -/
theorem of_le (drawn : supply.next ≤ later.next) : before.Extends supply before later := by
  refine ⟨List.prefix_refl _, drawn, fun canonical => ?_⟩
  exact ⟨canonical.texts, canonical.serials, fun string member =>
    Nat.lt_of_lt_of_le (canonical.drawn string member) drawn⟩

/-- A pooled text has the same instance later on. -/
theorem find?_eq (grown : before.Extends supply after later) {text : String} {string : Str}
    (found : before.find? text = some string) : after.find? text = some string := by
  obtain ⟨further, whole⟩ := grown.kept
  rw [find?] at found ⊢
  rw [← whole, List.find?_append, found, Option.some_or]

end Extends

/-- Taking a number leaves the pool alone. -/
theorem extends_fresh (interner : Interner) (supply : Supply) :
    interner.Extends supply interner supply.fresh.2 :=
  .of_le (Nat.le_succ _)

/-- A text enters the pool only if no instance has it, and under a new number. -/
theorem extends_intern (interner : Interner) (supply : Supply) (text : String) :
    interner.Extends supply (interner.intern supply text).2.1
      (interner.intern supply text).2.2 := by
  unfold intern
  cases found : interner.find? text with
  | some string => exact .refl interner supply
  | none =>
      refine ⟨List.prefix_append _ _, Nat.le_succ _, fun canonical => ?_⟩
      constructor
      · rw [List.map_append]
        refine List.nodup_append.mpr ⟨canonical.texts, List.nodup_singleton _, ?_⟩
        simpa [find?] using found
      · rw [List.map_append]
        refine List.nodup_append.mpr ⟨canonical.serials, List.nodup_singleton _, ?_⟩
        simpa [Supply.fresh] using fun string member => Nat.ne_of_lt (canonical.drawn string member)
      · intro string member
        rcases List.mem_append.mp member with old | added
        · exact Nat.lt_succ_of_lt (canonical.drawn string old)
        · rw [List.mem_singleton.mp added]
          exact Nat.lt_succ_self _

/-- Pooling a text gives the instance that the pool then has of it. -/
theorem find?_intern (interner : Interner) (supply : Supply) (text : String) :
    (interner.intern supply text).2.1.find? text = some (interner.intern supply text).1 := by
  unfold intern
  cases found : interner.find? text with
  | some string => exact found
  | none =>
      rw [find?] at found ⊢
      simp [List.find?_append, found]

/-- What comes into the pool is the text that is asked for, under the next number. -/
theorem mem_intern {interner : Interner} {text : String} {string : Str}
    (member : string ∈ (interner.intern supply text).2.1.pool) :
    string ∈ interner.pool ∨ string = ⟨text, supply.next⟩ := by
  unfold intern at member
  cases found : interner.find? text with
  | some pooled =>
      rw [found] at member
      exact .inl member
  | none =>
      rw [found] at member
      exact (List.mem_append.mp member).imp_right List.mem_singleton.mp

theorem text_of_find? {interner : Interner} {text : String} {string : Str}
    (found : interner.find? text = some string) : string.text = text := by
  have matching : (string.text == text) = true :=
    List.find?_some (p := fun string : Str => string.text == text) found
  exact beq_iff_eq.mp matching

/-- Instances of one pool are the same exactly if their texts are equal. -/
theorem Canonical.same_iff {interner : Interner} (canonical : interner.Canonical supply)
    {text other : String} {string also : Str} (found : interner.find? text = some string)
    (alsoFound : interner.find? other = some also) :
    string.same also = true ↔ text = other := by
  rw [Str.same, beq_iff_eq]
  constructor
  · intro serials
    have equal : string = also := List.inj_on_of_nodup_map canonical.serials
      (List.mem_of_find?_eq_some found) (List.mem_of_find?_eq_some alsoFound) serials
    rw [← text_of_find? found, ← text_of_find? alsoFound, equal]
  · rintro rfl
    rw [found] at alsoFound
    rw [Option.some.inj alsoFound]

end Interner

namespace Machine

theorem extends_register (machine : Machine) (name : String) (native : Native) :
    machine.interner.Extends machine.supply (machine.register name native).interner
      (machine.register name native).supply :=
  (machine.interner.extends_intern machine.supply name).trans (Interner.extends_fresh _ _)

/-- The pool of a new machine has one instance for each text. -/
theorem canonical_build (standard : Bool) (natives : List (String × Native)) :
    (build standard natives).interner.Canonical (build standard natives).supply :=
  List.foldlRecOn (motive := fun machine : Machine => machine.interner.Canonical machine.supply)
    _ _ ⟨.nil, .nil, by simp⟩ fun machine canonical registration _ =>
      (machine.extends_register registration.1 registration.2).canonical canonical

end Machine

end ScriptCore
