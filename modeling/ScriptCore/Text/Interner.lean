import ScriptCore.Text.Str

/-!
# The string pool

A pool keeps one instance for each text it has been asked for.  Asking again for
a text gives the instance already there, so two strings of one pool are the same
instance exactly when their texts are equal.
-/

namespace ScriptCore

/-- The pooled strings, in the order in which they entered. -/
structure Interner where
  pool : List Str := []
deriving Repr, Inhabited

namespace Interner

/-- The pool's instance of a text, if it has one. -/
def find? (interner : Interner) (text : String) : Option Str :=
  interner.pool.find? fun string => string.text == text

/-- The pool's instance of `text`, which enters with a fresh instance if the pool
has none. -/
def intern (interner : Interner) (supply : Supply) (text : String) :
    Str × Interner × Supply :=
  match interner.find? text with
  | some string => (string, interner, supply)
  | none =>
      let (serial, supply) := supply.fresh
      let string : Str := ⟨text, serial⟩
      (string, ⟨interner.pool ++ [string]⟩, supply)

/-- The number of distinct texts in the pool. -/
def size (interner : Interner) : Nat :=
  interner.pool.length

end Interner

end ScriptCore
