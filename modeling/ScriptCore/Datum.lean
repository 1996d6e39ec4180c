import ScriptCore.Number.Binary64

/-!
# Host data

Data as the embedding program sees it, before it enters the language.
-/

namespace ScriptCore

/-- A datum of the host. -/
inductive Datum
  | null
  | bool (value : Bool)
  | int (value : Int64)
  | float (value : Binary64)
  | text (value : String)
  | seq (items : List Datum)
  | tuple (items : List Datum)
  | map (entries : List (Datum × Datum))
  | set (items : List Datum)
  /-- Something without a counterpart in the language, described by its type name. -/
  | foreign (typeName : String)
deriving Inhabited

end ScriptCore
