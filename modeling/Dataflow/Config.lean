import Dataflow.Wire.JsonText
set_option autoImplicit false

/-! Settings of a graph. -/

namespace Dataflow

structure Config where
  /-- How many reads may stand in one another. -/
  maxDepth : Nat
  /-- Refuse a name that is taken in its network, instead of numbering it. -/
  uniqueNames : Bool
  deriving DecidableEq, Repr

namespace Config

def standard : Config := ⟨512, true⟩

def fieldNames : List String := ["max_evaluation_depth", "unique_names"]

def orElse {α : Type} (read : Wire → Option α) (standard : α) : Option Wire → Option α
  | none => some standard
  | some w => read w

/-- A setting that is missing has its standard value. -/
def ofWire? (w : Wire) : Option Config := do
  match ← w.fields fieldNames with
  | [depth, unique] =>
    let depth ← orElse (fun w => w.asWord?.map UInt64.toNat) standard.maxDepth depth
    let unique ← orElse Wire.asBool? standard.uniqueNames unique
    pure ⟨depth, unique⟩
  | _ => none

def parse (s : String) : Option Config := (Wire.ofJsonText s).bind ofWire?

end Config
end Dataflow
