import Multimethod.Engine

/-!
# Setting up an engine

A setup lists what a new engine is to hold. `Engine.ofSetup` adds the types in order and then the
conversions in order, so that a conversion may use any of the types, and fails with the first
failure.
-/

set_option autoImplicit false
set_option relaxedAutoImplicit false

namespace Multimethod

/-- What a new engine is to hold. -/
structure Engine.Setup where
  /-- Whether the engine starts with a type for each kind of value. -/
  withKinds : Bool := true
  /-- Further types, each with whether it goes before the first catch-all type. -/
  types : List (ValueType × Bool) := []
  conversions : List Conversion := []
  ignored : List String := []
  rescue : Option Rescue := none

/-- The engine of a setup. -/
def Engine.ofSetup (setup : Engine.Setup) : Except Failure Engine := do
  let start : TypeTable := if setup.withKinds then .standard else .empty
  let types ← setup.types.foldlM (fun types type ↦ types.add type.1 type.2) start
  let conversions ← setup.conversions.foldlM
    (fun conversions conversion ↦ conversions.add types conversion) ConversionTable.empty
  return ⟨types, conversions, setup.ignored.eraseDups, setup.rescue⟩

end Multimethod
