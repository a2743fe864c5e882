import Multimethod.Dispatcher

/-!
# Engines

An engine holds the types and conversions from which multimethods are built. `Engine.build` collects
methods from its sources, takes them apart into clauses, and makes the routine of their tree; types
that are ignored are dropped from every slot before. `Engine.convert` converts a single value.

An engine changes only through `withType`, `withConversion` and `withoutConversions`, and a change
that fails gives no engine at all, so the old one stays as it is. A multimethod that was built keeps
the types and conversions of its time.
-/

set_option autoImplicit false
set_option relaxedAutoImplicit false

namespace Multimethod

/-- Types, conversions and options from which multimethods are built. -/
structure Engine where
  types : TypeTable
  conversions : ConversionTable
  /-- The types that are dropped from every slot. -/
  ignored : List String
  /-- The rescue of every multimethod that is built. -/
  rescue : Option Rescue

/-- What a multimethod is built from. -/
inductive Source where
  /-- Texts of signatures with implementations. -/
  | entries (list : List (String × Implementation))
  /-- The methods of another multimethod. -/
  | dispatcher (merged : Dispatcher)

namespace Source

/-- The name that a source brings along. -/
def name? : Source → Option String
  | .entries _ => none
  | .dispatcher merged => merged.name

/-- A method table with an entry. -/
def addEntry (table : MethodTable) (entry : String × Implementation) :
    Except Failure MethodTable := do
  table.insert (← Signature.normalForm entry.1, entry.2)

/-- A method table with the methods of a source. -/
def addTo (table : MethodTable) : Source → Except Failure MethodTable
  | .entries list => list.foldlM addEntry table
  | .dispatcher merged => table.insertAll merged.methods.methods

end Source

namespace Engine

/-- The engine with a type for each kind of value, without conversions and options. -/
def standard : Engine :=
  ⟨.standard, .empty, [], none⟩

/-! ### Changes -/

/-- The engine with one more type. -/
def withType (engine : Engine) (type : ValueType) (beforeCatchAll : Bool) :
    Except Failure Engine :=
  (engine.types.add type beforeCatchAll).map fun types ↦ { engine with types }

/-- The engine with one more conversion. -/
def withConversion (engine : Engine) (conversion : Conversion) : Except Failure Engine :=
  (engine.conversions.add engine.types conversion).map
    fun conversions ↦ { engine with conversions }

/-- The engine without its conversions. -/
def withoutConversions (engine : Engine) : Engine :=
  { engine with conversions := .empty }

/-- Whether a type is dropped from every slot. -/
def ignores (engine : Engine) (name : String) : Bool :=
  engine.ignored.contains name

/-! ### Building -/

/-- The name that all the names agree on; empty names do not count. -/
def agreedName (names : List String) : Except Failure (Option String) :=
  match names.filter (!·.isEmpty) with
  | [] => .ok none
  | first :: others =>
    match others.find? (· != first) with
    | some other => .error (.nameConflict first other)
    | none => .ok (some first)

/-- The multimethod of some sources. The given name and those of the sources have to agree. -/
def build (engine : Engine) (name : Option String) (sources : List Source) :
    Except Failure Dispatcher := do
  let name ← agreedName (name.toList ++ sources.filterMap Source.name?)
  let methods ← sources.foldlM Source.addTo MethodTable.empty
  let tree ← Tree.ofClauses (← methods.clauses engine.ignored)
  let routine ← Routine.ofTree engine.types engine.conversions tree
  return ⟨name, methods, routine, engine.rescue⟩

/-! ### Converting -/

/-- The value that the first usable conversion gives. -/
def convertBy (types : TypeTable) (target : Test) (value : Value) :
    List Conversion → Except Failure (Option Value)
  | [] => .ok none
  | conversion :: conversions => do
    let source ← types.test conversion.source
    if source value && target (conversion.convert value) then
      return some (conversion.convert value)
    else
      convertBy types target value conversions

/-- A value as one of a type: as it is if the type accepts it, else by the first conversion to the
type that accepts the value and gives one of the type. -/
def convert (engine : Engine) (value : Value) (target : String) : Outcome := do
  let test ← engine.types.test target
  if test value then
    return value
  else
    match ← convertBy engine.types test value (engine.conversions.into target) with
    | some converted => return converted
    | none => throw (.inconvertible (engine.types.classify value) target)

/-- The engine as a log shows it. -/
def inspect (engine : Engine) : String :=
  Text.record "Typed"
    [("types", engine.types.inspect), ("conversions", engine.conversions.inspect),
      ("ignored", Text.braced (engine.ignored.map Text.quoted)),
      ("on_mismatch", Text.truth engine.rescue.isSome)]

end Engine

end Multimethod
