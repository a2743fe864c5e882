import Multimethod.Plan.Search
import Multimethod.Plan.Stops

/-!
# Routines

A routine answers calls: it holds a plan for each arity, in the order in which they are tried, and
the types that existed when it was made. `Routine.run` searches the plans for a clause that takes
the arguments, and `Routine.mismatch` says why there is none. An outcome of an implementation,
failures included, is never taken for a mismatch.
-/

set_option autoImplicit false
set_option relaxedAutoImplicit false

namespace Multimethod

/-- The plans of a multimethod by arity. -/
structure Routine where
  /-- The plans, in the order in which calls try their arities. -/
  groups : List (Arity × Plan)
  /-- The types that name the actual type of an argument. -/
  types : TypeTable

namespace Routine

/-! ### Making a routine -/

/-- The plan for an arity. -/
def planGroup (types : TypeTable) (conversions : ConversionTable) (group : Arity × Node) :
    Except Failure (Arity × Plan) :=
  (Plan.ofNode types conversions group.2).map fun plan ↦ (group.1, plan)

/-- The routine of a tree, with the types and conversions that exist now. -/
def ofTree (types : TypeTable) (conversions : ConversionTable) (tree : Tree) :
    Except Failure Routine := do
  let groups ← tree.groups.mapM (planGroup types conversions)
  return ⟨groups, types⟩

/-! ### Arities -/

/-- The arities, in the order in which calls try them. -/
def arities (routine : Routine) : List Arity :=
  routine.groups.map Prod.fst

/-- The largest number of slots of a signature. -/
def width (routine : Routine) : Nat :=
  routine.arities.foldr (fun arity width ↦ max arity.slotCount width) 0

/-- The arities in messages. -/
def arityText (routine : Routine) : String :=
  if routine.groups.isEmpty then "none"
  else Failure.alternatives (routine.arities.map Arity.text)

/-- The plans for so many arguments. -/
def plansFor (routine : Routine) (count : Nat) : List Plan :=
  (routine.groups.filter (·.1.accepts count)).map Prod.snd

/-! ### Calls -/

/-- The places where a call stops, in the order in which they are tried. -/
def stops (routine : Routine) (arguments : List Value) : List Stop :=
  (routine.plansFor arguments.length).flatMap (·.stops 0 arguments)

/-- The type of the argument at a position. -/
def actualType (routine : Routine) (arguments : List Value) (position : Nat) : String :=
  match arguments[position]? with
  | some argument => routine.types.classify argument
  | none => "undefined"

/-- The failure of a call for which there is no clause. -/
def mismatch (routine : Routine) (function : Option String) (arguments : List Value) :
    Failure :=
  if (routine.plansFor arguments.length).isEmpty then
    .argumentCount function arguments.length routine.arityText
  else
    let frontier := Frontier.ofStops (routine.stops arguments)
    let position := frontier.position.getD 0
    .argumentType function position (routine.actualType arguments position) frontier.expected

/-- The outcome of the first clause that takes some arguments, or the failure to find one. -/
def run (routine : Routine) (function : Option String) (arguments : List Value) :
    Except Failure Outcome :=
  match ((Plan.attemptAny (routine.plansFor arguments.length) arguments).run []).1 with
  | some outcome => .ok outcome
  | none => .error (routine.mismatch function arguments)

end Routine

end Multimethod
