import Multimethod.ConversionTable
import Multimethod.Tree

/-!
# Plans

A plan is a dispatch tree in which every type name has become a test and every usable conversion a
step of its own, so that a call needs no table. At each branch the steps are in the order in which
they are tried: first the types of the branch by rank, then the conversions that lead to one of
them, which go on where that type goes on.

`Plan.ofNode` makes the plan of a part of a tree and fails when a name is unknown.
-/

set_option autoImplicit false
set_option relaxedAutoImplicit false

namespace Multimethod

/-! ### Steps -/

/-- A conversion with the tests of its two ends. -/
structure Bridge where
  target : String
  /-- The test of the type that the conversion starts from. -/
  starts : Test
  convert : Value → Value
  /-- The test of the target, which the converted value has to pass. -/
  arrives : Test

/-- The converted value, if the conversion applies to a value and gives one of its target. -/
def Bridge.cross (bridge : Bridge) (value : Value) : Option Value :=
  if bridge.starts value && bridge.arrives (bridge.convert value) then
    some (bridge.convert value)
  else
    none

/-- A way to take one argument. -/
inductive Step where
  /-- As it is, if it has a type. -/
  | direct (name : String) (test : Test)
  /-- Converted to the type of a direct step. -/
  | converted (bridge : Bridge)

/-- The argument as the step hands it on, if the step takes it. -/
def Step.take : Step → Value → Option Value
  | .direct _ test, value => if test value then some value else none
  | .converted bridge, value => bridge.cross value

/-- The type that a direct step expects. -/
def Step.expected? : Step → Option String
  | .direct name _ => some name
  | .converted _ => none

/-! ### Arms -/

/-- One alternative of a repeated slot. -/
structure Choice where
  name : String
  test : Test
  /-- The conversions to this alternative. -/
  bridges : List Bridge

/-- A repeated slot and the clause that ends in it. -/
structure Arm where
  choices : List Choice
  clause : Clause

namespace Arm

/-- The types that the arm expects. -/
def names (arm : Arm) : List String :=
  arm.choices.map Choice.name

/-- The conversions to the alternatives, in the order in which they are tried. -/
def bridges (arm : Arm) : List Bridge :=
  arm.choices.flatMap Choice.bridges

/-- An argument as the arm hands it on: as it is if an alternative accepts it, else by the first
conversion that applies. -/
def take (arm : Arm) (value : Value) : Option Value :=
  if arm.choices.any (·.test value) then some value
  else arm.bridges.findSome? (·.cross value)

/-- Arguments as the arm hands them on, if it takes them all. -/
def takeAll (arm : Arm) (values : List Value) : Option (List Value) :=
  values.mapM arm.take

end Arm

/-! ### Plans -/

/-- A dispatch tree with tests in place of names. -/
inductive Plan where
  /-- All arguments are accounted for. -/
  | done (clause : Clause)
  /-- One more argument, by the steps that may take it. -/
  | branch (steps : List (Step × Plan))
  /-- All the remaining arguments, by the arms that may take them. -/
  | collect (arms : List Arm)

namespace Plan

section Making

variable (types : TypeTable) (conversions : ConversionTable)

/-- A conversion with the tests of its two ends. The source is looked up before the target. -/
def bridge (conversion : Conversion) : Except Failure Bridge := do
  let starts ← types.test conversion.source
  let arrives ← types.test conversion.target
  return ⟨conversion.target, starts, conversion.convert, arrives⟩

/-- The conversions that help when one of the targets is expected, with their tests. -/
def bridges (targets : List String) : Except Failure (List Bridge) :=
  (conversions.toward targets).mapM (bridge types)

/-- The direct step to a child whose plan is being made. The type is looked up before a failure of
the plan is reported. -/
def directStep (child : String × Except Failure Plan) : Except Failure (Step × Plan) := do
  let test ← types.test child.1
  let plan ← child.2
  return (.direct child.1 test, plan)

/-- The step of a conversion, which goes on where the direct step to its target goes on. -/
def convertedStep (steps : List (Step × Plan)) (bridge : Bridge) : Option (Step × Plan) :=
  (steps.find? (·.1.expected? == some bridge.target)).map
    fun step ↦ (.converted bridge, step.2)

/-- The plan of a branch, from the plans of its children. -/
def ofChildren (children : List (String × Except Failure Plan)) : Except Failure Plan := do
  let ordered := Rank.sort (fun child ↦ types.rank child.1) children
  let direct ← ordered.mapM (directStep types)
  let bridges ← bridges types conversions (ordered.map Prod.fst)
  return .branch (direct ++ bridges.filterMap (convertedStep direct))

/-- One alternative of a repeated slot with its test and the conversions to it. -/
def choice (bridges : List Bridge) (name : String) : Except Failure Choice := do
  let test ← types.test name
  return ⟨name, test, bridges.filter (·.target == name)⟩

/-- The arm of a repeated slot. -/
def arm (bridges : List Bridge) (slot : Alternatives × Clause) : Except Failure Arm := do
  let choices ← slot.1.names.mapM (choice types bridges)
  return ⟨choices, slot.2⟩

/-- The plan for the repeated slots that may follow the same types. -/
def ofArms (slots : List (Alternatives × Clause)) : Except Failure Plan := do
  let ordered := Rank.sort (fun slot ↦ types.rankOfAny slot.1) slots
  let bridges ← bridges types conversions (ordered.flatMap (·.1.names))
  let arms ← ordered.mapM (arm types bridges)
  return .collect arms

mutual

/-- The plan of a part of a tree. -/
def ofNode : Node → Except Failure Plan
  | .leaf clause => .ok (.done clause)
  | .branch children => ofChildren types conversions (plansOf children)
  | .remainder slots => ofArms types conversions slots

/-- The plans of several parts of a tree, each by its name. -/
def plansOf : List (String × Node) → List (String × Except Failure Plan)
  | [] => []
  | (name, node) :: children => (name, ofNode node) :: plansOf children

end

end Making

end Plan

end Multimethod
