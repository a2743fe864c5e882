import Multimethod.Proofs.PlanOfNode
import Multimethod.Proofs.Selection

/-!
# Routes through a tree

A route is a way through a dispatch tree that takes all arguments of a call, together with what it
hands on. `Node.routes` lists all routes through a node depth first, from the node, the types and
the conversions alone: no plan, no state and no backtracking is involved. `Tree.routes` lists them
for all groups that take the number of arguments.

The search of a call finds the first route and nothing else (`run_eq_head?_routes`).
-/

set_option autoImplicit false
set_option relaxedAutoImplicit false

namespace Multimethod

/-! ### Routes -/

/-- The converted value, if the conversion takes the value and what it gives has the target type. -/
def Conversion.output? (types : TypeTable) (conversion : Conversion) (value : Value) :
    Option Value :=
  if types.accepts conversion.source value &&
      types.accepts conversion.target (conversion.convert value) then
    some (conversion.convert value)
  else
    none

/-- An argument as alternatives hand it on: as it is if one of them accepts it, else by the first
wired conversion to one of them that applies, the alternatives in order. -/
def Alternatives.take? (types : TypeTable) (wired : List Conversion)
    (alternatives : Alternatives) (value : Value) : Option Value :=
  if alternatives.names.any fun name ↦ types.accepts name value then some value
  else
    (alternatives.names.flatMap fun name ↦ wired.filter (·.target == name)).findSome?
      fun conversion ↦ conversion.output? types value

/-- All routes through a node that take the given arguments, depth first. At a branch the children
that accept the argument come first, by rank, and then the conversions that help at the branch, each
going on where its target goes on. A repeated slot is one route if it takes all arguments. -/
def Node.routes (types : TypeTable) (conversions : ConversionTable) :
    List Value → Node → List Selection
  | _, .leaf clause => [⟨clause, []⟩]
  | [], .branch _ => []
  | value :: values, .branch children =>
    ((types.inOrder children).flatMap fun child ↦
      if types.accepts child.1 value then
        (routes types conversions values child.2).map (·.cons value)
      else
        []) ++
    (conversions.toward ((types.inOrder children).map Prod.fst)).flatMap fun conversion ↦
      match conversion.output? types value,
        (types.inOrder children).find? (·.1 == conversion.target) with
      | some taken, some child => (routes types conversions values child.2).map (·.cons taken)
      | _, _ => []
  | [], .remainder _ => []
  | value :: values, .remainder slots =>
    (types.armsInOrder slots).filterMap fun slot ↦
      ((value :: values).mapM (Alternatives.take? types
        (conversions.toward ((types.armsInOrder slots).flatMap (·.1.names))) slot.1)).map
          fun items ↦ ⟨slot.2, [.array items]⟩

/-- All routes through a tree for some arguments, group by group. -/
def Tree.routes (types : TypeTable) (conversions : ConversionTable) (tree : Tree)
    (arguments : List Value) : List Selection :=
  (tree.groups.filter (·.1.accepts arguments.length)).flatMap fun group ↦
    group.2.routes types conversions arguments

/-! ### The first route of a plan -/

@[simp] theorem cross_bridgeOf (types : TypeTable) (conversion : Conversion) (value : Value) :
    (types.bridgeOf conversion).cross value = conversion.output? types value :=
  rfl

@[simp]
theorem take_armOf (types : TypeTable) (wired : List Conversion) (slot : Alternatives × Clause)
    (value : Value) : (types.armOf wired slot).take value = slot.1.take? types wired value := by
  have hbridges : (types.armOf wired slot).bridges =
      (slot.1.names.flatMap fun name ↦ wired.filter (·.target == name)).map types.bridgeOf := by
    simp only [Arm.bridges, TypeTable.armOf, TypeTable.choiceOf, List.flatMap_map, List.map_flatMap,
      List.filter_map]
    rfl
  rw [Arm.take, Alternatives.take?, hbridges, List.findSome?_map]
  simp only [TypeTable.armOf, List.any_map]
  rfl

@[simp] theorem takeAll_armOf (types : TypeTable) (wired : List Conversion)
    (slot : Alternatives × Clause) (values : List Value) :
    (types.armOf wired slot).takeAll values = values.mapM (slot.1.take? types wired) := by
  rw [Arm.takeAll, funext (take_armOf types wired slot)]

/-- A node without another argument has the same first route as its plan. -/
theorem select_nil_eq_head?_routes {types : TypeTable} {conversions : ConversionTable}
    {node : Node} {plan : Plan} (hplan : Plan.ofNode types conversions node = .ok plan) :
    plan.select [] = (node.routes types conversions []).head? := by
  cases node with
  | leaf clause =>
    cases hplan
    rfl
  | branch children =>
    obtain ⟨direct, -, rfl⟩ := Plan.ofNode_branch_eq_ok hplan
    rfl
  | remainder slots =>
    rw [Plan.ofNode_remainder_eq_ok hplan]
    rfl

/-- The target of a conversion leads to a direct step exactly if it leads to a child, and then to
the step of this child. -/
theorem find?_target_rel {types : TypeTable} {conversions : ConversionTable}
    {children : List (String × Node)} {direct : List (Step × Plan)}
    (hdirect : List.Forall₂ (Plan.LeadsTo types conversions) children direct) (target : String) :
    Option.Rel (Plan.LeadsTo types conversions) (children.find? (·.1 == target))
      (direct.find? (·.1.expected? == some target)) := by
  refine find?_rel_of_forall₂ hdirect fun child step hstep ↦ ?_
  rw [hstep.1]
  rfl

/-- A plan selects the first route through the node it was made from. -/
theorem select_eq_head?_routes {types : TypeTable} {conversions : ConversionTable} {node : Node}
    {plan : Plan} (hplan : Plan.ofNode types conversions node = .ok plan) (values : List Value) :
    plan.select values = (node.routes types conversions values).head? := by
  -- A step below a branch has one argument less, whichever part of the tree it leads to.
  induction values generalizing node plan with
  | nil => exact select_nil_eq_head?_routes hplan
  | cons value values ih =>
    cases node with
    | leaf clause =>
      cases hplan
      rfl
    | remainder slots =>
      rw [Plan.ofNode_remainder_eq_ok hplan, Plan.select, Node.routes, List.head?_filterMap,
        List.findSome?_map]
      congr 1
      funext slot
      rw [Function.comp_apply, Arm.select, takeAll_armOf]
      rfl
    | branch children =>
      obtain ⟨direct, hdirect, rfl⟩ := Plan.ofNode_branch_eq_ok hplan
      rw [Plan.select, Node.routes, List.findSome?_append, List.head?_append, List.head?_flatMap,
        List.head?_flatMap]
      have hbelow : ∀ child step, Plan.LeadsTo types conversions child step → ∀ taken,
          (step.2.select values).map (·.cons taken) =
            ((child.2.routes types conversions values).map (·.cons taken)).head? := by
        intro child step hstep taken
        rw [List.head?_map, ih hstep.2]
      congr 1
      · refine (findSome?_eq_of_forall₂ hdirect fun child step hstep ↦ ?_).symm
        rw [hstep.1, Step.take]
        cases types.accepts child.1 value with
        | true => exact (hbelow child step hstep value).symm
        | false => rfl
      · rw [← List.head?_filterMap, List.filterMap_filterMap, List.head?_filterMap,
          List.findSome?_map]
        congr 1
        funext conversion
        have htarget := find?_target_rel hdirect conversion.target
        rw [Function.comp_apply, Plan.convertedStep]
        change (Option.map _ (direct.find? (·.1.expected? == some conversion.target))).bind _ = _
        generalize (types.inOrder children).find? (·.1 == conversion.target) = child? at htarget ⊢
        generalize direct.find? (·.1.expected? == some conversion.target) = step? at htarget ⊢
        cases htarget with
        | none => cases conversion.output? types value <;> rfl
        | @some child step hstep =>
          rw [Option.map_some, Option.bind_some, Step.take, cross_bridgeOf]
          cases conversion.output? types value with
          | none => rfl
          | some taken => exact hbelow child step hstep taken

/-! ### The first route of a call -/

/-- A routine has a plan for every group of the tree, under the same arity. -/
def IsPlanOf (types : TypeTable) (conversions : ConversionTable) (group : Arity × Node)
    (made : Arity × Plan) : Prop :=
  made.1 = group.1 ∧ Plan.ofNode types conversions group.2 = .ok made.2

theorem ofTree_eq_ok {types : TypeTable} {conversions : ConversionTable} {tree : Tree}
    {routine : Routine} (hroutine : Routine.ofTree types conversions tree = .ok routine) :
    List.Forall₂ (IsPlanOf types conversions) tree.groups routine.groups ∧
      routine.types = types := by
  obtain ⟨groups, hgroups, hpure⟩ := bind_eq_ok_iff.mp hroutine
  cases hpure
  refine ⟨(mapM_eq_ok_iff.mp hgroups).imp fun group made hmade ↦ ?_, rfl⟩
  obtain ⟨plan, hplan, rfl⟩ := map_eq_ok_iff.mp hmade
  exact ⟨rfl, hplan⟩

/-- The plans for a number of arguments are those of the groups that take this number. -/
theorem forall₂_filter_accepts {types : TypeTable} {conversions : ConversionTable} {tree : Tree}
    {routine : Routine} (hroutine : Routine.ofTree types conversions tree = .ok routine)
    (count : Nat) :
    List.Forall₂ (IsPlanOf types conversions) (tree.groups.filter (·.1.accepts count))
      (routine.groups.filter (·.1.accepts count)) := by
  refine List.rel_filter (fun group made hmade ↦ ?_) (ofTree_eq_ok hroutine).1
  change (group.1.accepts _ = true) ↔ (made.1.accepts _ = true)
  rw [hmade.1]

/-- The search of a routine selects the first route through its tree. -/
theorem select_eq_head?_tree_routes {types : TypeTable} {conversions : ConversionTable}
    {tree : Tree} {routine : Routine}
    (hroutine : Routine.ofTree types conversions tree = .ok routine) (arguments : List Value) :
    routine.select arguments = (tree.routes types conversions arguments).head? := by
  rw [Routine.select, Routine.plansFor, List.findSome?_map, Tree.routes, List.head?_flatMap]
  exact (findSome?_eq_of_forall₂ (forall₂_filter_accepts hroutine arguments.length)
    fun group made hmade ↦ (select_eq_head?_routes hmade.2 arguments).symm).symm

@[simp] theorem Routine.isMismatch_mismatch (routine : Routine) (function : Option String)
    (arguments : List Value) : (routine.mismatch function arguments).isMismatch = true := by
  unfold mismatch
  split <;> rfl

theorem run_eq_head?_routes {types : TypeTable} {conversions : ConversionTable} {tree : Tree}
    {routine : Routine} (hroutine : Routine.ofTree types conversions tree = .ok routine)
    (function : Option String) (arguments : List Value) :
    routine.run function arguments =
      match (tree.routes types conversions arguments).head? with
      | some route => .ok (route.clause.implementation.run route.arguments)
      | none => .error (routine.mismatch function arguments) := by
  rw [routine.run_eq_select, select_eq_head?_tree_routes hroutine]
  rfl

/-- A call runs the first route through the tree on what the route hands on. If there is no route,
the call fails as a mismatch. -/
theorem run_eq_first_route (types : TypeTable) (conversions : ConversionTable) (tree : Tree)
    (routine : Routine) (hroutine : Routine.ofTree types conversions tree = .ok routine)
    (function : Option String) (arguments : List Value) :
    (routine.run function arguments =
      match (tree.routes types conversions arguments).head? with
      | some route => .ok (route.clause.implementation.run route.arguments)
      | none => .error (routine.mismatch function arguments)) ∧
    (routine.mismatch function arguments).isMismatch = true :=
  ⟨run_eq_head?_routes hroutine function arguments,
    routine.isMismatch_mismatch function arguments⟩

/-- Three clauses that overlap: one for exactly two arguments, one with a wildcard in front, and one
for any further number of arguments. -/
def overlapping : List Clause :=
  [⟨⟨["boolean", "string"], none⟩, ⟨0, fun _ ↦ .ok .null⟩⟩,
    ⟨⟨["*", "Array"], none⟩, ⟨1, fun passed ↦ .ok (.array passed)⟩⟩,
    ⟨⟨["boolean"], some (.mk ["string", "Array"])⟩, ⟨2, fun passed ↦ .ok (.array passed)⟩⟩]

/-- One conversion, which wraps an absent value. -/
def wrapping : ConversionTable :=
  ⟨[⟨"null", "Array", fun value ↦ .array [value]⟩]⟩

/-- The first child that accepts the first argument leads nowhere, so the search goes back and takes
the wildcard, where the second argument is converted. -/
theorem run_eq_first_route_overlapping :
    ∃ tree routine, Tree.ofClauses overlapping = .ok tree ∧
      Routine.ofTree .standard wrapping tree = .ok routine ∧
      routine.run none [.boolean true, .null] =
        .ok (.ok (.array [.boolean true, .array [.null]])) := by
  obtain ⟨tree, htree, routine, hroutine, hfirst⟩ : ∃ tree, Tree.ofClauses overlapping = .ok tree ∧
      ∃ routine, Routine.ofTree .standard wrapping tree = .ok routine ∧
        ((tree.routes .standard wrapping [.boolean true, .null]).head?.map Selection.outcome) =
          some (.ok (.array [.boolean true, .array [.null]])) :=
    ⟨_, rfl, _, rfl, rfl⟩
  refine ⟨tree, routine, htree, hroutine, ?_⟩
  obtain ⟨route, hroute, houtcome⟩ := Option.map_eq_some_iff.mp hfirst
  rw [(run_eq_first_route .standard wrapping tree routine hroutine none _).1, hroute]
  exact congrArg Except.ok houtcome

end Multimethod
