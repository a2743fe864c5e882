import Mathlib.Order.Bounds.Basic
import Multimethod.Proofs.Matching
import Multimethod.Proofs.PartialRoutes
import Multimethod.Proofs.ReadBack

/-!
# The furthest stops of a call

A call that is not matched is reported with the argument it could not get past and the types that
were expected there. `Tree.stops` says where a call stops, from its partial routes: at each branch
that is reached with an argument left, and at each repeated slot that refuses one of the arguments
that are left. It is defined from the tree; the report is made from a plan, by a walk of its own.

The walk finds these stops in the same order (`routine_stops_eq`), and the report keeps the furthest
of them (`isFurthest_ofStops`). A call that is not matched does stop somewhere (`exists_mem_stops`),
so `run_reports_furthest` holds without any default: the reported position is the greatest position
of a stop, it is one of the call, and the expected types are those of all stops at that position.
-/

set_option autoImplicit false
set_option relaxedAutoImplicit false

namespace Multimethod

/-! ### Stops of partial routes -/

/-- A stop with the conversions that lead to one of the expected types there. -/
structure WiredStop extends Stop where
  wired : List Conversion

/-- The stop of alternatives that refuse one of the arguments from a position on. It is at the first
argument that is neither accepted nor converted to one of them. -/
def Alternatives.stop? (types : TypeTable) (wired : List Conversion) (position : Nat)
    (left : List Value) (alternatives : Alternatives) : Option WiredStop :=
  (left.findIdx? fun value ↦ (alternatives.take? types wired value).isNone).map fun offset ↦
    ⟨⟨position + offset, alternatives.names⟩,
      alternatives.names.flatMap fun name ↦ wired.filter (·.target == name)⟩

/-- The stops at the part that a partial route reaches: a branch if an argument is left, and every
repeated slot that refuses one of the arguments that are left. -/
def PartialRoute.stops (types : TypeTable) (conversions : ConversionTable) (route : PartialRoute) :
    List WiredStop :=
  match route.part, route.left with
  | .leaf _, _ => []
  | .branch _, [] => []
  | .branch children, _ :: _ =>
    [⟨⟨route.taken.length, (types.inOrder children).map Prod.fst⟩,
      conversions.atBranch types children⟩]
  | .remainder slots, left =>
    (types.armsInOrder slots).filterMap fun slot ↦
      slot.1.stop? types (conversions.atRemainder types slots) route.taken.length left

/-- The stops of all partial routes through a tree, in the order in which they are tried. -/
def Tree.stops (types : TypeTable) (conversions : ConversionTable) (tree : Tree)
    (arguments : List Value) : List WiredStop :=
  (tree.partialRoutes types conversions arguments).flatMap (·.stops types conversions)

variable {types : TypeTable} {conversions : ConversionTable}

/-! ### Stops of a plan -/

@[simp] theorem stop?_armOf (wired : List Conversion) (position : Nat) (left : List Value)
    (slot : Alternatives × Clause) :
    (types.armOf wired slot).stop? position left =
      (slot.1.stop? types wired position left).map WiredStop.toStop := by
  have hnames : (types.armOf wired slot).names = slot.1.names := by
    simp [Arm.names, TypeTable.armOf, TypeTable.choiceOf, Function.comp_def]
  simp only [Arm.stop?, Alternatives.stop?, take_armOf, hnames, Option.map_map]
  rfl

/-- The steps of a plan that take an argument are the ways on from its branch. -/
theorem exits_rel_steps {children : List (String × Node)} {direct : List (Step × Plan)}
    (hdirect : List.Forall₂ (Plan.LeadsTo types conversions) (types.inOrder children) direct)
    (value : Value) :
    List.Forall₂ (fun exit step ↦ exit.1 = step.1 ∧
        Plan.ofNode types conversions exit.2 = .ok step.2)
      (Node.exits types conversions children value)
      ((direct ++ ((conversions.atBranch types children).map types.bridgeOf).filterMap
        (Plan.convertedStep direct)).filterMap fun step ↦
          (step.1.take value).map fun taken ↦ (taken, step.2)) := by
  rw [Node.exits, List.filterMap_append, List.filterMap_filterMap, List.filterMap_map]
  refine List.rel_append (List.rel_filterMap (fun child step hstep ↦ ?_) hdirect)
    (List.rel_filterMap (R := Eq) ?_ (List.forall₂_same.mpr fun _ _ ↦ rfl))
  · rw [hstep.1, Step.take]
    cases types.accepts child.1 value with
    | true => exact .some ⟨rfl, hstep.2⟩
    | false => exact .none
  · rintro conversion _ rfl
    have htarget := find?_target_rel hdirect conversion.target
    rw [Function.comp_apply, Plan.convertedStep]
    change Option.Rel _ _
      ((Option.map _ (direct.find? (·.1.expected? == some conversion.target))).bind _)
    beta_reduce
    generalize (types.inOrder children).find? (·.1 == conversion.target) = child? at htarget ⊢
    generalize direct.find? (·.1.expected? == some conversion.target) = step? at htarget ⊢
    cases htarget with
    | none => cases conversion.output? types value <;> exact .none
    | @some child step hstep =>
      rw [Option.map_some, Option.bind_some, Step.take, cross_bridgeOf]
      cases conversion.output? types value with
      | none => exact .none
      | some taken => exact .some ⟨rfl, hstep.2⟩

/-- A plan expects the types of its branch, and nothing for conversions. -/
theorem expected_steps {children : List (String × Node)} {direct : List (Step × Plan)}
    (hdirect : List.Forall₂ (Plan.LeadsTo types conversions) (types.inOrder children) direct)
    (bridges : List Bridge) :
    (direct ++ bridges.filterMap (Plan.convertedStep direct)).filterMap (·.1.expected?) =
      (types.inOrder children).map Prod.fst := by
  have hconverted : (bridges.filterMap (Plan.convertedStep direct)).filterMap
      (·.1.expected?) = [] := by
    rw [List.filterMap_filterMap, List.filterMap_eq_nil_iff]
    intro bridge _
    unfold Plan.convertedStep
    cases direct.find? (·.1.expected? == some bridge.target) <;> rfl
  rw [List.filterMap_append, hconverted, List.append_nil]
  clear hconverted
  generalize types.inOrder children = ordered at hdirect ⊢
  induction hdirect with
  | nil => rfl
  | cons hstep _ ih => rw [List.filterMap_cons, hstep.1, List.map_cons, ← ih]; rfl

/-- The arms of a plan stop where the slots of its remainder stop. -/
theorem remainder_stops_eq {slots : List (Alternatives × Clause)} {plan : Plan}
    (hplan : Plan.ofNode types conversions (.remainder slots) = .ok plan)
    (taken values : List Value) :
    plan.stops taken.length values =
      (PartialRoute.stops types conversions ⟨taken, .remainder slots, values⟩).map
        WiredStop.toStop := by
  rw [Plan.ofNode_remainder_eq_ok hplan, PartialRoute.stops, List.map_filterMap, Plan.stops,
    List.filterMap_map]
  congr 1
  funext slot
  exact stop?_armOf _ taken.length values slot

/-- The stops of a plan are those of the partial routes through its node. -/
theorem plan_stops_eq {node : Node} {plan : Plan}
    (hplan : Plan.ofNode types conversions node = .ok plan) (taken values : List Value) :
    plan.stops taken.length values =
      ((node.partialRoutes types conversions values).flatMap fun route ↦
        (route.after taken).stops types conversions).map WiredStop.toStop := by
  -- One value more is taken at each step below a branch, whichever part of the tree follows.
  induction values generalizing node plan taken with
  | nil =>
    cases node with
    | leaf clause =>
      cases hplan
      rfl
    | branch children =>
      obtain ⟨direct, -, rfl⟩ := Plan.ofNode_branch_eq_ok hplan
      rfl
    | remainder slots =>
      rw [remainder_stops_eq hplan, Node.partialRoutes, List.flatMap_singleton,
        PartialRoute.after, List.append_nil]
  | cons value values ih =>
    cases node with
    | leaf clause =>
      cases hplan
      rfl
    | remainder slots =>
      rw [remainder_stops_eq hplan, Node.partialRoutes, List.flatMap_singleton,
        PartialRoute.after, List.append_nil]
    | branch children =>
      obtain ⟨direct, hdirect, rfl⟩ := Plan.ofNode_branch_eq_ok hplan
      have hbelow : (direct ++ ((conversions.atBranch types children).map
          types.bridgeOf).filterMap (Plan.convertedStep direct)).flatMap (fun step ↦
            if (step.1.take value).isSome then step.2.stops (taken.length + 1) values else []) =
          (Node.exits types conversions children value).flatMap fun exit ↦
            ((exit.2.partialRoutes types conversions values).flatMap fun route ↦
              (route.after (taken ++ [exit.1])).stops types conversions).map WiredStop.toStop := by
        rw [flatMap_eq_of_forall₂ (exits_rel_steps hdirect value)
          (g := fun step ↦ step.2.stops (taken.length + 1) values) ?_, flatMap_filterMap]
        · congr 1
          funext step
          cases step.1.take value <;> rfl
        · intro exit step hexit
          rw [← ih hexit.2, List.length_append, List.length_singleton]
      rw [Plan.stops, expected_steps hdirect, hbelow, Node.partialRoutes, List.flatMap_cons,
        List.map_append, List.flatMap_assoc, List.map_flatMap]
      simp only [List.flatMap_map, PartialRoute.after_after]
      simp [PartialRoute.after, PartialRoute.stops]

/-- A routine stops where its tree stops. -/
theorem routine_stops_eq {tree : Tree} {routine : Routine}
    (hroutine : Routine.ofTree types conversions tree = .ok routine) (arguments : List Value) :
    routine.stops arguments = (tree.stops types conversions arguments).map WiredStop.toStop := by
  rw [Routine.stops, Routine.plansFor, List.flatMap_map, Tree.stops, Tree.partialRoutes,
    List.flatMap_assoc, List.map_flatMap]
  exact (flatMap_eq_of_forall₂ (forall₂_filter_accepts hroutine arguments.length)
    fun group made hmade ↦ (plan_stops_eq hmade.2 [] arguments).symm).symm

/-! ### The furthest of some stops -/

namespace Frontier

/-- The positions of some stops. -/
def positions (stops : List Stop) : Set Nat :=
  {position | ∃ stop ∈ stops, stop.position = position}

/-- A frontier is that of some stops: it has no position if there are none, and else the greatest of
their positions, with the types expected there. -/
structure IsFurthest (stops : List Stop) (frontier : Frontier) : Prop where
  position_none : frontier.position = none → stops = []
  greatest : ∀ position, frontier.position = some position →
    IsGreatest (positions stops) position
  expected_eq : ∀ position, frontier.position = some position →
    frontier.expected =
      ((stops.filter (·.position == position)).flatMap Stop.expected).eraseDups

/-- A stop beyond all the others is the furthest. -/
theorem isFurthest_beyond {stops : List Stop} {stop : Stop}
    (hbeyond : ∀ other ∈ stops, other.position < stop.position) :
    (Frontier.mk (some stop.position) (addNames [] stop.expected)).IsFurthest
      (stops ++ [stop]) where
  position_none := nofun
  greatest := by
    rintro position ⟨⟩
    constructor
    · exact ⟨stop, by simp, rfl⟩
    · rintro _ ⟨other, hother, rfl⟩
      rcases List.mem_append.mp hother with hold | hnew
      · exact (hbeyond other hold).le
      · rw [List.mem_singleton.mp hnew]
  expected_eq := by
    rintro position ⟨⟩
    have hothers : stops.filter (·.position == stop.position) = [] := by
      rw [List.filter_eq_nil_iff]
      intro other hother
      simpa using (hbeyond other hother).ne
    rw [List.filter_append, hothers]
    simpa using addNames_eraseDups [] stop.expected

/-- A stop that is not beyond the greatest position leaves it the greatest. -/
theorem isGreatest_concat {stops : List Stop} {stop : Stop} {position : Nat}
    (hgreatest : IsGreatest (positions stops) position)
    (hle : stop.position ≤ position) :
    IsGreatest (positions (stops ++ [stop])) position := by
  obtain ⟨⟨furthest, hfurthest, hposition⟩, hmax⟩ := hgreatest
  refine ⟨⟨furthest, List.mem_append_left _ hfurthest, hposition⟩, ?_⟩
  rintro _ ⟨other, hother, rfl⟩
  rcases List.mem_append.mp hother with hold | hnew
  · exact hmax ⟨other, hold, rfl⟩
  · rw [List.mem_singleton.mp hnew]
    exact hle

/-- One more stop moves the frontier on or leaves it where it is. -/
theorem IsFurthest.advance {stops : List Stop} {frontier : Frontier}
    (hfurthest : frontier.IsFurthest stops) (stop : Stop) :
    (frontier.advance stop).IsFurthest (stops ++ [stop]) := by
  obtain ⟨reached, expected⟩ := frontier
  cases reached with
  | none =>
    rw [hfurthest.position_none rfl]
    exact isFurthest_beyond (by simp)
  | some position =>
    have hgreatest := hfurthest.greatest position rfl
    have hexpected : expected = _ := hfurthest.expected_eq position rfl
    simp only [Frontier.advance]
    by_cases hnearer : stop.position < position
    · rw [if_pos hnearer]
      refine ⟨nofun, ?_, ?_⟩
      · rintro _ ⟨⟩
        exact isGreatest_concat hgreatest hnearer.le
      · rintro _ ⟨⟩
        simp [hexpected, hnearer.ne]
    · rw [if_neg hnearer]
      by_cases hsame : stop.position = position
      · rw [if_pos hsame]
        refine ⟨nofun, ?_, ?_⟩
        · rintro _ ⟨⟩
          exact isGreatest_concat hgreatest hsame.le
        · rintro _ ⟨⟩
          simp [hexpected, hsame, addNames_eraseDups]
      · rw [if_neg hsame]
        refine isFurthest_beyond fun other hother ↦ ?_
        have hle : other.position ≤ position := hgreatest.2 ⟨other, hother, rfl⟩
        omega

theorem isFurthest_ofStops (stops : List Stop) : (ofStops stops).IsFurthest stops := by
  induction stops using List.reverseRecOn with
  | nil => exact ⟨fun _ ↦ rfl, nofun, nofun⟩
  | append_singleton stops stop ih =>
    rw [ofStops, List.foldl_append, List.foldl_cons, List.foldl_nil]
    exact ih.advance stop

end Frontier

/-! ### Where a call stops -/

/-- Alternatives stop at an argument that they refuse. -/
theorem exists_refused_of_stop? {wired : List Conversion} {position : Nat} {left : List Value}
    {alternatives : Alternatives} {stop : WiredStop}
    (hstop : alternatives.stop? types wired position left = some stop) :
    ∃ offset argument, left[offset]? = some argument ∧
      alternatives.take? types wired argument = none ∧
      stop = ⟨⟨position + offset, alternatives.names⟩,
        alternatives.names.flatMap fun name ↦ wired.filter (·.target == name)⟩ := by
  obtain ⟨offset, hoffset, rfl⟩ := Option.map_eq_some_iff.mp hstop
  obtain ⟨hlt, hrefused, -⟩ := List.findIdx?_eq_some_iff_getElem.mp hoffset
  exact ⟨offset, left[offset], List.getElem?_eq_getElem hlt, Option.isNone_iff_eq_none.mp hrefused,
    rfl⟩

/-- Alternatives that do not take all arguments stop at one of them. -/
theorem exists_stop?_of_mapM_none {wired : List Conversion} {left : List Value}
    {alternatives : Alternatives} (hnone : left.mapM (alternatives.take? types wired) = none)
    (position : Nat) : ∃ stop, alternatives.stop? types wired position left = some stop := by
  obtain ⟨refused, hmem, hrefused⟩ := mapM_eq_none_iff.mp hnone
  rw [← Option.isSome_iff_exists, Alternatives.stop?, Option.isSome_map, List.findIdx?_isSome,
    List.any_eq_true]
  exact ⟨refused, hmem, by rw [hrefused]; rfl⟩

namespace PartialRoute

/-- A stop is at a branch that is reached with an argument left, or at a slot that refuses one of
the arguments that are left. -/
theorem mem_stops_iff {route : PartialRoute} {stop : WiredStop} :
    stop ∈ route.stops types conversions ↔
      (∃ children value values, route.part = .branch children ∧ route.left = value :: values ∧
        stop = ⟨⟨route.taken.length, (types.inOrder children).map Prod.fst⟩,
          conversions.atBranch types children⟩) ∨
      ∃ slots, route.part = .remainder slots ∧ ∃ slot ∈ slots,
        slot.1.stop? types (conversions.atRemainder types slots) route.taken.length route.left =
          some stop := by
  obtain ⟨taken, part, left⟩ := route
  cases part with
  | leaf clause => simp [stops]
  | branch children => cases left <;> simp [stops]
  | remainder slots => simp [stops]

/-- A part without a route for the arguments that it awaits has a stop. -/
theorem exists_mem_stops {route : PartialRoute} (hawaits : route.part.Awaits route.left)
    (hnone : route.part.routes types conversions route.left = []) :
    ∃ stop, stop ∈ route.stops types conversions := by
  obtain ⟨taken, part, left⟩ := route
  cases left with
  | nil =>
    obtain ⟨clause, hleaf⟩ := hawaits.exists_leaf
    cases hleaf
    exact nomatch hnone
  | cons value values =>
    cases part with
    | leaf clause => exact nomatch hnone
    | branch children => exact ⟨_, List.mem_singleton_self _⟩
    | remainder slots =>
      obtain ⟨pattern, clause, hholds⟩ := hawaits.holds
      obtain ⟨alternatives, hslot, -⟩ := (Node.holds_remainder_iff _ _ _).mp hholds
      have hordered : (alternatives, clause) ∈ types.armsInOrder slots := by simpa using hslot
      have hrefused := List.filterMap_eq_nil_iff.mp hnone _ hordered
      obtain ⟨stop, hstop⟩ :=
        exists_stop?_of_mapM_none (Option.map_eq_none_iff.mp hrefused) taken.length
      exact ⟨stop, mem_stops_iff.mpr (Or.inr ⟨slots, rfl, _, hslot, hstop⟩)⟩

/-- A stop is at one of the arguments that are left. -/
theorem exists_left_of_mem_stops {route : PartialRoute} {stop : WiredStop}
    (hstop : stop ∈ route.stops types conversions) :
    ∃ offset argument, stop.position = route.taken.length + offset ∧
      route.left[offset]? = some argument := by
  rcases mem_stops_iff.mp hstop with ⟨children, value, values, -, hleft, rfl⟩ |
    ⟨slots, -, slot, -, hslot⟩
  · exact ⟨0, value, rfl, by rw [hleft]; rfl⟩
  · obtain ⟨offset, argument, hargument, -, rfl⟩ := exists_refused_of_stop? hslot
    exact ⟨offset, argument, rfl, hargument⟩

end PartialRoute

/-- A stop of a call is a stop at a part that is reached from one of the groups. -/
theorem Tree.mem_stops_iff {tree : Tree} {arguments : List Value} {stop : WiredStop} :
    stop ∈ tree.stops types conversions arguments ↔
      ∃ group ∈ tree.groups, group.1.accepts arguments.length = true ∧
        ∃ route, group.2.Reaches types conversions arguments route ∧
          stop ∈ route.stops types conversions := by
  simp only [Tree.stops, Tree.partialRoutes, List.mem_flatMap, List.mem_filter,
    Node.mem_partialRoutes_iff]
  constructor
  · rintro ⟨route, ⟨group, ⟨hgroup, haccepts⟩, hroute⟩, hstop⟩
    exact ⟨group, hgroup, haccepts, route, hroute, hstop⟩
  · rintro ⟨group, hgroup, haccepts, route, hroute, hstop⟩
    exact ⟨route, ⟨group, ⟨hgroup, haccepts⟩, hroute⟩, hstop⟩

/-- A stop of a call is at one of the arguments. -/
theorem Tree.exists_argument_of_mem_stops {tree : Tree} {arguments : List Value} {stop : WiredStop}
    (hstop : stop ∈ tree.stops types conversions arguments) :
    ∃ argument, arguments[stop.position]? = some argument := by
  obtain ⟨group, -, -, route, hreaches, hstop⟩ := Tree.mem_stops_iff.mp hstop
  obtain ⟨offset, argument, hposition, hargument⟩ := PartialRoute.exists_left_of_mem_stops hstop
  rw [hreaches.left_eq_drop, List.getElem?_drop, ← hposition] at hargument
  exact ⟨argument, hargument⟩

/-- Something is expected at every stop of a part. -/
theorem PartialRoute.expected_ne_nil {route : PartialRoute} {stop : WiredStop}
    (hawaits : route.part.Awaits route.left)
    (hstop : stop ∈ route.stops types conversions) : stop.expected ≠ [] := by
  obtain ⟨taken, part, left⟩ := route
  rcases mem_stops_iff.mp hstop with ⟨children, value, values, rfl, -, rfl⟩ |
    ⟨slots, rfl, slot, -, hslot⟩
  · obtain ⟨pattern, clause, hholds⟩ := hawaits.holds
    obtain ⟨child, hchild, -⟩ := (Node.holds_branch_iff _ _ _).mp hholds
    have hordered : child ∈ types.inOrder children := by simpa using hchild
    exact List.ne_nil_of_mem (List.mem_map_of_mem hordered)
  · obtain ⟨offset, argument, -, -, rfl⟩ := exists_refused_of_stop? hslot
    exact slot.1.nonempty

/-! ### The report of a call -/

/-- A report of a wrong type of argument is made only if nothing was selected although there are
plans for the number of arguments, and it is made from the stops. -/
theorem mismatch_of_run {routine : Routine} {function name : Option String} {arguments : List Value}
    {index : Nat} {actual : String} {expected : List String}
    (hrun : routine.run function arguments = .error (.argumentType name index actual expected)) :
    routine.select arguments = none ∧ (routine.plansFor arguments.length).isEmpty = false ∧
      name = function ∧
      index = (Frontier.ofStops (routine.stops arguments)).position.getD 0 ∧
      actual = routine.actualType arguments index ∧
      expected = (Frontier.ofStops (routine.stops arguments)).expected := by
  rw [routine.run_eq_select] at hrun
  cases hselect : routine.select arguments with
  | some selection =>
    rw [hselect] at hrun
    exact nomatch hrun
  | none =>
    rw [hselect] at hrun
    have hmismatch := Except.error.inj hrun
    unfold Routine.mismatch at hmismatch
    cases hempty : (routine.plansFor arguments.length).isEmpty with
    | true =>
      rw [hempty, if_pos rfl] at hmismatch
      exact nomatch hmismatch
    | false =>
      rw [hempty] at hmismatch
      obtain ⟨hname, hindex, hactual, hexpected⟩ := Failure.argumentType.inj hmismatch
      exact ⟨rfl, rfl, hname.symm, hindex.symm, hindex ▸ hactual.symm, hexpected.symm⟩

/-- A call that finds no clause, although some clause takes the number of arguments, stops
somewhere. -/
theorem Tree.Represents.exists_mem_stops {tree : Tree} {clauses : List Clause}
    (hrepresents : tree.Represents clauses) {arguments : List Value} {group : Arity × Node}
    (hgroup : group ∈ tree.groups) (haccepts : group.1.accepts arguments.length = true)
    (hnone : tree.routes types conversions arguments = []) :
    ∃ stop, stop ∈ tree.stops types conversions arguments := by
  have hroutes := List.flatMap_eq_nil_iff.mp hnone group (List.mem_filter.mpr ⟨hgroup, haccepts⟩)
  obtain ⟨stop, hstop⟩ :
      ∃ stop, stop ∈ PartialRoute.stops types conversions ⟨[], group.2, arguments⟩ :=
    PartialRoute.exists_mem_stops (hrepresents.awaits hgroup haccepts) hroutes
  exact ⟨stop, Tree.mem_stops_iff.mpr ⟨group, hgroup, haccepts, _, .here _ _, hstop⟩⟩

/-- A group of a tree takes so many arguments if its routine has a plan for them. -/
theorem exists_group_of_plansFor {tree : Tree} {routine : Routine}
    (hroutine : Routine.ofTree types conversions tree = .ok routine) {count : Nat}
    (hplans : (routine.plansFor count).isEmpty = false) :
    ∃ group ∈ tree.groups, group.1.accepts count = true := by
  rw [Routine.plansFor, List.isEmpty_eq_false_iff_exists_mem] at hplans
  obtain ⟨plan, hplan⟩ := hplans
  obtain ⟨made, hmade, -⟩ := List.mem_map.mp hplan
  obtain ⟨group, hgroup, -⟩ := exists_rel_of_mem_right (forall₂_filter_accepts hroutine count) hmade
  exact ⟨group, List.mem_filter.mp hgroup⟩

/-- A call that is reported for a wrong type of argument has no route and stops somewhere. The
report names the greatest position of a stop and all types expected there, each once. -/
theorem report_of_run {clauses : List Clause} {tree : Tree} {routine : Routine}
    (htree : Tree.ofClauses clauses = .ok tree)
    (hroutine : Routine.ofTree types conversions tree = .ok routine)
    {function name : Option String} {arguments : List Value} {index : Nat} {actual : String}
    {expected : List String}
    (hrun : routine.run function arguments = .error (.argumentType name index actual expected)) :
    tree.routes types conversions arguments = [] ∧
      IsGreatest {position | ∃ stop ∈ tree.stops types conversions arguments,
        stop.position = position} index ∧
      expected = (((tree.stops types conversions arguments).filter
        (·.position == index)).flatMap (·.expected)).eraseDups := by
  obtain ⟨hselect, hplans, -, hindex, -, hexpected⟩ := mismatch_of_run hrun
  rw [select_eq_head?_tree_routes hroutine, List.head?_eq_none_iff] at hselect
  obtain ⟨group, hgroup, haccepts⟩ := exists_group_of_plansFor hroutine hplans
  obtain ⟨stop, hstop⟩ :=
    (Tree.represents_ofClauses htree).exists_mem_stops hgroup haccepts hselect
  have hfurthest := Frontier.isFurthest_ofStops (routine.stops arguments)
  rw [routine_stops_eq hroutine] at hfurthest hindex hexpected
  generalize Frontier.ofStops _ = frontier at hfurthest hindex hexpected
  obtain ⟨reached, found⟩ := frontier
  cases reached with
  | none =>
    have hnone := List.map_eq_nil_iff.mp (hfurthest.position_none rfl)
    rw [hnone] at hstop
    exact (List.not_mem_nil hstop).elim
  | some position =>
    cases hindex
    refine ⟨hselect, ?_, ?_⟩
    · simpa [Frontier.positions] using hfurthest.greatest position rfl
    · rw [hexpected, hfurthest.expected_eq position rfl, List.filter_map, List.flatMap_map]
      rfl

/-- The report of a call that is not matched names how far it got. The routes of the call are the
completions of its partial routes, and there are none. The reported position is the greatest one at
which a partial route stops, there is an argument at it, and the report names the type of this
argument. The expected types are those of all stops at that position, each once and in the order in
which they are tried, and there is at least one. -/
theorem run_reports_furthest (types : TypeTable) (conversions : ConversionTable)
    (clauses : List Clause) (tree : Tree) (routine : Routine)
    (htree : Tree.ofClauses clauses = .ok tree)
    (hroutine : Routine.ofTree types conversions tree = .ok routine)
    (function : Option String) (arguments : List Value) (name : Option String) (index : Nat)
    (actual : String) (expected : List String)
    (hrun : routine.run function arguments = .error (.argumentType name index actual expected)) :
    tree.routes types conversions arguments = (tree.partialRoutes types conversions
        arguments).flatMap (·.completions types conversions) ∧
    tree.routes types conversions arguments = [] ∧
    IsGreatest {position | ∃ stop ∈ tree.stops types conversions arguments,
      stop.position = position} index ∧
    expected = (((tree.stops types conversions arguments).filter
      (·.position == index)).flatMap (·.expected)).eraseDups ∧
    expected.Nodup ∧ expected ≠ [] ∧ name = function ∧
    ∃ argument, arguments[index]? = some argument ∧ actual = types.classify argument := by
  obtain ⟨hnone, hgreatest, hexpected⟩ := report_of_run htree hroutine hrun
  obtain ⟨-, -, hname, -, hactual, -⟩ := mismatch_of_run hrun
  obtain ⟨stop, hstop, rfl⟩ := hgreatest.1
  obtain ⟨argument, hargument⟩ := Tree.exists_argument_of_mem_stops hstop
  refine ⟨tree.routes_eq_completions arguments, hnone, hgreatest, hexpected, ?_, ?_, hname,
    argument, hargument, ?_⟩
  · rw [hexpected]
    exact nodup_eraseDups _
  · have hrepresents := Tree.represents_ofClauses htree
    obtain ⟨group, hgroup, haccepts, route, hreaches, hroute⟩ := Tree.mem_stops_iff.mp hstop
    have hsomething : stop.expected ≠ [] :=
      PartialRoute.expected_ne_nil (hreaches.awaits (hrepresents.awaits hgroup haccepts)) hroute
    obtain ⟨first, hfirst⟩ := List.exists_mem_of_ne_nil _ hsomething
    rw [hexpected]
    exact List.ne_nil_of_mem (List.mem_eraseDups.mpr (List.mem_flatMap.mpr
      ⟨stop, List.mem_filter.mpr ⟨hstop, beq_self_eq_true _⟩, hfirst⟩))
  · rw [hactual, Routine.actualType, hargument, (ofTree_eq_ok hroutine).2]

/-- A boolean and an object stop at the second argument in both groups: two branches and a
repeated slot expect a text or an array there, and each type is named once. -/
theorem run_reports_furthest_overlapping :
    ∃ tree routine, Tree.ofClauses overlapping = .ok tree ∧
      Routine.ofTree .standard wrapping tree = .ok routine ∧
      routine.run none [.boolean true, .object []] =
        .error (.argumentType none 1 "Object" ["string", "Array"]) ∧
      ((tree.stops .standard wrapping [.boolean true, .object []]).map WiredStop.toStop) =
        [⟨0, ["boolean", "*"]⟩, ⟨1, ["string"]⟩, ⟨1, ["Array"]⟩, ⟨0, ["boolean"]⟩,
          ⟨1, ["string", "Array"]⟩] ∧
      IsGreatest {position | ∃ stop ∈ tree.stops .standard wrapping [.boolean true, .object []],
        stop.position = position} 1 := by
  obtain ⟨tree, htree, routine, hroutine, hrun, hstops⟩ :
      ∃ tree, Tree.ofClauses overlapping = .ok tree ∧
        ∃ routine, Routine.ofTree .standard wrapping tree = .ok routine ∧
          routine.run none [.boolean true, .object []] =
            .error (.argumentType none 1 "Object" ["string", "Array"]) ∧
          ((tree.stops .standard wrapping [.boolean true, .object []]).map WiredStop.toStop) =
            [⟨0, ["boolean", "*"]⟩, ⟨1, ["string"]⟩, ⟨1, ["Array"]⟩, ⟨0, ["boolean"]⟩,
              ⟨1, ["string", "Array"]⟩] :=
    ⟨_, rfl, _, rfl, rfl, rfl⟩
  have hreport := run_reports_furthest .standard wrapping overlapping tree routine htree hroutine
    none _ none 1 _ _ hrun
  exact ⟨tree, routine, htree, hroutine, hrun, hstops, hreport.2.2.1⟩

end Multimethod
