import Multimethod.Proofs.Routes
import Multimethod.Proofs.TreeContents

/-!
# What an implementation gets

An argument becomes a value of a type in one of two ways: it has the type already, or a registered
conversion takes it and gives a value of the type (`Supplies`). `Passed` says of a whole call that
every value an implementation gets is supplied in this way by the argument at its position, and that
the values for a repeated slot are supplied one by one and arrive as one array.

`run_passes` is the main statement: whenever a call is matched, the outcome is that of one of the
clauses, on values that are passed to its pattern. It speaks of the clauses that the tree was built
from and not of the tree.
-/

set_option autoImplicit false
set_option relaxedAutoImplicit false

namespace Multimethod

/-! ### Values of a type -/

section Values

variable (types : TypeTable) (conversions : ConversionTable)

/-- An argument supplies a value of the type of a name. -/
inductive Supplies (name : String) (argument : Value) : Value → Prop
  /-- The argument has the type and stays as it is. -/
  | direct (haccepts : types.accepts name argument = true) : Supplies name argument argument
  /-- A registered conversion to the type takes the argument, and what it gives has the type. -/
  | converted {conversion : Conversion} (hmem : conversion ∈ conversions.conversions)
      (htarget : conversion.target = name)
      (hstarts : types.accepts conversion.source argument = true)
      (harrives : types.accepts name (conversion.convert argument) = true) :
      Supplies name argument (conversion.convert argument)

/-- An argument supplies a value of one of several types. -/
def SuppliesAny (names : List String) (argument value : Value) : Prop :=
  ∃ name ∈ names, Supplies types conversions name argument value

/-- Values are passed for arguments to a pattern: one for every slot, supplied by the argument at
its position, and for a repeated slot an array of values that the remaining arguments supply. -/
structure Passed (pattern : Pattern) (arguments passed : List Value) : Prop where
  length_eq : passed.length = pattern.arity.slotCount
  fixed : ∀ (position : Nat) (name : String), pattern.fixed[position]? = some name →
    ∃ argument value, arguments[position]? = some argument ∧ passed[position]? = some value ∧
      Supplies types conversions name argument value
  rest : ∀ alternatives, pattern.rest = some alternatives →
    ∃ items, passed[pattern.fixed.length]? = some (.array items) ∧
      items.length = arguments.length - pattern.fixed.length ∧ 1 ≤ items.length ∧
      ∀ (offset : Nat) (item : Value), items[offset]? = some item →
        ∃ argument, arguments[pattern.fixed.length + offset]? = some argument ∧
          SuppliesAny types conversions alternatives.names argument item

end Values

variable {types : TypeTable} {conversions : ConversionTable}

/-- What a registered conversion gives is supplied. -/
theorem Supplies.of_output? {conversion : Conversion} {argument value : Value}
    (hmem : conversion ∈ conversions.conversions)
    (houtput : conversion.output? types argument = some value) :
    Supplies types conversions conversion.target argument value := by
  unfold Conversion.output? at houtput
  split at houtput
  · next htests =>
    rw [Bool.and_eq_true] at htests
    cases houtput
    exact .converted hmem rfl htests.1 htests.2
  · cases houtput

/-- What alternatives hand on is supplied for one of them. -/
theorem SuppliesAny.of_take? {wired : List Conversion} {alternatives : Alternatives}
    {argument value : Value} (hwired : ∀ conversion ∈ wired, conversion ∈ conversions.conversions)
    (htake : alternatives.take? types wired argument = some value) :
    SuppliesAny types conversions alternatives.names argument value := by
  unfold Alternatives.take? at htake
  split at htake
  · next haccepts =>
    obtain ⟨name, hname, haccepts⟩ := List.any_eq_true.mp haccepts
    cases htake
    exact ⟨name, hname, .direct haccepts⟩
  · obtain ⟨conversion, hmem, houtput⟩ := List.exists_of_findSome?_eq_some htake
    obtain ⟨name, hname, hmem⟩ := List.mem_flatMap.mp hmem
    obtain ⟨hmem, htarget⟩ := List.mem_filter.mp hmem
    refine ⟨conversion.target, ?_, .of_output? (hwired conversion hmem) houtput⟩
    rw [beq_iff_eq.mp htarget]
    exact hname

/-! ### Passing one value after the other -/

namespace Passed

theorem nil (arguments : List Value) : Passed types conversions ⟨[], none⟩ arguments [] where
  length_eq := rfl
  fixed := by simp
  rest := by simp

/-- An array is passed to a pattern with a repeated slot only. -/
theorem array {alternatives : Alternatives} {arguments items : List Value}
    (hne : arguments ≠ [])
    (hitems : List.Forall₂ (SuppliesAny types conversions alternatives.names) arguments items) :
    Passed types conversions ⟨[], some alternatives⟩ arguments [.array items] where
  length_eq := rfl
  fixed := by simp
  rest := by
    rintro found ⟨⟩
    refine ⟨items, rfl, by simpa using hitems.length_eq.symm, ?_, fun offset item hitem ↦ ?_⟩
    · rw [← hitems.length_eq]
      exact List.length_pos_of_ne_nil hne
    · obtain ⟨hoffset, rfl⟩ := List.getElem?_eq_some_iff.mp hitem
      have hargument : offset < arguments.length := hitems.length_eq ▸ hoffset
      refine ⟨arguments[offset], ?_, hitems.get hargument hoffset⟩
      simp [hargument]

theorem cons {name : String} {names : List String} {rest : Option Alternatives}
    {argument value : Value} {arguments passed : List Value}
    (hvalue : Supplies types conversions name argument value)
    (hpassed : Passed types conversions ⟨names, rest⟩ arguments passed) :
    Passed types conversions ⟨name :: names, rest⟩ (argument :: arguments) (value :: passed) where
  length_eq := by
    have hlength := hpassed.length_eq
    cases rest <;> simpa [Pattern.arity, Arity.slotCount] using hlength
  fixed := by
    intro position found hfound
    cases position with
    | zero =>
      cases hfound
      exact ⟨argument, value, rfl, rfl, hvalue⟩
    | succ position => exact hpassed.fixed position found hfound
  rest := by
    intro alternatives halternatives
    obtain ⟨items, harray, hlength, hpos, hitems⟩ := hpassed.rest alternatives halternatives
    refine ⟨items, harray, by simpa using hlength, hpos, fun offset item hitem ↦ ?_⟩
    obtain ⟨found, hfound, hsupplies⟩ := hitems offset item hitem
    refine ⟨found, ?_, hsupplies⟩
    rw [List.length_cons, Nat.add_right_comm, List.getElem?_cons_succ]
    exact hfound

end Passed

/-! ### Routes pass values -/

/-- A route through a branch goes on through one of the children, with a value that the argument
supplies for it. -/
theorem mem_routes_branch {children : List (String × Node)} {value : Value} {values : List Value}
    {route : Selection}
    (hroute : route ∈ (Node.branch children).routes types conversions (value :: values)) :
    ∃ child ∈ children, ∃ taken, Supplies types conversions child.1 value taken ∧
      ∃ below ∈ child.2.routes types conversions values, route = below.cons taken := by
  rw [Node.routes, List.mem_append, List.mem_flatMap, List.mem_flatMap] at hroute
  rcases hroute with ⟨child, hchild, hroute⟩ | ⟨conversion, hconversion, hroute⟩
  · rw [types.mem_inOrder_iff] at hchild
    split at hroute
    · next haccepts =>
      obtain ⟨below, hbelow, rfl⟩ := List.mem_map.mp hroute
      exact ⟨child, hchild, value, .direct haccepts, below, hbelow, rfl⟩
    · exact (List.not_mem_nil hroute).elim
  · split at hroute
    · next taken child houtput hfind =>
      obtain ⟨below, hbelow, rfl⟩ := List.mem_map.mp hroute
      have hchild : child ∈ children := by simpa using List.mem_of_find?_eq_some hfind
      have htarget : child.1 = conversion.target := by simpa using List.find?_some hfind
      refine ⟨child, hchild, taken, ?_, below, hbelow, rfl⟩
      rw [htarget]
      exact .of_output? (ConversionTable.mem_of_mem_toward hconversion).1 houtput
    · exact (List.not_mem_nil hroute).elim

/-- A route through a remainder ends in one of the slots, with an array of values that the remaining
arguments supply for it. -/
theorem mem_routes_remainder {slots : List (Alternatives × Clause)} {value : Value}
    {values : List Value} {route : Selection}
    (hroute : route ∈ (Node.remainder slots).routes types conversions (value :: values)) :
    ∃ slot ∈ slots, ∃ items,
      List.Forall₂ (SuppliesAny types conversions slot.1.names) (value :: values) items ∧
        route = ⟨slot.2, [.array items]⟩ := by
  rw [Node.routes, List.mem_filterMap] at hroute
  obtain ⟨slot, hslot, hroute⟩ := hroute
  obtain ⟨items, hitems, rfl⟩ := Option.map_eq_some_iff.mp hroute
  refine ⟨slot, by simpa using hslot, items, ?_, rfl⟩
  refine (mapM_eq_some_iff.mp hitems).imp fun argument item htake ↦ ?_
  exact SuppliesAny.of_take?
    (fun conversion hmem ↦ (ConversionTable.mem_of_mem_toward hmem).1) htake

/-- A route ends in a clause that the node holds, and passes values to the pattern that leads
there. -/
theorem route_passes {node : Node} {values : List Value} {route : Selection}
    (hroute : route ∈ node.routes types conversions values) :
    ∃ pattern, node.Holds pattern route.clause ∧
      Passed types conversions pattern values route.arguments := by
  induction values generalizing node route with
  | nil =>
    cases node with
    | leaf clause =>
      cases List.mem_singleton.mp hroute
      exact ⟨_, .leaf clause, .nil []⟩
    | branch _ => exact (List.not_mem_nil hroute).elim
    | remainder _ => exact (List.not_mem_nil hroute).elim
  | cons value values ih =>
    cases node with
    | leaf clause =>
      cases List.mem_singleton.mp hroute
      exact ⟨_, .leaf clause, .nil _⟩
    | branch children =>
      obtain ⟨child, hchild, taken, htaken, below, hbelow, rfl⟩ := mem_routes_branch hroute
      obtain ⟨⟨names, rest⟩, hholds, hpassed⟩ := ih hbelow
      exact ⟨_, .child hchild hholds, hpassed.cons htaken⟩
    | remainder slots =>
      obtain ⟨slot, hslot, items, hitems, rfl⟩ := mem_routes_remainder hroute
      exact ⟨_, .arm hslot, .array (List.cons_ne_nil value values) hitems⟩

/-! ### Matched calls -/

/-- Every selection of a routine is one of the clauses it was made from, which takes so many
arguments, and passes values to the pattern of the clause. -/
theorem select_passes {clauses : List Clause} {tree : Tree} {routine : Routine}
    (htree : Tree.ofClauses clauses = .ok tree)
    (hroutine : Routine.ofTree types conversions tree = .ok routine) {arguments : List Value}
    {selection : Selection} (hselect : routine.select arguments = some selection) :
    selection.clause ∈ clauses ∧
      selection.clause.pattern.arity.accepts arguments.length = true ∧
      Passed types conversions selection.clause.pattern arguments selection.arguments := by
  rw [select_eq_head?_tree_routes hroutine] at hselect
  have hmem := List.mem_of_mem_head? hselect
  rw [Tree.routes, List.mem_flatMap] at hmem
  obtain ⟨group, hgroup, hroute⟩ := hmem
  obtain ⟨hgroup, haccepts⟩ := List.mem_filter.mp hgroup
  obtain ⟨pattern, hholds, hpassed⟩ := route_passes hroute
  have hrepresents := Tree.represents_ofClauses htree
  obtain ⟨hclause, rfl⟩ := hrepresents.clause_of_holds hgroup hholds
  exact ⟨hclause, hrepresents.arity_eq hgroup hholds ▸ haccepts, hpassed⟩

/-- Whenever a call is matched, its outcome is that of a clause which takes so many arguments, on
values that are passed to the pattern of the clause. -/
theorem run_passes (types : TypeTable) (conversions : ConversionTable) (clauses : List Clause)
    (tree : Tree) (routine : Routine) (htree : Tree.ofClauses clauses = .ok tree)
    (hroutine : Routine.ofTree types conversions tree = .ok routine) (function : Option String)
    (arguments : List Value) (outcome : Outcome)
    (hrun : routine.run function arguments = .ok outcome) :
    ∃ clause ∈ clauses, clause.pattern.arity.accepts arguments.length = true ∧
      ∃ passed, outcome = clause.implementation.run passed ∧
        Passed types conversions clause.pattern arguments passed := by
  rw [routine.run_eq_select] at hrun
  cases hselect : routine.select arguments with
  | none =>
    rw [hselect] at hrun
    cases hrun
  | some selection =>
    rw [hselect] at hrun
    obtain ⟨hclause, haccepts, hpassed⟩ := select_passes htree hroutine hselect
    exact ⟨selection.clause, hclause, haccepts, selection.arguments, (Except.ok.inj hrun).symm,
      hpassed⟩

/-- The remaining arguments of a call are collected one by one: an absent value is wrapped by a
conversion, and a text stays as it is. -/
theorem run_passes_overlapping :
    ∃ tree routine outcome, Tree.ofClauses overlapping = .ok tree ∧
      Routine.ofTree .standard wrapping tree = .ok routine ∧
      routine.run none [.boolean true, .null, .string "a"] = .ok outcome ∧
      outcome = .ok (.array [.boolean true, .array [.array [.null], .string "a"]]) ∧
      ∃ clause ∈ overlapping, clause.pattern.arity.accepts 3 = true ∧
        ∃ passed, outcome = clause.implementation.run passed ∧
          Passed .standard wrapping clause.pattern [.boolean true, .null, .string "a"] passed := by
  obtain ⟨tree, htree, routine, hroutine, outcome, hrun, houtcome⟩ :
      ∃ tree, Tree.ofClauses overlapping = .ok tree ∧
        ∃ routine, Routine.ofTree .standard wrapping tree = .ok routine ∧
          ∃ outcome, routine.run none [.boolean true, .null, .string "a"] = .ok outcome ∧
            outcome = .ok (.array [.boolean true, .array [.array [.null], .string "a"]]) :=
    ⟨_, rfl, _, rfl, _, rfl, rfl⟩
  exact ⟨tree, routine, outcome, htree, hroutine, hrun, houtcome,
    run_passes .standard wrapping overlapping tree routine htree hroutine none _ outcome hrun⟩

end Multimethod
