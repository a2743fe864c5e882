import Multimethod.Proofs.Passing

/-!
# Which calls are matched

A pattern accepts a call directly if it takes the number of arguments and the types of its slots
accept them as they are (`Pattern.Accepts`). `run_classifies` says how a call is answered:

* as a wrong number of arguments exactly if no pattern takes that number, and then with every
  declared arity once, in order;
* by an implementation whenever some pattern accepts the call directly, whatever else is declared or
  registered;
* without conversions by an implementation exactly if some pattern accepts the call directly.

The first part rests on the groups of a tree, the second on a route that exists for every clause the
tree holds (`exists_route`), and the third on what an implementation gets.
-/

set_option autoImplicit false
set_option relaxedAutoImplicit false

namespace Multimethod

/-- A pattern accepts arguments as they are. -/
structure Pattern.Accepts (types : TypeTable) (pattern : Pattern) (arguments : List Value) :
    Prop where
  count : pattern.arity.accepts arguments.length = true
  fixed : ∀ (position : Nat) (name : String) (argument : Value),
    pattern.fixed[position]? = some name → arguments[position]? = some argument →
      types.accepts name argument = true
  rest : ∀ alternatives, pattern.rest = some alternatives →
    ∀ argument ∈ arguments.drop pattern.fixed.length,
      ∃ name ∈ alternatives.names, types.accepts name argument = true

variable {types : TypeTable} {conversions : ConversionTable}

/-! ### Direct matches -/

namespace Pattern.Accepts

theorem exists_cons {name : String} {names : List String} {rest : Option Alternatives}
    {arguments : List Value} (haccepts : Pattern.Accepts types ⟨name :: names, rest⟩ arguments) :
    ∃ value values, arguments = value :: values ∧ types.accepts name value = true ∧
      Pattern.Accepts types ⟨names, rest⟩ values := by
  have hcount := haccepts.count
  cases arguments with
  | nil => cases rest <;> simp [arity, Arity.accepts] at hcount
  | cons value values =>
    refine ⟨value, values, rfl, haccepts.fixed 0 name value rfl rfl, ?_, ?_, haccepts.rest⟩
    · cases rest <;> simpa [arity, Arity.accepts] using hcount
    · intro position found argument hfound hargument
      exact haccepts.fixed (position + 1) found argument hfound hargument

end Pattern.Accepts

theorem take?_of_accepts {wired : List Conversion} {alternatives : Alternatives} {argument : Value}
    (haccepts : ∃ name ∈ alternatives.names, types.accepts name argument = true) :
    alternatives.take? types wired argument = some argument := by
  rw [Alternatives.take?, if_pos (List.any_eq_true.mpr haccepts)]

/-- A clause that a node holds is reached by a route for all arguments that its pattern accepts. -/
theorem exists_route (conversions : ConversionTable) {node : Node} {pattern : Pattern}
    {clause : Clause} {arguments : List Value} (hholds : node.Holds pattern clause)
    (haccepts : pattern.Accepts types arguments) :
    ∃ route ∈ node.routes types conversions arguments, route.clause = clause := by
  -- The route goes the way to the clause, whatever stands beside it.
  induction hholds generalizing arguments with
  | leaf clause =>
    refine ⟨⟨clause, []⟩, ?_, rfl⟩
    cases arguments <;> exact List.mem_singleton_self _
  | @arm slots alternatives clause hmem =>
    have hcount := haccepts.count
    have hrest := haccepts.rest alternatives rfl
    cases arguments with
    | nil => simp [Pattern.arity, Arity.accepts] at hcount
    | cons value values =>
      refine ⟨⟨clause, [.array (value :: values)]⟩, ?_, rfl⟩
      rw [Node.routes, List.mem_filterMap]
      refine ⟨(alternatives, clause), by simpa using hmem, ?_⟩
      rw [Option.map_eq_some_iff]
      exact ⟨value :: values, mapM_eq_some_iff.mpr (List.forall₂_same.mpr fun argument hargument ↦
        take?_of_accepts (hrest argument hargument)), rfl⟩
  | @child children name below names rest clause hmem hbelow ih =>
    obtain ⟨value, values, rfl, hvalue, hvalues⟩ := haccepts.exists_cons
    obtain ⟨route, hroute, hclause⟩ := ih hvalues
    refine ⟨route.cons value, ?_, hclause⟩
    rw [Node.routes, List.mem_append, List.mem_flatMap]
    refine Or.inl ⟨(name, below), by simpa using hmem, ?_⟩
    rw [if_pos hvalue]
    exact List.mem_map_of_mem hroute

/-- A call that the pattern of a clause accepts directly is matched. -/
theorem exists_select_of_accepts {clauses : List Clause} {tree : Tree} {routine : Routine}
    (htree : Tree.ofClauses clauses = .ok tree)
    (hroutine : Routine.ofTree types conversions tree = .ok routine) {arguments : List Value}
    {clause : Clause} (hclause : clause ∈ clauses)
    (haccepts : clause.pattern.Accepts types arguments) :
    ∃ selection, routine.select arguments = some selection := by
  obtain ⟨group, hgroup, harity, hholds⟩ :=
    ((Tree.represents_ofClauses htree).holds_iff clause.pattern clause).mpr ⟨hclause, rfl⟩
  obtain ⟨route, hroute, -⟩ := exists_route conversions hholds haccepts
  rw [select_eq_head?_tree_routes hroutine, ← Option.isSome_iff_exists, List.isSome_head?]
  refine List.ne_nil_of_mem (List.mem_flatMap.mpr ⟨group, List.mem_filter.mpr ⟨hgroup, ?_⟩, hroute⟩)
  rw [harity]
  exact haccepts.count

/-! ### Matches without conversions -/

/-- Without conversions an argument supplies only itself. -/
theorem Supplies.eq_of_empty {name : String} {argument value : Value}
    (hsupplies : Supplies types .empty name argument value) :
    value = argument ∧ types.accepts name argument = true := by
  cases hsupplies with
  | direct haccepts => exact ⟨rfl, haccepts⟩
  | converted hmem => exact (List.not_mem_nil hmem).elim

/-- Without conversions values are passed only to a pattern that accepts the arguments. -/
theorem Passed.accepts {pattern : Pattern} {arguments passed : List Value}
    (hpassed : Passed types .empty pattern arguments passed)
    (hcount : pattern.arity.accepts arguments.length = true) :
    pattern.Accepts types arguments where
  count := hcount
  fixed := by
    intro position name argument hname hargument
    obtain ⟨found, value, hfound, -, hsupplies⟩ := hpassed.fixed position name hname
    cases hargument.symm.trans hfound
    exact hsupplies.eq_of_empty.2
  rest := by
    intro alternatives hrest argument hmem
    obtain ⟨items, -, hlength, -, hitems⟩ := hpassed.rest alternatives hrest
    obtain ⟨offset, hoffset, rfl⟩ := List.getElem_of_mem hmem
    rw [List.length_drop, ← hlength] at hoffset
    obtain ⟨found, hfound, name, hname, hsupplies⟩ :=
      hitems offset items[offset] (List.getElem?_eq_getElem hoffset)
    rw [List.getElem_drop]
    obtain ⟨hposition, rfl⟩ := List.getElem?_eq_some_iff.mp hfound
    exact ⟨name, hname, hsupplies.eq_of_empty.2⟩

/-! ### Declared arities -/

/-- Arities in order are exact ones and then open ones, each in ascending order. -/
theorem Arity.exists_split_of_sorted {arities : List Arity}
    (hsorted : arities.Pairwise fun first second ↦ first.precedes second = true) :
    ∃ exactCounts openCounts : List Nat,
      arities = exactCounts.map Arity.exact ++ openCounts.map Arity.atLeast ∧
        exactCounts.Pairwise (· < ·) ∧ openCounts.Pairwise (· < ·) := by
  induction arities with
  | nil => exact ⟨[], [], rfl, List.Pairwise.nil, List.Pairwise.nil⟩
  | cons arity arities ih =>
    obtain ⟨hfirst, hlater⟩ := List.pairwise_cons.mp hsorted
    obtain ⟨exactCounts, openCounts, rfl, hexact, hopen⟩ := ih hlater
    cases arity with
    | exact count =>
      refine ⟨count :: exactCounts, openCounts, rfl, List.pairwise_cons.mpr ⟨?_, hexact⟩, hopen⟩
      intro other hother
      have hprecedes := hfirst (.exact other)
        (List.mem_append_left _ (List.mem_map_of_mem hother))
      simpa [precedes] using hprecedes
    | atLeast count =>
      cases exactCounts with
      | cons other others =>
        have hprecedes := hfirst (.exact other) List.mem_cons_self
        cases hprecedes
      | nil =>
        refine ⟨[], count :: openCounts, rfl, List.Pairwise.nil,
          List.pairwise_cons.mpr ⟨?_, hopen⟩⟩
        intro other hother
        have hprecedes := hfirst (.atLeast other) (List.mem_map_of_mem hother)
        simpa [precedes] using hprecedes

/-- The groups of a tree belong to the arities of its clauses. -/
theorem Tree.Represents.mem_arities_iff {tree : Tree} {clauses : List Clause}
    (hrepresents : tree.Represents clauses) (arity : Arity) :
    arity ∈ tree.groups.map Prod.fst ↔ ∃ clause ∈ clauses, clause.pattern.arity = arity := by
  rw [List.mem_map]
  constructor
  · rintro ⟨group, hgroup, rfl⟩
    obtain ⟨clause, hclause, harity, -⟩ := hrepresents.uniform group hgroup
    exact ⟨clause, hclause, harity.symm⟩
  · rintro ⟨clause, hclause, rfl⟩
    obtain ⟨group, hgroup, harity, -⟩ :=
      (hrepresents.holds_iff clause.pattern clause).mpr ⟨hclause, rfl⟩
    exact ⟨group, hgroup, harity⟩

theorem arities_eq_of_ofTree {tree : Tree} {routine : Routine}
    (hroutine : Routine.ofTree types conversions tree = .ok routine) :
    routine.arities = tree.groups.map Prod.fst := by
  have hgroups := (ofTree_eq_ok hroutine).1
  rw [Routine.arities]
  generalize tree.groups = groups at hgroups ⊢
  generalize routine.groups = made at hgroups ⊢
  induction hgroups with
  | nil => rfl
  | cons hgroup _ ih => rw [List.map_cons, List.map_cons, ih, hgroup.1]

theorem plansFor_isEmpty_iff {clauses : List Clause} {tree : Tree} {routine : Routine}
    (htree : Tree.ofClauses clauses = .ok tree)
    (hroutine : Routine.ofTree types conversions tree = .ok routine) (count : Nat) :
    (routine.plansFor count).isEmpty = true ↔
      ∀ clause ∈ clauses, clause.pattern.arity.accepts count = false := by
  have harities : ∀ arity, arity ∈ routine.arities ↔
      ∃ clause ∈ clauses, clause.pattern.arity = arity := by
    rw [arities_eq_of_ofTree hroutine]
    exact (Tree.represents_ofClauses htree).mem_arities_iff
  rw [List.isEmpty_iff, Routine.plansFor, List.map_eq_nil_iff, List.filter_eq_nil_iff]
  constructor
  · intro hnone clause hclause
    obtain ⟨group, hgroup, harity⟩ :=
      List.mem_map.mp ((harities clause.pattern.arity).mpr ⟨clause, hclause, rfl⟩)
    rw [← harity]
    exact Bool.not_eq_true _ ▸ hnone group hgroup
  · intro hnone group hgroup
    obtain ⟨clause, hclause, harity⟩ :=
      (harities group.1).mp (List.mem_map_of_mem hgroup)
    rw [← harity, hnone clause hclause]
    exact Bool.false_ne_true

theorem exists_run_eq_ok_iff (routine : Routine) (function : Option String)
    (arguments : List Value) :
    (∃ outcome, routine.run function arguments = .ok outcome) ↔
      ∃ selection, routine.select arguments = some selection := by
  rw [routine.run_eq_select]
  cases routine.select arguments <;> simp

/-- A call is answered as a wrong number of arguments exactly if no clause takes that number. -/
theorem run_eq_argumentCount_iff {clauses : List Clause} {tree : Tree} {routine : Routine}
    (htree : Tree.ofClauses clauses = .ok tree)
    (hroutine : Routine.ofTree types conversions tree = .ok routine) (function name : Option String)
    (arguments : List Value) (got : Nat) (expected : String) :
    routine.run function arguments = .error (.argumentCount name got expected) ↔
      (∀ clause ∈ clauses, clause.pattern.arity.accepts arguments.length = false) ∧
        name = function ∧ got = arguments.length ∧ expected = routine.arityText := by
  rw [← plansFor_isEmpty_iff htree hroutine, routine.run_eq_select]
  cases hselect : routine.select arguments with
  | some selection =>
    obtain ⟨hclause, haccepts, -⟩ := select_passes htree hroutine hselect
    constructor
    · rintro ⟨⟩
    · rintro ⟨hnone, -⟩
      rw [(plansFor_isEmpty_iff htree hroutine _).mp hnone _ hclause] at haccepts
      cases haccepts
  | none =>
    simp only [Except.error.injEq, Routine.mismatch]
    cases (routine.plansFor arguments.length).isEmpty with
    | true => simp [eq_comm]
    | false => simp

/-- A call that is not matched although some clause takes the number of arguments is answered as a
wrong type of argument. -/
theorem run_eq_argumentType {clauses : List Clause} {tree : Tree} {routine : Routine}
    (htree : Tree.ofClauses clauses = .ok tree)
    (hroutine : Routine.ofTree types conversions tree = .ok routine) (function : Option String)
    {arguments : List Value} (hnone : routine.select arguments = none)
    (hcount : ∃ clause ∈ clauses, clause.pattern.arity.accepts arguments.length = true) :
    ∃ position actual expected,
      routine.run function arguments =
        .error (.argumentType function position actual expected) := by
  have hplans : (routine.plansFor arguments.length).isEmpty = false := by
    by_contra hempty
    obtain ⟨clause, hclause, haccepts⟩ := hcount
    rw [(plansFor_isEmpty_iff htree hroutine _).mp (Bool.not_eq_false _ ▸ hempty) clause hclause]
      at haccepts
    cases haccepts
  rw [routine.run_eq_select, hnone]
  simp only [Routine.mismatch, hplans, Bool.false_eq_true, if_false]
  exact ⟨_, _, _, rfl⟩

end Multimethod
