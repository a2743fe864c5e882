import Multimethod.Proofs.Passing

/-!
# Partial routes through a tree

A call that is not matched still goes some way into its tree. A partial route is such a way: the
values that were handed on, the part of the tree that is reached, and the arguments that are left.
`Node.partialRoutes` lists the partial routes from a node depth first, along the ways that
`Node.exits` lists for one argument: a child that accepts it, or a conversion that helps and
applies. `Node.Reaches` says the same without an order (`mem_partialRoutes_iff`).

Partial routes take the same ways as complete ones: the routes through a node are the completions of
its partial routes, in the same order (`routes_eq_completions`). So nothing that a partial route
reaches has a route if the node has none (`Reaches.routes_eq_nil`), and what it reaches awaits
exactly the arguments that are left (`Reaches.awaits`).
-/

set_option autoImplicit false
set_option relaxedAutoImplicit false

namespace Multimethod

/-! ### Ways on -/

section Ways

variable (types : TypeTable) (conversions : ConversionTable)

/-- The conversions that help at a branch. -/
abbrev ConversionTable.atBranch (children : List (String × Node)) : List Conversion :=
  conversions.toward ((types.inOrder children).map Prod.fst)

/-- The conversions that help at a remainder. -/
abbrev ConversionTable.atRemainder (slots : List (Alternatives × Clause)) : List Conversion :=
  conversions.toward ((types.armsInOrder slots).flatMap (·.1.names))

/-- The ways on from a branch with an argument, in the order in which they are tried: the value that
is handed on and the part that is reached. The children that accept the argument come first, by
rank, and then the conversions that help and apply, each to where its target leads. -/
def Node.exits (children : List (String × Node)) (value : Value) : List (Value × Node) :=
  ((types.inOrder children).filterMap fun child ↦
    if types.accepts child.1 value then some (value, child.2) else none) ++
  (conversions.atBranch types children).filterMap fun conversion ↦
    match conversion.output? types value,
      (types.inOrder children).find? (·.1 == conversion.target) with
    | some taken, some child => some (taken, child.2)
    | _, _ => none

end Ways

variable {types : TypeTable} {conversions : ConversionTable}

/-- A way on leads to one of the children, with a value that the argument supplies for it. -/
theorem exists_child_of_mem_exits {children : List (String × Node)} {value : Value}
    {exit : Value × Node} (hexit : exit ∈ Node.exits types conversions children value) :
    ∃ child ∈ children, child.2 = exit.2 ∧ Supplies types conversions child.1 value exit.1 := by
  rcases List.mem_append.mp hexit with hdirect | hconverted
  · obtain ⟨child, hchild, hsome⟩ := List.mem_filterMap.mp hdirect
    obtain ⟨haccepts, hexit⟩ := Option.ite_none_right_eq_some.mp hsome
    rw [← Option.some.inj hexit]
    exact ⟨child, by simpa using hchild, rfl, .direct haccepts⟩
  · obtain ⟨conversion, hconversion, hsome⟩ := List.mem_filterMap.mp hconverted
    split at hsome
    · next taken child houtput hfind =>
      have hchild : child ∈ children := by simpa using List.mem_of_find?_eq_some hfind
      have htarget : child.1 = conversion.target := by simpa using List.find?_some hfind
      rw [← Option.some.inj hsome]
      refine ⟨child, hchild, rfl, ?_⟩
      rw [htarget]
      exact .of_output? (ConversionTable.mem_of_mem_toward hconversion).1 houtput
    · exact nomatch hsome

/-- There is no way on exactly if no child accepts the argument and no conversion that helps
applies to it. -/
@[simp] theorem exits_eq_nil_iff (children : List (String × Node)) (value : Value) :
    Node.exits types conversions children value = [] ↔
      (∀ child ∈ children, types.accepts child.1 value = false) ∧
        ∀ conversion ∈ conversions.atBranch types children,
          conversion.output? types value = none := by
  rw [Node.exits, List.append_eq_nil_iff, List.filterMap_eq_nil_iff, List.filterMap_eq_nil_iff]
  refine and_congr ?_ (forall₂_congr fun conversion hconversion ↦ ?_)
  · simp
  · -- A conversion that helps leads to a child, so it is a way on if it applies.
    obtain ⟨child, hchild⟩ : ∃ child,
        (types.inOrder children).find? (·.1 == conversion.target) = some child := by
      rw [← Option.isSome_iff_exists, List.find?_isSome]
      obtain ⟨child, hmem, htarget⟩ :=
        List.mem_map.mp (ConversionTable.mem_of_mem_toward hconversion).2
      exact ⟨child, hmem, by simpa using htarget⟩
    rw [hchild]
    cases conversion.output? types value <;> simp

/-! ### Partial routes -/

/-- A way through a tree that need not be complete. -/
structure PartialRoute where
  /-- What was handed on so far. -/
  taken : List Value
  /-- The part of the tree that is reached. -/
  part : Node
  /-- The arguments that are left for this part. -/
  left : List Value

/-- The partial route with some values handed on before the others. -/
def PartialRoute.after (before : List Value) (route : PartialRoute) : PartialRoute :=
  { route with taken := before ++ route.taken }

@[simp] theorem PartialRoute.after_after (first second : List Value) (route : PartialRoute) :
    (route.after second).after first = route.after (first ++ second) := by
  simp [after]

/-- The selection with some arguments before the others. -/
def Selection.after (before : List Value) (selection : Selection) : Selection :=
  { selection with arguments := before ++ selection.arguments }

/-- All partial routes from a node with the given arguments, depth first. -/
def Node.partialRoutes (types : TypeTable) (conversions : ConversionTable) :
    List Value → Node → List PartialRoute
  | [], node => [⟨[], node, []⟩]
  | value :: values, .branch children =>
    ⟨[], .branch children, value :: values⟩ ::
      (exits types conversions children value).flatMap fun exit ↦
        (partialRoutes types conversions values exit.2).map (·.after [exit.1])
  | value :: values, .leaf clause => [⟨[], .leaf clause, value :: values⟩]
  | value :: values, .remainder slots => [⟨[], .remainder slots, value :: values⟩]

/-- All partial routes through a tree for some arguments, group by group. -/
def Tree.partialRoutes (types : TypeTable) (conversions : ConversionTable) (tree : Tree)
    (arguments : List Value) : List PartialRoute :=
  (tree.groups.filter (·.1.accepts arguments.length)).flatMap fun group ↦
    group.2.partialRoutes types conversions arguments

/-- The complete routes that go on from a partial route without another branch. -/
def PartialRoute.completions (types : TypeTable) (conversions : ConversionTable)
    (route : PartialRoute) : List Selection :=
  match route.part with
  | .branch _ => []
  | last => (last.routes types conversions route.left).map (·.after route.taken)

@[simp] theorem PartialRoute.completions_after (before : List Value) (route : PartialRoute) :
    (route.after before).completions types conversions =
      (route.completions types conversions).map (·.after before) := by
  obtain ⟨taken, part, left⟩ := route
  have happend : ∀ selection : Selection,
      selection.after (before ++ taken) = (selection.after taken).after before := by
    intro selection
    simp [Selection.after]
  cases part with
  | branch _ => rfl
  | leaf _ | remainder _ => simp [completions, after, Function.comp_def, happend]

/-! ### Complete routes -/

namespace Node

/-- The routes through a branch go on by its ways on. -/
theorem routes_branch (children : List (String × Node)) (value : Value) (values : List Value) :
    (branch children).routes types conversions (value :: values) =
      (exits types conversions children value).flatMap fun exit ↦
        (exit.2.routes types conversions values).map (·.after [exit.1]) := by
  rw [routes, exits, List.flatMap_append, flatMap_filterMap, flatMap_filterMap]
  congr 1
  · congr 1
    funext child
    cases types.accepts child.1 value <;> rfl
  · congr 1
    funext conversion
    generalize (types.inOrder children).find? (·.1 == conversion.target) = child?
    cases conversion.output? types value <;> cases child? <;> rfl

/-- The routes through a node are the completions of its partial routes. -/
theorem routes_eq_completions (node : Node) (values : List Value) :
    node.routes types conversions values =
      (node.partialRoutes types conversions values).flatMap
        (·.completions types conversions) := by
  induction values generalizing node with
  | nil =>
    cases node <;>
      simp [partialRoutes, PartialRoute.completions, routes, Selection.after]
  | cons value values ih =>
    cases node with
    | leaf _ | remainder _ => simp [partialRoutes, PartialRoute.completions, Selection.after]
    | branch children =>
      rw [routes_branch, partialRoutes, List.flatMap_cons, PartialRoute.completions,
        List.nil_append, List.flatMap_assoc]
      congr 1
      funext exit
      rw [ih, List.map_flatMap, List.flatMap_map]
      congr 1
      funext route
      rw [PartialRoute.completions_after]

end Node

/-- The routes through a tree are the completions of its partial routes. -/
theorem Tree.routes_eq_completions (tree : Tree) (arguments : List Value) :
    tree.routes types conversions arguments =
      (tree.partialRoutes types conversions arguments).flatMap
        (·.completions types conversions) := by
  rw [Tree.routes, Tree.partialRoutes, List.flatMap_assoc]
  congr 1
  funext group
  exact group.2.routes_eq_completions arguments

/-! ### What is reached -/

namespace Node

/-- A partial route leads on from a node with some arguments. -/
inductive Reaches (types : TypeTable) (conversions : ConversionTable) :
    Node → List Value → PartialRoute → Prop
  | here (node : Node) (values : List Value) :
      Reaches types conversions node values ⟨[], node, values⟩
  | beyond {children : List (String × Node)} {value : Value} {values : List Value}
      {exit : Value × Node} {route : PartialRoute}
      (hexit : exit ∈ exits types conversions children value)
      (hbelow : Reaches types conversions exit.2 values route) :
      Reaches types conversions (.branch children) (value :: values) (route.after [exit.1])

@[simp] theorem mem_partialRoutes_iff {node : Node} {values : List Value} {route : PartialRoute} :
    route ∈ node.partialRoutes types conversions values ↔
      node.Reaches types conversions values route := by
  constructor
  · intro hroute
    induction values generalizing node route with
    | nil =>
      rw [List.mem_singleton.mp hroute]
      exact .here node []
    | cons value values ih =>
      cases node with
      | leaf _ | remainder _ =>
        rw [List.mem_singleton.mp hroute]
        exact .here _ _
      | branch children =>
        rcases List.mem_cons.mp hroute with rfl | hbeyond
        · exact .here _ _
        · obtain ⟨exit, hexit, hroute⟩ := List.mem_flatMap.mp hbeyond
          obtain ⟨below, hbelow, rfl⟩ := List.mem_map.mp hroute
          exact .beyond hexit (ih hbelow)
  · intro hreaches
    induction hreaches with
    | here node values =>
      cases values with
      | nil => exact List.mem_singleton_self _
      | cons value values => cases node <;> exact List.mem_cons_self
    | @beyond children value values exit below hexit _ ih =>
      exact List.mem_cons_of_mem _
        (List.mem_flatMap.mpr ⟨exit, hexit, List.mem_map_of_mem ih⟩)

/-- A node holds a clause, as does every part below, and all its clauses take so many arguments. -/
structure Awaits (arguments : List Value) (node : Node) : Prop where
  full : node.Full
  holds : ∃ pattern clause, node.Holds pattern clause
  accepts : ∀ pattern clause, node.Holds pattern clause →
    pattern.arity.accepts arguments.length = true

theorem Awaits.child {children : List (String × Node)} {value : Value} {values : List Value}
    (hawaits : (branch children).Awaits (value :: values)) {child : String × Node}
    (hchild : child ∈ children) : child.2.Awaits values := by
  obtain ⟨hfull, hholds⟩ := (full_branch_iff children).mp hawaits.full child hchild
  refine ⟨hfull, hholds, fun ⟨names, rest⟩ clause hclause ↦ ?_⟩
  have haccepts := hawaits.accepts _ clause (.child hchild hclause)
  cases rest <;> simpa [Pattern.arity, Arity.accepts] using haccepts

/-- Only a leaf awaits no arguments. -/
theorem Awaits.exists_leaf {node : Node} (hawaits : node.Awaits []) :
    ∃ clause, node = .leaf clause := by
  obtain ⟨pattern, clause, hholds⟩ := hawaits.holds
  have haccepts := hawaits.accepts pattern clause hholds
  cases hholds with
  | leaf => exact ⟨clause, rfl⟩
  | arm hmem => exact nomatch haccepts
  | @child _ _ _ _ rest _ => cases rest <;> simp [Pattern.arity, Arity.accepts] at haccepts

namespace Reaches

variable {node : Node} {values : List Value} {route : PartialRoute}

/-- For every argument that is not left, one value was handed on. -/
theorem left_eq_drop (hreaches : node.Reaches types conversions values route) :
    route.left = values.drop route.taken.length := by
  induction hreaches with
  | here _ _ => rfl
  | beyond _ _ ih =>
    rw [PartialRoute.after, ih, List.length_append, List.length_singleton, Nat.add_comm,
      List.drop_succ_cons]

/-- What is reached from a part that is reached is reached. -/
theorem trans {next : PartialRoute} (hreaches : node.Reaches types conversions values route)
    (hnext : route.part.Reaches types conversions route.left next) :
    node.Reaches types conversions values (next.after route.taken) := by
  induction hreaches with
  | here _ _ => exact hnext
  | beyond hexit _ ih => exact .beyond hexit (ih hnext)

theorem routes_eq_nil (hreaches : node.Reaches types conversions values route)
    (hnone : node.routes types conversions values = []) :
    route.part.routes types conversions route.left = [] := by
  induction hreaches with
  | here _ _ => exact hnone
  | @beyond children value values exit below hexit _ ih =>
    rw [routes_branch, List.flatMap_eq_nil_iff] at hnone
    exact ih (List.map_eq_nil_iff.mp (hnone exit hexit))

/-- A clause that a part holds is held by every node that leads to the part. -/
theorem holds {names : List String} {rest : Option Alternatives} {clause : Clause}
    (hreaches : node.Reaches types conversions values route)
    (hholds : route.part.Holds ⟨names, rest⟩ clause) :
    ∃ before, node.Holds ⟨before ++ names, rest⟩ clause := by
  induction hreaches with
  | here _ _ => exact ⟨[], hholds⟩
  | beyond hexit _ ih =>
    obtain ⟨child, hchild, hpart, -⟩ := exists_child_of_mem_exits hexit
    obtain ⟨before, hbelow⟩ := ih hholds
    rw [← hpart] at hbelow
    exact ⟨child.1 :: before, .child hchild hbelow⟩

theorem awaits (hreaches : node.Reaches types conversions values route)
    (hawaits : node.Awaits values) : route.part.Awaits route.left := by
  induction hreaches with
  | here _ _ => exact hawaits
  | beyond hexit _ ih =>
    obtain ⟨child, hchild, hpart, -⟩ := exists_child_of_mem_exits hexit
    exact ih (hpart ▸ hawaits.child hchild)

end Reaches

end Node

/-! ### The groups of a tree -/

namespace Tree.Represents

variable {tree : Tree} {clauses : List Clause}

/-- A group that takes the number of arguments awaits them. -/
theorem awaits (hrepresents : tree.Represents clauses) {group : Arity × Node}
    (hgroup : group ∈ tree.groups) {arguments : List Value}
    (haccepts : group.1.accepts arguments.length = true) : group.2.Awaits arguments where
  full := hrepresents.full group hgroup
  holds := by
    obtain ⟨clause, hclause, harity, -⟩ := hrepresents.uniform group hgroup
    obtain ⟨found, hfound, hsame, hholds⟩ :=
      (hrepresents.holds_iff clause.pattern clause).mpr ⟨hclause, rfl⟩
    rw [hrepresents.eq_of_arity_eq hgroup hfound (harity.trans hsame.symm)]
    exact ⟨clause.pattern, clause, hholds⟩
  accepts := fun pattern clause hholds ↦ hrepresents.arity_eq hgroup hholds ▸ haccepts

end Tree.Represents

end Multimethod
