import Multimethod.Proofs.Choices
import Multimethod.Proofs.LookedUp
import Multimethod.Proofs.PartialRoutes

/-!
# Multimethods of one signature

When all the clauses of a tree belong to one signature, all its branches at one depth look alike,
and it does not matter which of them a call takes: `Node.Spans` says so of the tree
(`exists_spans_ofClauses`). So a call is answered slot by slot, without backtracking. `passSlots?`
says what the implementation gets, from the slots alone (`run_of_method`).

A slot of a single argument hands an argument on as it is if an alternative accepts it, and else by
the first wired conversion that applies, in the order of registration (`Alternatives.pass?`).
-/

set_option autoImplicit false
set_option relaxedAutoImplicit false

namespace Multimethod

/-! ### Slot by slot -/

section Passing

variable (types : TypeTable) (conversions : ConversionTable)

/-- An argument as a slot of a single argument hands it on: as it is if one of the alternatives
accepts it, else by the first wired conversion that applies, in the order of registration. -/
def Alternatives.pass? (alternatives : Alternatives) (value : Value) : Option Value :=
  if alternatives.names.any fun name ↦ types.accepts name value then some value
  else
    (conversions.toward alternatives.names).findSome? fun conversion ↦
      conversion.output? types value

/-- What an implementation gets for some arguments, slot by slot. -/
def passSlots? : List Alternatives → Option Alternatives → List Value → Option (List Value)
  | [], none, _ => some []
  | [], some _, [] => none
  | [], some alternatives, value :: values =>
    ((value :: values).mapM
      (alternatives.take? types (conversions.toward alternatives.names))).map
        fun items ↦ [.array items]
  | _ :: _, _, [] => none
  | slot :: slots, rest, value :: values =>
    (slot.pass? types conversions value).bind fun taken ↦
      (passSlots? slots rest values).map fun later ↦ taken :: later

end Passing

/-- The numbers of arguments that the patterns of a signature take. -/
def Signature.arity (signature : Signature) : Arity :=
  match signature.rest with
  | none => .exact signature.fixed.length
  | some _ => .atLeast (signature.fixed.length + 1)

/-- A node leads to one implementation by every choice of alternatives, and to nothing else. -/
inductive Node.Spans (implementation : Implementation) (rest : Option Alternatives) :
    List Alternatives → Node → Prop
  | leaf {clause : Clause} (hrest : rest = none)
      (himplementation : clause.implementation = implementation) :
      Spans implementation rest [] (.leaf clause)
  | remainder {alternatives : Alternatives} {clause : Clause} (hrest : rest = some alternatives)
      (himplementation : clause.implementation = implementation) :
      Spans implementation rest [] (.remainder [(alternatives, clause)])
  | branch {slot : Alternatives} {slots : List Alternatives} {children : List (String × Node)}
      (hnames : ∀ name, name ∈ children.map Prod.fst ↔ name ∈ slot.names)
      (hbelow : ∀ child ∈ children, Spans implementation rest slots child.2) :
      Spans implementation rest (slot :: slots) (.branch children)

/-! ### The tree of one signature -/

theorem length_of_mem_choices {slots : List Alternatives} {names : List String}
    (hnames : names ∈ choices slots) : names.length = slots.length := by
  induction slots generalizing names with
  | nil => rw [List.mem_singleton.mp hnames, List.length_nil, List.length_nil]
  | cons slot slots ih =>
    obtain ⟨name, -, hlater⟩ := List.mem_flatMap.mp hnames
    obtain ⟨later, hmem, rfl⟩ := List.mem_map.mp hlater
    rw [List.length_cons, List.length_cons, ih hmem]

theorem Signature.arity_of_mem_patterns {signature : Signature} {pattern : Pattern}
    (hpattern : pattern ∈ signature.patterns) : pattern.arity = signature.arity := by
  obtain ⟨names, hnames, rfl⟩ := List.mem_map.mp hpattern
  have hlength := length_of_mem_choices hnames
  unfold Pattern.arity arity
  cases signature.rest <;> simp only [hlength]

theorem mem_patterns_cons_iff (slot : Alternatives) (slots : List Alternatives)
    (rest last : Option Alternatives) (name : String) (names : List String) :
    (⟨name :: names, last⟩ : Pattern) ∈ Signature.patterns ⟨slot :: slots, rest⟩ ↔
      name ∈ slot.names ∧ (⟨names, last⟩ : Pattern) ∈ Signature.patterns ⟨slots, rest⟩ := by
  simp only [Signature.patterns, choices, List.mem_map, List.mem_flatMap, Pattern.mk.injEq]
  constructor
  · rintro ⟨_, ⟨first, hfirst, later, hlater, rfl⟩, hsame, hrest⟩
    obtain ⟨rfl, rfl⟩ := List.cons.inj hsame
    exact ⟨hfirst, later, hlater, rfl, hrest⟩
  · rintro ⟨hname, later, hlater, rfl, hrest⟩
    exact ⟨_, ⟨name, hname, later, hlater, rfl⟩, rfl, hrest⟩

namespace Node

section Children

variable {slot : Alternatives} {slots : List Alternatives} {rest : Option Alternatives}
  {children : List (String × Node)}

variable (hholds : ∀ pattern, (∃ clause, (branch children).Holds pattern clause) ↔
  pattern ∈ Signature.patterns ⟨slot :: slots, rest⟩)

include hholds

/-- A branch that holds exactly the patterns of a signature has a child for each alternative of the
first slot. -/
theorem mem_names_iff_of_holds (hfull : (branch children).Full) {names : List String}
    (hnames : names ∈ choices slots) (name : String) :
    name ∈ children.map Prod.fst ↔ name ∈ slot.names := by
  rw [mem_names_iff hfull]
  constructor
  · rintro ⟨below, last, held, hheld⟩
    exact ((mem_patterns_cons_iff _ _ _ _ _ _).mp ((hholds _).mp ⟨held, hheld⟩)).1
  · intro hname
    obtain ⟨held, hheld⟩ := (hholds ⟨name :: names, rest⟩).mpr
      ((mem_patterns_cons_iff _ _ _ _ _ _).mpr ⟨hname, List.mem_map_of_mem hnames⟩)
    exact ⟨names, rest, held, hheld⟩

/-- Each of these children holds exactly the patterns of the later slots. -/
theorem holds_child_iff_of_holds (hdistinct : (branch children).Distinct) {child : String × Node}
    (hchild : child ∈ children) (hslot : child.1 ∈ slot.names) (pattern : Pattern) :
    (∃ clause, child.2.Holds pattern clause) ↔ pattern ∈ Signature.patterns ⟨slots, rest⟩ := by
  obtain ⟨names, last⟩ := pattern
  simp only [← holds_child_iff hdistinct hchild, hholds, mem_patterns_cons_iff]
  exact and_iff_right hslot

end Children

/-- A node that holds exactly the patterns of a signature, all with one implementation, leads to
this implementation by every choice of alternatives. -/
theorem spans_of_holds {implementation : Implementation} {rest : Option Alternatives}
    {slots : List Alternatives} {node : Node} (hfull : node.Full)
    (hdistinct : node.Distinct)
    (hholds : ∀ pattern, (∃ clause, node.Holds pattern clause) ↔
      pattern ∈ Signature.patterns ⟨slots, rest⟩)
    (himplementation : ∀ pattern clause, node.Holds pattern clause →
      clause.implementation = implementation) : node.Spans implementation rest slots := by
  obtain ⟨chosen, hchosen⟩ := exists_mem_choices slots
  obtain ⟨clause, hclause⟩ :=
    (hholds ⟨chosen, rest⟩).mpr (List.mem_map_of_mem hchosen)
  induction slots generalizing node chosen clause with
  | nil =>
    obtain rfl := List.mem_singleton.mp hchosen
    cases node with
    | leaf held =>
      obtain ⟨hpattern, rfl⟩ := (holds_leaf_iff _ _ _).mp hclause
      exact .leaf (congrArg Pattern.rest hpattern) (himplementation _ _ hclause)
    | branch children => exact nomatch hclause
    | remainder arms =>
      obtain ⟨alternatives, hmem, hpattern⟩ := (holds_remainder_iff _ _ _).mp hclause
      have hrest : rest = some alternatives := congrArg Pattern.rest hpattern
      have honly : ∀ arm ∈ arms, arm.1 = alternatives := by
        intro arm harm
        have hheld := List.mem_singleton.mp ((hholds ⟨[], some arm.1⟩).mp ⟨arm.2, .arm harm⟩)
        exact Option.some.inj ((congrArg Pattern.rest hheld).trans hrest)
      cases hdistinct with
      | remainder harms =>
        rw [eq_singleton_of_nodup harms hmem honly]
        exact .remainder hrest (himplementation _ _ hclause)
  | cons slot slots ih =>
    obtain ⟨name, hname, hlater⟩ := List.mem_flatMap.mp hchosen
    obtain ⟨names, hnames, rfl⟩ := List.mem_map.mp hlater
    cases node with
    | leaf held => exact nomatch hclause
    | remainder arms => exact nomatch hclause
    | branch children =>
      have hchildren := mem_names_iff_of_holds hholds hfull hnames
      refine .branch hchildren fun child hchild ↦ ?_
      have hbelow := holds_child_iff_of_holds hholds hdistinct hchild
        ((hchildren child.1).mp (List.mem_map_of_mem hchild))
      obtain ⟨held, hheld⟩ := (hbelow ⟨names, rest⟩).mpr (List.mem_map_of_mem hnames)
      refine ih ?_ ?_ hbelow ?_ names hnames held hheld
      · exact ((full_branch_iff children).mp hfull child hchild).1
      · cases hdistinct with
        | branch _ hparts => exact hparts child hchild
      · exact fun ⟨below, last⟩ other hother ↦ himplementation _ other (.child hchild hother)

end Node

/-- The tree of a method has one group, and all choices of alternatives lead to the implementation
of the method. -/
theorem exists_spans_ofClauses (method : Method) (hnormal : method.signature.IsNormal) :
    ∃ node, Tree.ofClauses method.clauses = .ok ⟨[(method.signature.arity, node)]⟩ ∧
      node.Spans method.implementation method.signature.rest method.signature.fixed := by
  obtain ⟨⟨groups⟩, htree⟩ := Tree.exists_ofClauses (Method.nodup_patterns hnormal)
  have hrepresents := Tree.represents_ofClauses htree
  have harity : ∀ clause ∈ method.clauses, clause.pattern.arity = method.signature.arity :=
    fun clause hclause ↦
      Signature.arity_of_mem_patterns ((method.mem_clauses_iff clause).mp hclause).1
  have hgroups : ∀ group ∈ groups, group.1 = method.signature.arity := by
    intro group hgroup
    obtain ⟨clause, hclause, hsame, -⟩ := hrepresents.uniform group hgroup
    rw [hsame, harity clause hclause]
  obtain ⟨names, hnames⟩ := exists_mem_choices method.signature.fixed
  obtain ⟨⟨arity, node⟩, hgroup, -⟩ := (hrepresents.holds_iff ⟨names, method.signature.rest⟩
    ⟨⟨names, method.signature.rest⟩, method.implementation⟩).mpr
      ⟨(method.mem_clauses_iff _).mpr ⟨List.mem_map_of_mem hnames, rfl⟩, rfl⟩
  obtain rfl : arity = method.signature.arity := hgroups _ hgroup
  refine ⟨node, ?_, Node.spans_of_holds (hrepresents.full _ hgroup)
    (Tree.distinct_ofClauses htree _ hgroup) (fun pattern ↦ ?_) fun pattern clause hholds ↦ ?_⟩
  · have hsingle : groups = [(method.signature.arity, node)] :=
      eq_singleton_of_nodup hrepresents.nodup_arities hgroup hgroups
    rw [htree, hsingle]
  · simp only [hrepresents.holds_group_iff hgroup, method.mem_clauses_iff]
    constructor
    · rintro ⟨clause, ⟨hpattern, -⟩, rfl, -⟩
      exact hpattern
    · intro hpattern
      exact ⟨⟨pattern, method.implementation⟩, ⟨hpattern, rfl⟩, rfl,
        Signature.arity_of_mem_patterns hpattern⟩
  · have hclause := ((hrepresents.holds_group_iff hgroup pattern clause).mp hholds).1
    exact ((method.mem_clauses_iff clause).mp hclause).2

/-! ### The first route -/

variable {types : TypeTable} {conversions : ConversionTable}

/-- The first way on from a branch hands an argument on as the slot does. -/
theorem head?_exits {slot : Alternatives} {children : List (String × Node)}
    (hnames : ∀ name, name ∈ children.map Prod.fst ↔ name ∈ slot.names) (value : Value) :
    (Node.exits types conversions children value).head?.map Prod.fst =
      slot.pass? types conversions value := by
  have hordered : ∀ name, name ∈ (types.inOrder children).map Prod.fst ↔ name ∈ slot.names :=
    fun name ↦ ((Rank.perm_sort _ children).map Prod.fst).mem_iff.trans (hnames name)
  have hwired : conversions.atBranch types children = conversions.toward slot.names :=
    conversions.toward_congr hordered
  rw [Node.exits, hwired, List.head?_append, List.head?_filterMap, List.head?_filterMap,
    Alternatives.pass?]
  by_cases haccepts : (slot.names.any fun name ↦ types.accepts name value) = true
  · rw [if_pos haccepts]
    obtain ⟨name, hname, haccepts⟩ := List.any_eq_true.mp haccepts
    obtain ⟨child, hchild, rfl⟩ := List.mem_map.mp ((hordered name).mpr hname)
    cases hfirst : (types.inOrder children).findSome? fun child ↦
        if types.accepts child.1 value then some (value, child.2) else none with
    | none =>
      have hrefuses := List.findSome?_eq_none_iff.mp hfirst child hchild
      rw [if_pos haccepts] at hrefuses
      exact absurd hrefuses (Option.some_ne_none _)
    | some exit =>
      obtain ⟨found, -, hfound⟩ := List.exists_of_findSome?_eq_some hfirst
      obtain ⟨-, hexit⟩ := Option.ite_none_right_eq_some.mp hfound
      rw [← Option.some.inj hexit]
      rfl
  · rw [if_neg haccepts, List.findSome?_eq_none_iff.mpr fun child hchild ↦ ?_, Option.none_or,
      List.map_findSome?]
    · have htargets : List.Forall₂ (fun first second ↦ first = second ∧ first.target ∈ slot.names)
          (conversions.toward slot.names) (conversions.toward slot.names) :=
        List.forall₂_same.mpr fun conversion hconversion ↦
          ⟨rfl, (ConversionTable.mem_of_mem_toward hconversion).2⟩
      refine findSome?_eq_of_forall₂ htargets ?_
      rintro conversion _ ⟨rfl, htarget⟩
      -- The target of a wired conversion is the name of a child.
      obtain ⟨child, hchild⟩ : ∃ child,
          (types.inOrder children).find? (·.1 == conversion.target) = some child := by
        rw [← Option.isSome_iff_exists, List.find?_isSome]
        obtain ⟨child, hmem, hsame⟩ := List.mem_map.mp ((hordered _).mpr htarget)
        exact ⟨child, hmem, by simpa using hsame⟩
      rw [Function.comp_apply, hchild]
      cases conversion.output? types value <;> rfl
    · have hname := (hordered child.1).mp (List.mem_map_of_mem hchild)
      refine if_neg fun haccept ↦ haccepts ?_
      exact List.any_eq_true.mpr ⟨child.1, hname, haccept⟩

variable (types conversions) in
/-- The first route through a node that leads to one implementation passes what its slots hand
on. -/
theorem Node.Spans.head?_routes {implementation : Implementation} {rest : Option Alternatives}
    {slots : List Alternatives} {node : Node} (hspans : node.Spans implementation rest slots)
    (values : List Value) :
    (node.routes types conversions values).head?.map (fun route ↦
        (route.clause.implementation, route.arguments)) =
      (passSlots? types conversions slots rest values).map (implementation, ·) := by
  induction hspans generalizing values with
  | leaf hrest himplementation =>
    rw [hrest, passSlots?]
    cases values <;> rw [Node.routes, List.head?_cons, Option.map_some, himplementation] <;> rfl
  | @remainder alternatives clause hrest himplementation =>
    rw [hrest]
    cases values with
    | nil => rfl
    | cons value values =>
      have hsingle : types.armsInOrder [(alternatives, clause)] = [(alternatives, clause)] :=
        List.perm_singleton.mp (Rank.perm_sort _ _)
      rw [Node.routes, hsingle, passSlots?, List.flatMap_singleton, List.head?_filterMap,
        List.findSome?_singleton, Option.map_map, Option.map_map]
      simp only [Function.comp_def, himplementation]
  | @branch slot slots children hnames hbelow ih =>
    cases values with
    | nil => rfl
    | cons value values =>
      rw [Node.routes_branch, List.head?_flatMap, List.map_findSome?, passSlots?]
      have hfind : ∀ exit ∈ Node.exits types conversions children value,
          ((exit.2.routes types conversions values).map (·.after [exit.1])).head?.map (fun route ↦
            (route.clause.implementation, route.arguments)) =
          (passSlots? types conversions slots rest values).map fun later ↦
            (implementation, exit.1 :: later) := by
        intro exit hexit
        obtain ⟨child, hchild, hsame, -⟩ := exists_child_of_mem_exits hexit
        have hroute := congrArg (Option.map fun passed : Implementation × List Value ↦
          (passed.1, exit.1 :: passed.2)) (ih child hchild values)
        rw [hsame, Option.map_map, Option.map_map] at hroute
        rw [List.head?_map, Option.map_map]
        exact hroute
      refine (findSome?_eq_bind_head? hfind).trans ?_
      rw [← head?_exits hnames]
      cases (Node.exits types conversions children value).head? <;>
        cases passSlots? types conversions slots rest values <;> rfl

/-! ### Calls -/

/-- A call of a multimethod of one signature, with a number of arguments that the signature takes,
runs the implementation on what the slots hand on. It fails as a mismatch if one of them refuses its
argument. -/
theorem run_of_method {method : Method} (hnormal : method.signature.IsNormal) {tree : Tree}
    (htree : Tree.ofClauses method.clauses = .ok tree) {routine : Routine}
    (hroutine : Routine.ofTree types conversions tree = .ok routine) (function : Option String)
    {arguments : List Value}
    (hcount : method.signature.arity.accepts arguments.length = true) :
    routine.run function arguments =
      match passSlots? types conversions method.signature.fixed method.signature.rest arguments with
      | some passed => .ok (method.implementation.run passed)
      | none => .error (routine.mismatch function arguments) := by
  obtain ⟨node, hsingle, hspans⟩ := exists_spans_ofClauses method hnormal
  obtain rfl := Except.ok.inj (htree.symm.trans hsingle)
  have hroutes : Tree.routes types conversions ⟨[(method.signature.arity, node)]⟩ arguments =
      node.routes types conversions arguments := by
    simp [Tree.routes, hcount]
  have hfirst := hspans.head?_routes types conversions arguments
  rw [run_eq_head?_routes hroutine, hroutes]
  cases hpass : passSlots? types conversions method.signature.fixed method.signature.rest
      arguments with
  | none =>
    rw [hpass, Option.map_none, Option.map_eq_none_iff] at hfirst
    rw [hfirst]
  | some passed =>
    rw [hpass, Option.map_some, Option.map_eq_some_iff] at hfirst
    obtain ⟨route, hroute, hpair⟩ := hfirst
    obtain ⟨himplementation, rfl⟩ := Prod.mk.inj hpair
    rw [hroute, ← himplementation]

/-! ### Names -/

/-- Planning a node that leads to one implementation looks up the names of the slots and the ends of
the conversions to them. -/
theorem Node.Spans.looksUp_iff {implementation : Implementation} {rest : Option Alternatives}
    {slots : List Alternatives} {node : Node} (hspans : node.Spans implementation rest slots)
    (name : String) :
    node.LooksUp conversions name ↔ ∃ slot ∈ slots ++ rest.toList, name ∈ slot.names ∨
      ∃ conversion ∈ conversions.toward slot.names,
        name = conversion.source ∨ name = conversion.target := by
  induction hspans with
  | leaf hrest _ =>
    rw [hrest]
    refine ⟨nofun, ?_⟩
    rintro ⟨slot, hslot, -⟩
    exact absurd hslot List.not_mem_nil
  | @remainder alternatives clause hrest _ =>
    have htargets : [(alternatives, clause)].flatMap (·.1.names) = alternatives.names :=
      List.flatMap_singleton _ _
    simp only [hrest, List.nil_append, Option.toList_some, List.mem_singleton, exists_eq_left]
    constructor
    · intro hlooks
      cases hlooks with
      | alternative hslot hname =>
        rw [List.mem_singleton.mp hslot] at hname
        exact Or.inl hname
      | wiredToSlot hwired hend => exact Or.inr ⟨_, htargets ▸ hwired, hend⟩
    · rintro (hname | ⟨conversion, hwired, hend⟩)
      · exact .alternative (List.mem_singleton_self _) hname
      · exact .wiredToSlot (htargets.symm ▸ hwired) hend
  | @branch slot slots children hnames hbelow ih =>
    have hwired : conversions.toward (children.map Prod.fst) = conversions.toward slot.names :=
      conversions.toward_congr hnames
    rw [List.cons_append, List.exists_mem_cons_iff]
    constructor
    · intro hlooks
      cases hlooks with
      | child hchild => exact Or.inl (Or.inl ((hnames _).mp (List.mem_map_of_mem hchild)))
      | under hchild hname => exact Or.inr ((ih _ hchild).mp hname)
      | wiredToChild hconversion hend => exact Or.inl (Or.inr ⟨_, hwired ▸ hconversion, hend⟩)
    · rintro ((hname | ⟨conversion, hconversion, hend⟩) | hname)
      · obtain ⟨child, hchild, rfl⟩ := List.mem_map.mp ((hnames name).mpr hname)
        exact .child hchild
      · exact .wiredToChild (hwired.symm ▸ hconversion) hend
      · -- The slot has an alternative, so there is a child below which the name is looked up.
        obtain ⟨first, hfirst⟩ := List.exists_mem_of_ne_nil _ slot.nonempty
        obtain ⟨child, hchild, -⟩ := List.mem_map.mp ((hnames first).mpr hfirst)
        exact .under hchild ((ih child hchild).mpr hname)

/-- The routine of one signature can be made exactly if the names of its slots and the ends of the
conversions to them are known. -/
theorem exists_ofTree_of_method {method : Method} (hnormal : method.signature.IsNormal)
    {tree : Tree} (htree : Tree.ofClauses method.clauses = .ok tree) :
    (∃ routine, Routine.ofTree types conversions tree = .ok routine) ↔
      ∀ slot ∈ method.signature.fixed ++ method.signature.rest.toList, ∀ name,
        (name ∈ slot.names ∨ ∃ conversion ∈ conversions.toward slot.names,
          name = conversion.source ∨ name = conversion.target) → types.contains name = true := by
  obtain ⟨node, hsingle, hspans⟩ := exists_spans_ofClauses method hnormal
  obtain rfl := Except.ok.inj (htree.symm.trans hsingle)
  simp only [Routine.exists_ofTree_iff, Tree.LooksUp, List.mem_singleton, exists_eq_left,
    hspans.looksUp_iff]
  exact ⟨fun hall slot hslot name hname ↦ hall name ⟨slot, hslot, hname⟩,
    fun hall name ⟨slot, hslot, hname⟩ ↦ hall slot hslot name hname⟩

end Multimethod
