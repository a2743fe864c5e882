import Multimethod.Proofs.Furthest

/-!
# Conversions as a fallback

A conversion is tried where no type accepts an argument as it is, but only within one branch and
within one repeated slot. It is no fallback for a call as a whole. A repeated slot that is tried
earlier may convert arguments that a later slot accepts as they are (`run_in_remainder`), and a type
that is tried earlier may lead to a conversion although the way through a later type needs none
(`run_with_conversions`). Both theorems say which clauses can come first in this way and how far the
arguments stay as they are.
-/

set_option autoImplicit false
set_option relaxedAutoImplicit false

namespace Multimethod

variable {types : TypeTable} {conversions : ConversionTable}

/-! ### Repeated slots -/

/-- Alternatives accept every one of some arguments as it is. -/
def Alternatives.AcceptAll (types : TypeTable) (alternatives : Alternatives)
    (arguments : List Value) : Prop :=
  ∀ argument ∈ arguments, ∃ name ∈ alternatives.names, types.accepts name argument = true

/-- Arguments that alternatives accept are handed on as they are. -/
theorem mapM_take?_of_acceptAll {alternatives : Alternatives} {arguments : List Value}
    (haccept : alternatives.AcceptAll types arguments) (wired : List Conversion) :
    arguments.mapM (alternatives.take? types wired) = some arguments :=
  mapM_eq_some_iff.mpr (List.forall₂_same.mpr fun argument hargument ↦
    take?_of_accepts (haccept argument hargument))

/-- The first slot of a remainder that takes all arguments completes the route. -/
theorem head?_completions_remainder {taken left : List Value}
    {slots : List (Alternatives × Clause)} (hleft : left ≠ []) {direct : Alternatives × Clause}
    (hdirect : direct ∈ slots) (haccept : direct.1.AcceptAll types left) :
    ∃ before chosen after items, types.armsInOrder slots = before ++ chosen :: after ∧
      (∀ slot ∈ before, ∃ argument ∈ left,
        slot.1.take? types (conversions.atRemainder types slots) argument = none) ∧
      direct ∈ chosen :: after ∧
      left.mapM (chosen.1.take? types (conversions.atRemainder types slots)) = some items ∧
      (PartialRoute.completions types conversions ⟨taken, .remainder slots, left⟩).head? =
        some ⟨chosen.2, taken ++ [.array items]⟩ := by
  obtain ⟨value, values, rfl⟩ := List.exists_cons_of_ne_nil hleft
  have hordered : direct ∈ types.armsInOrder slots := by simpa using hdirect
  have hsome := mapM_take?_of_acceptAll haccept (conversions.atRemainder types slots)
  obtain ⟨route, hroute⟩ : ∃ route, ((Node.remainder slots).routes types conversions
      (value :: values)).head? = some route := by
    rw [← Option.isSome_iff_exists, List.isSome_head?]
    exact List.ne_nil_of_mem (List.mem_filterMap.mpr ⟨direct, hordered, by rw [hsome]; rfl⟩)
  have hfirst := hroute
  rw [Node.routes, List.head?_filterMap, List.findSome?_eq_some_iff] at hfirst
  obtain ⟨before, chosen, after, hsplit, hchosen, hbefore⟩ := hfirst
  obtain ⟨items, hitems, rfl⟩ := Option.map_eq_some_iff.mp hchosen
  refine ⟨before, chosen, after, items, hsplit, fun slot hslot ↦ ?_, ?_, hitems, ?_⟩
  · exact mapM_eq_none_iff.mp (Option.map_eq_none_iff.mp (hbefore slot hslot))
  · rw [hsplit] at hordered
    refine (List.mem_append.mp hordered).resolve_left fun hearlier ↦ ?_
    have hnone := Option.map_eq_none_iff.mp (hbefore direct hearlier)
    rw [hsome] at hnone
    cases hnone
  · rw [PartialRoute.completions, List.head?_map, hroute]
    rfl

/-- When a call is answered at a remainder where some slot accepts all remaining arguments as they
are, it is answered by the first slot that takes them all, by whatever conversions. That slot is the
accepting one or is tried before it, so its rank is not greater; every slot before it refuses an
argument. It gets the arguments as they are if it accepts all of them. -/
theorem run_in_remainder (types : TypeTable) (conversions : ConversionTable)
    (clauses : List Clause) (tree : Tree) (routine : Routine)
    (htree : Tree.ofClauses clauses = .ok tree)
    (hroutine : Routine.ofTree types conversions tree = .ok routine) (function : Option String)
    (arguments : List Value) (earlier later : List PartialRoute) (taken left : List Value)
    (slots : List (Alternatives × Clause)) (direct : Alternatives × Clause)
    (hroutes : tree.partialRoutes types conversions arguments =
      earlier ++ ⟨taken, .remainder slots, left⟩ :: later)
    (hearlier : ∀ route ∈ earlier, route.completions types conversions = [])
    (hdirect : direct ∈ slots) (haccept : direct.1.AcceptAll types left) :
    ∃ before chosen after items, types.armsInOrder slots = before ++ chosen :: after ∧
      (∀ slot ∈ before, ∃ argument ∈ left,
        slot.1.take? types (conversions.atRemainder types slots) argument = none) ∧
      direct ∈ chosen :: after ∧
      (types.rankOfAny chosen.1).level ≤ (types.rankOfAny direct.1).level ∧
      List.Forall₂ (fun argument item ↦
        chosen.1.take? types (conversions.atRemainder types slots) argument = some item)
        left items ∧
      (chosen.1.AcceptAll types left → items = left) ∧
      routine.run function arguments =
        .ok (chosen.2.implementation.run (taken ++ [.array items])) := by
  have hleft : left ≠ [] := by
    have hmem :
        ⟨taken, .remainder slots, left⟩ ∈ tree.partialRoutes types conversions arguments := by
      rw [hroutes]
      exact List.mem_append_right _ List.mem_cons_self
    obtain ⟨group, hgroup, hroute⟩ := List.mem_flatMap.mp hmem
    obtain ⟨hgroup, haccepts⟩ := List.mem_filter.mp hgroup
    have hawaits := (Node.mem_partialRoutes_iff.mp hroute).awaits
      ((Tree.represents_ofClauses htree).awaits hgroup haccepts)
    rintro rfl
    obtain ⟨clause, hleaf⟩ := hawaits.exists_leaf
    exact nomatch hleaf
  obtain ⟨before, chosen, after, items, hsplit, hbefore, hamong, hitems, hhead⟩ :=
    @head?_completions_remainder types conversions taken left slots hleft direct hdirect haccept
  refine ⟨before, chosen, after, items, hsplit, hbefore, hamong,
    Rank.level_le_of_sort_eq (fun slot : Alternatives × Clause ↦ types.rankOfAny slot.1) hsplit
      hamong, mapM_eq_some_iff.mp hitems, fun hchosen ↦ ?_, ?_⟩
  · rw [mapM_take?_of_acceptAll hchosen] at hitems
    exact (Option.some.inj hitems).symm
  · have hfirst : (tree.routes types conversions arguments).head? =
        some ⟨chosen.2, taken ++ [.array items]⟩ := by
      rw [tree.routes_eq_completions, hroutes, List.flatMap_append,
        List.flatMap_eq_nil_iff.mpr hearlier, List.nil_append, List.flatMap_cons,
        List.head?_append, hhead, Option.some_or]
    rw [run_eq_head?_routes hroutine, hfirst]

/-- An implementation that gives back what it gets, after a label. -/
def labelled (id : Nat) (label : String) : Implementation :=
  ⟨id, fun passed ↦ .ok (.array (.string label :: passed))⟩

/-- Two clauses for any number of arguments, one for arrays and one for values of any type. -/
def collecting : List Clause :=
  [⟨⟨[], some (.single "Array")⟩, labelled 0 "list"⟩, ⟨⟨[], some (.single "*")⟩, labelled 1 "any"⟩]

/-- A text cannot be wrapped, so the slot for arrays refuses it, and the slot for values of any type
takes all arguments as they are. -/
theorem run_in_remainder_collecting :
    ∃ tree routine, Tree.ofClauses collecting = .ok tree ∧
      Routine.ofTree .standard wrapping tree = .ok routine ∧
      routine.run none [.null, .string "a"] =
        .ok (.ok (.array [.string "any", .array [.null, .string "a"]])) := by
  obtain ⟨tree, htree, routine, hroutine, slots, hroutes, direct, hdirect, haccept, refusing,
    hordered, hrefuses, houtcome⟩ :
      ∃ tree, Tree.ofClauses collecting = .ok tree ∧
        ∃ routine, Routine.ofTree .standard wrapping tree = .ok routine ∧
          ∃ slots, tree.partialRoutes .standard wrapping [.null, .string "a"] =
            [⟨[], .remainder slots, [.null, .string "a"]⟩] ∧
          ∃ direct ∈ slots, direct.1.AcceptAll .standard [.null, .string "a"] ∧
          ∃ refusing, TypeTable.standard.armsInOrder slots = [refusing, direct] ∧
            refusing.1.take? .standard (wrapping.atRemainder .standard slots) (.string "a") = none ∧
            direct.2.implementation.run [.array [.null, .string "a"]] =
              .ok (.array [.string "any", .array [.null, .string "a"]]) := by
    refine ⟨_, rfl, _, rfl, _, rfl, _, .tail _ (.head _), ?_, _, rfl, rfl, rfl⟩
    simp [Alternatives.AcceptAll, TypeTable.accepts, wildcard]
  obtain ⟨before, chosen, after, items, hsplit, -, -, -, hitems, hunconverted, hrun⟩ :=
    run_in_remainder .standard wrapping collecting tree routine htree hroutine none _ [] [] [] _
      slots direct hroutes (by simp) hdirect haccept
  refine ⟨tree, routine, htree, hroutine, ?_⟩
  have hmem : chosen ∈ [refusing, direct] := by
    rw [← hordered, hsplit]
    exact List.mem_append_right _ List.mem_cons_self
  rcases List.mem_pair.mp hmem with rfl | rfl
  · obtain ⟨item, -, htext⟩ :=
      exists_rel_of_mem_left hitems (List.mem_cons_of_mem _ (List.mem_singleton_self _))
    rw [hrefuses] at htext
    cases htext
  · rw [hrun, hunconverted haccept]
    exact congrArg Except.ok houtcome

/-- The slot for arrays is tried first and wraps an absent value, although the other slot accepts it
as it is. -/
theorem run_wraps_although_accepted :
    ∃ tree routine, Tree.ofClauses collecting = .ok tree ∧
      Routine.ofTree .standard wrapping tree = .ok routine ∧
      (∃ slots, tree.partialRoutes .standard wrapping [.null] = [⟨[], .remainder slots, [.null]⟩] ∧
        ∃ slot ∈ slots, slot.1.AcceptAll .standard [.null] ∧
          slot.2.implementation.run [.array [.null]] =
            .ok (.array [.string "any", .array [.null]])) ∧
      routine.run none [.null] = .ok (.ok (.array [.string "list", .array [.array [.null]]])) := by
  refine ⟨_, _, rfl, rfl, ⟨_, rfl, _, .tail _ (.head _), ?_, rfl⟩, rfl⟩
  simp [Alternatives.AcceptAll, TypeTable.accepts, wildcard]

/-! ### Single arguments -/

/-- A supplied value has the type. -/
theorem Supplies.accepts {name : String} {argument value : Value}
    (hsupplies : Supplies types conversions name argument value) :
    types.accepts name value = true := by
  cases hsupplies with
  | direct haccepts => exact haccepts
  | converted _ _ _ harrives => exact harrives

/-- A pattern of single arguments to which arguments are passed as they are accepts them. -/
theorem Passed.accepts_of_eq {names : List String} {arguments : List Value}
    (hpassed : Passed types conversions ⟨names, none⟩ arguments arguments) :
    Pattern.Accepts types ⟨names, none⟩ arguments where
  count := by simpa [Pattern.arity, Arity.accepts, Arity.slotCount] using hpassed.length_eq
  fixed := by
    intro position name argument hname hargument
    obtain ⟨found, value, hfound, hvalue, hsupplies⟩ := hpassed.fixed position name hname
    rw [hargument] at hvalue
    cases hvalue
    exact hsupplies.accepts
  rest := nofun

/-- Without conversions the values that are passed for single arguments are these arguments. -/
theorem Passed.eq_of_empty {pattern : Pattern} {arguments passed : List Value}
    (hpassed : Passed types .empty pattern arguments passed) (hrest : pattern.rest = none)
    (hcount : pattern.arity.accepts arguments.length = true) : passed = arguments := by
  obtain ⟨names, rest⟩ := pattern
  cases hrest
  have hlength : passed.length = names.length := hpassed.length_eq
  have hgiven : arguments.length = names.length := beq_iff_eq.mp hcount
  apply List.ext_getElem (hlength.trans hgiven.symm)
  intro position hposition hargument
  obtain ⟨argument, value, hfound, hvalue, hsupplies⟩ :=
    hpassed.fixed position names[position] (List.getElem?_eq_getElem (hlength ▸ hposition))
  rw [List.getElem?_eq_getElem hargument] at hfound
  rw [List.getElem?_eq_getElem hposition] at hvalue
  rw [Option.some.inj hvalue, Option.some.inj hfound]
  exact hsupplies.eq_of_empty.1

/-- A clause overtakes another one in a call at a position. Their patterns agree before it; at it
they have different types, both of which accept the argument as it is, and the type of the
overtaking clause is not of greater rank. Up to there the arguments are passed as they are, and some
later one is not. -/
structure Overtakes (types : TypeTable) (arguments : List Value) (chosen direct : Pattern)
    (passed : List Value) (position : Nat) : Prop where
  agree : chosen.fixed.take position = direct.fixed.take position
  differ : ∃ first second argument, chosen.fixed[position]? = some first ∧
    direct.fixed[position]? = some second ∧ arguments[position]? = some argument ∧
    first ≠ second ∧ (types.rank first).level ≤ (types.rank second).level ∧
    types.accepts first argument = true ∧ types.accepts second argument = true
  unconverted : passed.take (position + 1) = arguments.take (position + 1)
  converted : passed ≠ arguments

theorem Overtakes.cons {names others : List String} {rest last : Option Alternatives}
    {arguments passed : List Value} {position : Nat} (name : String) (value : Value)
    (hovertakes : Overtakes types arguments ⟨names, rest⟩ ⟨others, last⟩ passed position) :
    Overtakes types (value :: arguments) ⟨name :: names, rest⟩ ⟨name :: others, last⟩
      (value :: passed) (position + 1) where
  agree := congrArg (name :: ·) hovertakes.agree
  differ := hovertakes.differ
  unconverted := congrArg (value :: ·) hovertakes.unconverted
  converted := fun hsame ↦ hovertakes.converted (List.cons.inj hsame).2

/-- A clause overtakes another one where it stands below an earlier name, if nothing that stands
there accepts the remaining arguments without conversions. -/
theorem Overtakes.of_earlier {name other : String} {names others : List String} {value : Value}
    {values passed : List Value} {below : Node} {clause : Clause} (hne : name ≠ other)
    (hrank : (types.rank name).level ≤ (types.rank other).level)
    (haccepts : types.accepts name value = true)
    (hacceptsOther : types.accepts other value = true)
    (hholds : below.Holds ⟨names, none⟩ clause)
    (hpassed : Passed types conversions ⟨names, none⟩ values passed)
    (hnone : below.routes types .empty values = []) :
    Overtakes types (value :: values) ⟨name :: names, none⟩ ⟨other :: others, none⟩
      (value :: passed) 0 where
  agree := rfl
  differ := ⟨name, other, value, rfl, rfl, rfl, hne, hrank, haccepts, hacceptsOther⟩
  unconverted := rfl
  converted := by
    -- If nothing were converted, the pattern would accept the arguments and have a route.
    intro hsame
    rw [(List.cons.inj hsame).2] at hpassed
    obtain ⟨route, hroute, -⟩ := exists_route .empty hholds hpassed.accepts_of_eq
    rw [hnone] at hroute
    exact List.not_mem_nil hroute

/-- What the first route through a child hands on after a value that the child accepts. -/
def Node.directly (types : TypeTable) (conversions : ConversionTable) (value : Value)
    (values : List Value) (child : String × Node) : Option Selection :=
  if types.accepts child.1 value then
    (child.2.routes types conversions values).head?.map (·.cons value)
  else none

/-- The first of the routes that a value takes as it is. -/
theorem head?_flatMap_directly (children : List (String × Node)) (value : Value)
    (values : List Value) :
    (children.flatMap fun child ↦
      if types.accepts child.1 value then
        (child.2.routes types conversions values).map (·.cons value)
      else []).head? = children.findSome? (Node.directly types conversions value values) := by
  rw [List.head?_flatMap]
  congr 1
  funext child
  rw [Node.directly, ← List.head?_map]
  split <;> rfl

theorem head?_routes_branch_empty (children : List (String × Node)) (value : Value)
    (values : List Value) :
    ((Node.branch children).routes types .empty (value :: values)).head? =
      (types.inOrder children).findSome? (Node.directly types .empty value values) := by
  rw [Node.routes, ← head?_flatMap_directly, ConversionTable.toward]
  simp only [ConversionTable.empty, List.foldl_nil, List.flatMap_nil, List.append_nil]

/-- A route that a value takes as it is comes before all that convert it. -/
theorem head?_routes_branch_of_directly {children : List (String × Node)} {value : Value}
    {values : List Value} {route : Selection}
    (hroute : (types.inOrder children).findSome? (Node.directly types conversions value values) =
      some route) :
    ((Node.branch children).routes types conversions (value :: values)).head? = some route := by
  rw [Node.routes, List.head?_append, head?_flatMap_directly, hroute, Option.some_or]

theorem directly_eq_some_iff {value : Value} {values : List Value} {child : String × Node}
    {route : Selection} :
    Node.directly types conversions value values child = some route ↔
      types.accepts child.1 value = true ∧
        ∃ below, (child.2.routes types conversions values).head? = some below ∧
          below.cons value = route := by
  rw [Node.directly, Option.ite_none_right_eq_some, Option.map_eq_some_iff]

/-- A child that is tried before another one has another name and no greater rank. -/
theorem earlier_of_inOrder {children before after : List (String × Node)}
    {child earlier : String × Node} (hnames : (children.map Prod.fst).Nodup)
    (hsplit : types.inOrder children = before ++ child :: after) (hearlier : earlier ∈ before) :
    earlier.1 ≠ child.1 ∧ (types.rank earlier.1).level ≤ (types.rank child.1).level := by
  constructor
  · have hordered : ((types.inOrder children).map Prod.fst).Nodup :=
      ((Rank.perm_sort _ children).map Prod.fst).nodup_iff.mpr hnames
    rw [hsplit, List.map_append, List.nodup_append] at hordered
    exact hordered.2.2 _ (List.mem_map_of_mem hearlier) _ List.mem_cons_self
  · have hsorted := Rank.pairwise_sort (fun child ↦ types.rank child.1) children
    rw [← TypeTable.inOrder, hsplit, List.pairwise_append] at hsorted
    exact hsorted.2.2 earlier hearlier child List.mem_cons_self

/-- A route through a closed part passes its arguments to a pattern of single arguments. -/
theorem route_passes_closed {node : Node} {values : List Value} {route : Selection}
    (hfits : node.Fits false values.length)
    (hroute : (node.routes types conversions values).head? = some route) :
    ∃ names, node.Holds ⟨names, none⟩ route.clause ∧
      Passed types conversions ⟨names, none⟩ values route.arguments := by
  obtain ⟨⟨names, rest⟩, hholds, hpassed⟩ := route_passes (List.mem_of_mem_head? hroute)
  cases rest with
  | none => exact ⟨names, hholds, hpassed⟩
  | some alternatives => exact nomatch (hholds.length_eq hfits).2

/-- A node that has a route without conversions has one with conversions. Either it is the same, or
its clause overtakes the clause of the other. -/
theorem exists_head?_routes {node : Node} {values : List Value} {direct : Selection}
    (hdistinct : node.Distinct) (hfits : node.Fits false values.length)
    (hdirect : (node.routes types .empty values).head? = some direct) :
    ∃ chosen, (node.routes types conversions values).head? = some chosen ∧
      (chosen = direct ∨ ∃ names others position, node.Holds ⟨names, none⟩ chosen.clause ∧
        node.Holds ⟨others, none⟩ direct.clause ∧
        Overtakes types values ⟨names, none⟩ ⟨others, none⟩ chosen.arguments position) := by
  induction values generalizing node direct with
  | nil =>
    cases node with
    | leaf clause => exact ⟨direct, hdirect, Or.inl rfl⟩
    | branch _ => exact hfits.elim
    | remainder _ => exact nomatch hfits
  | cons value values ih =>
    cases hdistinct with
    | leaf _ => exact hfits.elim
    | remainder _ => exact hfits.elim
    | @branch children hnames hbelow =>
      rw [head?_routes_branch_empty, List.findSome?_eq_some_iff] at hdirect
      obtain ⟨before, child, after, hsplit, hchild, hbefore⟩ := hdirect
      obtain ⟨haccepts, below, hroute, rfl⟩ := directly_eq_some_iff.mp hchild
      have hordered : ∀ other ∈ before ++ child :: after, other ∈ children := by
        intro other hother
        rw [← hsplit, types.mem_inOrder_iff] at hother
        exact hother
      have hmem := hordered child (List.mem_append_right _ List.mem_cons_self)
      -- Conversions may give a route to a child that is tried before the one of the direct route.
      cases hearlier : before.findSome? (Node.directly types conversions value values) with
      | none =>
        obtain ⟨chosen, hchosen, hcases⟩ := ih (hbelow child hmem) (hfits child hmem) hroute
        refine ⟨chosen.cons value, head?_routes_branch_of_directly ?_, ?_⟩
        · rw [hsplit, List.findSome?_append, hearlier, Option.none_or, List.findSome?_cons,
            directly_eq_some_iff.mpr ⟨haccepts, chosen, hchosen, rfl⟩]
        · rcases hcases with rfl | ⟨names, others, position, hfirst, hsecond, hovertakes⟩
          · exact Or.inl rfl
          · exact Or.inr ⟨_, _, _, .child hmem hfirst, .child hmem hsecond,
              hovertakes.cons child.1 value⟩
      | some chosen =>
        obtain ⟨earlier, hin, hsome⟩ := List.exists_of_findSome?_eq_some hearlier
        obtain ⟨hacceptsEarlier, top, htop, rfl⟩ := directly_eq_some_iff.mp hsome
        have hmemEarlier := hordered earlier (List.mem_append_left _ hin)
        obtain ⟨names, hfirst, hpassed⟩ := route_passes_closed (hfits earlier hmemEarlier) htop
        obtain ⟨others, hsecond, -⟩ := route_passes_closed (hfits child hmem) hroute
        obtain ⟨hne, hrank⟩ := earlier_of_inOrder hnames hsplit hin
        have hnone := hbefore earlier hin
        rw [Node.directly, if_pos hacceptsEarlier, Option.map_eq_none_iff,
          List.head?_eq_none_iff] at hnone
        refine ⟨top.cons value, head?_routes_branch_of_directly ?_, Or.inr ⟨_, _, 0,
          .child hmemEarlier hfirst, .child hmem hsecond,
          .of_earlier hne hrank hacceptsEarlier haccepts hfirst hpassed hnone⟩⟩
        rw [hsplit, List.findSome?_append, hearlier]
        rfl

/-! ### Calls with and without conversions -/

namespace Tree.Represents

variable {tree : Tree} {clauses : List Clause}

/-- Without repeated slots a group that takes a number of arguments takes no other number. -/
theorem fits_of_accepts (hrepresents : tree.Represents clauses)
    (hclosed : ∀ clause ∈ clauses, clause.pattern.rest = none) {group : Arity × Node} {count : Nat}
    (hgroup : group ∈ tree.groups) (haccepts : group.1.accepts count = true) :
    group.1 = .exact count ∧ group.2.Fits false count := by
  obtain ⟨clause, hclause, harity, hfits⟩ := hrepresents.uniform group hgroup
  rw [harity, Pattern.arity, hclosed clause hclause] at haccepts
  have hcount : count = clause.pattern.fixed.length := beq_iff_eq.mp haccepts
  rw [hclosed clause hclause] at hfits
  rw [harity, Pattern.arity, hclosed clause hclause, hcount]
  exact ⟨rfl, hfits⟩

/-- Without repeated slots at most one group takes a number of arguments. -/
theorem filter_accepts_eq (hrepresents : tree.Represents clauses)
    (hclosed : ∀ clause ∈ clauses, clause.pattern.rest = none) {group : Arity × Node} {count : Nat}
    (hgroup : group ∈ tree.groups) (haccepts : group.1.accepts count = true) :
    tree.groups.filter (·.1.accepts count) = [group] := by
  have hsame : ∀ other ∈ tree.groups.filter (·.1.accepts count), other = group := by
    intro other hother
    obtain ⟨hmem, hcount⟩ := List.mem_filter.mp hother
    apply hrepresents.eq_of_arity_eq hmem hgroup
    rw [(hrepresents.fits_of_accepts hclosed hmem hcount).1,
      (hrepresents.fits_of_accepts hclosed hgroup haccepts).1]
  have hsorted := hrepresents.sorted.filter (·.1.accepts count)
  have hmem : group ∈ tree.groups.filter (·.1.accepts count) :=
    List.mem_filter.mpr ⟨hgroup, haccepts⟩
  generalize tree.groups.filter (·.1.accepts count) = accepting at hsame hsorted hmem
  cases accepting with
  | nil => exact (List.not_mem_nil hmem).elim
  | cons first others =>
    obtain rfl := hsame first List.mem_cons_self
    cases others with
    | nil => rfl
    | cons second others =>
      have hprecedes := (List.pairwise_cons.mp hsorted).1 second List.mem_cons_self
      rw [hsame second (List.mem_cons_of_mem _ List.mem_cons_self), Arity.precedes_irrefl]
        at hprecedes
      exact nomatch hprecedes

end Tree.Represents

/-- What is selected without conversions is selected with them, or its clause is overtaken. -/
theorem exists_select {clauses : List Clause} {tree : Tree} {plain routine : Routine}
    (htree : Tree.ofClauses clauses = .ok tree)
    (hclosed : ∀ clause ∈ clauses, clause.pattern.rest = none)
    (hplain : Routine.ofTree types .empty tree = .ok plain)
    (hroutine : Routine.ofTree types conversions tree = .ok routine) {arguments : List Value}
    {direct : Selection} (hdirect : plain.select arguments = some direct) :
    ∃ chosen, routine.select arguments = some chosen ∧
      (chosen = direct ∨ ∃ position, Overtakes types arguments chosen.clause.pattern
        direct.clause.pattern chosen.arguments position) := by
  have hrepresents := Tree.represents_ofClauses htree
  rw [select_eq_head?_tree_routes hplain] at hdirect
  rw [select_eq_head?_tree_routes hroutine]
  obtain ⟨group, hmem, -⟩ := List.mem_flatMap.mp (List.mem_of_mem_head? hdirect)
  obtain ⟨hgroup, haccepts⟩ := List.mem_filter.mp hmem
  have honly := hrepresents.filter_accepts_eq hclosed hgroup haccepts
  rw [Tree.routes, honly, List.flatMap_singleton] at hdirect ⊢
  obtain ⟨chosen, hchosen, hcases⟩ :=
    exists_head?_routes (Tree.distinct_ofClauses htree group hgroup)
      (hrepresents.fits_of_accepts hclosed hgroup haccepts).2 hdirect
  refine ⟨chosen, hchosen, hcases.imp_right ?_⟩
  rintro ⟨names, others, position, hnames, hothers, hovertakes⟩
  rw [(hrepresents.clause_of_holds hgroup hnames).2, (hrepresents.clause_of_holds hgroup hothers).2]
  exact ⟨position, hovertakes⟩

/-- A call of clauses without repeated slots that is matched without conversions is matched with
them. Without them a clause that accepts the arguments gets them as they are. With them the outcome
is the same, unless it is that of a clause which overtakes this one: which agrees with it up to some
argument, has another type there that accepts the argument as well and is not of greater rank, and
needs a conversion only after this argument. -/
theorem run_with_conversions (types : TypeTable) (conversions : ConversionTable)
    (clauses : List Clause) (tree : Tree) (plain routine : Routine)
    (htree : Tree.ofClauses clauses = .ok tree)
    (hclosed : ∀ clause ∈ clauses, clause.pattern.rest = none)
    (hplain : Routine.ofTree types .empty tree = .ok plain)
    (hroutine : Routine.ofTree types conversions tree = .ok routine) (function : Option String)
    (arguments : List Value) (outcome : Outcome)
    (hrun : plain.run function arguments = .ok outcome) :
    ∃ direct ∈ clauses, direct.pattern.Accepts types arguments ∧
      outcome = direct.implementation.run arguments ∧
      (routine.run function arguments = .ok outcome ∨
        ∃ chosen ∈ clauses, ∃ passed position,
          routine.run function arguments = .ok (chosen.implementation.run passed) ∧
          Passed types conversions chosen.pattern arguments passed ∧
          Overtakes types arguments chosen.pattern direct.pattern passed position) := by
  obtain ⟨direct, hdirect⟩ := (exists_run_eq_ok_iff plain function arguments).mp ⟨outcome, hrun⟩
  obtain ⟨hclause, hcount, hpassed⟩ := select_passes htree hplain hdirect
  obtain ⟨chosen, hchosen, hcases⟩ := exists_select htree hclosed hplain hroutine hdirect
  obtain ⟨hchosenClause, -, hchosenPassed⟩ := select_passes htree hroutine hchosen
  rw [plain.run_eq_select, hdirect] at hrun
  rw [routine.run_eq_select, hchosen]
  have hunchanged := hpassed.eq_of_empty (hclosed _ hclause) hcount
  refine ⟨direct.clause, hclause, hpassed.accepts hcount, ?_, ?_⟩
  · rw [← hunchanged]
    exact (Except.ok.inj hrun).symm
  · rcases hcases with rfl | ⟨position, hovertakes⟩
    · exact Or.inl hrun
    · exact Or.inr ⟨chosen.clause, hchosenClause, chosen.arguments, position, rfl, hchosenPassed,
        hovertakes⟩

/-- Two clauses for two arguments: an array after a boolean, and nothing after any value. -/
def crossing : List Clause :=
  [⟨⟨["boolean", "Array"], none⟩, labelled 0 "list"⟩, ⟨⟨["*", "null"], none⟩, labelled 1 "any"⟩]

/-- With the conversion the clause for a boolean overtakes the clause for any value. -/
theorem run_with_conversions_crossing :
    ∃ tree plain routine, Tree.ofClauses crossing = .ok tree ∧
      Routine.ofTree .standard .empty tree = .ok plain ∧
      Routine.ofTree .standard wrapping tree = .ok routine ∧
      plain.run none [.boolean true, .null] =
        .ok (.ok (.array [.string "any", .boolean true, .null])) ∧
      ∃ direct ∈ crossing, direct.pattern.Accepts .standard [.boolean true, .null] ∧
        ∃ chosen ∈ crossing, ∃ passed position,
          routine.run none [.boolean true, .null] = .ok (chosen.implementation.run passed) ∧
          Overtakes .standard [.boolean true, .null] chosen.pattern direct.pattern passed
            position := by
  obtain ⟨tree, htree, plain, hplain, routine, hroutine, hrun, hlist⟩ :
      ∃ tree, Tree.ofClauses crossing = .ok tree ∧
        ∃ plain, Routine.ofTree .standard .empty tree = .ok plain ∧
          ∃ routine, Routine.ofTree .standard wrapping tree = .ok routine ∧
            plain.run none [.boolean true, .null] =
              .ok (.ok (.array [.string "any", .boolean true, .null])) ∧
            routine.run none [.boolean true, .null] =
              .ok (.ok (.array [.string "list", .boolean true, .array [.null]])) :=
    ⟨_, rfl, _, rfl, _, rfl, rfl, rfl⟩
  obtain ⟨direct, hdirect, haccepts, -, hcases⟩ := run_with_conversions .standard wrapping crossing
    tree plain routine htree (by decide) hplain hroutine none [.boolean true, .null] _ hrun
  refine ⟨tree, plain, routine, htree, hplain, hroutine, hrun, direct, hdirect, haccepts, ?_⟩
  rcases hcases with hsame | ⟨chosen, hchosen, passed, position, hconverted, -, hovertakes⟩
  · rw [hlist] at hsame
    simp at hsame
  · exact ⟨chosen, hchosen, passed, position, hconverted, hovertakes⟩

/-- The absent value is wrapped although another clause accepts both arguments as they are and gets
them without the conversion. -/
theorem run_wraps_although_matched :
    ∃ tree plain routine, Tree.ofClauses crossing = .ok tree ∧
      Routine.ofTree .standard .empty tree = .ok plain ∧
      Routine.ofTree .standard wrapping tree = .ok routine ∧
      plain.run none [.boolean true, .null] =
        .ok (.ok (.array [.string "any", .boolean true, .null])) ∧
      routine.run none [.boolean true, .null] =
        .ok (.ok (.array [.string "list", .boolean true, .array [.null]])) :=
  ⟨_, _, _, rfl, rfl, rfl, rfl, rfl⟩

end Multimethod
