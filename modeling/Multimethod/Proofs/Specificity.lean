import Multimethod.Proofs.Fallback

/-!
# Specific types come first

Types are tried by rank, but only among the types of one branch and among the repeated slots of one
remainder. `Pattern.Outranks` compares whole patterns: they agree up to a slot, and there the first
one has the lower rank. A call that a clause accepts as it is is never answered by a clause whose
pattern is outranked, in whichever order the clauses were declared, whatever stands beside them, and
whether or not arguments before that slot are converted (`run_prefers_specific`).
-/

set_option autoImplicit false
set_option relaxedAutoImplicit false

namespace Multimethod

/-! ### Ranks of patterns -/

namespace Pattern

/-- The ranks of the slots; a repeated slot has the rank of its most permissive alternative. -/
def slotRanks (types : TypeTable) (pattern : Pattern) : List Rank :=
  pattern.fixed.map types.rank ++ pattern.rest.toList.map types.rankOfAny

/-- A pattern outranks another one of its arity at a position. They have the same types before it,
and the slot there has the lower rank in the first of them. -/
structure Outranks (types : TypeTable) (specific permissive : Pattern) (position : Nat) :
    Prop where
  arity_eq : specific.arity = permissive.arity
  agree : specific.fixed.take position = permissive.fixed.take position
  lower : ∃ low high, (specific.slotRanks types)[position]? = some low ∧
    (permissive.slotRanks types)[position]? = some high ∧ low.level < high.level

variable {types : TypeTable}

/-- The first types of patterns that are told apart later are the same, and the patterns behind
them are told apart one position earlier. -/
theorem Outranks.exists_tail {name : String} {names : List String} {rest : Option Alternatives}
    {permissive : Pattern} {position : Nat}
    (houtranks : Outranks types ⟨name :: names, rest⟩ permissive (position + 1)) :
    ∃ others last, permissive = ⟨name :: others, last⟩ ∧
      Outranks types ⟨names, rest⟩ ⟨others, last⟩ position := by
  obtain ⟨fixed, last⟩ := permissive
  have hagree := houtranks.agree
  cases fixed with
  | nil => exact nomatch hagree
  | cons other others =>
    obtain ⟨rfl, htake⟩ := List.cons.inj hagree
    refine ⟨others, last, rfl, ?_, htake, houtranks.lower⟩
    have harity := arity_eq_iff.mp houtranks.arity_eq
    exact arity_eq_iff.mpr ⟨Nat.succ.inj harity.1, harity.2⟩

/-- Where patterns are told apart by their first single arguments, the types there differ in
rank. -/
theorem Outranks.level_lt_of_fixed {name : String} {names : List String}
    {rest : Option Alternatives} {other : String} {others : List String}
    {last : Option Alternatives}
    (houtranks : Outranks types ⟨name :: names, rest⟩ ⟨other :: others, last⟩ 0) :
    (types.rank name).level < (types.rank other).level := by
  obtain ⟨low, high, hlow, hhigh, hlt⟩ := houtranks.lower
  cases hlow
  cases hhigh
  exact hlt

/-- Where patterns are told apart by their repeated slots, these differ in rank. -/
theorem Outranks.level_lt_of_rest {alternatives others : Alternatives}
    (houtranks : Outranks types ⟨[], some alternatives⟩ ⟨[], some others⟩ 0) :
    (types.rankOfAny alternatives).level < (types.rankOfAny others).level := by
  obtain ⟨low, high, hlow, hhigh, hlt⟩ := houtranks.lower
  cases hlow
  cases hhigh
  exact hlt

end Pattern

variable {types : TypeTable} {conversions : ConversionTable}

/-! ### The first route -/

/-- The first route through a branch is the first route through one of its children, with one value
more. -/
theorem exists_child_of_head?_routes {children : List (String × Node)} {value : Value}
    {values : List Value} {route : Selection}
    (hroute : ((Node.branch children).routes types conversions (value :: values)).head? =
      some route) :
    ∃ child ∈ children, ∃ below,
      (child.2.routes types conversions values).head? = some below ∧
        route.clause = below.clause := by
  rw [Node.routes_branch, List.head?_flatMap] at hroute
  obtain ⟨exit, hexit, hhead⟩ := List.exists_of_findSome?_eq_some hroute
  rw [List.head?_map, Option.map_eq_some_iff] at hhead
  obtain ⟨below, hbelow, rfl⟩ := hhead
  obtain ⟨child, hchild, hpart, -⟩ := exists_child_of_mem_exits hexit
  exact ⟨child, hchild, below, hpart ▸ hbelow, rfl⟩

/-- When a child accepts the argument as it is and has a route, the first route through the branch
goes through a child of no greater rank. -/
theorem exists_lower_child {children : List (String × Node)} {value : Value} {values : List Value}
    {child : String × Node} (hchild : child ∈ children)
    (haccepts : types.accepts child.1 value = true) {below : Selection}
    (hbelow : (child.2.routes types conversions values).head? = some below) :
    ∃ chosen ∈ children, (types.rank chosen.1).level ≤ (types.rank child.1).level ∧
      ∃ route, (chosen.2.routes types conversions values).head? = some route ∧
        ((Node.branch children).routes types conversions (value :: values)).head? =
          some (route.cons value) := by
  have hdirect : Node.directly types conversions value values child = some (below.cons value) :=
    directly_eq_some_iff.mpr ⟨haccepts, below, hbelow, rfl⟩
  have hordered : child ∈ types.inOrder children := by simpa using hchild
  cases hfirst : (types.inOrder children).findSome?
      (Node.directly types conversions value values) with
  | none =>
    rw [List.findSome?_eq_none_iff.mp hfirst child hordered] at hdirect
    exact nomatch hdirect
  | some top =>
    obtain ⟨before, chosen, after, hsplit, hchosen, hbefore⟩ :=
      List.findSome?_eq_some_iff.mp hfirst
    obtain ⟨-, route, hroute, rfl⟩ := directly_eq_some_iff.mp hchosen
    have hlater : child ∈ chosen :: after := by
      rw [hsplit] at hordered
      refine (List.mem_append.mp hordered).resolve_left fun hearlier ↦ ?_
      rw [hbefore child hearlier] at hdirect
      exact nomatch hdirect
    refine ⟨chosen, (types.mem_inOrder_iff children chosen).mp ?_,
      Rank.level_le_of_sort_eq (fun child : String × Node ↦ types.rank child.1) hsplit hlater,
      route, hroute, head?_routes_branch_of_directly hfirst⟩
    rw [hsplit]
    exact List.mem_append_right _ List.mem_cons_self

/-- A pattern that a node holds and that accepts the arguments gives a first route. -/
theorem exists_head?_of_accepts (conversions : ConversionTable) {node : Node} {pattern : Pattern}
    {clause : Clause} {values : List Value} (hholds : node.Holds pattern clause)
    (haccepts : pattern.Accepts types values) :
    ∃ route, (node.routes types conversions values).head? = some route := by
  obtain ⟨route, hroute, -⟩ := exists_route conversions hholds haccepts
  rw [← Option.isSome_iff_exists, List.isSome_head?]
  exact List.ne_nil_of_mem hroute

/-! ### Patterns that are avoided -/

/-- There is a route through a node for some arguments, and the first one ends in another pattern
than the given one. -/
def Node.Avoids (types : TypeTable) (conversions : ConversionTable) (values : List Value)
    (node : Node) (permissive : Pattern) : Prop :=
  ∃ route pattern, (node.routes types conversions values).head? = some route ∧
    node.Holds pattern route.clause ∧ pattern ≠ permissive

namespace Node.Avoids

/-- A remainder avoids a slot of higher rank than one that accepts all arguments. -/
theorem of_slot {slots : List (Alternatives × Clause)} {values : List Value}
    (hvalues : values ≠ []) {slot : Alternatives × Clause} (hslot : slot ∈ slots)
    (haccept : slot.1.AcceptAll types values) {permissive : Pattern}
    (hhigher : ∀ alternatives, permissive = ⟨[], some alternatives⟩ →
      (types.rankOfAny slot.1).level < (types.rankOfAny alternatives).level) :
    (remainder slots).Avoids types conversions values permissive := by
  obtain ⟨before, chosen, after, items, hsplit, -, hamong, -, hhead⟩ :=
    @head?_completions_remainder types conversions [] values slots hvalues slot hslot haccept
  rw [PartialRoute.completions, List.head?_map, Option.map_eq_some_iff] at hhead
  obtain ⟨route, hroute, hafter⟩ := hhead
  have hclause : route.clause = chosen.2 := congrArg Selection.clause hafter
  have hchosen : chosen ∈ slots := by
    rw [← types.mem_armsInOrder_iff, hsplit]
    exact List.mem_append_right _ List.mem_cons_self
  have hle := Rank.level_le_of_sort_eq
    (fun slot : Alternatives × Clause ↦ types.rankOfAny slot.1) hsplit hamong
  refine ⟨route, ⟨[], some chosen.1⟩, hroute, hclause ▸ .arm hchosen, fun heq ↦ ?_⟩
  exact absurd (hhigher chosen.1 heq.symm) (Nat.not_lt.mpr hle)

/-- A branch avoids a type of higher rank than one that accepts the argument and has a route. -/
theorem of_child {children : List (String × Node)} {value : Value} {values : List Value}
    {child : String × Node} (hchild : child ∈ children)
    (haccepts : types.accepts child.1 value = true) {below : Selection}
    (hbelow : (child.2.routes types conversions values).head? = some below) {permissive : Pattern}
    (hhigher : ∀ other others rest, permissive = ⟨other :: others, rest⟩ →
      (types.rank child.1).level < (types.rank other).level) :
    (branch children).Avoids types conversions (value :: values) permissive := by
  obtain ⟨chosen, hchosen, hle, route, hroute, hhead⟩ :=
    exists_lower_child hchild haccepts hbelow
  obtain ⟨⟨others, rest⟩, hheld, -⟩ := route_passes (List.mem_of_mem_head? hroute)
  refine ⟨route.cons value, ⟨chosen.1 :: others, rest⟩, hhead, .child hchosen hheld, fun heq ↦ ?_⟩
  exact absurd (hhigher chosen.1 others rest heq.symm) (Nat.not_lt.mpr hle)

/-- What is avoided below a child is avoided by the branch, if the branch has a route. Its first
route goes through another child or is the first one below this child. -/
theorem of_below {children : List (String × Node)} (hnames : (children.map Prod.fst).Nodup)
    {value : Value} {values : List Value} {child : String × Node} (hchild : child ∈ children)
    {others : List String} {rest : Option Alternatives}
    (hbelow : child.2.Avoids types conversions values ⟨others, rest⟩) {route : Selection}
    (hroute : ((branch children).routes types conversions (value :: values)).head? =
      some route) :
    (branch children).Avoids types conversions (value :: values) ⟨child.1 :: others, rest⟩ := by
  obtain ⟨chosen, hchosen, found, hfound, hclause⟩ := exists_child_of_head?_routes hroute
  by_cases hname : chosen.1 = child.1
  · obtain rfl := List.inj_on_of_nodup_map hnames hchosen hchild hname
    obtain ⟨best, ⟨names, last⟩, hbest, hheld, hne⟩ := hbelow
    rw [hbest] at hfound
    refine ⟨route, ⟨chosen.1 :: names, last⟩, hroute, ?_, fun heq ↦ hne ?_⟩
    · rw [hclause, ← Option.some.inj hfound]
      exact .child hchosen hheld
    · obtain ⟨hcons, rfl⟩ := Pattern.mk.inj heq
      rw [(List.cons.inj hcons).2]
  · obtain ⟨⟨names, last⟩, hheld, -⟩ := route_passes (List.mem_of_mem_head? hfound)
    refine ⟨route, ⟨chosen.1 :: names, last⟩, hroute, hclause ▸ .child hchosen hheld, ?_⟩
    exact fun heq ↦ hname (List.cons.inj (congrArg Pattern.fixed heq)).1

/-- A node avoids every pattern that is outranked by one which it holds and which accepts the
arguments as they are. -/
theorem of_outranks (conversions : ConversionTable) {node : Node} (hdistinct : node.Distinct)
    {values : List Value} {specific permissive : Pattern} {position : Nat}
    (houtranks : specific.Outranks types permissive position) {clause : Clause}
    (hholds : node.Holds specific clause) (haccepts : specific.Accepts types values) :
    node.Avoids types conversions values permissive := by
  obtain ⟨low, high, hlow, -⟩ := houtranks.lower
  -- The patterns are followed to the position at which they are told apart.
  induction hholds generalizing values permissive position with
  | leaf _ => exact nomatch hlow
  | @arm slots alternatives clause hmem =>
    refine .of_slot ?_ hmem (haccepts.rest alternatives rfl) fun others hothers ↦ ?_
    · rintro rfl
      exact nomatch haccepts.count
    · cases position with
      | zero => exact (hothers ▸ houtranks).level_lt_of_rest
      | succ position => exact nomatch hlow
  | @child children name below names rest clause hmem hbelow ih =>
    cases hdistinct with
    | branch hnames hbranches =>
      have hroute := exists_head?_of_accepts conversions (.child hmem hbelow) haccepts
      obtain ⟨value, values, rfl, hvalue, hvalues⟩ := haccepts.exists_cons
      cases position with
      | zero =>
        obtain ⟨_, hbelowRoute⟩ := exists_head?_of_accepts conversions hbelow hvalues
        exact .of_child hmem hvalue hbelowRoute fun other others last hother ↦
          (hother ▸ houtranks).level_lt_of_fixed
      | succ position =>
        obtain ⟨route, hroute⟩ := hroute
        obtain ⟨others, last, rfl, hbehind⟩ := houtranks.exists_tail
        exact .of_below hnames hmem (ih (hbranches _ hmem) hbehind hvalues hlow) hroute

end Node.Avoids

/-! ### Calls -/

/-- A group of a tree ends the first route of a call if there is a route at all. -/
theorem Tree.exists_group_of_head?_routes {tree : Tree} {arguments : List Value} {route : Selection}
    (hroute : (tree.routes types conversions arguments).head? = some route) :
    ∃ group ∈ tree.groups, (group.2.routes types conversions arguments).head? = some route := by
  rw [Tree.routes, List.head?_flatMap] at hroute
  obtain ⟨group, hgroup, hhead⟩ := List.exists_of_findSome?_eq_some hroute
  exact ⟨group, (List.mem_filter.mp hgroup).1, hhead⟩

/-- A call that a clause accepts as it is is answered by a clause which this one does not outrank:
the first route of the call ends in a clause whose pattern is none of the outranked ones, whether or
not an outranked pattern accepts the call as well. -/
theorem run_prefers_specific (types : TypeTable) (conversions : ConversionTable)
    (clauses : List Clause) (tree : Tree) (routine : Routine)
    (htree : Tree.ofClauses clauses = .ok tree)
    (hroutine : Routine.ofTree types conversions tree = .ok routine) (function : Option String)
    (arguments : List Value) (specific permissive : Clause) (position : Nat)
    (hspecific : specific ∈ clauses) (haccepts : specific.pattern.Accepts types arguments)
    (houtranks : specific.pattern.Outranks types permissive.pattern position) :
    ∃ route, (tree.routes types conversions arguments).head? = some route ∧
      routine.run function arguments = .ok route.outcome ∧ route.clause ∈ clauses ∧
      route.clause.pattern ≠ permissive.pattern := by
  obtain ⟨route, hselect⟩ := exists_select_of_accepts htree hroutine hspecific haccepts
  obtain ⟨hclause, -, -⟩ := select_passes htree hroutine hselect
  rw [select_eq_head?_tree_routes hroutine] at hselect
  refine ⟨route, hselect, ?_, hclause, ?_⟩
  · rw [run_eq_head?_routes hroutine, hselect]
    rfl
  · have hrepresents := Tree.represents_ofClauses htree
    obtain ⟨group, hgroup, hhead⟩ := Tree.exists_group_of_head?_routes hselect
    obtain ⟨home, hhome, harity, hholds⟩ :=
      (hrepresents.holds_iff specific.pattern specific).mpr ⟨hspecific, rfl⟩
    obtain ⟨pattern, hheld, -⟩ := route_passes (List.mem_of_mem_head? hhead)
    have hpattern := (hrepresents.clause_of_holds hgroup hheld).2
    -- Only the group of the two clauses can end in the outranked one.
    by_cases hsame : group.1 = home.1
    · obtain rfl := hrepresents.eq_of_arity_eq hgroup hhome hsame
      obtain ⟨first, pattern, hfirst, hends, hne⟩ := Node.Avoids.of_outranks conversions
        (Tree.distinct_ofClauses htree group hgroup) houtranks hholds haccepts
      rw [hhead] at hfirst
      cases hfirst
      rw [(hrepresents.clause_of_holds hgroup hends).2]
      exact hne
    · intro heq
      rw [hrepresents.arity_eq hgroup hheld, harity, houtranks.arity_eq, ← heq, hpattern] at hsame
      exact hsame rfl

/-- A clause for a boolean and any further arguments. -/
def anythingAfter : Clause :=
  ⟨⟨["boolean"], some (.mk ["string", "*"])⟩, labelled 0 "anything"⟩

/-- A clause for a boolean and further texts and objects. -/
def objectsAfter : Clause :=
  ⟨⟨["boolean"], some (.mk ["string", "Object"])⟩, labelled 1 "objects"⟩

/-- Further texts and objects are taken by the clause whose most permissive type is a catch-all
type, although the one with a wildcard accepts them and was declared before. -/
theorem run_prefers_specific_repeated :
    ∃ tree routine, Tree.ofClauses [anythingAfter, objectsAfter] = .ok tree ∧
      Routine.ofTree .standard wrapping tree = .ok routine ∧
      objectsAfter.pattern.Accepts .standard [.boolean true, .string "a", .object []] ∧
      anythingAfter.pattern.Accepts .standard [.boolean true, .string "a", .object []] ∧
      objectsAfter.pattern.Outranks .standard anythingAfter.pattern 1 ∧
      ∃ route : Selection,
        routine.run none [.boolean true, .string "a", .object []] = .ok route.outcome ∧
        route.clause.pattern ≠ anythingAfter.pattern := by
  obtain ⟨tree, htree, routine, hroutine⟩ :
      ∃ tree, Tree.ofClauses [anythingAfter, objectsAfter] = .ok tree ∧
        ∃ routine, Routine.ofTree .standard wrapping tree = .ok routine := ⟨_, rfl, _, rfl⟩
  have haccepts : ∀ other, TypeTable.standard.accepts other (.object []) = true →
      Pattern.Accepts .standard ⟨["boolean"], some (.mk ["string", other])⟩
        [.boolean true, .string "a", .object []] := by
    intro other hother
    refine ⟨rfl, ?_, ?_⟩
    · rintro (_ | position) name argument hname hargument
      · cases hname
        cases hargument
        rfl
      · cases hname
    · rintro alternatives ⟨⟩ argument hargument
      rcases List.mem_pair.mp hargument with rfl | rfl
      · exact ⟨"string", .head _, rfl⟩
      · exact ⟨other, .tail _ (.head _), hother⟩
  have houtranks : objectsAfter.pattern.Outranks .standard anythingAfter.pattern 1 :=
    ⟨rfl, rfl, .catchAll, .wildcard, rfl, rfl, by decide⟩
  have hspecific := haccepts "Object" rfl
  obtain ⟨route, -, hrun, -, hne⟩ := run_prefers_specific .standard wrapping _ tree routine htree
    hroutine none _ objectsAfter anythingAfter 1 (.tail _ (.head _)) hspecific houtranks
  exact ⟨tree, routine, htree, hroutine, hspecific, haccepts "*" rfl, houtranks, route, hrun, hne⟩

end Multimethod
