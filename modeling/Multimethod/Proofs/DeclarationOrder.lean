import Multimethod.Proofs.Specificity
import Multimethod.Proofs.Truthful

/-!
# The order of declaration

The children of a branch stand in the order in which their types came, and types of one rank are
tried in this order. So permuting the clauses permutes what is tried and may change which of two
overlapping types wins. It changes nothing else. When no value has two types of one rank
(`TypeTable.Separates`, which holds of the built-in types by `separates_standard`), the ways on from
a branch with an argument are the same in the same order (`exits_rel`), although the children and
the report of what was expected are permuted.

`Node.Alike` relates the parts of the two trees that belong together: they hold the same clauses at
the ends of the same ways. Related parts have the same routes (`Alike.routes_eq`) and stop at the
same positions (`Alike.exists_reaches`), so the two routines give the same answers up to the order
of the expected types (`run_perm`).
-/

set_option autoImplicit false
set_option relaxedAutoImplicit false

namespace Multimethod

/-! ### Sorting permuted entries -/

namespace Rank

theorem level_injective {first second : Rank} (hlevel : first.level = second.level) :
    first = second := by
  cases first <;> cases second <;> first | rfl | exact nomatch hlevel

/-- Sorting forgets the order in which the entries with some property came, if no two of them have
one rank. -/
theorem filter_sort_eq_of_perm {α : Type} {rank : α → Rank} {p : α → Bool} {first second : List α}
    (hperm : first.Perm second)
    (hdetermined : ∀ entry ∈ first, ∀ other ∈ first, p entry = true → p other = true →
      rank entry = rank other → entry = other) :
    (sort rank first).filter p = (sort rank second).filter p := by
  refine List.Perm.eq_of_pairwise (fun entry other hentry hother hle hge ↦ ?_)
    ((pairwise_sort rank first).filter p) ((pairwise_sort rank second).filter p)
    (((perm_sort rank first).trans (hperm.trans (perm_sort rank second).symm)).filter p)
  obtain ⟨hentry, hentryHas⟩ := List.mem_filter.mp hentry
  obtain ⟨hother, hotherHas⟩ := List.mem_filter.mp hother
  have hother : other ∈ first := hperm.mem_iff.mpr (by simpa using hother)
  exact hdetermined entry (by simpa using hentry) other hother hentryHas hotherHas
    (level_injective (Nat.le_antisymm hle hge))

end Rank

/-! ### Types without common values -/

namespace TypeTable

/-- No value has two of some types that have one rank. Types of different ranks may overlap. -/
def Separates (types : TypeTable) (used : String → Prop) : Prop :=
  ∀ first second, used first → used second → first ≠ second →
    types.rank first = types.rank second →
      ∀ value, types.accepts first value = true → types.accepts second value = false

/-- A built-in type accepts only the values of its own kind. -/
theorem eq_of_accepts_standard {name : String} (hname : name ≠ wildcard) {value : Value}
    (haccepts : standard.accepts name value = true) : name = value.kind.name := by
  rw [accepts, beq_eq_false_iff_ne.mpr hname, Bool.false_or, Option.any_eq_true] at haccepts
  obtain ⟨type, hfind, hvalue⟩ := haccepts
  obtain rfl : type.name = name := by simpa using List.find?_some hfind
  have hmem := List.mem_of_find?_eq_some hfind
  simp only [standard, List.mem_cons, List.not_mem_nil, or_false] at hmem
  rcases hmem with rfl | rfl | rfl | rfl | rfl | rfl | rfl <;>
    exact congrArg Kind.name (beq_iff_eq.mp hvalue).symm

/-- No value has two of the built-in types. -/
theorem separates_standard (used : String → Prop) : standard.Separates used := by
  intro first second _ _ hne hrank value hfirst
  by_contra hsecond
  rw [Bool.not_eq_false] at hsecond
  by_cases hwildcard : first = wildcard
  · rw [hwildcard, rank, if_pos rfl] at hrank
    by_cases hother : second = wildcard
    · exact hne (hwildcard.trans hother.symm)
    · rw [rank, if_neg hother] at hrank
      split at hrank <;> exact nomatch hrank
  · by_cases hother : second = wildcard
    · rw [hother, rank, if_neg hwildcard, rank, if_pos rfl] at hrank
      split at hrank <;> exact nomatch hrank
    · exact hne ((eq_of_accepts_standard hwildcard hfirst).trans
        (eq_of_accepts_standard hother hsecond).symm)

variable {types : TypeTable} {used : String → Prop}

/-- Of types without common values those that accept an argument are tried in one order, whatever
the order of the children. -/
theorem Separates.accepting_eq (hseparates : types.Separates used)
    {children others : List (String × Node)}
    (hperm : (children.map Prod.fst).Perm (others.map Prod.fst))
    (hused : ∀ child ∈ children, used child.1) (value : Value) :
    ((types.inOrder children).filter fun child ↦ types.accepts child.1 value).map Prod.fst =
      ((types.inOrder others).filter fun child ↦ types.accepts child.1 value).map Prod.fst := by
  have hnames : ∀ entries : List (String × Node),
      ((types.inOrder entries).filter fun child ↦ types.accepts child.1 value).map Prod.fst =
        (Rank.sort types.rank (entries.map Prod.fst)).filter (types.accepts · value) := by
    intro entries
    rw [Rank.sort_map, List.filter_map]
    rfl
  rw [hnames, hnames]
  refine Rank.filter_sort_eq_of_perm hperm
    fun first hfirst second hsecond haccepts hother hrank ↦ ?_
  obtain ⟨child, hchild, rfl⟩ := List.mem_map.mp hfirst
  obtain ⟨other, hmem, rfl⟩ := List.mem_map.mp hsecond
  by_contra hne
  rw [hseparates _ _ (hused child hchild) (hused other hmem) hne hrank value haccepts] at hother
  exact nomatch hother

end TypeTable

/-! ### Parts that belong together -/

namespace Node

/-- The clauses of a node take so many single arguments and no others, no part of it is without a
clause, and no two ways through it are written alike. -/
structure Tidy (count : Nat) (node : Node) : Prop where
  fits : node.Fits false count
  full : node.Full
  distinct : node.Distinct

/-- Nodes hold the same clauses, each at the end of the same way, and name only some types. -/
structure Alike (used : String → Prop) (count : Nat) (first second : Node) : Prop where
  left : first.Tidy count
  right : second.Tidy count
  holds_iff : ∀ pattern clause, first.Holds pattern clause ↔ second.Holds pattern clause
  named : ∀ pattern clause, first.Holds pattern clause → ∀ name ∈ pattern.fixed, used name

theorem Tidy.child {count : Nat} {children : List (String × Node)}
    (htidy : (branch children).Tidy (count + 1)) {child : String × Node}
    (hchild : child ∈ children) : child.2.Tidy count where
  fits := htidy.fits child hchild
  full := ((full_branch_iff children).mp htidy.full child hchild).1
  distinct := by
    cases htidy.distinct with
    | branch _ hbelow => exact hbelow child hchild

namespace Alike

variable {used : String → Prop} {count : Nat}

/-- Parts for no more arguments are one clause. -/
theorem exists_leaf {first second : Node} (halike : Alike used 0 first second) :
    ∃ clause, first = .leaf clause ∧ second = .leaf clause := by
  have hfirst := halike.left.fits
  have hsecond := halike.right.fits
  cases first with
  | branch _ => exact hfirst.elim
  | remainder _ => exact nomatch hfirst
  | leaf clause =>
    cases second with
    | branch _ => exact hsecond.elim
    | remainder _ => exact nomatch hsecond
    | leaf other =>
      obtain ⟨-, rfl⟩ :=
        (holds_leaf_iff other clause _).mp ((halike.holds_iff _ _).mp (.leaf clause))
      exact ⟨clause, rfl, rfl⟩

/-- Parts for further arguments are branches. -/
theorem exists_branch {first second : Node} (halike : Alike used (count + 1) first second) :
    ∃ children others, first = .branch children ∧ second = .branch others := by
  have hfirst := halike.left.fits
  have hsecond := halike.right.fits
  cases first with
  | leaf _ | remainder _ => exact hfirst.elim
  | branch children =>
    cases second with
    | leaf _ | remainder _ => exact hsecond.elim
    | branch others => exact ⟨children, others, rfl, rfl⟩

variable {children others : List (String × Node)}

/-- The children of branches that belong together have the same names. -/
theorem names_perm (halike : Alike used (count + 1) (branch children) (branch others)) :
    (children.map Prod.fst).Perm (others.map Prod.fst) := by
  cases halike.left.distinct with
  | branch hnames _ =>
    cases halike.right.distinct with
    | branch hotherNames _ =>
      rw [List.perm_ext_iff_of_nodup hnames hotherNames]
      intro name
      simp only [mem_names_iff halike.left.full, mem_names_iff halike.right.full, halike.holds_iff]

theorem used_name (halike : Alike used (count + 1) (branch children) (branch others))
    {child : String × Node} (hchild : child ∈ children) : used child.1 := by
  obtain ⟨names, rest, clause, hholds⟩ :=
    (mem_names_iff halike.left.full child.1).mp (List.mem_map_of_mem hchild)
  exact halike.named _ clause hholds child.1 List.mem_cons_self

/-- Children with one name belong together if their branches do. -/
theorem child (halike : Alike used (count + 1) (branch children) (branch others))
    {child other : String × Node} (hchild : child ∈ children) (hother : other ∈ others)
    (hname : child.1 = other.1) : Alike used count child.2 other.2 where
  left := halike.left.child hchild
  right := halike.right.child hother
  holds_iff := by
    rintro ⟨names, rest⟩ clause
    rw [← holds_child_iff halike.left.distinct hchild, halike.holds_iff, hname,
      holds_child_iff halike.right.distinct hother]
  named := fun ⟨names, rest⟩ clause hholds name hmem ↦
    halike.named _ clause (.child hchild hholds) name (List.mem_cons_of_mem _ hmem)

/-! ### The same ways -/

variable {types : TypeTable} {conversions : ConversionTable}

/-- The same types are tried at branches that belong together. -/
theorem inOrder_perm (types : TypeTable)
    (halike : Alike used (count + 1) (branch children) (branch others)) :
    ((types.inOrder children).map Prod.fst).Perm ((types.inOrder others).map Prod.fst) :=
  ((Rank.perm_sort _ children).map Prod.fst).trans
    (halike.names_perm.trans ((Rank.perm_sort _ others).map Prod.fst).symm)

/-- The same conversions help at branches that belong together. -/
theorem atBranch_eq (types : TypeTable) (conversions : ConversionTable)
    (halike : Alike used (count + 1) (branch children) (branch others)) :
    conversions.atBranch types children = conversions.atBranch types others :=
  conversions.toward_congr fun _ ↦ (halike.inOrder_perm types).mem_iff

/-- A name leads to children that belong together, or to none. -/
theorem find?_rel (halike : Alike used (count + 1) (branch children) (branch others))
    (types : TypeTable) (target : String) :
    Option.Rel (fun child other ↦ Alike used count child.2 other.2)
      ((types.inOrder children).find? (·.1 == target))
      ((types.inOrder others).find? (·.1 == target)) := by
  have hmem : ∀ (entries : List (String × Node)) (name : String),
      (∃ child, (types.inOrder entries).find? (·.1 == name) = some child) ↔
        name ∈ entries.map Prod.fst := by
    intro entries name
    rw [← Option.isSome_iff_exists]
    simp
  have hsame := halike.names_perm.mem_iff (a := target)
  rw [← hmem children, ← hmem others] at hsame
  cases hchild : (types.inOrder children).find? (·.1 == target) with
  | none =>
    cases hother : (types.inOrder others).find? (·.1 == target) with
    | none => exact .none
    | some other =>
      obtain ⟨child, hfound⟩ := hsame.mpr ⟨other, hother⟩
      exact nomatch hchild.symm.trans hfound
  | some child =>
    obtain ⟨other, hother⟩ := hsame.mp ⟨child, hchild⟩
    rw [hother]
    refine .some (halike.child
      (by simpa using List.mem_of_find?_eq_some hchild)
      (by simpa using List.mem_of_find?_eq_some hother) ?_)
    have hname : child.1 = target := by simpa using List.find?_some hchild
    have hotherName : other.1 = target := by simpa using List.find?_some hother
    rw [hname, hotherName]

/-- The ways on from branches that belong together hand on the same values, in the same order, to
parts that belong together. -/
theorem exits_rel (halike : Alike used (count + 1) (branch children) (branch others))
    (hseparates : types.Separates used) (value : Value) :
    List.Forall₂ (fun exit other ↦ exit.1 = other.1 ∧ Alike used count exit.2 other.2)
      (exits types conversions children value) (exits types conversions others value) := by
  have hdirect : ∀ entries : List (String × Node),
      ((types.inOrder entries).filterMap fun child ↦
          if types.accepts child.1 value then some (value, child.2) else none) =
        ((types.inOrder entries).filter fun child ↦ types.accepts child.1 value).map
          fun child ↦ (value, child.2) := by
    intro entries
    rw [← List.filterMap_eq_map, List.filterMap_filter]
    rfl
  rw [exits, exits, hdirect, hdirect, halike.atBranch_eq types conversions]
  refine List.rel_append ?_ (List.rel_filterMap (R := Eq) ?_ (List.forall₂_same.mpr fun _ _ ↦ rfl))
  · rw [List.forall₂_map_left_iff, List.forall₂_map_right_iff]
    refine forall₂_of_map_eq (hseparates.accepting_eq halike.names_perm
      (fun child hchild ↦ halike.used_name hchild) value) fun child hchild other hother hname ↦ ?_
    exact ⟨rfl, halike.child
      (by simpa using (List.mem_filter.mp hchild).1)
      (by simpa using (List.mem_filter.mp hother).1) hname⟩
  · rintro conversion _ rfl
    have htarget := halike.find?_rel types conversion.target
    beta_reduce
    generalize (types.inOrder children).find? (·.1 == conversion.target) = child? at htarget ⊢
    generalize (types.inOrder others).find? (·.1 == conversion.target) = other? at htarget ⊢
    cases conversion.output? types value with
    | none => exact .none
    | some taken =>
      cases htarget with
      | none => exact .none
      | some hbelow => exact .some ⟨rfl, hbelow⟩

/-- Parts that belong together have the same routes. -/
theorem routes_eq {first second : Node} (halike : Alike used count first second)
    (hseparates : types.Separates used) (values : List Value) :
    first.routes types conversions values = second.routes types conversions values := by
  induction count generalizing first second values with
  | zero =>
    obtain ⟨clause, rfl, rfl⟩ := halike.exists_leaf
    rfl
  | succ count ih =>
    obtain ⟨children, others, rfl, rfl⟩ := halike.exists_branch
    cases values with
    | nil => rfl
    | cons value values =>
      rw [routes_branch, routes_branch]
      refine flatMap_eq_of_forall₂ (halike.exits_rel hseparates value) ?_
      rintro exit other ⟨htaken, hbelow⟩
      rw [htaken, ih hbelow]

/-! ### The same stops -/

/-- What one of two parts that belong together reaches belongs together with something that the
other one reaches, with the same values handed on and the same arguments left. -/
theorem exists_reaches {first second : Node} (halike : Alike used count first second)
    (hseparates : types.Separates used) {values : List Value} {route : PartialRoute}
    (hreaches : first.Reaches types conversions values route) :
    ∃ other : PartialRoute, second.Reaches types conversions values other ∧
      other.taken = route.taken ∧ other.left = route.left ∧
        ∃ left, Alike used left route.part other.part := by
  induction hreaches generalizing count second with
  | here node values => exact ⟨_, .here second values, rfl, rfl, count, halike⟩
  | beyond hexit _ ih =>
    cases count with
    | zero =>
      obtain ⟨clause, hleaf, -⟩ := halike.exists_leaf
      exact nomatch hleaf
    | succ count =>
      obtain ⟨-, others, -, rfl⟩ := halike.exists_branch
      obtain ⟨exit, hother, htaken, hbelow⟩ :=
        exists_rel_of_mem_left (halike.exits_rel hseparates _) hexit
      obtain ⟨other, hreached, hsame, hleft, left, hparts⟩ := ih hbelow
      refine ⟨_, .beyond hother hreached, ?_, hleft, left, hparts⟩
      rw [PartialRoute.after, PartialRoute.after, htaken, hsame]

/-- Partial routes to parts that belong together stop at the same positions, where the same types
are expected. -/
theorem exists_stop {route other : PartialRoute} (halike : Alike used count route.part other.part)
    (htaken : other.taken = route.taken) (hleft : other.left = route.left) {stop : WiredStop}
    (hstop : stop ∈ route.stops types conversions) :
    ∃ found ∈ other.stops types conversions, found.position = stop.position ∧
      ∀ name, name ∈ found.expected ↔ name ∈ stop.expected := by
  obtain ⟨taken, part, values⟩ := route
  obtain ⟨otherTaken, otherPart, otherValues⟩ := other
  obtain rfl : otherTaken = taken := htaken
  obtain rfl : otherValues = values := hleft
  cases count with
  | zero =>
    obtain ⟨clause, rfl, rfl⟩ := halike.exists_leaf
    exact ⟨stop, hstop, rfl, fun _ ↦ Iff.rfl⟩
  | succ count =>
    obtain ⟨children, others, rfl, rfl⟩ := halike.exists_branch
    cases otherValues with
    | nil => exact (List.not_mem_nil hstop).elim
    | cons value values =>
      rw [List.mem_singleton.mp hstop]
      exact ⟨_, List.mem_singleton_self _, rfl, fun _ ↦ (halike.inOrder_perm types).symm.mem_iff⟩

end Alike

end Node

/-! ### The groups of a tree -/

namespace Tree

/-- The groups of two trees belong to the same arities and belong together one by one. -/
def Alike (used : String → Prop) (first second : Tree) : Prop :=
  List.Forall₂ (fun group other ↦
      group.1 = other.1 ∧ ∃ count, Node.Alike used count group.2 other.2)
    first.groups second.groups

variable {types : TypeTable} {conversions : ConversionTable} {used : String → Prop}
  {tree permuted : Tree} {clauses reordered : List Clause}

/-- Trees of the same clauses have groups for the same arities, in the same order. -/
theorem Represents.arities_eq (hrepresents : tree.Represents clauses)
    (hpermuted : permuted.Represents reordered) (hperm : clauses.Perm reordered) :
    tree.groups.map Prod.fst = permuted.groups.map Prod.fst := by
  refine List.Perm.eq_of_pairwise (fun first second _ _ hprecedes hfollows ↦ ?_)
    hrepresents.sorted_arities hpermuted.sorted_arities ?_
  · have hself := Arity.precedes_trans hprecedes hfollows
    rw [Arity.precedes_irrefl] at hself
    exact nomatch hself
  · rw [List.perm_ext_iff_of_nodup hrepresents.nodup_arities hpermuted.nodup_arities]
    intro arity
    simp only [hrepresents.mem_arities_iff, hpermuted.mem_arities_iff, hperm.mem_iff]

/-- A group of clauses without repeated slots is tidy. -/
theorem exists_tidy (htree : ofClauses clauses = .ok tree)
    (hclosed : ∀ clause ∈ clauses, clause.pattern.rest = none) {group : Arity × Node}
    (hgroup : group ∈ tree.groups) : ∃ count, group.1 = .exact count ∧ group.2.Tidy count := by
  have hrepresents := represents_ofClauses htree
  obtain ⟨clause, hclause, harity, hfits⟩ := hrepresents.uniform group hgroup
  rw [hclosed clause hclause] at hfits
  refine ⟨clause.pattern.fixed.length, ?_, hfits, hrepresents.full group hgroup,
    distinct_ofClauses htree group hgroup⟩
  rw [harity, Pattern.arity, hclosed clause hclause]

/-- Trees of the same clauses, in whichever order, are alike. -/
theorem alike_of_perm (htree : ofClauses clauses = .ok tree)
    (hpermuted : ofClauses reordered = .ok permuted) (hperm : clauses.Perm reordered)
    (hclosed : ∀ clause ∈ clauses, clause.pattern.rest = none)
    (hused : ∀ clause ∈ clauses, ∀ name ∈ clause.pattern.fixed, used name) :
    tree.Alike used permuted := by
  have hrepresents := represents_ofClauses htree
  have hother := represents_ofClauses hpermuted
  refine forall₂_of_map_eq (hrepresents.arities_eq hother hperm)
    fun group hgroup other hmem harity ↦ ?_
  obtain ⟨count, hcount, hleft⟩ := exists_tidy htree hclosed hgroup
  obtain ⟨same, hsame, hright⟩ := exists_tidy hpermuted
    (fun clause hclause ↦ hclosed clause (hperm.mem_iff.mpr hclause)) hmem
  obtain rfl : count = same := Arity.exact.inj (hcount.symm.trans (harity.trans hsame))
  refine ⟨harity, count, hleft, hright, fun pattern clause ↦ ?_, fun pattern clause hholds ↦ ?_⟩
  · rw [hrepresents.holds_group_iff hgroup, hother.holds_group_iff hmem, hperm.mem_iff, harity]
  · obtain ⟨hclause, rfl⟩ := hrepresents.clause_of_holds hgroup hholds
    exact hused clause hclause

namespace Alike

/-- Trees that are alike have the same routes. -/
theorem routes_eq (halike : tree.Alike used permuted) (hseparates : types.Separates used)
    (arguments : List Value) :
    tree.routes types conversions arguments = permuted.routes types conversions arguments := by
  rw [Tree.routes, Tree.routes]
  refine flatMap_eq_of_forall₂ (List.rel_filter (fun group other hgroup ↦ ?_) halike) ?_
  · change (group.1.accepts _ = true) ↔ (other.1.accepts _ = true)
    rw [hgroup.1]
  · rintro group other ⟨-, count, hbelow⟩
    exact hbelow.routes_eq hseparates arguments

/-- A call stops in trees that are alike at the same positions, where the same types are
expected. -/
theorem exists_stop (halike : tree.Alike used permuted) (hseparates : types.Separates used)
    {arguments : List Value} {stop : WiredStop}
    (hstop : stop ∈ tree.stops types conversions arguments) :
    ∃ found ∈ permuted.stops types conversions arguments, found.position = stop.position ∧
      ∀ name, name ∈ found.expected ↔ name ∈ stop.expected := by
  obtain ⟨group, hgroup, haccepts, route, hreaches, hmem⟩ := Tree.mem_stops_iff.mp hstop
  obtain ⟨other, hother, harity, count, hbelow⟩ := exists_rel_of_mem_left halike hgroup
  obtain ⟨reached, hreached, htaken, hleft, left, hparts⟩ :=
    hbelow.exists_reaches hseparates hreaches
  obtain ⟨found, hfound, hsame⟩ := hparts.exists_stop htaken hleft hmem
  exact ⟨found, Tree.mem_stops_iff.mpr
    ⟨other, hother, harity ▸ haccepts, reached, hreached, hfound⟩, hsame⟩

end Alike

end Tree

/-! ### Calls -/

/-- Answers to a call are the same, up to the order in which the expected types are named. -/
inductive SameAnswer : Except Failure Outcome → Except Failure Outcome → Prop
  | matched (outcome : Outcome) : SameAnswer (.ok outcome) (.ok outcome)
  | argumentCount (function : Option String) (got : Nat) (expected : String) :
      SameAnswer (.error (.argumentCount function got expected))
        (.error (.argumentCount function got expected))
  | argumentType (function : Option String) (index : Nat) (actual : String)
      {expected others : List String} (hperm : expected.Perm others) :
      SameAnswer (.error (.argumentType function index actual expected))
        (.error (.argumentType function index actual others))

section Calls

variable {types : TypeTable} {conversions : ConversionTable} {used : String → Prop}
  {tree permuted : Tree} {clauses reordered : List Clause} {routine other : Routine}

theorem Routine.arityText_congr (harities : routine.arities = other.arities) :
    routine.arityText = other.arityText := by
  have hempty : ∀ made : Routine, made.groups.isEmpty = made.arities.isEmpty :=
    fun _ ↦ List.isEmpty_map.symm
  rw [arityText, arityText, hempty, hempty, harities]

/-- Reports of one call from trees that are alike name the same position and the same types. -/
theorem sameAnswer_of_reports (htree : Tree.ofClauses clauses = .ok tree)
    (hpermuted : Tree.ofClauses reordered = .ok permuted)
    (hroutine : Routine.ofTree types conversions tree = .ok routine)
    (hother : Routine.ofTree types conversions permuted = .ok other)
    (halike : tree.Alike used permuted) (hback : permuted.Alike used tree)
    (hseparates : types.Separates used) {function : Option String} {arguments : List Value}
    {index position : Nat} {actual named : String} {expected others : List String}
    (hrun : routine.run function arguments = .error (.argumentType function index actual expected))
    (hagain : other.run function arguments =
      .error (.argumentType function position named others)) :
    SameAnswer (routine.run function arguments) (other.run function arguments) := by
  obtain ⟨-, hgreatest, hexpected⟩ := report_of_run htree hroutine hrun
  obtain ⟨-, hfurthest, hothers⟩ := report_of_run hpermuted hother hagain
  have hpositions : {position | ∃ stop ∈ tree.stops types conversions arguments,
      stop.position = position} = {position | ∃ stop ∈ permuted.stops types conversions arguments,
        stop.position = position} := by
    ext reached
    constructor
    · rintro ⟨stop, hstop, rfl⟩
      obtain ⟨same, hsame, hposition, -⟩ := halike.exists_stop hseparates hstop
      exact ⟨same, hsame, hposition⟩
    · rintro ⟨stop, hstop, rfl⟩
      obtain ⟨same, hsame, hposition, -⟩ := hback.exists_stop hseparates hstop
      exact ⟨same, hsame, hposition⟩
  obtain rfl := hgreatest.unique (hpositions ▸ hfurthest)
  have hactual : actual = named := by
    obtain ⟨-, -, -, -, hnamed, -⟩ := mismatch_of_run hrun
    obtain ⟨-, -, -, -, hnamedAgain, -⟩ := mismatch_of_run hagain
    rw [hnamed, hnamedAgain, Routine.actualType, Routine.actualType, (ofTree_eq_ok hroutine).2,
      (ofTree_eq_ok hother).2]
  have hnames : expected.Perm others := by
    rw [hexpected, hothers, List.perm_ext_iff_of_nodup (nodup_eraseDups _) (nodup_eraseDups _)]
    intro name
    simp only [List.mem_eraseDups, List.mem_flatMap, List.mem_filter, beq_iff_eq]
    constructor
    · rintro ⟨stop, ⟨hstop, rfl⟩, hname⟩
      obtain ⟨same, hsame, hposition, hiff⟩ := halike.exists_stop hseparates hstop
      exact ⟨same, ⟨hsame, hposition⟩, (hiff name).mpr hname⟩
    · rintro ⟨stop, ⟨hstop, rfl⟩, hname⟩
      obtain ⟨same, hsame, hposition, hiff⟩ := hback.exists_stop hseparates hstop
      exact ⟨same, ⟨hsame, hposition⟩, (hiff name).mpr hname⟩
  rw [hrun, hagain, hactual]
  exact .argumentType function index named hnames

/-- Calls of trees of the same clauses that are alike have the same answers. -/
theorem sameAnswer_of_alike (hperm : clauses.Perm reordered)
    (htree : Tree.ofClauses clauses = .ok tree)
    (hpermuted : Tree.ofClauses reordered = .ok permuted)
    (hroutine : Routine.ofTree types conversions tree = .ok routine)
    (hother : Routine.ofTree types conversions permuted = .ok other)
    (halike : tree.Alike used permuted) (hback : permuted.Alike used tree)
    (hseparates : types.Separates used) (function : Option String) (arguments : List Value) :
    SameAnswer (routine.run function arguments) (other.run function arguments) := by
  have hselect : routine.select arguments = other.select arguments := by
    rw [select_eq_head?_tree_routes hroutine, select_eq_head?_tree_routes hother,
      halike.routes_eq hseparates]
  cases hfound : routine.select arguments with
  | some selection =>
    rw [routine.run_eq_select, other.run_eq_select, ← hselect, hfound]
    exact .matched selection.outcome
  | none =>
    by_cases hcount : ∃ clause ∈ clauses, clause.pattern.arity.accepts arguments.length = true
    · obtain ⟨clause, hclause, haccepts⟩ := hcount
      obtain ⟨index, actual, expected, hrun⟩ :=
        run_eq_argumentType htree hroutine function hfound ⟨clause, hclause, haccepts⟩
      obtain ⟨position, named, others, hagain⟩ := run_eq_argumentType hpermuted hother function
        (hselect ▸ hfound) ⟨clause, hperm.mem_iff.mp hclause, haccepts⟩
      exact sameAnswer_of_reports htree hpermuted hroutine hother halike hback hseparates hrun
        hagain
    · have hnone : ∀ clause ∈ clauses, clause.pattern.arity.accepts arguments.length = false := by
        simpa using hcount
      have harities := (Tree.represents_ofClauses htree).arities_eq
        (Tree.represents_ofClauses hpermuted) hperm
      rw [← arities_eq_of_ofTree hroutine, ← arities_eq_of_ofTree hother] at harities
      have hrun := (run_eq_argumentCount_iff htree hroutine function function arguments _ _).mpr
        ⟨hnone, rfl, rfl, rfl⟩
      have hagain := (run_eq_argumentCount_iff hpermuted hother function function arguments _
        _).mpr ⟨fun clause hclause ↦ hnone clause (hperm.mem_iff.mpr hclause), rfl, rfl, rfl⟩
      rw [hrun, hagain, Routine.arityText_congr harities]
      exact .argumentCount function arguments.length other.arityText

/-- The order in which clauses without repeated slots are declared does not matter if no value has
two of their types that have one rank. In either order the tree is refused or in none, and two
routines that were made give the same answers to every call. -/
theorem run_perm (types : TypeTable) (conversions : ConversionTable)
    (clauses reordered : List Clause) (hperm : clauses.Perm reordered)
    (hclosed : ∀ clause ∈ clauses, clause.pattern.rest = none)
    (hseparates : types.Separates fun name ↦
      ∃ clause ∈ clauses, clause.pattern.uses name = true) :
    ((∃ failure, Tree.ofClauses clauses = .error failure) ↔
      ∃ failure, Tree.ofClauses reordered = .error failure) ∧
    ∀ tree permuted routine other, Tree.ofClauses clauses = .ok tree →
      Tree.ofClauses reordered = .ok permuted →
      Routine.ofTree types conversions tree = .ok routine →
      Routine.ofTree types conversions permuted = .ok other →
      ∀ (function : Option String) (arguments : List Value),
        SameAnswer (routine.run function arguments) (other.run function arguments) := by
  constructor
  · rw [Tree.exists_ofClauses_error_iff, Tree.exists_ofClauses_error_iff,
      (hperm.map Clause.pattern).nodup_iff]
  · intro tree permuted routine other htree hpermuted hroutine hother
    have hused : ∀ clause ∈ clauses, ∀ name ∈ clause.pattern.fixed,
        ∃ clause ∈ clauses, clause.pattern.uses name = true := by
      intro clause hclause name hname
      exact ⟨clause, hclause, by simp [Pattern.uses, hname]⟩
    have halike := Tree.alike_of_perm htree hpermuted hperm hclosed hused
    have hback := Tree.alike_of_perm hpermuted htree hperm.symm
      (fun clause hclause ↦ hclosed clause (hperm.mem_iff.mpr hclause))
      (fun clause hclause ↦ hused clause (hperm.mem_iff.mpr hclause))
    exact sameAnswer_of_alike hperm htree hpermuted hroutine hother halike hback hseparates

end Calls

/-- Three clauses for two arguments: an array or a text after a boolean, and nothing after any
value. -/
def mixed : List Clause :=
  [⟨⟨["boolean", "Array"], none⟩, labelled 0 "list"⟩,
    ⟨⟨["boolean", "string"], none⟩, labelled 1 "text"⟩, ⟨⟨["*", "null"], none⟩, labelled 2 "any"⟩]

/-- Declared the other way round, the clauses expect a text before an array for the object. -/
theorem run_perm_mixed :
    ∃ tree permuted routine other, Tree.ofClauses mixed = .ok tree ∧
      Tree.ofClauses mixed.reverse = .ok permuted ∧
      Routine.ofTree .standard wrapping tree = .ok routine ∧
      Routine.ofTree .standard wrapping permuted = .ok other ∧
      routine.run none [.boolean true, .object []] =
        .error (.argumentType none 1 "Object" ["Array", "string", "null"]) ∧
      other.run none [.boolean true, .object []] =
        .error (.argumentType none 1 "Object" ["string", "Array", "null"]) ∧
      SameAnswer (routine.run none [.boolean true, .object []])
        (other.run none [.boolean true, .object []]) := by
  obtain ⟨tree, htree, permuted, hpermuted, routine, hroutine, other, hother, hrun, hagain⟩ :
      ∃ tree, Tree.ofClauses mixed = .ok tree ∧
        ∃ permuted, Tree.ofClauses mixed.reverse = .ok permuted ∧
          ∃ routine, Routine.ofTree .standard wrapping tree = .ok routine ∧
            ∃ other, Routine.ofTree .standard wrapping permuted = .ok other ∧
              routine.run none [.boolean true, .object []] =
                .error (.argumentType none 1 "Object" ["Array", "string", "null"]) ∧
              other.run none [.boolean true, .object []] =
                .error (.argumentType none 1 "Object" ["string", "Array", "null"]) :=
    ⟨_, rfl, _, rfl, _, rfl, _, rfl, rfl, rfl⟩
  exact ⟨tree, permuted, routine, other, htree, hpermuted, hroutine, hother, hrun, hagain,
    (run_perm .standard wrapping mixed mixed.reverse mixed.reverse_perm.symm (by decide)
      (TypeTable.separates_standard _)).2 tree permuted routine other htree hpermuted hroutine
        hother none _⟩

end Multimethod
