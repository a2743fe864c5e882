import Multimethod.Proofs.PlanOfNode
import Multimethod.Proofs.ReachableEngines
import Multimethod.Proofs.TreeContents
import Multimethod.Routine

/-!
# The names that planning looks up

Planning a part of a tree looks up every name in it and both ends of every conversion that is wired
there; `Node.LooksUp` collects these names without looking any of them up. Planning fails only with
the failure of an unknown one (`ofNode_eq_error`), and when it succeeds all of them are known
(`contains_of_ofNode`). So the routine of a tree can be made exactly if all the names that it looks
up are known (`exists_ofTree_iff`).
-/

set_option autoImplicit false
set_option relaxedAutoImplicit false

namespace Multimethod

namespace Node

/-- What holds of a node if it holds of the nodes below holds of every node. -/
theorem induction {motive : Node → Prop} (hleaf : ∀ clause, motive (.leaf clause))
    (hbranch : ∀ children, (∀ child ∈ children, motive child.2) → motive (.branch children))
    (hremainder : ∀ slots, motive (.remainder slots)) (node : Node) : motive node :=
  @Node.rec motive (fun children ↦ ∀ child ∈ children, motive child.2)
    (fun child ↦ motive child.2) hleaf hbranch hremainder
    (fun _ hmem ↦ absurd hmem List.not_mem_nil)
    (fun _ _ hchild hchildren ↦ List.forall_mem_cons.mpr ⟨hchild, hchildren⟩)
    (fun _ _ hnode ↦ hnode) node

/-- Planning a node looks a name up: an alternative of a repeated slot, the name of a child, a name
below, or an end of a wired conversion. -/
inductive LooksUp (conversions : ConversionTable) : Node → String → Prop
  | alternative {slots : List (Alternatives × Clause)} {slot : Alternatives × Clause}
      {name : String} (hslot : slot ∈ slots) (hname : name ∈ slot.1.names) :
      LooksUp conversions (.remainder slots) name
  | wiredToSlot {slots : List (Alternatives × Clause)} {conversion : Conversion} {name : String}
      (hwired : conversion ∈ conversions.toward (slots.flatMap (·.1.names)))
      (hend : name = conversion.source ∨ name = conversion.target) :
      LooksUp conversions (.remainder slots) name
  | child {children : List (String × Node)} {child : String × Node} (hchild : child ∈ children) :
      LooksUp conversions (.branch children) child.1
  | under {children : List (String × Node)} {child : String × Node} {name : String}
      (hchild : child ∈ children) (hbelow : LooksUp conversions child.2 name) :
      LooksUp conversions (.branch children) name
  | wiredToChild {children : List (String × Node)} {conversion : Conversion} {name : String}
      (hwired : conversion ∈ conversions.toward (children.map Prod.fst))
      (hend : name = conversion.source ∨ name = conversion.target) :
      LooksUp conversions (.branch children) name

end Node

/-- A name on the way to a clause is looked up. -/
theorem Node.Holds.looksUp {node : Node} {pattern : Pattern} {clause : Clause}
    (hholds : node.Holds pattern clause) (conversions : ConversionTable) {name : String}
    (huses : pattern.uses name = true) : node.LooksUp conversions name := by
  induction hholds with
  | leaf clause => simp [Pattern.uses] at huses
  | @arm slots alternatives clause hmem =>
    have hname : name ∈ alternatives.names := by simpa [Pattern.uses] using huses
    exact .alternative hmem hname
  | @child children first below names rest clause hmem _ ih =>
    have hcases : name = first ∨ Pattern.uses name ⟨names, rest⟩ = true := by
      simpa [Pattern.uses, or_assoc] using huses
    rcases hcases with rfl | hbelow
    · exact .child hmem
    · exact .under hmem (ih hbelow)

/-- A name that is looked up is on the way to a clause or an end of a conversion. -/
theorem Node.LooksUp.uses_or_end {conversions : ConversionTable} {node : Node} {name : String}
    (hlooks : node.LooksUp conversions name) (hfull : node.Full) :
    (∃ pattern clause, node.Holds pattern clause ∧ pattern.uses name = true) ∨
      ∃ conversion ∈ conversions.conversions,
        name = conversion.source ∨ name = conversion.target := by
  induction hlooks with
  | alternative hslot hname =>
    exact Or.inl ⟨_, _, .arm hslot, by simpa [Pattern.uses] using hname⟩
  | wiredToSlot hwired hend =>
    exact Or.inr ⟨_, (ConversionTable.mem_of_mem_toward hwired).1, hend⟩
  | wiredToChild hwired hend =>
    exact Or.inr ⟨_, (ConversionTable.mem_of_mem_toward hwired).1, hend⟩
  | child hchild =>
    obtain ⟨-, ⟨names, rest⟩, clause, hclause⟩ := (Node.full_branch_iff _).mp hfull _ hchild
    exact Or.inl ⟨_, clause, .child hchild hclause, by simp [Pattern.uses]⟩
  | under hchild _ ih =>
    rcases ih ((Node.full_branch_iff _).mp hfull _ hchild).1 with
      ⟨⟨names, rest⟩, clause, hclause, huses⟩ | hend
    · refine Or.inl ⟨_, clause, .child hchild hclause, ?_⟩
      have hother : Pattern.uses _ ⟨names, rest⟩ = true := huses
      simp only [Pattern.uses, Bool.or_eq_true, List.contains_iff_mem] at hother ⊢
      exact hother.imp_left (List.mem_cons_of_mem _)
    · exact Or.inr hend

/-- The conversions that help depend only on which targets there are. -/
theorem ConversionTable.toward_congr (table : ConversionTable) {first second : List String}
    (hsame : ∀ name, name ∈ first ↔ name ∈ second) : table.toward first = table.toward second := by
  have hcontains : ∀ name, first.contains name = second.contains name := by
    intro name
    rw [Bool.eq_iff_iff, List.contains_iff_mem, List.contains_iff_mem, hsame]
  have hextend : extend first = extend second := by
    ext wired conversion
    simp only [extend, hcontains]
  rw [toward, toward, hextend]

/-! ### Planning a node -/

namespace Plan

variable {types : TypeTable} {conversions : ConversionTable}

theorem bridge_eq_error {conversion : Conversion} {failure : Failure}
    (herror : bridge types conversion = .error failure) :
    ∃ name, (name = conversion.source ∨ name = conversion.target) ∧
      types.contains name = false ∧ failure = types.unknown name := by
  rcases bind_eq_error_iff.mp herror with hsource | ⟨starts, -, hrest⟩
  · exact ⟨conversion.source, Or.inl rfl, (types.test_eq_error_iff _ _).mp hsource⟩
  · rcases bind_eq_error_iff.mp hrest with htarget | ⟨arrives, -, hpure⟩
    · exact ⟨conversion.target, Or.inr rfl, (types.test_eq_error_iff _ _).mp htarget⟩
    · exact nomatch hpure

theorem bridges_eq_error {targets : List String} {failure : Failure}
    (herror : bridges types conversions targets = .error failure) :
    ∃ conversion ∈ conversions.toward targets, ∃ name,
      (name = conversion.source ∨ name = conversion.target) ∧
        types.contains name = false ∧ failure = types.unknown name := by
  obtain ⟨conversion, hmem, hbridge⟩ := exists_mem_of_mapM_error herror
  exact ⟨conversion, hmem, bridge_eq_error hbridge⟩

theorem contains_of_bridges {targets : List String} {made : List Bridge}
    (hmade : bridges types conversions targets = .ok made) {conversion : Conversion}
    (hmem : conversion ∈ conversions.toward targets) {name : String}
    (hend : name = conversion.source ∨ name = conversion.target) : types.contains name = true := by
  obtain ⟨hsource, htarget⟩ := (bridges_eq_ok_iff.mp hmade).1 conversion hmem
  rcases hend with rfl | rfl
  · exact hsource
  · exact htarget

theorem arm_eq_error {made : List Bridge} {slot : Alternatives × Clause} {failure : Failure}
    (herror : arm types made slot = .error failure) :
    ∃ name ∈ slot.1.names, types.contains name = false ∧ failure = types.unknown name := by
  rcases bind_eq_error_iff.mp herror with hchoices | ⟨choices, -, hpure⟩
  · obtain ⟨name, hmem, hchoice⟩ := exists_mem_of_mapM_error hchoices
    rcases bind_eq_error_iff.mp hchoice with htest | ⟨test, -, hpure⟩
    · exact ⟨name, hmem, (types.test_eq_error_iff _ _).mp htest⟩
    · exact nomatch hpure
  · exact nomatch hpure

/-- The targets at a remainder are those of its slots, in whichever order they are tried. -/
theorem toward_armsInOrder (types : TypeTable) (conversions : ConversionTable)
    (slots : List (Alternatives × Clause)) :
    conversions.toward ((types.armsInOrder slots).flatMap (·.1.names)) =
      conversions.toward (slots.flatMap (·.1.names)) :=
  conversions.toward_congr fun _ ↦ ((Rank.perm_sort _ slots).flatMap_right (·.1.names)).mem_iff

theorem mem_inOrder_plansOf {children : List (String × Node)}
    {child : String × Except Failure Plan} :
    child ∈ types.inOrder (plansOf types conversions children) ↔
      ∃ below ∈ children, (below.1, ofNode types conversions below.2) = child := by
  simp [plansOf_eq_map]

theorem toward_inOrder_plansOf (types : TypeTable) (conversions : ConversionTable)
    (children : List (String × Node)) :
    conversions.toward ((types.inOrder (plansOf types conversions children)).map Prod.fst) =
      conversions.toward (children.map Prod.fst) := by
  have hnames : (plansOf types conversions children).map Prod.fst = children.map Prod.fst := by
    rw [plansOf_eq_map, List.map_map]
    rfl
  rw [← hnames]
  exact conversions.toward_congr fun _ ↦ ((Rank.perm_sort _ _).map Prod.fst).mem_iff

/-- Planning a node fails only because a name that it looks up is unknown. -/
theorem ofNode_eq_error {node : Node} {failure : Failure}
    (herror : ofNode types conversions node = .error failure) :
    ∃ name, node.LooksUp conversions name ∧ types.contains name = false ∧
      failure = types.unknown name := by
  induction node using Node.induction generalizing failure with
  | hleaf clause => exact nomatch herror
  | hremainder slots =>
    rcases bind_eq_error_iff.mp herror with hbridges | ⟨made, -, hrest⟩
    · obtain ⟨conversion, hwired, name, hend, hname⟩ := bridges_eq_error hbridges
      have htargets := toward_armsInOrder types conversions slots
      exact ⟨name, .wiredToSlot (htargets ▸ hwired) hend, hname⟩
    · rcases bind_eq_error_iff.mp hrest with harms | ⟨arms, -, hpure⟩
      · obtain ⟨slot, hmem, harm⟩ := exists_mem_of_mapM_error harms
        obtain ⟨name, hname, hunknown⟩ := arm_eq_error harm
        exact ⟨name, .alternative (by simpa using hmem) hname, hunknown⟩
      · exact nomatch hpure
  | hbranch children ih =>
    rcases bind_eq_error_iff.mp herror with hdirect | ⟨direct, -, hrest⟩
    · obtain ⟨child, hmem, hstep⟩ := exists_mem_of_mapM_error hdirect
      obtain ⟨below, hbelow, rfl⟩ := mem_inOrder_plansOf.mp hmem
      rcases bind_eq_error_iff.mp hstep with htest | ⟨test, -, hplanned⟩
      · exact ⟨below.1, .child hbelow, (types.test_eq_error_iff _ _).mp htest⟩
      · rcases bind_eq_error_iff.mp hplanned with hplan | ⟨plan, -, hpure⟩
        · obtain ⟨name, hname, hunknown⟩ := ih below hbelow hplan
          exact ⟨name, .under hbelow hname, hunknown⟩
        · exact nomatch hpure
    · rcases bind_eq_error_iff.mp hrest with hbridges | ⟨made, -, hpure⟩
      · obtain ⟨conversion, hwired, name, hend, hname⟩ := bridges_eq_error hbridges
        have htargets := toward_inOrder_plansOf types conversions children
        exact ⟨name, .wiredToChild (htargets ▸ hwired) hend, hname⟩
      · exact nomatch hpure

/-- When a node was planned, every name that planning looks up is known. -/
theorem contains_of_ofNode {node : Node} {plan : Plan}
    (hplan : ofNode types conversions node = .ok plan) {name : String}
    (hname : node.LooksUp conversions name) : types.contains name = true := by
  induction hname generalizing plan with
  | @alternative slots slot name hslot hname =>
    obtain ⟨made, hmade, hrest⟩ := bind_eq_ok_iff.mp hplan
    obtain ⟨arms, harms, -⟩ := bind_eq_ok_iff.mp hrest
    obtain ⟨-, rfl⟩ := bridges_eq_ok_iff.mp hmade
    obtain ⟨hknown, -⟩ := (mapM_eq_ok_iff_eq_map fun _ _ ↦ arm_eq_ok_iff).mp harms
    exact hknown slot ((types.mem_armsInOrder_iff slots slot).mpr hslot) name hname
  | @wiredToSlot slots conversion name hwired hend =>
    obtain ⟨made, hmade, -⟩ := bind_eq_ok_iff.mp hplan
    have htargets := toward_armsInOrder types conversions slots
    exact contains_of_bridges hmade (htargets.symm ▸ hwired) hend
  | @child children child hchild =>
    obtain ⟨direct, hdirect, -⟩ := bind_eq_ok_iff.mp hplan
    obtain ⟨step, hstep⟩ :=
      exists_ok_of_mem_mapM hdirect (mem_inOrder_plansOf.mpr ⟨child, hchild, rfl⟩)
    obtain ⟨test, htest, -⟩ := bind_eq_ok_iff.mp hstep
    exact ((types.test_eq_ok_iff _ _).mp htest).1
  | @under children child name hchild _ ih =>
    obtain ⟨direct, hdirect, -⟩ := bind_eq_ok_iff.mp hplan
    obtain ⟨step, hstep⟩ :=
      exists_ok_of_mem_mapM hdirect (mem_inOrder_plansOf.mpr ⟨child, hchild, rfl⟩)
    obtain ⟨test, -, hrest⟩ := bind_eq_ok_iff.mp hstep
    obtain ⟨below, hbelow, -⟩ := bind_eq_ok_iff.mp hrest
    exact ih hbelow
  | @wiredToChild children conversion name hwired hend =>
    obtain ⟨direct, -, hrest⟩ := bind_eq_ok_iff.mp hplan
    obtain ⟨made, hmade, -⟩ := bind_eq_ok_iff.mp hrest
    have htargets := toward_inOrder_plansOf types conversions children
    exact contains_of_bridges hmade (htargets.symm ▸ hwired) hend

end Plan

/-! ### The routine of a tree -/

/-- Making the routine of a tree looks a name up. -/
def Tree.LooksUp (tree : Tree) (conversions : ConversionTable) (name : String) : Prop :=
  ∃ group ∈ tree.groups, group.2.LooksUp conversions name

namespace Routine

variable {types : TypeTable} {conversions : ConversionTable} {tree : Tree}

theorem ofTree_eq_error {failure : Failure}
    (herror : ofTree types conversions tree = .error failure) :
    ∃ name, tree.LooksUp conversions name ∧ types.contains name = false ∧
      failure = types.unknown name := by
  rcases bind_eq_error_iff.mp herror with hgroups | ⟨groups, -, hpure⟩
  · obtain ⟨group, hmem, hgroup⟩ := exists_mem_of_mapM_error hgroups
    have hplan : Plan.ofNode types conversions group.2 = .error failure :=
      map_eq_error_iff.mp hgroup
    obtain ⟨name, hname, hunknown⟩ := Plan.ofNode_eq_error hplan
    exact ⟨name, ⟨group, hmem, hname⟩, hunknown⟩
  · exact nomatch hpure

/-- The routine of a tree can be made exactly if every name that is looked up is known. -/
theorem exists_ofTree_iff :
    (∃ routine, ofTree types conversions tree = .ok routine) ↔
      ∀ name, tree.LooksUp conversions name → types.contains name = true := by
  constructor
  · rintro ⟨routine, hroutine⟩ name ⟨group, hmem, hname⟩
    obtain ⟨groups, hgroups, -⟩ := bind_eq_ok_iff.mp hroutine
    obtain ⟨made, hmade⟩ := exists_ok_of_mem_mapM hgroups hmem
    obtain ⟨plan, hplan, -⟩ := map_eq_ok_iff.mp hmade
    exact Plan.contains_of_ofNode hplan hname
  · intro hknown
    cases hroutine : ofTree types conversions tree with
    | ok routine => exact ⟨routine, rfl⟩
    | error failure =>
      obtain ⟨name, hname, hunknown, -⟩ := ofTree_eq_error hroutine
      exact absurd (hknown name hname) (ne_true_of_eq_false hunknown)

end Routine

/-! ### The routine of some clauses -/

section Clauses

variable {types : TypeTable} {conversions : ConversionTable} {tree : Tree} {clauses : List Clause}

theorem Tree.Represents.looksUp (hrepresents : tree.Represents clauses) {clause : Clause}
    (hmem : clause ∈ clauses) {name : String} (huses : clause.pattern.uses name = true) :
    tree.LooksUp conversions name := by
  obtain ⟨group, hgroup, -, hholds⟩ := (hrepresents.holds_iff clause.pattern clause).mpr ⟨hmem, rfl⟩
  exact ⟨group, hgroup, hholds.looksUp conversions huses⟩

/-- When the conversions are between registered types, an unknown name that is looked up is in a
clause of the tree. -/
theorem Tree.Represents.exists_uses (hrepresents : tree.Represents clauses)
    (hwithin : conversions.Within types) {name : String} (hlooks : tree.LooksUp conversions name)
    (hunknown : types.contains name = false) :
    ∃ clause ∈ clauses, clause.pattern.uses name = true := by
  obtain ⟨group, hgroup, hname⟩ := hlooks
  rcases hname.uses_or_end (hrepresents.full group hgroup) with
    ⟨pattern, clause, hholds, huses⟩ | ⟨conversion, hmem, hend⟩
  · obtain ⟨other, -, harity, hfits⟩ := hrepresents.uniform group hgroup
    obtain ⟨hlength, hrest⟩ := hholds.length_eq hfits
    have hgroupArity : group.1 = pattern.arity := by
      rw [harity, Pattern.arity_eq_iff]
      exact ⟨hlength.symm, hrest.symm⟩
    obtain ⟨hclause, hpattern⟩ :=
      (hrepresents.holds_iff pattern clause).mp ⟨group, hgroup, hgroupArity, hholds⟩
    rw [← hpattern] at huses
    exact ⟨clause, hclause, huses⟩
  · exact absurd (hwithin.contains hmem hend) (ne_true_of_eq_false hunknown)

/-- The routine of a tree can be made exactly if every name in its clauses is known. -/
theorem Tree.Represents.exists_ofTree_iff (hrepresents : tree.Represents clauses)
    (hwithin : conversions.Within types) :
    (∃ routine, Routine.ofTree types conversions tree = .ok routine) ↔
      ∀ clause ∈ clauses, ∀ name, clause.pattern.uses name = true →
        types.contains name = true := by
  rw [Routine.exists_ofTree_iff]
  constructor
  · intro hknown clause hmem name huses
    exact hknown name (hrepresents.looksUp hmem huses)
  · intro hknown name hlooks
    -- An end of a conversion is known, so an unknown name would be in a clause.
    by_contra hunknown
    obtain ⟨clause, hmem, huses⟩ :=
      hrepresents.exists_uses hwithin hlooks (Bool.not_eq_true _ ▸ hunknown)
    exact hunknown (hknown clause hmem name huses)

end Clauses

end Multimethod
