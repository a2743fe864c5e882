import Multimethod.Proofs.Matching
import Multimethod.Proofs.WaysDown

/-!
# Trees share beginnings

A tree that is built from clauses is these clauses with their common beginnings put together, and
nothing else. `Tree.SharesBeginnings` says this of the whole tree and `Node.SharesBeginnings` of one
of its groups: below every part come the slots in which the clauses go on after the way to it, each
once and where it comes first; the leaves are the clauses, each at the end of its written slots; and
where only a repeated slot is left, the plan has an arm for every part.

`ofClauses_sharesBeginnings` proves it of every tree that is built from clauses of texts. Insertion
changes one group only, so what it keeps of a part is kept of every group with the clauses of its
arity (`forall_groups_ofClauses`).
-/

set_option autoImplicit false
set_option relaxedAutoImplicit false

namespace Multimethod

/-- The clauses that have an arity, in order. -/
def Clause.ofArity (arity : Arity) (clauses : List Clause) : List Clause :=
  clauses.filter fun clause ↦ decide (clause.pattern.arity = arity)

/-- The ways to some clauses, in order. -/
def Clause.ways (clauses : List Clause) : List (List String) :=
  clauses.map (·.pattern.slotTexts)

/-- A part of a tree puts the common beginnings of some clauses of one arity together. -/
structure Node.SharesBeginnings (node : Node) (arity : Arity) (clauses : List Clause) : Prop where
  keys_eq : ∀ beginning part, node.Leads beginning part →
    part.keys = slotsAfter beginning (Clause.ways clauses)
  nodup_keys : ∀ beginning part, node.Leads beginning part → part.keys.Nodup
  depth : ∀ beginning part, node.Leads beginning part → beginning.length ≤ arity.slotCount ∧
    (beginning.length = arity.slotCount ↔ ∃ clause, part = .leaf clause)
  leaves : ∀ slots clause,
    node.Leads slots (.leaf clause) ↔ clause ∈ clauses ∧ clause.pattern.slotTexts = slots
  size_eq : node.size = clauses.length
  /-- Where only a repeated slot is left there are leaves only, and a plan skips none of them. -/
  collects : ∀ count, arity = .atLeast count → ∀ beginning part, node.Leads beginning part →
    beginning.length + 1 = count →
      (∀ child ∈ part.children, ∃ clause, child.2 = .leaf clause) ∧
      ∀ types conversions plan, Plan.ofNode types conversions part = .ok plan →
        ∃ arms, plan = .collect arms ∧
          (arms.map fun arm ↦ ("|".intercalate arm.names, Node.leaf arm.clause)).Perm
            part.children

/-- A tree puts the common beginnings of some clauses together. -/
structure Tree.SharesBeginnings (tree : Tree) (clauses : List Clause) : Prop where
  sorted : ∃ exactCounts openCounts : List Nat,
    tree.groups.map Prod.fst = exactCounts.map Arity.exact ++ openCounts.map Arity.atLeast ∧
      exactCounts.Pairwise (· < ·) ∧ openCounts.Pairwise (· < ·)
  mem_arities_iff : ∀ arity, arity ∈ tree.groups.map Prod.fst ↔
    ∃ clause ∈ clauses, clause.pattern.arity = arity
  groups : ∀ group ∈ tree.groups,
    group.2.SharesBeginnings group.1 (Clause.ofArity group.1 clauses)
  descends : ∀ clause ∈ clauses, ∃ node, tree.group? clause.pattern.arity = some node ∧
    node.descend? clause.pattern.slotTexts = some (.leaf clause)
  width_eq : tree.width = ((Clause.ways clauses).map List.length).foldr max 0

/-! ### Group by group -/

namespace Tree

theorem ofArity_concat_self {arity : Arity} {clause : Clause}
    (harity : clause.pattern.arity = arity) (clauses : List Clause) :
    Clause.ofArity arity (clauses ++ [clause]) = Clause.ofArity arity clauses ++ [clause] := by
  simp [Clause.ofArity, harity]

theorem ofArity_concat_of_ne {arity : Arity} {clause : Clause}
    (hother : arity ≠ clause.pattern.arity) (clauses : List Clause) :
    Clause.ofArity arity (clauses ++ [clause]) = Clause.ofArity arity clauses := by
  simp [Clause.ofArity, hother.symm]

theorem arity_ne_of_nodup {before after : List (Arity × Node)} {arity : Arity} {node : Node}
    (hnodup : ((before ++ (arity, node) :: after).map Prod.fst).Nodup) :
    ∀ group ∈ before ++ after, group.1 ≠ arity := by
  rw [List.map_append, List.map_cons, List.nodup_middle, ← List.map_append,
    List.nodup_cons] at hnodup
  rintro group hmem rfl
  exact hnodup.1 (List.mem_map.mpr ⟨group, hmem, rfl⟩)

/-- A tree without a group for an arity represents no clause of this arity. -/
theorem Represents.ofArity_eq_nil {tree : Tree} {clauses : List Clause}
    (hrepresents : tree.Represents clauses) {arity : Arity}
    (hnone : ∀ group ∈ tree.groups, group.1 ≠ arity) : Clause.ofArity arity clauses = [] := by
  rw [Clause.ofArity, List.filter_eq_nil_iff]
  intro clause hclause
  rw [decide_eq_true_eq]
  intro harity
  obtain ⟨group, hgroup, hsame⟩ :=
    List.mem_map.mp ((hrepresents.mem_arities_iff _).mpr ⟨clause, hclause, harity⟩)
  exact hnone group hgroup hsame

/-- What a fresh way has and insertion keeps is true of every group and the clauses of its arity. -/
theorem forall_groups_ofClauses {motive : List Clause → Node → Prop}
    (hway : ∀ clause, motive [clause] (.way clause clause.pattern.fixed))
    (hnode : ∀ used clause node now, node.insert clause clause.pattern.fixed = some now →
      motive used node → motive (used ++ [clause]) now)
    {clauses : List Clause} {tree : Tree} (htree : ofClauses clauses = .ok tree) :
    ∀ group ∈ tree.groups, motive (Clause.ofArity group.1 clauses) group.2 := by
  refine (foldlM_ok_induction (motive := fun used now ↦ Tree.Represents now used ∧
    ∀ group ∈ Tree.groups now, motive (Clause.ofArity group.1 used) group.2)
      ⟨represents_empty, by simp [empty]⟩ ?_ htree).2
  rintro used clause now ⟨changed⟩ ⟨hnow, hgroups⟩ hinsert
  have hnext := represents_insert hnow hinsert
  have hchanged : insertInto clause now.groups = some changed := insert_eq_ok_iff.mp hinsert
  refine ⟨hnext, ?_⟩
  -- One group gets the clause, and the others were there before and belong to other arities.
  obtain ⟨before, grown, after, rfl, hold, hgrown⟩ : ∃ before grown after,
      changed = before ++ (clause.pattern.arity, grown) :: after ∧
        (∀ group ∈ before ++ after, group ∈ now.groups) ∧
        motive (Clause.ofArity clause.pattern.arity (used ++ [clause])) grown := by
    rw [ofArity_concat_self rfl]
    rcases insertInto_eq_some hchanged with
      ⟨before, node, after, grown, hsplit, hgrown, rfl⟩ | ⟨before, after, hsplit, rfl, -, -⟩
    · refine ⟨before, grown, after, rfl, fun group hmem ↦ ?_, hnode _ clause node grown hgrown ?_⟩
      · rw [hsplit]
        exact List.mem_append.mpr ((List.mem_append.mp hmem).imp_right (List.mem_cons_of_mem _))
      · refine hgroups (clause.pattern.arity, node) ?_
        rw [hsplit]
        exact List.mem_append_right _ List.mem_cons_self
    · refine ⟨before, _, after, rfl, fun group hmem ↦ hsplit ▸ hmem, ?_⟩
      rw [hnow.ofArity_eq_nil (hsplit ▸ arity_ne_of_nodup hnext.nodup_arities)]
      exact hway clause
  have hothers : ∀ group ∈ before ++ after,
      motive (Clause.ofArity group.1 (used ++ [clause])) group.2 := by
    intro group hmem
    rw [ofArity_concat_of_ne (arity_ne_of_nodup hnext.nodup_arities group hmem)]
    exact hgroups group (hold group hmem)
  rw [List.forall_mem_append] at hothers
  rw [List.forall_mem_append, List.forall_mem_cons]
  exact ⟨hothers.1, hgrown, hothers.2⟩

/-- A group has as many clauses as were given for its arity. -/
theorem size_ofClauses {clauses : List Clause} {tree : Tree}
    (htree : ofClauses clauses = .ok tree) :
    ∀ group ∈ tree.groups, group.2.size = (Clause.ofArity group.1 clauses).length := by
  refine forall_groups_ofClauses (motive := fun used node ↦ Node.size node = List.length used)
    (fun clause ↦ Node.size_way clause _) ?_ htree
  intro used clause node now hinsert hsize
  rw [Node.size_insert hinsert, hsize, List.length_append, List.length_singleton]

/-- Below every part of a group come the slots that come after the way to it in the clauses. -/
theorem inOrder_ofClauses {clauses : List Clause} {tree : Tree}
    (hclauses : ∀ clause ∈ clauses, clause.pattern.IsNormal)
    (htree : ofClauses clauses = .ok tree) :
    ∀ group ∈ tree.groups, group.2.InOrder (Clause.ways (Clause.ofArity group.1 clauses)) := by
  have hgroups := forall_groups_ofClauses (motive := fun used node ↦
    (∀ pattern clause, Node.Holds node pattern clause → clause ∈ used ∧ clause.pattern = pattern) ∧
      ((∀ clause ∈ used, clause.pattern.IsNormal) → Node.InOrder (Clause.ways used) node))
    ?_ ?_ htree
  · exact fun group hgroup ↦ (hgroups group hgroup).2
      fun clause hclause ↦ hclauses clause (List.mem_of_mem_filter hclause)
  · intro clause
    refine ⟨fun pattern other hholds ↦ ?_, fun _ ↦ Node.inOrder_way clause _⟩
    obtain ⟨rfl, rfl⟩ := (Node.holds_way_iff _ _ _ _).mp hholds
    exact ⟨List.mem_singleton_self _, rfl⟩
  · rintro used clause node now hinsert ⟨hholds, horder⟩
    refine ⟨fun pattern other hnow ↦ ?_, fun hnormal ↦ ?_⟩
    · rcases (Node.holds_insert hinsert pattern other).mp hnow with hold | ⟨rfl, rfl⟩
      · exact ⟨List.mem_append_left _ (hholds _ _ hold).1, (hholds _ _ hold).2⟩
      · exact ⟨List.mem_append_right _ (List.mem_singleton_self _), rfl⟩
    · rw [List.forall_mem_append, List.forall_mem_singleton] at hnormal
      rw [Clause.ways, List.map_append]
      refine Node.inOrder_insert hinsert hnormal.2.rest (fun held rest other hold ↦ ?_)
        (horder hnormal.1)
      obtain ⟨hother, hpattern⟩ := hholds _ _ hold
      have hrest := (hnormal.1 other hother).rest
      rwa [hpattern] at hrest

/-! ### One group -/

/-- The plan of the arms for a repeated slot skips none of them. -/
theorem perm_children_of_remainder {types : TypeTable} {conversions : ConversionTable}
    {slots : List (Alternatives × Clause)} {plan : Plan}
    (hplan : Plan.ofNode types conversions (.remainder slots) = .ok plan) :
    ∃ arms, plan = .collect arms ∧
      (arms.map fun arm ↦ ("|".intercalate arm.names, Node.leaf arm.clause)).Perm
        (Node.remainder slots).children := by
  refine ⟨_, Plan.ofNode_remainder_eq_ok hplan, ?_⟩
  have hnames : ∀ wired (slot : Alternatives × Clause), 
      (types.armOf wired slot).names = slot.1.names := by
    intro wired slot
    rw [Arm.names, TypeTable.armOf, List.map_map]
    exact List.map_id slot.1.names
  rw [List.map_map]
  simp only [Function.comp_def, hnames]
  exact (Rank.perm_sort _ slots).map _

/-- Every group of a tree puts the common beginnings of the clauses of its arity together. -/
theorem sharesBeginnings_of_mem_groups {clauses : List Clause} {tree : Tree}
    (hclauses : ∀ clause ∈ clauses, clause.pattern.IsNormal)
    (htree : ofClauses clauses = .ok tree) {group : Arity × Node} (hgroup : group ∈ tree.groups) :
    group.2.SharesBeginnings group.1 (Clause.ofArity group.1 clauses) := by
  have hrepresents := represents_ofClauses htree
  obtain ⟨other, -, harity, hfits⟩ := hrepresents.uniform group hgroup
  have hdepth : ∀ beginning part, group.2.Leads beginning part →
      beginning.length ≤ group.1.slotCount ∧
        (beginning.length = group.1.slotCount ↔ ∃ clause, part = .leaf clause) := by
    intro beginning part hleads
    rw [harity, Pattern.slotCount_arity]
    exact Node.leads_length hfits hleads
  have hkeys : ∀ beginning part, group.2.Leads beginning part →
      part.keys = slotsAfter beginning (Clause.ways (Clause.ofArity group.1 clauses)) := by
    intro beginning part hleads
    rcases (inOrder_ofClauses hclauses htree group hgroup).keys_eq hleads with hkeys | hleaf
    · exact hkeys
    · have hlength := (hdepth beginning part hleads).2.mpr hleaf
      obtain ⟨clause, rfl⟩ := hleaf
      refine (slotsAfter_eq_nil fun way hway ↦ ?_).symm
      obtain ⟨used, hused, rfl⟩ := List.mem_map.mp hway
      rw [hlength, Pattern.length_slotTexts, of_decide_eq_true (List.mem_filter.mp hused).2]
  refine ⟨hkeys, fun beginning part hleads ↦ ?_, hdepth, fun slots clause ↦ ?_,
    size_ofClauses htree group hgroup, fun count hcount beginning part hleads hlength ↦ ?_⟩
  · rw [hkeys beginning part hleads]
    exact nodup_slotsAfter _ _
  · rw [Node.leads_leaf_iff, Clause.ofArity, List.mem_filter, decide_eq_true_eq]
    simp only [hrepresents.holds_group_iff hgroup]
    constructor
    · rintro ⟨pattern, ⟨hclause, rfl, hsame⟩, htexts⟩
      exact ⟨⟨hclause, hsame⟩, htexts⟩
    · rintro ⟨⟨hclause, hsame⟩, htexts⟩
      exact ⟨clause.pattern, ⟨hclause, rfl, hsame⟩, htexts⟩
  · have hopen : other.pattern.rest.isSome = true ∧
        beginning.length = other.pattern.fixed.length := by
      rw [hcount] at harity
      unfold Pattern.arity at harity
      split at harity
      · exact nomatch harity
      · next hrest =>
        rw [Arity.atLeast.injEq] at harity
        exact ⟨by rw [hrest]; rfl, by omega⟩
    rw [hopen.1] at hfits
    obtain ⟨arms, rfl⟩ := Node.exists_remainder_of_leads hfits hleads hopen.2
    refine ⟨fun child hchild ↦ ?_, fun types conversions plan ↦ perm_children_of_remainder⟩
    obtain ⟨arm, -, rfl⟩ := List.mem_map.mp hchild
    exact ⟨arm.2, rfl⟩

/-! ### The whole tree -/

/-- The width of a tree is the largest number of slots of a clause. -/
theorem width_ofClauses {clauses : List Clause} {tree : Tree}
    (htree : ofClauses clauses = .ok tree) :
    tree.width = ((Clause.ways clauses).map List.length).foldr max 0 := by
  have hwidth : tree.width = ((tree.groups.map Prod.fst).map Arity.slotCount).foldr max 0 := by
    rw [width, List.map_map, List.foldr_map]
    rfl
  have hlengths : (Clause.ways clauses).map List.length =
      (clauses.map (·.pattern.arity)).map Arity.slotCount := by
    rw [Clause.ways, List.map_map, List.map_map]
    exact List.map_congr_left fun clause _ ↦ clause.pattern.length_slotTexts
  have hmem : ∀ arity, arity ∈ tree.groups.map Prod.fst ↔
      arity ∈ clauses.map (·.pattern.arity) := by
    intro arity
    rw [(represents_ofClauses htree).mem_arities_iff, List.mem_map]
  rw [hwidth, hlengths]
  exact Nat.le_antisymm (foldr_max_map_le _ fun arity ↦ (hmem arity).mp)
    (foldr_max_map_le _ fun arity ↦ (hmem arity).mpr)

/-- Looking up the slots of a clause in a tree finds the clause. -/
theorem exists_descend?_ofClauses {clauses : List Clause} {tree : Tree}
    (hclauses : ∀ clause ∈ clauses, clause.pattern.IsNormal)
    (htree : ofClauses clauses = .ok tree) {clause : Clause} (hclause : clause ∈ clauses) :
    ∃ node, tree.group? clause.pattern.arity = some node ∧
      node.descend? clause.pattern.slotTexts = some (.leaf clause) := by
  have hrepresents := represents_ofClauses htree
  obtain ⟨group, hgroup, harity, -⟩ :=
    (hrepresents.holds_iff clause.pattern clause).mpr ⟨hclause, rfl⟩
  have hshares := sharesBeginnings_of_mem_groups hclauses htree hgroup
  refine ⟨group.2, ?_, ?_⟩
  · rw [group?, lookup_eq_some_iff_mem hrepresents.nodup_arities, ← harity]
    exact hgroup
  · rw [Node.descend?_eq_some_iff hshares.nodup_keys, hshares.leaves]
    exact ⟨List.mem_filter.mpr ⟨hclause, decide_eq_true harity.symm⟩, rfl⟩

/-- A tree that is built from clauses of texts puts their common beginnings together, and it is
nothing else. -/
theorem ofClauses_sharesBeginnings (clauses : List Clause)
    (hclauses : ∀ clause ∈ clauses, clause.FromText) (tree : Tree)
    (htree : ofClauses clauses = .ok tree) : tree.SharesBeginnings clauses := by
  have hrepresents := represents_ofClauses htree
  have hnormal : ∀ clause ∈ clauses, clause.pattern.IsNormal :=
    fun clause hclause ↦ clause.fromText_iff.mp (hclauses clause hclause)
  exact
    { sorted := Arity.exists_split_of_sorted hrepresents.sorted_arities
      mem_arities_iff := hrepresents.mem_arities_iff
      groups := fun _ hgroup ↦ sharesBeginnings_of_mem_groups hnormal htree hgroup
      descends := fun _ hclause ↦ exists_descend?_ofClauses hnormal htree hclause
      width_eq := width_ofClauses htree }

/-- Two clauses that begin alike, and between them one that begins like them and takes any further
number of arguments. -/
def branching : List Clause :=
  [⟨⟨["string", "number"], none⟩, ⟨0, fun _ ↦ .ok .null⟩⟩,
    ⟨⟨["string"], some (.mk ["number", "boolean"])⟩, ⟨1, fun passed ↦ .ok (.array passed)⟩⟩,
    ⟨⟨["string", "Array"], none⟩, ⟨2, fun passed ↦ .ok (.array passed)⟩⟩]

/-- The beginning of the two clauses for two arguments is there once, and the other clause has a
group of its own. -/
theorem ofClauses_sharesBeginnings_branching :
    ∃ tree, ofClauses branching = .ok tree ∧ (∀ clause ∈ branching, clause.FromText) ∧
      tree.SharesBeginnings branching ∧ tree.width = 2 ∧
      tree.groups.map (fun group ↦ (group.1, group.2.keys)) =
        [(.exact 2, ["string"]), (.atLeast 2, ["string"])] ∧
      ((tree.group? (.exact 2)).bind (Node.descend? ["string"])).map Node.keys =
        some ["number", "Array"] := by
  have hclauses : ∀ clause ∈ branching, clause.FromText := by
    simp only [branching, List.forall_mem_cons, List.not_mem_nil, false_implies, implies_true,
      and_true]
    exact ⟨⟨"string,number", _, rfl, List.mem_singleton_self _⟩,
      ⟨"string,number|boolean...", _, rfl, List.mem_singleton_self _⟩,
      ⟨"string,Array", _, rfl, List.mem_singleton_self _⟩⟩
  obtain ⟨tree, htree, hwidth, hgroups, hpart⟩ : ∃ tree, ofClauses branching = .ok tree ∧
      tree.width = 2 ∧
      tree.groups.map (fun group ↦ (group.1, group.2.keys)) =
        [(.exact 2, ["string"]), (.atLeast 2, ["string"])] ∧
      ((tree.group? (.exact 2)).bind (Node.descend? ["string"])).map Node.keys =
        some ["number", "Array"] :=
    ⟨_, rfl, rfl, rfl, rfl⟩
  exact ⟨tree, htree, hclauses, ofClauses_sharesBeginnings branching hclauses tree htree, hwidth,
    hgroups, hpart⟩

end Tree

end Multimethod
