import Multimethod.Proofs.NodeContents

/-!
# What a tree holds

`Tree.Represents` is the invariant of building a tree: the groups are in order, each of them belongs
to the arity of a clause, no part is without a clause, and the tree holds the given clauses and no
others. It is kept by every insertion (`represents_insert`), so it holds of every tree that is built
(`represents_ofClauses`). Building fails exactly if two clauses have one pattern
(`exists_ofClauses_error_iff`).
-/

set_option autoImplicit false
set_option relaxedAutoImplicit false

namespace Multimethod

/-! ### The order of arities -/

namespace Arity

theorem precedes_trans {first second third : Arity} (hfirst : first.precedes second = true)
    (hsecond : second.precedes third = true) : first.precedes third = true := by
  cases first <;> cases second <;> cases third <;>
    simp only [precedes, decide_eq_true_eq, reduceCtorEq] at hfirst hsecond ⊢ <;> omega

@[simp] theorem precedes_irrefl (arity : Arity) : arity.precedes arity = false := by
  cases arity <;> simp [precedes]

theorem precedes_of_not_precedes {first second : Arity} (hne : first ≠ second)
    (hnot : second.precedes first = false) : first.precedes second = true := by
  cases first <;> cases second <;>
    simp only [precedes, decide_eq_true_eq, decide_eq_false_iff_not, reduceCtorEq, ne_eq,
      Arity.exact.injEq, Arity.atLeast.injEq] at hne hnot ⊢ <;> omega

end Arity

/-- Patterns have one arity exactly if they have equally many slots of either kind. -/
theorem Pattern.arity_eq_iff {first second : Pattern} :
    first.arity = second.arity ↔
      first.fixed.length = second.fixed.length ∧ first.rest.isSome = second.rest.isSome := by
  obtain ⟨firstFixed, firstRest⟩ := first
  obtain ⟨secondFixed, secondRest⟩ := second
  cases firstRest <;> cases secondRest <;> simp [arity]

/-! ### Clauses in a tree -/

namespace Tree

/-- A clause stands in the group for its arity at the end of the way that a pattern describes. -/
def Holds (tree : Tree) (pattern : Pattern) (clause : Clause) : Prop :=
  ∃ group ∈ tree.groups, group.1 = pattern.arity ∧ group.2.Holds pattern clause

/-- A tree has its groups in order, every group belongs to a clause and has no part without one, and
the clauses that the tree holds are the given ones, each at the end of its own way. -/
structure Represents (tree : Tree) (clauses : List Clause) : Prop where
  sorted : tree.groups.Pairwise fun first second ↦ first.1.precedes second.1 = true
  uniform : ∀ group ∈ tree.groups, ∃ clause ∈ clauses, group.1 = clause.pattern.arity ∧
    group.2.Fits clause.pattern.rest.isSome clause.pattern.fixed.length
  full : ∀ group ∈ tree.groups, group.2.Full
  holds_iff : ∀ pattern clause,
    tree.Holds pattern clause ↔ clause ∈ clauses ∧ clause.pattern = pattern

@[simp] theorem insert_eq_ok_iff {tree changed : Tree} {clause : Clause} :
    tree.insert clause = .ok changed ↔ insertInto clause tree.groups = some changed.groups := by
  obtain ⟨groups⟩ := changed
  unfold insert
  cases insertInto clause tree.groups <;> simp

@[simp] theorem insert_eq_error_iff {tree : Tree} {clause : Clause} {failure : Failure} :
    tree.insert clause = .error failure ↔
      insertInto clause tree.groups = none ∧ failure = .duplicateSignature clause.pattern.key := by
  unfold insert
  cases insertInto clause tree.groups <;> simp [eq_comm]

/-- A clause goes into the group for its arity, or into a new group at the place of its arity. -/
theorem insertInto_eq_some {clause : Clause} {groups changed : List (Arity × Node)}
    (hinsert : insertInto clause groups = some changed) :
    (∃ before node after now, groups = before ++ (clause.pattern.arity, node) :: after ∧
      node.insert clause clause.pattern.fixed = some now ∧
      changed = before ++ (clause.pattern.arity, now) :: after) ∨
    (∃ before after, groups = before ++ after ∧
      changed = before ++ (clause.pattern.arity, .way clause clause.pattern.fixed) :: after ∧
      (∀ group ∈ before, group.1.precedes clause.pattern.arity = true) ∧
      ∀ group ∈ after.head?, clause.pattern.arity.precedes group.1 = true) := by
  fun_induction insertInto clause groups generalizing changed with
  | case1 =>
    cases hinsert
    exact Or.inr ⟨[], [], rfl, rfl, by simp, by simp⟩
  | case2 node groups =>
    obtain ⟨now, hnow, rfl⟩ := Option.map_eq_some_iff.mp hinsert
    exact Or.inl ⟨[], node, groups, now, rfl, hnow, rfl⟩
  | case3 arity node groups _ hprecedes =>
    cases hinsert
    refine Or.inr ⟨[], (arity, node) :: groups, rfl, rfl, by simp, ?_⟩
    rintro group ⟨⟩
    exact hprecedes
  | case4 arity node groups harity hprecedes ih =>
    obtain ⟨others, hothers, rfl⟩ := Option.map_eq_some_iff.mp hinsert
    rcases ih hothers with
      ⟨before, below, after, now, rfl, hnow, rfl⟩ | ⟨before, after, rfl, rfl, hall, hnext⟩
    · exact Or.inl ⟨(arity, node) :: before, below, after, now, rfl, hnow, rfl⟩
    · refine Or.inr ⟨(arity, node) :: before, after, rfl, rfl, ?_, hnext⟩
      exact List.forall_mem_cons.mpr
        ⟨Arity.precedes_of_not_precedes harity (eq_false_of_ne_true hprecedes), hall⟩

theorem insertInto_eq_none {clause : Clause} {groups : List (Arity × Node)}
    (hinsert : insertInto clause groups = none) :
    ∃ node, (clause.pattern.arity, node) ∈ groups ∧
      node.insert clause clause.pattern.fixed = none := by
  fun_induction insertInto clause groups with
  | case1 => cases hinsert
  | case2 node groups => exact ⟨node, List.mem_cons_self, Option.map_eq_none_iff.mp hinsert⟩
  | case3 => cases hinsert
  | case4 arity node groups _ _ ih =>
    obtain ⟨found, hmem, hnone⟩ := ih (Option.map_eq_none_iff.mp hinsert)
    exact ⟨found, List.mem_cons_of_mem _ hmem, hnone⟩

@[simp] theorem represents_empty : empty.Represents [] where
  sorted := List.Pairwise.nil
  uniform := by simp [empty]
  full := by simp [empty]
  holds_iff := by simp [Holds, empty]

theorem Represents.fits {tree : Tree} {clauses : List Clause}
    (hrepresents : tree.Represents clauses) {clause : Clause} {node : Node}
    (hmem : (clause.pattern.arity, node) ∈ tree.groups) :
    node.Fits clause.pattern.rest.isSome clause.pattern.fixed.length := by
  obtain ⟨other, -, harity, hfits⟩ := hrepresents.uniform _ hmem
  obtain ⟨hlength, hrest⟩ := Pattern.arity_eq_iff.mp harity
  rw [hlength, hrest]
  exact hfits

/-- What a tree holds after one of its groups was replaced, or a group was added: what the other
groups hold, and what that group holds. -/
theorem holds_append_cons_iff (before after : List (Arity × Node)) (group : Arity × Node)
    (pattern : Pattern) (clause : Clause) :
    (Tree.mk (before ++ group :: after)).Holds pattern clause ↔
      (Tree.mk (before ++ after)).Holds pattern clause ∨
        group.1 = pattern.arity ∧ group.2.Holds pattern clause :=
  exists_mem_append_cons_iff

/-- Inserting a clause into a tree adds this clause and changes nothing else. -/
theorem holds_insertInto {clause : Clause} {groups changed : List (Arity × Node)}
    (hinsert : insertInto clause groups = some changed) (pattern : Pattern) (other : Clause) :
    (Tree.mk changed).Holds pattern other ↔
      (Tree.mk groups).Holds pattern other ∨ pattern = clause.pattern ∧ other = clause := by
  rcases insertInto_eq_some hinsert with
    ⟨before, node, after, now, rfl, hnow, rfl⟩ | ⟨before, after, rfl, rfl, -, -⟩
  · rw [holds_append_cons_iff, holds_append_cons_iff, or_assoc, Node.holds_insert hnow]
    refine or_congr_right ?_
    constructor
    · rintro ⟨harity, hold | ⟨rfl, rfl⟩⟩
      · exact Or.inl ⟨harity, hold⟩
      · exact Or.inr ⟨rfl, rfl⟩
    · rintro (⟨harity, hold⟩ | ⟨rfl, rfl⟩)
      · exact ⟨harity, Or.inl hold⟩
      · exact ⟨rfl, Or.inr ⟨rfl, rfl⟩⟩
  · rw [holds_append_cons_iff, Node.holds_way_iff]
    refine or_congr_right ⟨fun h ↦ h.2, ?_⟩
    rintro ⟨rfl, rfl⟩
    exact ⟨rfl, rfl, rfl⟩

theorem sorted_insertInto {clause : Clause} {groups changed : List (Arity × Node)}
    (hinsert : insertInto clause groups = some changed)
    (hsorted : groups.Pairwise fun first second ↦ first.1.precedes second.1 = true) :
    changed.Pairwise fun first second ↦ first.1.precedes second.1 = true := by
  rcases insertInto_eq_some hinsert with
    ⟨before, node, after, now, rfl, -, rfl⟩ | ⟨before, after, rfl, rfl, hbefore, hafter⟩
  · rw [List.pairwise_append, List.pairwise_cons] at hsorted ⊢
    obtain ⟨hfirst, ⟨hnode, hlast⟩, hacross⟩ := hsorted
    refine ⟨hfirst, ⟨hnode, hlast⟩, fun first hmem second hsecond ↦ ?_⟩
    rcases List.mem_cons.mp hsecond with rfl | hsecond
    · exact hacross first hmem (clause.pattern.arity, node) List.mem_cons_self
    · exact hacross first hmem second (List.mem_cons_of_mem _ hsecond)
  · rw [List.pairwise_append] at hsorted
    obtain ⟨hfirst, hlast, hacross⟩ := hsorted
    have hnext : ∀ group ∈ after, clause.pattern.arity.precedes group.1 = true := by
      cases after with
      | nil => simp
      | cons next after =>
        have hstart := hafter next rfl
        intro group hmem
        rcases List.mem_cons.mp hmem with rfl | hmem
        · exact hstart
        · exact Arity.precedes_trans hstart ((List.pairwise_cons.mp hlast).1 group hmem)
    rw [List.pairwise_append, List.pairwise_cons]
    refine ⟨hfirst, ⟨hnext, hlast⟩, fun first hmem second hsecond ↦ ?_⟩
    rcases List.mem_cons.mp hsecond with rfl | hsecond
    · exact hbefore first hmem
    · exact hacross first hmem second hsecond

theorem uniform_insertInto {clause : Clause} {tree : Tree} {clauses : List Clause}
    {changed : List (Arity × Node)} (hrepresents : tree.Represents clauses)
    (hinsert : insertInto clause tree.groups = some changed) :
    ∀ group ∈ changed, ∃ other ∈ clauses ++ [clause], group.1 = other.pattern.arity ∧
      group.2.Fits other.pattern.rest.isSome other.pattern.fixed.length := by
  have hnew : clause ∈ clauses ++ [clause] := List.mem_append_right _ (List.mem_singleton_self _)
  have hold : ∀ group ∈ tree.groups, ∃ other ∈ clauses ++ [clause],
      group.1 = other.pattern.arity ∧
        group.2.Fits other.pattern.rest.isSome other.pattern.fixed.length := by
    intro group hmem
    obtain ⟨other, hother, hfits⟩ := hrepresents.uniform group hmem
    exact ⟨other, List.mem_append_left _ hother, hfits⟩
  intro group hmem
  rcases insertInto_eq_some hinsert with
    ⟨before, node, after, now, hgroups, hnow, rfl⟩ | ⟨before, after, hgroups, rfl, -, -⟩
  · rcases List.mem_append.mp hmem with hbefore | hlater
    · exact hold group (by rw [hgroups]; exact List.mem_append_left _ hbefore)
    · rcases List.mem_cons.mp hlater with rfl | hafter
      · have hnode : (clause.pattern.arity, node) ∈ tree.groups := by
          rw [hgroups]
          exact List.mem_append_right _ List.mem_cons_self
        exact ⟨clause, hnew, rfl, Node.fits_insert hnow (hrepresents.fits hnode)⟩
      · exact hold group
          (by rw [hgroups]; exact List.mem_append_right _ (List.mem_cons_of_mem _ hafter))
  · rcases List.mem_append.mp hmem with hbefore | hlater
    · exact hold group (by rw [hgroups]; exact List.mem_append_left _ hbefore)
    · rcases List.mem_cons.mp hlater with rfl | hafter
      · exact ⟨clause, hnew, rfl, Node.fits_way clause clause.pattern.fixed⟩
      · exact hold group (by rw [hgroups]; exact List.mem_append_right _ hafter)

/-- A property that a fresh way has and that insertion into a node keeps is kept in all groups. -/
theorem forall_insertInto {motive : Node → Prop} {clause : Clause}
    {groups changed : List (Arity × Node)} (hinsert : insertInto clause groups = some changed)
    (hway : motive (.way clause clause.pattern.fixed))
    (hnode : ∀ node now, node.insert clause clause.pattern.fixed = some now → motive node →
      motive now)
    (hgroups : ∀ group ∈ groups, motive group.2) : ∀ group ∈ changed, motive group.2 := by
  rcases insertInto_eq_some hinsert with
    ⟨before, node, after, now, rfl, hnow, rfl⟩ | ⟨before, after, rfl, rfl, -, -⟩
  · rw [List.forall_mem_append, List.forall_mem_cons] at hgroups ⊢
    exact ⟨hgroups.1, hnode node now hnow hgroups.2.1, hgroups.2.2⟩
  · rw [List.forall_mem_append] at hgroups
    rw [List.forall_mem_append, List.forall_mem_cons]
    exact ⟨hgroups.1, hway, hgroups.2⟩

theorem full_insertInto {clause : Clause} {groups changed : List (Arity × Node)}
    (hinsert : insertInto clause groups = some changed) (hfull : ∀ group ∈ groups, group.2.Full) :
    ∀ group ∈ changed, group.2.Full :=
  forall_insertInto hinsert (Node.full_way clause clause.pattern.fixed)
    (fun _ _ hnow hnode ↦ Node.full_insert hnow hnode) hfull

/-- Inserting a clause keeps the invariant. -/
theorem represents_insert {tree changed : Tree} {clauses : List Clause} {clause : Clause}
    (hrepresents : tree.Represents clauses) (hinsert : tree.insert clause = .ok changed) :
    changed.Represents (clauses ++ [clause]) := by
  have hgroups := insert_eq_ok_iff.mp hinsert
  refine ⟨sorted_insertInto hgroups hrepresents.sorted, uniform_insertInto hrepresents hgroups,
    full_insertInto hgroups hrepresents.full, fun pattern other ↦ ?_⟩
  rw [holds_insertInto hgroups, hrepresents.holds_iff, List.mem_append, List.mem_singleton]
  constructor
  · rintro (⟨hmem, hpattern⟩ | ⟨rfl, rfl⟩)
    · exact ⟨Or.inl hmem, hpattern⟩
    · exact ⟨Or.inr rfl, rfl⟩
  · rintro ⟨hmem | rfl, rfl⟩
    · exact Or.inl ⟨hmem, rfl⟩
    · exact Or.inr ⟨rfl, rfl⟩

/-- A clause is refused only if another clause has its pattern. -/
theorem insert_eq_error {tree : Tree} {clauses : List Clause} {clause : Clause} {failure : Failure}
    (hrepresents : tree.Represents clauses) (hinsert : tree.insert clause = .error failure) :
    failure = .duplicateSignature clause.pattern.key ∧
      ∃ other ∈ clauses, other.pattern = clause.pattern := by
  obtain ⟨hgroups, hfailure⟩ := insert_eq_error_iff.mp hinsert
  obtain ⟨node, hmem, hnone⟩ := insertInto_eq_none hgroups
  obtain ⟨other, hholds⟩ := Node.insert_eq_none hnone (hrepresents.fits hmem)
  exact ⟨hfailure, other,
    (hrepresents.holds_iff clause.pattern other).mp ⟨_, hmem, rfl, hholds⟩⟩

/-- A tree that was built from clauses represents them. -/
theorem represents_ofClauses {clauses : List Clause} {tree : Tree}
    (htree : ofClauses clauses = .ok tree) : tree.Represents clauses :=
  foldlM_ok_induction (motive := fun used now ↦ Tree.Represents now used) represents_empty
    (fun _ _ _ _ hbefore hinsert ↦ represents_insert hbefore hinsert) htree

theorem Represents.sorted_arities {tree : Tree} {clauses : List Clause}
    (hrepresents : tree.Represents clauses) :
    (tree.groups.map Prod.fst).Pairwise fun first second ↦ first.precedes second = true := by
  rw [List.pairwise_map]
  exact hrepresents.sorted

theorem Represents.nodup_arities {tree : Tree} {clauses : List Clause}
    (hrepresents : tree.Represents clauses) : (tree.groups.map Prod.fst).Nodup := by
  refine hrepresents.sorted_arities.imp fun hprecedes hsame ↦ ?_
  rw [hsame, Arity.precedes_irrefl] at hprecedes
  exact nomatch hprecedes

/-- No two groups of a tree belong to one arity. -/
theorem Represents.eq_of_arity_eq {tree : Tree} {clauses : List Clause}
    (hrepresents : tree.Represents clauses) {first second : Arity × Node}
    (hfirst : first ∈ tree.groups) (hsecond : second ∈ tree.groups) (harity : first.1 = second.1) :
    first = second :=
  List.inj_on_of_nodup_map hrepresents.nodup_arities hfirst hsecond harity

/-- A pattern that leads to a clause of a group has the arity of the group. -/
theorem Represents.arity_eq {tree : Tree} {clauses : List Clause}
    (hrepresents : tree.Represents clauses) {group : Arity × Node} (hgroup : group ∈ tree.groups)
    {pattern : Pattern} {clause : Clause} (hholds : group.2.Holds pattern clause) :
    group.1 = pattern.arity := by
  obtain ⟨other, -, harity, hfits⟩ := hrepresents.uniform group hgroup
  rw [harity]
  exact (Pattern.arity_eq_iff.mpr (hholds.length_eq hfits)).symm

/-- What stands at the end of a way in a group is a given clause, and the way is its pattern. -/
theorem Represents.clause_of_holds {tree : Tree} {clauses : List Clause}
    (hrepresents : tree.Represents clauses) {group : Arity × Node} (hgroup : group ∈ tree.groups)
    {pattern : Pattern} {clause : Clause} (hholds : group.2.Holds pattern clause) :
    clause ∈ clauses ∧ clause.pattern = pattern :=
  (hrepresents.holds_iff pattern clause).mp
    ⟨group, hgroup, hrepresents.arity_eq hgroup hholds, hholds⟩

/-- A group holds the given clauses of its arity, each at the end of the way that its pattern
describes. -/
theorem Represents.holds_group_iff {tree : Tree} {clauses : List Clause}
    (hrepresents : tree.Represents clauses) {group : Arity × Node} (hgroup : group ∈ tree.groups)
    (pattern : Pattern) (clause : Clause) :
    group.2.Holds pattern clause ↔
      clause ∈ clauses ∧ clause.pattern = pattern ∧ pattern.arity = group.1 := by
  constructor
  · intro hholds
    obtain ⟨hclause, hpattern⟩ := hrepresents.clause_of_holds hgroup hholds
    exact ⟨hclause, hpattern, (hrepresents.arity_eq hgroup hholds).symm⟩
  · rintro ⟨hclause, hpattern, harity⟩
    obtain ⟨home, hhome, hsame, hholds⟩ :=
      (hrepresents.holds_iff pattern clause).mpr ⟨hclause, hpattern⟩
    rw [hrepresents.eq_of_arity_eq hgroup hhome (harity.symm.trans hsame.symm)]
    exact hholds

/-- In a tree that was built no two ways are written alike. -/
theorem distinct_ofClauses {clauses : List Clause} {tree : Tree}
    (htree : ofClauses clauses = .ok tree) : ∀ group ∈ tree.groups, group.2.Distinct := by
  refine foldlM_ok_induction (motive := fun _ now ↦ ∀ group ∈ Tree.groups now, group.2.Distinct)
    (by simp [empty]) (fun _ clause now next hnow hinsert ↦ ?_) htree
  exact forall_insertInto (insert_eq_ok_iff.mp hinsert)
    (Node.distinct_way clause clause.pattern.fixed)
    (fun _ _ hinsert hnode ↦ Node.distinct_insert hinsert hnode) hnow

/-- A clause is accepted only if no clause has its pattern. -/
theorem not_holds_of_insertInto {clause : Clause} {tree : Tree} {clauses : List Clause}
    {changed : List (Arity × Node)} (hrepresents : tree.Represents clauses)
    (hdistinct : ∀ group ∈ tree.groups, group.2.Distinct)
    (hinsert : insertInto clause tree.groups = some changed) (other : Clause) :
    ¬ tree.Holds clause.pattern other := by
  rintro ⟨group, hgroup, harity, hholds⟩
  rcases insertInto_eq_some hinsert with
    ⟨before, node, after, now, hgroups, hnow, -⟩ | ⟨before, after, hgroups, rfl, -, -⟩
  · have hnode : (clause.pattern.arity, node) ∈ tree.groups := by
      rw [hgroups]
      exact List.mem_append_right _ List.mem_cons_self
    obtain rfl := hrepresents.eq_of_arity_eq hgroup hnode harity
    exact Node.not_holds_of_insert hnow (hdistinct _ hgroup) other hholds
  · -- The fresh group and the old one would stand in order, although they belong to one arity.
    have hsorted := sorted_insertInto hinsert hrepresents.sorted
    rw [List.pairwise_append, List.pairwise_cons] at hsorted
    obtain ⟨-, ⟨hafter, -⟩, hbefore⟩ := hsorted
    rw [hgroups] at hgroup
    rcases List.mem_append.mp hgroup with hmem | hmem
    · have hprecedes := hbefore group hmem _ List.mem_cons_self
      rw [harity, Arity.precedes_irrefl] at hprecedes
      exact nomatch hprecedes
    · have hprecedes := hafter group hmem
      rw [harity, Arity.precedes_irrefl] at hprecedes
      exact nomatch hprecedes

/-- Clauses from which a tree was built have different patterns. -/
theorem nodup_of_ofClauses {clauses : List Clause} {tree : Tree}
    (htree : ofClauses clauses = .ok tree) : (clauses.map Clause.pattern).Nodup := by
  have hstep : ∀ before clause now next, ofClauses before = .ok now →
      (before.map Clause.pattern).Nodup → insert now clause = .ok next →
        ((before ++ [clause]).map Clause.pattern).Nodup := by
    intro before clause now next hnow hnodup hinsert
    refine nodup_map_concat_iff.mpr ⟨hnodup, fun hmem ↦ ?_⟩
    obtain ⟨other, hother, hpattern⟩ := List.mem_map.mp hmem
    have hrepresents := represents_ofClauses hnow
    have hholds := (hrepresents.holds_iff clause.pattern other).mpr ⟨hother, hpattern⟩
    exact not_holds_of_insertInto hrepresents (distinct_ofClauses hnow)
      (insert_eq_ok_iff.mp hinsert) other hholds
  refine (foldlM_ok_induction (motive := fun used now ↦ ofClauses used = .ok now ∧
    (used.map Clause.pattern).Nodup) ⟨rfl, List.nodup_nil⟩ ?_ htree).2
  rintro before clause now next ⟨hnow, hnodup⟩ hinsert
  refine ⟨?_, hstep before clause now next hnow hnodup hinsert⟩
  rw [ofClauses, List.foldlM_append, bind_eq_ok_iff]
  exact ⟨now, hnow, by rw [List.foldlM_cons, hinsert]; rfl⟩

/-- A tree can be built from clauses with different patterns. -/
theorem exists_ofClauses {clauses : List Clause} (hdistinct : (clauses.map Clause.pattern).Nodup) :
    ∃ tree, ofClauses clauses = .ok tree := by
  cases htree : ofClauses clauses with
  | ok tree => exact ⟨tree, rfl⟩
  | error failure =>
    obtain ⟨before, clause, after, now, rfl, hbefore, hinsert⟩ := foldlM_eq_error_iff.mp htree
    obtain ⟨-, other, hmem, hpattern⟩ := insert_eq_error (represents_ofClauses hbefore) hinsert
    rw [List.map_append, List.map_cons, List.nodup_append] at hdistinct
    exact (hdistinct.2.2 _ (List.mem_map_of_mem hmem) _ List.mem_cons_self hpattern).elim

/-- Building fails exactly if two clauses have one pattern. -/
theorem exists_ofClauses_error_iff (clauses : List Clause) :
    (∃ failure, ofClauses clauses = .error failure) ↔ ¬ (clauses.map Clause.pattern).Nodup := by
  constructor
  · rintro ⟨failure, herror⟩ hdistinct
    obtain ⟨tree, htree⟩ := exists_ofClauses hdistinct
    exact nomatch htree.symm.trans herror
  · intro hrepeated
    cases htree : ofClauses clauses with
    | error failure => exact ⟨failure, rfl⟩
    | ok tree => exact absurd (nodup_of_ofClauses htree) hrepeated

end Tree

end Multimethod
