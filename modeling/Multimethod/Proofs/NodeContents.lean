import Multimethod.Proofs.Results
import Multimethod.Tree

/-!
# What a node holds

A clause stands in a node at the end of the way that its pattern describes. `Node.Holds` says which
clauses stand where, without looking anything up, `Node.Fits` that all ways through a node take
equally many arguments, `Node.Full` that every way leads to a clause, and `Node.Distinct` that no
two ways are written alike.

What an insertion can do is said once, for the end of a way (`insertHere_eq_some`) and before it
(`insert_cons_eq_some`). So inserting a clause adds this clause and changes nothing else
(`holds_insert`), it keeps the other properties (`fits_insert`, `full_insert`, `distinct_insert`),
and it fails exactly if another clause stands at the same place (`insert_eq_none`,
`not_holds_of_insert`).
-/

set_option autoImplicit false
set_option relaxedAutoImplicit false

namespace Multimethod

/-! ### Clauses in a node -/

namespace Node

/-- A clause stands in a node at the end of the way that a pattern describes. -/
inductive Holds : Node → Pattern → Clause → Prop
  | leaf (clause : Clause) : Holds (.leaf clause) ⟨[], none⟩ clause
  | arm {slots : List (Alternatives × Clause)} {alternatives : Alternatives} {clause : Clause}
      (hmem : (alternatives, clause) ∈ slots) :
      Holds (.remainder slots) ⟨[], some alternatives⟩ clause
  | child {children : List (String × Node)} {name : String} {below : Node} {names : List String}
      {rest : Option Alternatives} {clause : Clause} (hmem : (name, below) ∈ children)
      (hbelow : Holds below ⟨names, rest⟩ clause) :
      Holds (.branch children) ⟨name :: names, rest⟩ clause

/-- All ways through a node take so many single arguments, and further ones if it is open. -/
def Fits (isOpen : Bool) : Nat → Node → Prop
  | 0, .leaf _ => isOpen = false
  | 0, .remainder _ => isOpen = true
  | count + 1, .branch children => ∀ child ∈ children, Fits isOpen count child.2
  | _, _ => False

/-- Every part below a node holds a clause. -/
inductive Full : Node → Prop
  | leaf (clause : Clause) : Full (.leaf clause)
  | remainder (slots : List (Alternatives × Clause)) : Full (.remainder slots)
  | branch {children : List (String × Node)} (hfull : ∀ child ∈ children, Full child.2)
      (hholds : ∀ child ∈ children, ∃ pattern clause, child.2.Holds pattern clause) :
      Full (.branch children)

/-- No name leads to two children of a branch, and no alternatives to two clauses of a remainder. -/
inductive Distinct : Node → Prop
  | leaf (clause : Clause) : Distinct (.leaf clause)
  | remainder {slots : List (Alternatives × Clause)} (hslots : (slots.map Prod.fst).Nodup) :
      Distinct (.remainder slots)
  | branch {children : List (String × Node)} (hnames : (children.map Prod.fst).Nodup)
      (hbelow : ∀ child ∈ children, Distinct child.2) : Distinct (.branch children)

attribute [simp] Full.leaf Full.remainder Distinct.leaf

@[simp] theorem fits_branch_iff (children : List (String × Node)) (isOpen : Bool) (count : Nat) :
    (branch children).Fits isOpen (count + 1) ↔ ∀ child ∈ children, child.2.Fits isOpen count :=
  Iff.rfl

@[simp] theorem holds_leaf_iff (clause other : Clause) (pattern : Pattern) :
    (leaf clause).Holds pattern other ↔ pattern = ⟨[], none⟩ ∧ other = clause := by
  constructor
  · rintro ⟨⟩
    exact ⟨rfl, rfl⟩
  · rintro ⟨rfl, rfl⟩
    exact .leaf other

@[simp] theorem holds_remainder_iff (slots : List (Alternatives × Clause)) (pattern : Pattern)
    (clause : Clause) :
    (remainder slots).Holds pattern clause ↔
      ∃ alternatives, (alternatives, clause) ∈ slots ∧ pattern = ⟨[], some alternatives⟩ := by
  constructor
  · rintro ⟨⟩
    exact ⟨_, ‹_›, rfl⟩
  · rintro ⟨alternatives, hmem, rfl⟩
    exact .arm hmem

@[simp]
theorem holds_branch_iff (children : List (String × Node)) (pattern : Pattern) (clause : Clause) :
    (branch children).Holds pattern clause ↔
      ∃ child ∈ children, ∃ names rest, child.2.Holds ⟨names, rest⟩ clause ∧
        pattern = ⟨child.1 :: names, rest⟩ := by
  constructor
  · rintro ⟨⟩
    exact ⟨_, ‹_›, _, _, ‹_›, rfl⟩
  · rintro ⟨child, hmem, names, rest, hbelow, rfl⟩
    exact .child hmem hbelow

@[simp] theorem full_branch_iff (children : List (String × Node)) :
    (branch children).Full ↔
      ∀ child ∈ children, child.2.Full ∧ ∃ pattern clause, child.2.Holds pattern clause := by
  constructor
  · intro hfull
    cases hfull with
    | branch hbelow hholds => exact fun child hmem ↦ ⟨hbelow child hmem, hholds child hmem⟩
  · intro hchildren
    exact .branch (fun child hmem ↦ (hchildren child hmem).1)
      (fun child hmem ↦ (hchildren child hmem).2)

@[simp] theorem distinct_remainder_iff (slots : List (Alternatives × Clause)) :
    (remainder slots).Distinct ↔ (slots.map Prod.fst).Nodup := by
  constructor
  · intro hdistinct
    cases hdistinct with
    | remainder hslots => exact hslots
  · exact .remainder

@[simp] theorem distinct_branch_iff (children : List (String × Node)) :
    (branch children).Distinct ↔
      (children.map Prod.fst).Nodup ∧ ∀ child ∈ children, child.2.Distinct := by
  constructor
  · intro hdistinct
    cases hdistinct with
    | branch hnames hbelow => exact ⟨hnames, hbelow⟩
  · rintro ⟨hnames, hbelow⟩
    exact .branch hnames hbelow

/-- A branch holds what one of its children holds and what the others hold. -/
theorem holds_branch_append_cons_iff (before after : List (String × Node)) (name : String)
    (child : Node) (pattern : Pattern) (clause : Clause) :
    (branch (before ++ (name, child) :: after)).Holds pattern clause ↔
      (branch (before ++ after)).Holds pattern clause ∨
        ∃ names rest, child.Holds ⟨names, rest⟩ clause ∧ pattern = ⟨name :: names, rest⟩ := by
  rw [holds_branch_iff, holds_branch_iff, exists_mem_append_cons_iff]

/-- What a branch holds behind the name of a child is what the child holds. -/
theorem holds_child_iff {children : List (String × Node)} (hdistinct : (branch children).Distinct)
    {child : String × Node} (hchild : child ∈ children) (names : List String)
    (rest : Option Alternatives) (clause : Clause) :
    (branch children).Holds ⟨child.1 :: names, rest⟩ clause ↔
      child.2.Holds ⟨names, rest⟩ clause := by
  cases hdistinct with
  | branch hnames _ =>
    constructor
    · rw [holds_branch_iff]
      rintro ⟨found, hfound, below, last, hholds, hpattern⟩
      obtain ⟨hcons, rfl⟩ := Pattern.mk.inj hpattern
      obtain ⟨hname, rfl⟩ := List.cons.inj hcons
      rwa [List.inj_on_of_nodup_map hnames hchild hfound hname]
    · exact .child hchild

theorem Holds.name_mem {children : List (String × Node)} {name : String} {names : List String}
    {rest : Option Alternatives} {clause : Clause}
    (hholds : (branch children).Holds ⟨name :: names, rest⟩ clause) :
    name ∈ children.map Prod.fst := by
  obtain ⟨child, hchild, below, last, -, hpattern⟩ := (holds_branch_iff _ _ _).mp hholds
  rw [(List.cons.inj (congrArg Pattern.fixed hpattern)).1]
  exact List.mem_map_of_mem hchild

/-- The children of a branch without empty parts have the first names of what it holds. -/
theorem mem_names_iff {children : List (String × Node)} (hfull : (branch children).Full)
    (name : String) :
    name ∈ children.map Prod.fst ↔
      ∃ names rest clause, (branch children).Holds ⟨name :: names, rest⟩ clause := by
  constructor
  · intro hname
    obtain ⟨child, hchild, rfl⟩ := List.mem_map.mp hname
    obtain ⟨-, ⟨names, rest⟩, clause, hholds⟩ := (full_branch_iff children).mp hfull child hchild
    exact ⟨names, rest, clause, .child hchild hholds⟩
  · rintro ⟨names, rest, clause, hholds⟩
    exact hholds.name_mem

/-- A node that fits holds only clauses with its number of arguments. -/
theorem Holds.length_eq {node : Node} {pattern : Pattern} {clause : Clause} {isOpen : Bool}
    {count : Nat} (hholds : node.Holds pattern clause) (hfits : node.Fits isOpen count) :
    pattern.fixed.length = count ∧ pattern.rest.isSome = isOpen := by
  induction hholds generalizing count with
  | leaf clause =>
    cases count with
    | zero => exact ⟨rfl, hfits.symm⟩
    | succ count => exact hfits.elim
  | arm hmem =>
    cases count with
    | zero => exact ⟨rfl, hfits.symm⟩
    | succ count => exact hfits.elim
  | child hmem hbelow ih =>
    cases count with
    | zero => exact hfits.elim
    | succ count =>
      obtain ⟨hlength, hrest⟩ := ih (hfits _ hmem)
      exact ⟨congrArg (· + 1) hlength, hrest⟩

/-! ### Inserting into a node -/

@[simp] theorem holds_way_iff (clause other : Clause) (names : List String) (pattern : Pattern) :
    (way clause names).Holds pattern other ↔
      pattern = ⟨names, clause.pattern.rest⟩ ∧ other = clause := by
  induction names generalizing pattern with
  | nil =>
    cases hrest : clause.pattern.rest with
    | none => simp [way, tip, hrest]
    | some alternatives => simp [way, tip, hrest, and_comm]
  | cons name names ih => simp [way, ih, and_assoc, and_comm]

@[simp] theorem fits_way (clause : Clause) (names : List String) :
    (way clause names).Fits clause.pattern.rest.isSome names.length := by
  induction names with
  | nil =>
    rw [way, tip]
    cases clause.pattern.rest <;> rfl
  | cons name names ih =>
    intro child hmem
    cases List.mem_singleton.mp hmem
    exact ih

@[simp] theorem full_way (clause : Clause) (names : List String) : (way clause names).Full := by
  induction names with
  | nil => cases hrest : clause.pattern.rest <;> simp [way, tip, hrest]
  | cons name names ih => simp [way, ih]

@[simp] theorem distinct_way (clause : Clause) (names : List String) :
    (way clause names).Distinct := by
  induction names with
  | nil => cases hrest : clause.pattern.rest <;> simp [way, tip, hrest]
  | cons name names ih => simp [way, ih]

/-- A change of children changes the first child of the name, or adds a fresh one if there is
none. -/
theorem changeChild_eq_some {name : String} {change : Node → Option Node} {fresh : Node}
    {children changed : List (String × Node)}
    (hchange : changeChild name change fresh children = some changed) :
    (∃ before child after now, children = before ++ (name, child) :: after ∧
      name ∉ before.map Prod.fst ∧ change child = some now ∧
      changed = before ++ (name, now) :: after) ∨
    (name ∉ children.map Prod.fst ∧ changed = children ++ [(name, fresh)]) := by
  fun_induction changeChild name change fresh children generalizing changed with
  | case1 =>
    cases hchange
    exact Or.inr ⟨List.not_mem_nil, rfl⟩
  | case2 child children =>
    obtain ⟨now, hnow, rfl⟩ := Option.map_eq_some_iff.mp hchange
    exact Or.inl ⟨[], child, children, now, rfl, List.not_mem_nil, hnow, rfl⟩
  | case3 key child children hkey ih =>
    obtain ⟨others, hothers, rfl⟩ := Option.map_eq_some_iff.mp hchange
    have hnew : ∀ names : List String, name ∉ names → name ∉ key :: names := fun names hnames ↦
      List.not_mem_cons_of_ne_of_not_mem (Ne.symm hkey) hnames
    rcases ih hothers with ⟨before, below, after, now, rfl, hbefore, hnow, rfl⟩ | ⟨hnone, rfl⟩
    · exact Or.inl ⟨(key, child) :: before, below, after, now, rfl, hnew _ hbefore, hnow, rfl⟩
    · exact Or.inr ⟨hnew _ hnone, rfl⟩

theorem changeChild_eq_none {name : String} {change : Node → Option Node} {fresh : Node}
    {children : List (String × Node)} (hchange : changeChild name change fresh children = none) :
    ∃ child, (name, child) ∈ children ∧ change child = none := by
  fun_induction changeChild name change fresh children with
  | case1 => cases hchange
  | case2 child children => exact ⟨child, List.mem_cons_self, Option.map_eq_none_iff.mp hchange⟩
  | case3 key child children _ ih =>
    obtain ⟨found, hmem, hnone⟩ := ih (Option.map_eq_none_iff.mp hchange)
    exact ⟨found, List.mem_cons_of_mem _ hmem, hnone⟩

/-- A clause can be put only at the end of a remainder, after the slots that are there and only if
its alternatives are new. -/
theorem insertHere_eq_some {clause : Clause} {node changed : Node}
    (hinsert : insertHere clause node = some changed) :
    ∃ slots alternatives, node = .remainder slots ∧ clause.pattern.rest = some alternatives ∧
      alternatives ∉ slots.map Prod.fst ∧
        changed = .remainder (slots ++ [(alternatives, clause)]) := by
  cases node with
  | leaf _ => cases hinsert
  | branch _ => cases hinsert
  | remainder slots =>
    rw [insertHere] at hinsert
    cases hrest : clause.pattern.rest with
    | none =>
      rw [hrest] at hinsert
      cases hinsert
    | some alternatives =>
      rw [hrest] at hinsert
      simp only [Option.ite_none_left_eq_some, Option.some.injEq] at hinsert
      refine ⟨slots, alternatives, rfl, rfl, fun hmem ↦ hinsert.1 ?_, hinsert.2.symm⟩
      obtain ⟨slot, hslot, hsame⟩ := List.mem_map.mp hmem
      exact List.any_eq_true.mpr ⟨slot, hslot, by simpa using hsame⟩

/-- A clause that goes further down can be put only below a branch: into the child of the next name,
or at the end of a fresh way after the children if no child has this name. -/
theorem insert_cons_eq_some {clause : Clause} {name : String} {names : List String}
    {node changed : Node} (hinsert : insert clause (name :: names) node = some changed) :
    (∃ before child after now, node = .branch (before ++ (name, child) :: after) ∧
      name ∉ before.map Prod.fst ∧ insert clause names child = some now ∧
        changed = .branch (before ++ (name, now) :: after)) ∨
    (∃ children, node = .branch children ∧ name ∉ children.map Prod.fst ∧
      changed = .branch (children ++ [(name, way clause names)])) := by
  cases node with
  | leaf _ => cases hinsert
  | remainder _ => cases hinsert
  | branch children =>
    obtain ⟨others, hothers, rfl⟩ := Option.map_eq_some_iff.mp hinsert
    rcases changeChild_eq_some hothers with
      ⟨before, child, after, now, rfl, hbefore, hnow, rfl⟩ | ⟨hnew, rfl⟩
    · exact Or.inl ⟨before, child, after, now, rfl, hbefore, hnow, rfl⟩
    · exact Or.inr ⟨children, rfl, hnew, rfl⟩

theorem holds_insertHere {clause : Clause} {node changed : Node}
    (hinsert : insertHere clause node = some changed) (pattern : Pattern) (other : Clause) :
    changed.Holds pattern other ↔
      node.Holds pattern other ∨ pattern = ⟨[], clause.pattern.rest⟩ ∧ other = clause := by
  obtain ⟨slots, alternatives, rfl, hrest, -, rfl⟩ := insertHere_eq_some hinsert
  simp [hrest, or_and_right, exists_or, and_comm]

/-- Inserting a clause adds this clause at the end of its way and changes nothing else. -/
theorem holds_insert {clause : Clause} {names : List String} {node changed : Node}
    (hinsert : insert clause names node = some changed) (pattern : Pattern) (other : Clause) :
    changed.Holds pattern other ↔
      node.Holds pattern other ∨ pattern = ⟨names, clause.pattern.rest⟩ ∧ other = clause := by
  induction names generalizing node changed pattern with
  | nil => exact holds_insertHere hinsert pattern other
  | cons name names ih =>
    -- Either the child of the name changes, or a fresh way is added; the others stay.
    rcases insert_cons_eq_some hinsert with
      ⟨before, child, after, now, rfl, -, hnow, rfl⟩ | ⟨children, rfl, -, rfl⟩
    · rw [holds_branch_append_cons_iff, holds_branch_append_cons_iff, or_assoc]
      refine or_congr_right ?_
      simp [ih hnow, or_and_right, exists_or, and_assoc, and_comm]
    · rw [holds_branch_append_cons_iff, List.append_nil]
      refine or_congr_right ?_
      simp [and_assoc, and_comm]

theorem fits_insert {clause : Clause} {names : List String} {node changed : Node}
    (hinsert : insert clause names node = some changed)
    (hfits : node.Fits clause.pattern.rest.isSome names.length) :
    changed.Fits clause.pattern.rest.isSome names.length := by
  induction names generalizing node changed with
  | nil =>
    obtain ⟨slots, alternatives, rfl, -, -, rfl⟩ := insertHere_eq_some hinsert
    exact hfits
  | cons name names ih =>
    rw [List.length_cons] at hfits ⊢
    rcases insert_cons_eq_some hinsert with
      ⟨before, child, after, now, rfl, -, hnow, rfl⟩ | ⟨children, rfl, -, rfl⟩
    · rw [fits_branch_iff, List.forall_mem_append, List.forall_mem_cons] at hfits ⊢
      exact ⟨hfits.1, ih hnow hfits.2.1, hfits.2.2⟩
    · rw [fits_branch_iff, List.forall_mem_append, List.forall_mem_singleton]
      exact ⟨hfits, fits_way clause names⟩

theorem full_insert {clause : Clause} {names : List String} {node changed : Node}
    (hinsert : insert clause names node = some changed) (hfull : node.Full) : changed.Full := by
  induction names generalizing node changed with
  | nil =>
    obtain ⟨slots, alternatives, -, -, -, rfl⟩ := insertHere_eq_some hinsert
    exact .remainder _
  | cons name names ih =>
    rcases insert_cons_eq_some hinsert with
      ⟨before, child, after, now, rfl, -, hnow, rfl⟩ | ⟨children, rfl, -, rfl⟩
    · rw [full_branch_iff, List.forall_mem_append, List.forall_mem_cons] at hfull ⊢
      obtain ⟨hbefore, ⟨hbelow, -⟩, hafter⟩ := hfull
      have hholds : now.Holds ⟨names, clause.pattern.rest⟩ clause := by
        simp [holds_insert hnow]
      exact ⟨hbefore, ⟨ih hnow hbelow, _, clause, hholds⟩, hafter⟩
    · rw [full_branch_iff] at hfull ⊢
      rw [List.forall_mem_append, List.forall_mem_singleton]
      have hholds : (way clause names).Holds ⟨names, clause.pattern.rest⟩ clause := by simp
      exact ⟨hfull, full_way clause names, _, clause, hholds⟩

theorem distinct_insert {clause : Clause} {names : List String} {node changed : Node}
    (hinsert : insert clause names node = some changed) (hdistinct : node.Distinct) :
    changed.Distinct := by
  induction names generalizing node changed with
  | nil =>
    obtain ⟨slots, alternatives, rfl, -, hnew, rfl⟩ := insertHere_eq_some hinsert
    rw [distinct_remainder_iff] at hdistinct ⊢
    exact nodup_map_concat_iff.mpr ⟨hdistinct, hnew⟩
  | cons name names ih =>
    rcases insert_cons_eq_some hinsert with
      ⟨before, child, after, now, rfl, -, hnow, rfl⟩ | ⟨children, rfl, hnew, rfl⟩
    · rw [distinct_branch_iff, List.forall_mem_append, List.forall_mem_cons] at hdistinct ⊢
      obtain ⟨hnames, hbefore, hbelow, hafter⟩ := hdistinct
      exact ⟨by simpa using hnames, hbefore, ih hnow hbelow, hafter⟩
    · rw [distinct_branch_iff] at hdistinct ⊢
      rw [nodup_map_concat_iff, List.forall_mem_append, List.forall_mem_singleton]
      exact ⟨⟨hdistinct.1, hnew⟩, hdistinct.2, distinct_way clause names⟩

/-- Inserting a clause succeeds only if no clause stands at the end of its way. -/
theorem not_holds_of_insert {clause : Clause} {names : List String} {node changed : Node}
    (hinsert : insert clause names node = some changed) (hdistinct : node.Distinct)
    (other : Clause) : ¬ node.Holds ⟨names, clause.pattern.rest⟩ other := by
  induction names generalizing node changed with
  | nil =>
    obtain ⟨slots, alternatives, rfl, hrest, hnew, -⟩ := insertHere_eq_some hinsert
    rw [hrest, holds_remainder_iff]
    rintro ⟨found, hmem, hpattern⟩
    cases hpattern
    exact hnew (List.mem_map_of_mem hmem)
  | cons name names ih =>
    intro hholds
    rcases insert_cons_eq_some hinsert with
      ⟨before, child, after, now, rfl, -, hnow, -⟩ | ⟨children, rfl, hnew, -⟩
    · have hchild : (name, child) ∈ before ++ (name, child) :: after :=
        List.mem_append_right _ List.mem_cons_self
      have hheld := (holds_child_iff hdistinct hchild names _ other).mp hholds
      exact ih hnow (((distinct_branch_iff _).mp hdistinct).2 _ hchild) hheld
    · exact hnew hholds.name_mem

/-- Inserting a clause fails only if another clause stands at the end of its way. -/
theorem insert_eq_none {clause : Clause} {names : List String} {node : Node}
    (hinsert : insert clause names node = none)
    (hfits : node.Fits clause.pattern.rest.isSome names.length) :
    ∃ other, node.Holds ⟨names, clause.pattern.rest⟩ other := by
  induction names generalizing node with
  | nil =>
    cases node with
    | branch _ => exact hfits.elim
    | leaf other =>
      have hrest : clause.pattern.rest = none :=
        Option.isNone_iff_eq_none.mp (Option.isSome_eq_false_iff.mp hfits)
      exact ⟨other, by rw [hrest]; exact .leaf other⟩
    | remainder slots =>
      obtain ⟨alternatives, hrest⟩ := Option.isSome_iff_exists.mp hfits
      rw [insert, insertHere, hrest] at hinsert
      have htaken : slots.any (·.1 == alternatives) = true := by
        by_contra hfree
        simp only [hfree, if_false, reduceCtorEq] at hinsert
      obtain ⟨⟨found, other⟩, hmem, hfound⟩ := List.any_eq_true.mp htaken
      cases beq_iff_eq.mp hfound
      exact ⟨other, by rw [hrest]; exact .arm hmem⟩
  | cons name names ih =>
    cases node with
    | leaf _ => exact hfits.elim
    | remainder _ => exact hfits.elim
    | branch children =>
      obtain ⟨child, hmem, hnone⟩ := changeChild_eq_none (Option.map_eq_none_iff.mp hinsert)
      obtain ⟨other, hholds⟩ := ih hnone (hfits _ hmem)
      exact ⟨other, .child hmem hholds⟩

end Node

end Multimethod
