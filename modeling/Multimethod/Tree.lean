import Multimethod.Method

/-!
# Dispatch trees

A dispatch tree holds clauses by arity and then by the types of their arguments, one level for each
argument, so that clauses which begin with the same types share the way to them. `Node.insert` puts
a clause at the end of its way and refuses it when the place is taken. `Tree.ofClauses` inserts
clauses one after the other and fails with the first that repeats an earlier one.

The groups of a tree are in the order in which calls try their arities, and the children of a node
in the order in which their types came.
-/

set_option autoImplicit false
set_option relaxedAutoImplicit false

namespace Multimethod

/-- A part of a dispatch tree. -/
inductive Node where
  /-- All arguments are accounted for. -/
  | leaf (clause : Clause)
  /-- One more argument, by its type. -/
  | branch (children : List (String × Node))
  /-- All the remaining arguments, by the alternatives for each of them. -/
  | remainder (arms : List (Alternatives × Clause))

namespace Node

/-! ### Looking into a node -/

/-- The parts below a node, by the written form of the slot that leads to them. -/
def children : Node → List (String × Node)
  | .leaf _ => []
  | .branch children => children
  | .remainder arms => arms.map fun arm ↦ (arm.1.text, .leaf arm.2)

/-- The part below a node to which a slot leads. -/
def child? (slot : String) (node : Node) : Option Node :=
  node.children.lookup slot

mutual

/-- The number of clauses in a node. -/
def size : Node → Nat
  | .leaf _ => 1
  | .branch children => totalSize children
  | .remainder arms => arms.length

/-- The number of clauses in several nodes. -/
def totalSize : List (String × Node) → Nat
  | [] => 0
  | (_, child) :: children => size child + totalSize children

end

/-! ### Inserting clauses -/

/-- The end of the way to a clause. -/
def tip (clause : Clause) : Node :=
  match clause.pattern.rest with
  | none => .leaf clause
  | some alternatives => .remainder [(alternatives, clause)]

/-- A way to a clause that nothing shares. -/
def way (clause : Clause) : List String → Node
  | [] => tip clause
  | name :: names => .branch [(name, way clause names)]

/-- A node with a clause at its end, unless a clause is there. -/
def insertHere (clause : Clause) : Node → Option Node
  | .remainder arms =>
    match clause.pattern.rest with
    | none => none
    | some alternatives =>
      if arms.any (·.1 == alternatives) then none
      else some (.remainder (arms ++ [(alternatives, clause)]))
  | _ => none

/-- Children with a change to the one of a name; if there is none, a fresh one is added. -/
def changeChild (name : String) (change : Node → Option Node) (fresh : Node) :
    List (String × Node) → Option (List (String × Node))
  | [] => some [(name, fresh)]
  | (key, child) :: children =>
    if key = name then (change child).map fun changed ↦ (key, changed) :: children
    else (changeChild name change fresh children).map fun changed ↦ (key, child) :: changed

/-- A node with a clause at the end of a way, unless a clause is there. -/
def insert (clause : Clause) : List String → Node → Option Node
  | [], node => insertHere clause node
  | name :: names, .branch children =>
    (changeChild name (insert clause names) (way clause names) children).map .branch
  | _ :: _, _ => none

end Node

/-- Clauses by arity and then by the types of their arguments. -/
structure Tree where
  /-- The groups, in the order in which calls try their arities. -/
  groups : List (Arity × Node)

namespace Tree

/-- The tree without clauses. -/
def empty : Tree :=
  ⟨[]⟩

/-- The part of a tree for an arity. -/
def group? (arity : Arity) (tree : Tree) : Option Node :=
  tree.groups.lookup arity

/-- The largest number of slots of a signature. -/
def width (tree : Tree) : Nat :=
  tree.groups.foldr (fun group width ↦ max group.1.slotCount width) 0

/-- Groups with a clause in the one for its arity, unless its place is taken. -/
def insertInto (clause : Clause) : List (Arity × Node) → Option (List (Arity × Node))
  | [] => some [(clause.pattern.arity, .way clause clause.pattern.fixed)]
  | (arity, node) :: groups =>
    if arity = clause.pattern.arity then
      (node.insert clause clause.pattern.fixed).map fun node ↦ (arity, node) :: groups
    else if clause.pattern.arity.precedes arity then
      some ((clause.pattern.arity, .way clause clause.pattern.fixed) :: (arity, node) :: groups)
    else
      (insertInto clause groups).map fun groups ↦ (arity, node) :: groups

/-- A tree with one more clause. -/
def insert (tree : Tree) (clause : Clause) : Except Failure Tree :=
  match insertInto clause tree.groups with
  | some groups => .ok ⟨groups⟩
  | none => .error (.duplicateSignature clause.pattern.key)

/-- The tree of the given clauses. -/
def ofClauses (clauses : List Clause) : Except Failure Tree :=
  clauses.foldlM insert empty

end Tree

end Multimethod
