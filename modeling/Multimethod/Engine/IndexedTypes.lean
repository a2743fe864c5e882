import Multimethod.Engine.Session
import Multimethod.Index

/-!
# Types with an index

Names are looked up often, so a program keeps its types with an index: `IndexedTypes` is a
`TypeTable` together with the place of each name in it. A name is looked up in the index, and its
type is the one at the place that the index gives.

The index is in step with the list and follows every change of it. There are two calls that put a
new type among the others (`Registration`): `register` puts it at the end and enters its place
(`push`), while `add` may put it before others, whose places move, and makes the index anew
(`reindexed`). `IndexedTypes.after` is what calls leave, those that fail included.
-/

set_option autoImplicit false
set_option relaxedAutoImplicit false

namespace Multimethod

/-- The types that exist, in order, with the place of each name. -/
structure IndexedTypes where
  /-- The types alone. -/
  table : TypeTable
  /-- The names with their places. -/
  index : Index
  inStep : index.InStep ValueType.name table.types

namespace IndexedTypes

/-- The types in order. -/
def types (indexed : IndexedTypes) : List ValueType :=
  indexed.table.types

/-- No types. -/
def empty : IndexedTypes :=
  ⟨.empty, [], Index.inStep_nil _⟩

/-- The types with one more at the end, whose place is entered. -/
def push (indexed : IndexedTypes) (type : ValueType) (hnew : type.name ∉ indexed.table.names) :
    IndexedTypes where
  table := indexed.table.insert type false hnew
  index := indexed.index.enter type.name indexed.types.length
  inStep := TypeTable.types_insert_end indexed.table type hnew ▸ indexed.inStep.enter hnew

theorem names_push (indexed : IndexedTypes) (type : ValueType)
    (hnew : type.name ∉ indexed.table.names) :
    (indexed.push type hnew).table.names = indexed.table.names ++ [type.name] := by
  rw [push, TypeTable.names, TypeTable.types_insert_end, List.map_append]
  rfl

/-- The types with more of them at the end, one after the other. -/
def pushAll (indexed : IndexedTypes) :
    (types : List ValueType) → (indexed.table.names ++ types.map ValueType.name).Nodup →
      IndexedTypes
  | [], _ => indexed
  | type :: types, hnodup =>
    have hnew : type.name ∉ indexed.table.names := fun hmem ↦
      (List.nodup_append.mp hnodup).2.2 _ hmem _ List.mem_cons_self rfl
    (indexed.push type hnew).pushAll types (by
      rw [names_push, List.append_assoc]
      exact hnodup)

/-- A type for each kind of value. -/
def standard : IndexedTypes :=
  empty.pushAll TypeTable.standard.types TypeTable.standard.nodup

/-- The types with an index that is made from the list, entry by entry. -/
def reindexed (table : TypeTable) : IndexedTypes :=
  ⟨table, .ofEntries ValueType.name table.types, Index.inStep_ofEntries table.nodup⟩

/-! ### Looking names up -/

/-- The place of a name. -/
def place? (indexed : IndexedTypes) (name : String) : Option Nat :=
  indexed.index.place? name

/-- The type at the place of a name. -/
def find? (indexed : IndexedTypes) (name : String) : Option ValueType := do
  indexed.types[← indexed.place? name]?

/-- Whether a name can be used in a signature. -/
def contains (indexed : IndexedTypes) (name : String) : Bool :=
  name == wildcard || (indexed.place? name).isSome

/-- The test that a name stands for. -/
def test (indexed : IndexedTypes) (name : String) : Except Failure Test :=
  if name = wildcard then .ok fun _ ↦ true
  else
    match indexed.find? name with
    | some type => .ok type.accepts
    | none => .error (indexed.table.unknown name)

/-- The rank of a name. -/
def rank (indexed : IndexedTypes) (name : String) : Rank :=
  if name = wildcard then .wildcard
  else if (indexed.find? name).any (·.catchAll) then .catchAll
  else .ordinary

/-- The name of the first type that accepts a value. -/
def classify (indexed : IndexedTypes) (value : Value) : String :=
  indexed.table.classify value

/-! ### New types -/

/-- The failure of a new type with a name, if there is one. -/
def refusal? (indexed : IndexedTypes) (name : String) : Option Failure :=
  match TypeName.fault? name with
  | some fault => some (.invalidTypeName name fault.message)
  | none => if (indexed.place? name).isSome then some (.duplicateType name) else none

@[simp] theorem isSome_place? (indexed : IndexedTypes) (name : String) :
    (indexed.place? name).isSome = (indexed.table.find? name).isSome := by
  rw [Bool.eq_iff_iff, TypeTable.isSome_find?_iff]
  exact indexed.inStep.isSome_place?_iff name

@[simp] theorem refusal?_eq (indexed : IndexedTypes) (name : String) :
    indexed.refusal? name = indexed.table.refusal? name := by
  rw [refusal?, isSome_place?]
  rfl

/-- The calls that put a new type among the types. -/
inductive Registration where
  /-- The type goes after the others. -/
  | register (type : ValueType)
  /-- The type goes after the others or before the first catch-all type. -/
  | add (type : ValueType) (beforeCatchAll : Bool)

namespace Registration

/-- The new type. -/
def type : Registration → ValueType
  | .register type => type
  | .add type _ => type

/-- Whether the new type goes before the first catch-all type. -/
def beforeCatchAll : Registration → Bool
  | .register _ => false
  | .add _ beforeCatchAll => beforeCatchAll

/-- The types with the new one among them. -/
def change (indexed : IndexedTypes) :
    (call : Registration) → call.type.name ∉ indexed.table.names → IndexedTypes
  | .register type, hnew => indexed.push type hnew
  | .add type beforeCatchAll, hnew => reindexed (indexed.table.insert type beforeCatchAll hnew)

/-- Carries a call out. -/
def perform (call : Registration) : InPlace IndexedTypes Unit := do
  let indexed ← get
  match hrefusal : indexed.refusal? call.type.name with
  | some failure => throw failure
  | none =>
    set (call.change indexed
      ((indexed.table.refusal?_eq_none_iff _).mp (indexed.refusal?_eq _ ▸ hrefusal)).2)

end Registration

/-- What calls leave that start with the types of all kinds or with none. -/
def after (withKinds : Bool) (calls : List Registration) : IndexedTypes :=
  calls.foldl (fun indexed call ↦ (call.perform.on indexed).2)
    (if withKinds then standard else empty)

end IndexedTypes

end Multimethod
