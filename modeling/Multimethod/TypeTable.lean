import Multimethod.Failure
import Multimethod.Index
import Multimethod.Rank
import Multimethod.Signature
import Multimethod.Text.Blank
import Multimethod.Text.Nearest

/-!
# Types

A type is a name with a test on values, and a value may have many types. A `TypeTable` lists the
types that exist, no two of them with one name, in the order in which a value is matched against
them. `TypeTable.add` puts a type at the end, or before the first catch-all type; the name must be
new, and it must be one that a signature can hold (`refusal?_eq_none_iff`). The wildcard `*` accepts
every value and is in no table.
-/

set_option autoImplicit false
set_option relaxedAutoImplicit false

namespace Multimethod

/-! ### Type names -/

namespace TypeName

/-- Why a type cannot have a name. -/
inductive Fault where
  | reserved
  | empty
  | markup
  deriving DecidableEq, Repr

/-- The fault in words. -/
def Fault.message : Fault → String
  | .reserved => "`*` is reserved for the wildcard type"
  | .empty => "type name is empty"
  | .markup => "type name contains signature syntax (`,`, `|`, `...` or whitespace)"

/-- What is wrong with a type name, if anything is. -/
def fault? (name : String) : Option Fault :=
  if name = wildcard then some .reserved
  else if name.isEmpty then some .empty
  else if name.toList.any (fun c ↦ c == ',' || c == '|' || Text.isBlank c) ||
      holdsMark name.toList then
    some .markup
  else none

end TypeName

/-! ### Types -/

/-- A test on values. -/
abbrev Test := Value → Bool

/-- A type: a name with a test. -/
structure ValueType where
  name : String
  accepts : Test
  /-- Whether the type is tried only after ordinary types. -/
  catchAll : Bool := false

namespace ValueType

/-- The type of all values of a kind, under the name of the kind. -/
def ofKind (kind : Kind) (catchAll : Bool) : ValueType :=
  ⟨kind.name, fun value ↦ value.kind == kind, catchAll⟩

/-- The type as a log shows it. -/
def inspect (type : ValueType) : String :=
  Text.openRecord "TypeDef"
    [("name", Text.quoted type.name), ("catch_all", Text.truth type.catchAll)]

end ValueType

/-- The types that exist, in the order in which values are matched against them. -/
@[ext]
structure TypeTable where
  types : List ValueType
  /-- No two types have one name. -/
  nodup : (types.map ValueType.name).Nodup := by decide

namespace TypeTable

/-- The table without types. -/
def empty : TypeTable where
  types := []

/-- The table with a type for each kind of value; objects are a catch-all type. -/
def standard : TypeTable where
  types := [.ofKind .number false, .ofKind .string false, .ofKind .boolean false,
    .ofKind .array false, .ofKind .null false, .ofKind .undefined false, .ofKind .object true]

/-! ### Looking types up -/

/-- The names in order. -/
def names (table : TypeTable) : List String :=
  table.types.map ValueType.name

/-- The type with a name. The wildcard is not a type of the table. -/
def find? (table : TypeTable) (name : String) : Option ValueType :=
  table.types.find? (·.name == name)

/-- Whether a name can be used in a signature. -/
def contains (table : TypeTable) (name : String) : Bool :=
  name == wildcard || (table.find? name).isSome

@[simp] theorem isSome_find?_iff (table : TypeTable) (name : String) :
    (table.find? name).isSome = true ↔ name ∈ table.names := by
  rw [find?, List.find?_isSome, names, List.mem_map]
  simp only [beq_iff_eq]

/-- A name can be used if it is the wildcard or a type has it. -/
@[simp] theorem contains_eq_true_iff (table : TypeTable) (name : String) :
    table.contains name = true ↔ name = wildcard ∨ name ∈ table.names := by
  simp [contains]

/-- The failure for a name that no type has. -/
def unknown (table : TypeTable) (name : String) : Failure :=
  .unknownType name (Text.nearest name table.names)

/-- The test that a name stands for. -/
def test (table : TypeTable) (name : String) : Except Failure Test :=
  if name = wildcard then .ok fun _ ↦ true
  else
    match table.find? name with
    | some type => .ok type.accepts
    | none => .error (table.unknown name)

/-- The name of the first type that accepts a value. -/
def classify (table : TypeTable) (value : Value) : String :=
  match table.types.find? (·.accepts value) with
  | some type => type.name
  | none => "unknown"

/-- The rank of a name. -/
def rank (table : TypeTable) (name : String) : Rank :=
  if name = wildcard then .wildcard
  else if (table.find? name).any (·.catchAll) then .catchAll
  else .ordinary

/-- The rank of alternatives: that of the most permissive one. -/
def rankOfAny (table : TypeTable) (alternatives : Alternatives) : Rank :=
  alternatives.names.foldr (fun name rank ↦ (table.rank name).max rank) .ordinary

/-! ### New types -/

/-- The failure of adding a type with a name, if there is one. -/
def refusal? (table : TypeTable) (name : String) : Option Failure :=
  match TypeName.fault? name with
  | some fault => some (.invalidTypeName name fault.message)
  | none => if (table.find? name).isSome then some (.duplicateType name) else none

/-- Proper names that are new are not refused. -/
@[simp] theorem refusal?_eq_none_iff (table : TypeTable) (name : String) :
    table.refusal? name = none ↔ TypeName.fault? name = none ∧ name ∉ table.names := by
  rw [refusal?, ← isSome_find?_iff]
  cases TypeName.fault? name <;> simp

/-- The place for a new type: the end, or that of the first catch-all type. -/
def newPlace (table : TypeTable) (beforeCatchAll : Bool) : Nat :=
  if beforeCatchAll then table.types.findIdx (·.catchAll) else table.types.length

theorem newPlace_le (table : TypeTable) (beforeCatchAll : Bool) :
    table.newPlace beforeCatchAll ≤ table.types.length := by
  unfold newPlace
  split
  · exact List.findIdx_le_length
  · exact Nat.le_refl _

/-- The table with a type of a new name in its place. -/
def insert (table : TypeTable) (type : ValueType) (beforeCatchAll : Bool)
    (hnew : type.name ∉ table.names) : TypeTable where
  types := table.types.insertIdx (table.newPlace beforeCatchAll) type
  nodup := nodup_keys_of_perm_cons
    (List.perm_insertIdx type table.types (table.newPlace_le beforeCatchAll)) hnew table.nodup

theorem types_insert_end (table : TypeTable) (type : ValueType) (hnew : type.name ∉ table.names) :
    (table.insert type false hnew).types = table.types ++ [type] :=
  List.insertIdx_length_self

/-- The table with one more type, at the end or before the first catch-all type. -/
def add (table : TypeTable) (type : ValueType) (beforeCatchAll : Bool) :
    Except Failure TypeTable :=
  match hrefusal : table.refusal? type.name with
  | some failure => .error failure
  | none =>
    .ok (table.insert type beforeCatchAll ((table.refusal?_eq_none_iff _).mp hrefusal).2)

theorem add_eq_error_iff (table : TypeTable) (type : ValueType) (beforeCatchAll : Bool)
    (failure : Failure) :
    table.add type beforeCatchAll = .error failure ↔ table.refusal? type.name = some failure := by
  unfold add
  split <;> simp_all

/-- A type is added exactly if its name is a proper one and new. -/
theorem add_eq_ok_iff (table changed : TypeTable) (type : ValueType) (beforeCatchAll : Bool) :
    table.add type beforeCatchAll = .ok changed ↔ TypeName.fault? type.name = none ∧
      ∃ hnew, changed = table.insert type beforeCatchAll hnew := by
  rw [← exists_and_left]
  unfold add
  split
  · next failure hrefusal =>
    refine iff_of_false nofun fun ⟨hnew, hproper, _⟩ ↦ ?_
    rw [(refusal?_eq_none_iff _ _).mpr ⟨hproper, hnew⟩] at hrefusal
    exact nomatch hrefusal
  · next hrefusal =>
    obtain ⟨hproper, hnew⟩ := (table.refusal?_eq_none_iff _).mp hrefusal
    rw [Except.ok.injEq]
    exact ⟨fun hsame ↦ ⟨hnew, hproper, hsame.symm⟩, fun ⟨_, _, hsame⟩ ↦ hsame.symm⟩

/-- The table as a log shows it. -/
def inspect (table : TypeTable) : String :=
  Text.bracketed (table.names.map Text.quoted)

end TypeTable

end Multimethod
