import Multimethod.Engine

/-!
# Methods with an index

A program that looks methods up by key keeps them with an index: `IndexedMethods` is a `MethodTable`
together with the place of each key in it. A key is looked up in the index, and its implementation
is the one at the place that the index gives (`find?_eq`).

A method with a new key goes to the end of the list, and its place is entered (`push`); an
implementation that is inserted again changes neither list nor index. `IndexedMethods.ofSources` is
what the sources of a multimethod leave, and `findSignature` looks a signature up in it.
-/

set_option autoImplicit false
set_option relaxedAutoImplicit false

namespace Multimethod

/-- Implementations by key, in the order in which the keys came, with the place of each key. -/
structure IndexedMethods where
  /-- The methods alone. -/
  table : MethodTable
  /-- The keys with their places. -/
  index : Index
  inStep : index.InStep Prod.fst table.methods

namespace IndexedMethods

/-- The methods in order. -/
def methods (indexed : IndexedMethods) : List (String × Implementation) :=
  indexed.table.methods

/-- No methods. -/
def empty : IndexedMethods :=
  ⟨.empty, [], Index.inStep_nil _⟩

/-- The methods with one more at the end, whose place is entered. -/
def push (indexed : IndexedMethods) (method : String × Implementation)
    (hnew : method.1 ∉ indexed.table.keys) : IndexedMethods :=
  ⟨indexed.table.push method hnew, indexed.index.enter method.1 indexed.methods.length,
    indexed.inStep.enter hnew⟩

/-! ### Looking keys up -/

/-- The place of a key. -/
def place? (indexed : IndexedMethods) (key : String) : Option Nat :=
  indexed.index.place? key

/-- The implementation at the place of a key. -/
def find? (indexed : IndexedMethods) (key : String) : Option Implementation := do
  let method ← indexed.methods[← indexed.place? key]?
  return method.2

@[simp] theorem find?_eq (indexed : IndexedMethods) (key : String) :
    indexed.find? key = indexed.table.find? key := by
  have hplace : (indexed.place? key).bind (indexed.methods[·]?) =
      indexed.methods.find? (·.1 == key) := indexed.inStep.bind_place? key
  change ((indexed.place? key).bind fun place ↦ indexed.methods[place]?.bind fun method ↦
    some method.2) = indexed.methods.lookup key
  rw [lookup_eq_map_find?, ← hplace, ← Option.bind_assoc, Option.map_eq_bind]
  rfl

/-- Whether a key has a place. -/
def contains (indexed : IndexedMethods) (key : String) : Bool :=
  (indexed.place? key).isSome

/-- The implementation of the method that has a signature, in the multimethod of a name. -/
def findSignature (indexed : IndexedMethods) (name : Option String) (signature : String) :
    Except Failure Implementation := do
  let key ← Signature.normalForm signature
  match indexed.find? key with
  | some implementation => return implementation
  | none => throw (.signatureNotFound name key)

/-! ### New methods -/

/-- The methods with one more implementation, unless its key is taken by another one. -/
def insert (indexed : IndexedMethods) (method : String × Implementation) :
    Except Failure IndexedMethods :=
  match hfind : indexed.find? method.1 with
  | none =>
    .ok (indexed.push method
      ((indexed.table.find?_eq_none_iff _).mp (indexed.find?_eq _ ▸ hfind)))
  | some known =>
    if known.isSame method.2 then .ok indexed
    else .error (.duplicateSignature method.1)

/-- The methods with an entry. -/
def addEntry (indexed : IndexedMethods) (entry : String × Implementation) :
    Except Failure IndexedMethods := do
  indexed.insert (← Signature.normalForm entry.1, entry.2)

/-- The methods with those of a source. -/
def addSource (indexed : IndexedMethods) : Source → Except Failure IndexedMethods
  | .entries list => list.foldlM addEntry indexed
  | .dispatcher merged => merged.methods.methods.foldlM insert indexed

/-- The methods of some sources, one after the other. -/
def ofSources (sources : List Source) : Except Failure IndexedMethods :=
  sources.foldlM addSource empty

end IndexedMethods

end Multimethod
