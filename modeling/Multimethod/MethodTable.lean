import Multimethod.Index
import Multimethod.Method

/-!
# Method tables

A method table holds implementations by the normal written form of their signatures, each key once,
in the order in which these keys first came. An implementation can be inserted again under its key;
another implementation under a key that is taken is refused. The signatures themselves are read from
their keys again when clauses are made (`MethodTable.clauses`).
-/

set_option autoImplicit false
set_option relaxedAutoImplicit false

namespace Multimethod

/-- Implementations by key, in the order in which the keys came. -/
@[ext]
structure MethodTable where
  methods : List (String × Implementation)
  /-- No key is there twice. -/
  nodup : (methods.map Prod.fst).Nodup := by decide

namespace MethodTable

/-- The table without methods. -/
def empty : MethodTable where
  methods := []

/-- The keys in order. -/
def keys (table : MethodTable) : List String :=
  table.methods.map Prod.fst

/-- The implementation with a key. -/
def find? (table : MethodTable) (key : String) : Option Implementation :=
  table.methods.lookup key

/-- Whether an implementation has a key. -/
def contains (table : MethodTable) (key : String) : Bool :=
  table.keys.contains key

@[simp] theorem find?_eq_none_iff (table : MethodTable) (key : String) :
    table.find? key = none ↔ key ∉ table.keys :=
  lookup_eq_none_iff_not_mem

/-- The table with an implementation under a new key after the others. -/
def push (table : MethodTable) (method : String × Implementation) (hnew : method.1 ∉ table.keys) :
    MethodTable where
  methods := table.methods ++ [method]
  nodup := nodup_keys_of_perm_cons
    (List.perm_append_singleton method table.methods) hnew table.nodup

/-- The table with one more implementation, unless its key is taken by another one. -/
def insert (table : MethodTable) (method : String × Implementation) :
    Except Failure MethodTable :=
  match hfind : table.find? method.1 with
  | none => .ok (table.push method ((table.find?_eq_none_iff _).mp hfind))
  | some known =>
    if known.isSame method.2 then .ok table
    else .error (.duplicateSignature method.1)

theorem insert_of_none {table : MethodTable} {method : String × Implementation}
    (hfind : table.find? method.1 = none) :
    table.insert method = .ok (table.push method ((table.find?_eq_none_iff _).mp hfind)) := by
  unfold insert
  split
  · rfl
  · next known hknown => exact nomatch hfind.symm.trans hknown

theorem insert_of_some {table : MethodTable} {method : String × Implementation}
    {known : Implementation} (hfind : table.find? method.1 = some known) :
    table.insert method =
      if known.isSame method.2 then .ok table else .error (.duplicateSignature method.1) := by
  unfold insert
  split
  · next hnone => exact nomatch hfind.symm.trans hnone
  · next other hother => rw [Option.some.inj (hfind.symm.trans hother)]

/-- The table with more implementations. -/
def insertAll (table : MethodTable) (methods : List (String × Implementation)) :
    Except Failure MethodTable :=
  methods.foldlM insert table

/-- An implementation is refused exactly if another one has its key. -/
theorem insert_eq_error_iff (table : MethodTable) (method : String × Implementation)
    (failure : Failure) :
    table.insert method = .error failure ↔
      (∃ known, table.find? method.1 = some known ∧ known.identity ≠ method.2.identity) ∧
        failure = .duplicateSignature method.1 := by
  cases hfind : table.find? method.1 with
  | none => simp [insert_of_none hfind]
  | some known =>
    rw [insert_of_some hfind]
    by_cases hsame : known.identity = method.2.identity
    · simp [Implementation.isSame, hsame]
    · have hother : known.isSame method.2 = false := by simpa [Implementation.isSame] using hsame
      simp only [hother, Option.some.injEq]
      constructor
      · intro herror
        exact ⟨⟨known, rfl, hsame⟩, (Except.error.inj herror).symm⟩
      · rintro ⟨-, rfl⟩
        rfl

/-- An implementation that is not refused is put at the end, unless its key is there. -/
theorem methods_of_insert {table changed : MethodTable} {method : String × Implementation}
    (hinsert : table.insert method = .ok changed) :
    changed.methods = match table.find? method.1 with
      | none => table.methods ++ [method]
      | some _ => table.methods := by
  cases hfind : table.find? method.1 with
  | none =>
    rw [insert_of_none hfind] at hinsert
    rw [← Except.ok.inj hinsert]
    rfl
  | some known =>
    rw [insert_of_some hfind] at hinsert
    split at hinsert
    · rw [Except.ok.inj hinsert]
    · exact nomatch hinsert

/-! ### Clauses -/

/-- Clauses with those of a method after them, without the ignored types. The method is dropped if
one of its slots allows ignored types only. -/
def addClauses (ignored : List String) (clauses : List Clause)
    (method : String × Implementation) : Except Failure (List Clause) := do
  match (← Method.parse method.1 method.2).without ignored with
  | none => return clauses
  | some method => method.clauses.foldlM Clause.addTo clauses

/-- The clauses of all methods, without the ignored types, no two with one key. -/
def clauses (ignored : List String) (table : MethodTable) : Except Failure (List Clause) :=
  table.methods.foldlM (addClauses ignored) []

end MethodTable

end Multimethod
