import Multimethod.Engine.IndexedTypes
import Multimethod.Proofs.Sessions

/-!
# The index of types stays in step with the list

An index gives each name the place that a scan of the list finds, so names are looked up as in the
list alone (`answersByScan`). A call checks first and changes list and index last: it leaves both as
they were, or puts a type of a new name among the others (`perform_cases`), which changes the list
as it changes a table without an index (`table_change`). What it does to the list and to the names
of values is said by `settles`.

So whatever calls are made, no two types have one name, all names are proper ones, and lookups
answer what the list alone answers (`index_stays_in_step`).
-/

set_option autoImplicit false
set_option relaxedAutoImplicit false

namespace Multimethod

/-! ### New types in a table -/

namespace TypeTable

/-- A type is put at the end, or after the types before the first catch-all type. -/
theorem exists_place_of_insert (table : TypeTable) (type : ValueType) (beforeCatchAll : Bool)
    (hnew : type.name ∉ table.names) :
    ∃ before after, table.types = before ++ after ∧
      (table.insert type beforeCatchAll hnew).types = before ++ type :: after ∧
      (beforeCatchAll = false → after = []) ∧
      (beforeCatchAll = true → (∀ earlier ∈ before, earlier.catchAll = false) ∧
        ∀ next ∈ after.head?, next.catchAll = true) := by
  cases beforeCatchAll with
  | false =>
    exact ⟨table.types, [], (List.append_nil _).symm, table.types_insert_end type hnew,
      fun _ ↦ rfl, nofun⟩
  | true =>
    refine ⟨table.types.takeWhile (!·.catchAll), table.types.dropWhile (!·.catchAll),
      List.takeWhile_append_dropWhile.symm, insertIdx_findIdx _ type table.types, nofun,
      fun _ ↦ ⟨?_, ?_⟩⟩
    · intro earlier hearlier
      simpa using List.all_eq_true.mp List.all_takeWhile earlier hearlier
    · intro next hnext
      have hhead := List.head?_dropWhile_not (!·.catchAll) table.types
      rw [Option.mem_def.mp hnext] at hhead
      simpa using hhead

/-- A value has the name of the first type that accepts it. -/
theorem classify_of_first {table : TypeTable} {before after : List ValueType} {type : ValueType}
    {value : Value} (htypes : table.types = before ++ type :: after)
    (hrejects : ∀ earlier ∈ before, earlier.accepts value = false)
    (haccepts : type.accepts value = true) : table.classify value = type.name := by
  have hbefore : before.find? (·.accepts value) = none := by simpa using hrejects
  rw [classify, htypes, List.find?_append, hbefore, Option.none_or, List.find?_cons, haccepts]

/-- One more type changes the name of what it accepts and no type before it does. -/
theorem classify_insert {table changed : TypeTable} {before after : List ValueType}
    {type : ValueType} (htypes : table.types = before ++ after)
    (hchanged : changed.types = before ++ type :: after) (value : Value) :
    changed.classify value =
      if (∀ earlier ∈ before, earlier.accepts value = false) ∧ type.accepts value = true then
        type.name
      else table.classify value := by
  split
  · next hfirst => exact classify_of_first hchanged hfirst.1 hfirst.2
  · next hlater =>
    rw [classify, classify, htypes, hchanged, List.find?_append, List.find?_append, List.find?_cons]
    cases hbefore : before.find? (·.accepts value) with
    | some earlier => rfl
    | none =>
      have hrejects : ∀ earlier ∈ before, earlier.accepts value = false := by
        simpa using hbefore
      have hrefuses : type.accepts value = false :=
        Bool.not_eq_true _ ▸ fun haccepts ↦ hlater ⟨hrejects, haccepts⟩
      rw [hrefuses]

end TypeTable

namespace IndexedTypes

/-! ### Lookups -/

@[simp] theorem find?_eq (indexed : IndexedTypes) (name : String) :
    indexed.find? name = indexed.table.find? name :=
  indexed.inStep.bind_place? name

@[simp] theorem contains_eq (indexed : IndexedTypes) (name : String) :
    indexed.contains name = indexed.table.contains name := by
  rw [contains, isSome_place?, TypeTable.contains]

@[simp] theorem test_eq (indexed : IndexedTypes) (name : String) :
    indexed.test name = indexed.table.test name := by
  rw [test, find?_eq]
  rfl

@[simp] theorem rank_eq (indexed : IndexedTypes) (name : String) :
    indexed.rank name = indexed.table.rank name := by
  rw [rank, find?_eq]
  rfl

/-! ### Calls -/

/-- Without the index, a call puts its type into a table. -/
@[simp] theorem table_change (indexed : IndexedTypes) (call : Registration)
    (hnew : call.type.name ∉ indexed.table.names) :
    (call.change indexed hnew).table = indexed.table.insert call.type call.beforeCatchAll hnew := by
  cases call <;> rfl

/-- A call fails and leaves list and index as they were, or its name is a proper one and new, and
its type is put among the others. -/
theorem perform_cases (indexed : IndexedTypes) (call : Registration) :
    (∃ failure, indexed.table.refusal? call.type.name = some failure ∧
      call.perform.on indexed = (.error failure, indexed)) ∨
    (TypeName.fault? call.type.name = none ∧ ∃ hnew,
      call.perform.on indexed = (.ok (), call.change indexed hnew)) := by
  rw [Registration.perform, InPlace.on_bind, InPlace.on_get, InPlace.resume]
  split
  · next failure hrefusal =>
    rw [refusal?_eq] at hrefusal
    exact Or.inl ⟨failure, hrefusal, rfl⟩
  · next hrefusal =>
    rw [refusal?_eq] at hrefusal
    obtain ⟨hproper, hnew⟩ := (indexed.table.refusal?_eq_none_iff _).mp hrefusal
    exact Or.inr ⟨hproper, hnew, rfl⟩

/-- The names are those that types may have. -/
def IsProper (indexed : IndexedTypes) : Prop :=
  ∀ name ∈ indexed.table.names, TypeName.fault? name = none

theorem IsProper.on_perform {indexed : IndexedTypes} (hproper : indexed.IsProper)
    (call : Registration) : (call.perform.on indexed).2.IsProper := by
  rcases indexed.perform_cases call with ⟨failure, -, hperform⟩ | ⟨hname, hnew, hperform⟩
  · rw [hperform]
    exact hproper
  · rw [hperform]
    intro name hmem
    rw [table_change, TypeTable.mem_names_insert] at hmem
    rcases hmem with rfl | hold
    · exact hname
    · exact hproper name hold

/-- Whatever calls are made, all names are proper ones. -/
theorem isProper_after (withKinds : Bool) (calls : List Registration) :
    (after withKinds calls).IsProper := by
  induction calls using List.reverseRecOn with
  | nil =>
    cases withKinds with
    | true =>
      unfold IsProper
      decide
    | false => exact fun _ hmem ↦ absurd hmem List.not_mem_nil
  | append_singleton calls call ih =>
    rw [after, List.foldl_append]
    exact ih.on_perform call

/-! ### What the list alone answers -/

/-- Lookups answer what scans of the list find, and the index leads to no other place. The wildcard
stands for every value and has the last rank, and a value is classified by the first type that
accepts it. -/
structure AnswersByScan (indexed : IndexedTypes) : Prop where
  place?_eq : ∀ name, indexed.place? name = indexed.types.findIdx? (·.name == name)
  getElem?_place : ∀ name place, indexed.place? name = some place →
    ∃ type, indexed.types[place]? = some type ∧ type.name = name
  find?_eq : ∀ name, indexed.find? name = indexed.types.find? (·.name == name)
  contains_iff : ∀ name, indexed.contains name = true ↔
    name = wildcard ∨ ∃ type ∈ indexed.types, type.name = name
  test_wildcard : indexed.test wildcard = .ok fun _ ↦ true
  test_eq : ∀ name, name ≠ wildcard → indexed.test name =
    match indexed.types.find? (·.name == name) with
    | some type => .ok type.accepts
    | none => .error (.unknownType name (Text.nearest name (indexed.types.map ValueType.name)))
  level_wildcard : (indexed.rank wildcard).level = 2
  level_eq : ∀ name, name ≠ wildcard → (indexed.rank name).level =
    if (indexed.types.find? (·.name == name)).any (·.catchAll) then 1 else 0
  classify_first : ∀ before type after value, indexed.types = before ++ type :: after →
    (∀ earlier ∈ before, earlier.accepts value = false) → type.accepts value = true →
      indexed.classify value = type.name
  classify_none : ∀ value, (∀ type ∈ indexed.types, type.accepts value = false) →
    indexed.classify value = "unknown"

theorem answersByScan (indexed : IndexedTypes) : indexed.AnswersByScan where
  place?_eq := indexed.inStep
  getElem?_place name place hplace := by
    rw [place?, indexed.inStep, List.findIdx?_eq_some_iff_getElem] at hplace
    obtain ⟨hlt, hname, -⟩ := hplace
    exact ⟨_, List.getElem?_eq_getElem hlt, beq_iff_eq.mp hname⟩
  find?_eq := indexed.find?_eq
  contains_iff name := by
    simp [TypeTable.names, types]
  test_wildcard := rfl
  test_eq name hname := by
    rw [test_eq, TypeTable.test, if_neg hname]
    rfl
  level_wildcard := rfl
  level_eq name hname := by
    rw [rank_eq, TypeTable.rank, if_neg hname]
    change Rank.level (if (indexed.types.find? (·.name == name)).any (·.catchAll) then _ else _) = _
    split <;> rfl
  classify_first before type after value hsplit hrejects haccepts := by
    exact TypeTable.classify_of_first hsplit hrejects haccepts
  classify_none value hrejects := by
    have hnone : indexed.types.find? (·.accepts value) = none := by simpa using hrejects
    rw [types] at hnone
    rw [classify, TypeTable.classify, hnone]

/-- A call succeeds exactly if the name is a proper one and new. Then the new type stands at the
end, or after the types before the first catch-all type, and changes only how values are classified
that it accepts and no type before it does. A call that fails changes nothing. -/
structure Settles (indexed : IndexedTypes) (call : Registration) : Prop where
  succeeds_iff : (call.perform.on indexed).1 = .ok () ↔
    TypeName.fault? call.type.name = none ∧ call.type.name ∉ indexed.table.names
  placed : (call.perform.on indexed).1 = .ok () → ∃ before after,
    indexed.types = before ++ after ∧
    (call.perform.on indexed).2.types = before ++ call.type :: after ∧
    (call.beforeCatchAll = false → after = []) ∧
    (call.beforeCatchAll = true → (∀ earlier ∈ before, earlier.catchAll = false) ∧
      ∀ next ∈ after.head?, next.catchAll = true) ∧
    ∀ value, (call.perform.on indexed).2.classify value =
      if (∀ earlier ∈ before, earlier.accepts value = false) ∧
          call.type.accepts value = true then
        call.type.name
      else indexed.classify value
  unchanged : ∀ failure, (call.perform.on indexed).1 = .error failure →
    (call.perform.on indexed).2 = indexed

theorem settles (indexed : IndexedTypes) (call : Registration) : indexed.Settles call := by
  rcases indexed.perform_cases call with ⟨failure, hrefusal, hperform⟩ | ⟨hname, hnew, hperform⟩
  · have hrefused : ¬ (TypeName.fault? call.type.name = none ∧
        call.type.name ∉ indexed.table.names) := by
      rw [← TypeTable.refusal?_eq_none_iff, hrefusal]
      exact nofun
    refine ⟨?_, ?_, ?_⟩
    · rw [hperform]
      exact iff_of_false nofun hrefused
    · rw [hperform]
      exact nofun
    · rw [hperform]
      exact fun _ _ ↦ rfl
  · refine ⟨?_, ?_, ?_⟩
    · rw [hperform]
      exact iff_of_true rfl ⟨hname, hnew⟩
    · rw [hperform]
      intro _
      obtain ⟨before, after, hsplit, hresult, hend, hcatchAll⟩ :=
        indexed.table.exists_place_of_insert call.type call.beforeCatchAll hnew
      rw [← table_change] at hresult
      exact ⟨before, after, hsplit, hresult, hend, hcatchAll,
        TypeTable.classify_insert hsplit hresult⟩
    · rw [hperform]
      exact nofun

/-- Whatever calls were made, those that failed included: no two types have one name, all names are
proper ones, every lookup answers what a scan of the list finds, and the next call puts its type in
its place or changes nothing. -/
theorem index_stays_in_step (withKinds : Bool) (calls : List Registration) :
    (after withKinds calls).table.names.Nodup ∧
      (∀ name ∈ (after withKinds calls).table.names, TypeName.fault? name = none) ∧
      (after withKinds calls).AnswersByScan ∧
      ∀ call, (after withKinds calls).Settles call := by
  exact ⟨(after withKinds calls).table.nodup, isProper_after withKinds calls,
    answersByScan _, settles _⟩

/-- A type before the catch-all type, a name that is taken, a name that no type may have, and a type
at the end. -/
def mixedCalls : List Registration :=
  [.add ⟨"Date", (·.kind == .number), false⟩ true, .register ⟨"Object", fun _ ↦ true, false⟩,
    .add ⟨"a b", fun _ ↦ true, false⟩ false, .register ⟨"Last", fun _ ↦ true, false⟩]

/-- Two of the calls fail; the types that the other two put in their places are found there. -/
theorem index_stays_in_step_mixed :
    (after true mixedCalls).table.names = ["number", "string", "boolean", "Array", "null",
      "undefined", "Date", "Object", "Last"] ∧
    (after true mixedCalls).place? "Object" = some 7 ∧
    (after true mixedCalls).find? "Object" =
      (after true mixedCalls).types.find? (·.name == "Object") :=
  ⟨by decide, by decide, (index_stays_in_step true mixedCalls).2.2.1.find?_eq "Object"⟩

end IndexedTypes

end Multimethod
