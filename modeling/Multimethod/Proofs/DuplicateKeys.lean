import Multimethod.Proofs.SharedBeginnings

/-!
# Two ways to find duplicates

Expanding methods into clauses refuses a key that came before, and building a tree refuses a clause
whose place is taken. Both find the same duplicates (`duplicates_agree`): normal patterns have one
key exactly if their written slots are the same and their last slots are both repeated or both not,
which is to say that they have one place in a tree. So a tree is built exactly if all keys are
different, the failure is that of the first repeated key in both cases, and no tree fails that is
built from the clauses of a table (`exists_ofClauses_of_clauses`).

A place can be taken only at the end of a way. No leaf stands in the middle of one, because all the
clauses of a group have equally many slots.
-/

set_option autoImplicit false
set_option relaxedAutoImplicit false

namespace Multimethod

/-! ### Patterns and their keys -/

theorem FirstRepeated.unique {keys : List String} {key other : String}
    (hkey : FirstRepeated keys key) (hother : FirstRepeated keys other) : key = other := by
  obtain ⟨before, after, rfl, hnodup, hmem⟩ := hkey
  obtain ⟨start, rest, hsplit, hdistinct, hearlier⟩ := hother
  -- If one of the two came first, it would be repeated within the keys before the other.
  rcases List.append_eq_append_iff.mp hsplit with ⟨middle, rfl, hcons⟩ | ⟨middle, rfl, hcons⟩
  · cases middle with
    | nil => exact (List.cons.inj hcons).1
    | cons first middle =>
      obtain ⟨rfl, -⟩ := List.cons.inj hcons
      exact ((List.nodup_append.mp hdistinct).2.2 key hmem key List.mem_cons_self rfl).elim
  · cases middle with
    | nil => exact (List.cons.inj hcons).1.symm
    | cons first middle =>
      obtain ⟨rfl, -⟩ := List.cons.inj hcons
      exact ((List.nodup_append.mp hnodup).2.2 other hearlier other List.mem_cons_self rfl).elim

namespace Tree

/-! ### Failures -/

/-- Building a tree fails exactly with the first repeated key. -/
theorem ofClauses_eq_error_iff {clauses : List Clause}
    (hclauses : ∀ clause ∈ clauses, clause.pattern.IsNormal) (failure : Failure) :
    ofClauses clauses = .error failure ↔
      ∃ key, FirstRepeated (clauseKeys clauses) key ∧ failure = .duplicateSignature key := by
  have hrepeated : ∀ found, ofClauses clauses = .error found →
      ∃ key, FirstRepeated (clauseKeys clauses) key ∧ found = .duplicateSignature key := by
    intro found herror
    obtain ⟨before, clause, after, now, rfl, hnow, hinsert⟩ := foldlM_eq_error_iff.mp herror
    obtain ⟨rfl, other, hother, hpattern⟩ := insert_eq_error (represents_ofClauses hnow) hinsert
    rw [List.forall_mem_append] at hclauses
    refine ⟨_, ⟨clauseKeys before, clauseKeys after, ?_, ?_, ?_⟩, rfl⟩
    · rw [clauseKeys, List.map_append, List.map_cons]
      rfl
    · exact (nodup_clauseKeys_iff hclauses.1).mpr (nodup_of_ofClauses hnow)
    · rw [← hpattern]
      exact List.mem_map_of_mem hother
  refine ⟨hrepeated failure, ?_⟩
  rintro ⟨key, hkey, rfl⟩
  have hnot : ¬ (clauses.map Clause.pattern).Nodup := fun hnodup ↦
    hkey.not_nodup ((nodup_clauseKeys_iff hclauses).mpr hnodup)
  obtain ⟨found, herror⟩ := (exists_ofClauses_error_iff clauses).mpr hnot
  obtain ⟨other, hother, rfl⟩ := hrepeated found herror
  rw [herror, hkey.unique hother]

/-- No way of a clause goes through a leaf of a tree. -/
theorem descend?_ne_leaf {clauses : List Clause}
    (hclauses : ∀ clause ∈ clauses, clause.pattern.IsNormal) {tree : Tree}
    (htree : ofClauses clauses = .ok tree) {clause : Clause} {node : Node}
    (hnode : tree.group? clause.pattern.arity = some node) {beginning later : List String}
    (hway : clause.pattern.slotTexts = beginning ++ later) (hlater : later ≠ []) (other : Clause) :
    node.descend? beginning ≠ some (.leaf other) := by
  rw [group?, lookup_eq_some_iff_mem (represents_ofClauses htree).nodup_arities] at hnode
  have hshares := sharesBeginnings_of_mem_groups hclauses htree hnode
  rw [ne_eq, Node.descend?_eq_some_iff hshares.nodup_keys]
  intro hleads
  have hlength := (hshares.depth beginning _ hleads).2.mpr ⟨other, rfl⟩
  have hslots := clause.pattern.length_slotTexts
  rw [hway, List.length_append, ← hlength] at hslots
  exact hlater (List.length_eq_zero_iff.mp (by omega))

end Tree

/-! ### The clauses of a table -/

theorem nodup_clauseKeys_of_addTo {clauses changed more : List Clause}
    (hnodup : (clauseKeys clauses).Nodup)
    (hadd : more.foldlM Clause.addTo clauses = .ok changed) : (clauseKeys changed).Nodup := by
  refine foldlM_ok_induction (motive := fun _ now ↦ (clauseKeys now).Nodup) hnodup
    (fun _ clause now next hnow hnext ↦ ?_) hadd
  obtain ⟨hnew, rfl⟩ := addTo_eq_ok_iff.mp hnext
  exact nodup_map_concat_iff.mpr ⟨hnow, hnew⟩

namespace MethodTable

/-- The clauses of a table have different keys. -/
theorem nodup_clauseKeys_of_clauses {ignored : List String} {table : MethodTable}
    {clauses : List Clause} (hclauses : table.clauses ignored = .ok clauses) :
    (clauseKeys clauses).Nodup := by
  have hempty : (clauseKeys []).Nodup := List.nodup_nil
  refine foldlM_ok_induction (motive := fun _ now ↦ (clauseKeys now).Nodup) hempty
    (fun _ method now next hnow hnext ↦ ?_) hclauses
  obtain ⟨read, -, hrest⟩ := bind_eq_ok_iff.mp hnext
  cases hwithout : read.without ignored with
  | none =>
    rw [hwithout] at hrest
    rw [← Except.ok.inj hrest]
    exact hnow
  | some kept =>
    rw [hwithout] at hrest
    exact nodup_clauseKeys_of_addTo hnow hrest

/-- A tree can be built from the clauses of a table. -/
theorem exists_ofClauses_of_clauses {ignored : List String} {table : MethodTable}
    {clauses : List Clause} (hclauses : table.clauses ignored = .ok clauses) :
    ∃ tree, Tree.ofClauses clauses = .ok tree := by
  have hnodup := nodup_clauseKeys_of_clauses hclauses
  rw [clauseKeys_eq_map] at hnodup
  exact Tree.exists_ofClauses hnodup.of_map

end MethodTable

/-! ### The two ways agree -/

/-- Clauses have one key exactly if their slots are written alike and their last slots are both
repeated or both not. Building a tree and putting clauses together fail for the same clauses and
with the same failure, which names the first key that repeats an earlier one; building never fails
with the clauses of a table, and no leaf is in the way of a clause. -/
theorem duplicates_agree :
    (∀ first second : Clause, first.FromText → second.FromText →
      (first.pattern.key = second.pattern.key ↔
        first.pattern.slotTexts = second.pattern.slotTexts ∧
          first.pattern.rest.isSome = second.pattern.rest.isSome)) ∧
    (∀ clauses : List Clause, (∀ clause ∈ clauses, clause.FromText) →
      ((∃ failure, Tree.ofClauses clauses = .error failure) ↔ ¬ (clauseKeys clauses).Nodup) ∧
      (∀ failure, Tree.ofClauses clauses = .error failure ↔
        ∃ key, FirstRepeated (clauseKeys clauses) key ∧ failure = .duplicateSignature key) ∧
      (∀ failure, Tree.ofClauses clauses = .error failure ↔
        clauses.foldlM Clause.addTo [] = .error failure) ∧
      ∀ tree, Tree.ofClauses clauses = .ok tree →
        ∀ (clause : Clause) (node : Node) (beginning later : List String),
          tree.group? clause.pattern.arity = some node →
          clause.pattern.slotTexts = beginning ++ later → later ≠ [] →
          ∀ other, node.descend? beginning ≠ some (.leaf other)) ∧
    ∀ (ignored : List String) (table : MethodTable) (clauses : List Clause),
      table.clauses ignored = .ok clauses → ∃ tree, Tree.ofClauses clauses = .ok tree := by
  refine ⟨fun first second hfirst hsecond ↦ ?_, fun clauses hclauses ↦ ?_,
    fun ignored table clauses ↦ MethodTable.exists_ofClauses_of_clauses⟩
  · exact Pattern.key_eq_key_iff (first.fromText_iff.mp hfirst) (second.fromText_iff.mp hsecond)
  · have hnormal : ∀ clause ∈ clauses, clause.pattern.IsNormal :=
      fun clause hclause ↦ clause.fromText_iff.mp (hclauses clause hclause)
    have herror := Tree.ofClauses_eq_error_iff hnormal
    refine ⟨?_, herror, fun failure ↦ ?_, fun tree htree clause node beginning later hnode ↦
      Tree.descend?_ne_leaf hnormal htree hnode⟩
    · rw [Tree.exists_ofClauses_error_iff, nodup_clauseKeys_iff hnormal]
    · rw [herror, foldlM_clauseAddTo_eq_error_iff]

/-- Names of one dot, whose keys are made of dots only, and the first of them once more. -/
def dotted : List Clause :=
  [⟨⟨["."], none⟩, ⟨0, fun _ ↦ .ok .null⟩⟩, ⟨⟨[], some (.single ".")⟩, ⟨1, fun _ ↦ .ok .null⟩⟩,
    ⟨⟨[], some (.mk ["..", "."])⟩, ⟨2, fun _ ↦ .ok .null⟩⟩, ⟨⟨["."], none⟩, ⟨3, fun _ ↦ .ok .null⟩⟩]

/-- The keys of the first three clauses are `.`, `....` and `..|....`, and only the fourth clause is
a duplicate. -/
theorem duplicates_agree_dotted :
    (∀ clause ∈ dotted, clause.FromText) ∧
    clauseKeys dotted = [".", "....", "..|....", "."] ∧
    Tree.ofClauses dotted = .error (.duplicateSignature ".") ∧
    dotted.foldlM Clause.addTo [] = .error (.duplicateSignature ".") := by
  have hclauses : ∀ clause ∈ dotted, clause.FromText := by
    simp only [dotted, List.forall_mem_cons, List.not_mem_nil, false_implies, implies_true,
      and_true]
    exact ⟨⟨".", _, rfl, List.mem_singleton_self _⟩, ⟨"....", _, rfl, List.mem_singleton_self _⟩,
      ⟨"..|....", _, rfl, List.mem_singleton_self _⟩, ⟨".", _, rfl, List.mem_singleton_self _⟩⟩
  have hkeys : clauseKeys dotted = [".", "....", "..|....", "."] := by decide
  have herror : Tree.ofClauses dotted = .error (.duplicateSignature ".") := by
    refine ((duplicates_agree.2.1 dotted hclauses).2.1 _).mpr ⟨".", ?_, rfl⟩
    exact ⟨[".", "....", "..|...."], [], hkeys, by decide, by decide⟩
  exact ⟨hclauses, hkeys, herror, ((duplicates_agree.2.1 dotted hclauses).2.2.1 _).mp herror⟩

end Multimethod
