import Multimethod.Proofs.Collecting

/-!
# Expanding methods into clauses

`remaining` lists what is left of the methods of a table without the ignored types: a method is
dropped when one of its slots allows ignored types only. The names in the patterns of a signature
are exactly the names in its slots (`exists_pattern_uses_iff`).

The clauses of a table with keys in normal form are those of the remaining methods, if their
patterns have different keys (`clauses_eq_ok_iff`); otherwise the first repeated key is reported
(`clauses_eq_error_iff`).
-/

set_option autoImplicit false
set_option relaxedAutoImplicit false

namespace Multimethod

/-! ### Names in patterns -/

theorem exists_of_mem_choices {slots : List Alternatives} {names : List String} {name : String}
    (hchoice : names ∈ choices slots) (hname : name ∈ names) :
    ∃ alternatives ∈ slots, name ∈ alternatives.names := by
  induction slots generalizing names with
  | nil =>
    rw [List.mem_singleton.mp hchoice] at hname
    exact absurd hname List.not_mem_nil
  | cons alternatives slots ih =>
    obtain ⟨first, hfirst, hrest⟩ := List.mem_flatMap.mp hchoice
    obtain ⟨others, hothers, rfl⟩ := List.mem_map.mp hrest
    rcases List.mem_cons.mp hname with rfl | hlater
    · exact ⟨alternatives, List.mem_cons_self, hfirst⟩
    · obtain ⟨found, hfound, hmem⟩ := ih hothers hlater
      exact ⟨found, List.mem_cons_of_mem _ hfound, hmem⟩

theorem exists_mem_choices (slots : List Alternatives) : ∃ names, names ∈ choices slots := by
  induction slots with
  | nil => exact ⟨[], List.mem_singleton_self _⟩
  | cons alternatives slots ih =>
    obtain ⟨first, hfirst⟩ := List.exists_mem_of_ne_nil _ alternatives.nonempty
    obtain ⟨names, hnames⟩ := ih
    exact ⟨first :: names,
      List.mem_flatMap.mpr ⟨first, hfirst, List.mem_map.mpr ⟨names, hnames, rfl⟩⟩⟩

/-- Every alternative is in a choice. -/
theorem exists_mem_choices_of_mem {slots : List Alternatives} {alternatives : Alternatives}
    (hslot : alternatives ∈ slots) {name : String} (hname : name ∈ alternatives.names) :
    ∃ names ∈ choices slots, name ∈ names := by
  induction slots with
  | nil => exact absurd hslot List.not_mem_nil
  | cons first slots ih =>
    rcases List.mem_cons.mp hslot with rfl | hlater
    · obtain ⟨names, hnames⟩ := exists_mem_choices slots
      exact ⟨name :: names,
        List.mem_flatMap.mpr ⟨name, hname, List.mem_map.mpr ⟨names, hnames, rfl⟩⟩,
        List.mem_cons_self⟩
    · obtain ⟨names, hnames, hmem⟩ := ih hlater
      obtain ⟨start, hstart⟩ := List.exists_mem_of_ne_nil _ first.nonempty
      exact ⟨start :: names,
        List.mem_flatMap.mpr ⟨start, hstart, List.mem_map.mpr ⟨names, hnames, rfl⟩⟩,
        List.mem_cons_of_mem _ hmem⟩

@[simp] theorem Pattern.uses_eq_true_iff (name : String) (pattern : Pattern) :
    pattern.uses name = true ↔
      name ∈ pattern.fixed ∨ ∃ alternatives ∈ pattern.rest, name ∈ alternatives.names := by
  obtain ⟨fixed, rest⟩ := pattern
  cases rest with
  | none => simp [uses]
  | some alternatives => simp [uses]

/-- The patterns of a signature use the names in its slots. -/
theorem exists_pattern_uses_iff (signature : Signature) (name : String) :
    (∃ pattern ∈ signature.patterns, pattern.uses name = true) ↔
      ∃ slot ∈ signature.slots, name ∈ slot.alternatives.names := by
  constructor
  · rintro ⟨pattern, hpattern, huses⟩
    obtain ⟨names, hnames, rfl⟩ := List.mem_map.mp hpattern
    rcases (Pattern.uses_eq_true_iff name _).mp huses with hname | ⟨alternatives, hrest, hname⟩
    · obtain ⟨alternatives, hmem, hname⟩ := exists_of_mem_choices hnames hname
      exact ⟨⟨alternatives, false⟩, List.mem_append_left _ (List.mem_map_of_mem hmem), hname⟩
    · exact ⟨⟨alternatives, true⟩, List.mem_append_right _
        (List.mem_map_of_mem (Option.mem_toList.mpr hrest)), hname⟩
  · rintro ⟨slot, hslot, hname⟩
    rcases List.mem_append.mp hslot with hsingle | hrepeated
    · obtain ⟨alternatives, hmem, rfl⟩ := List.mem_map.mp hsingle
      obtain ⟨names, hnames, hin⟩ := exists_mem_choices_of_mem hmem hname
      exact ⟨⟨names, signature.rest⟩, List.mem_map_of_mem hnames,
        (Pattern.uses_eq_true_iff name _).mpr (Or.inl hin)⟩
    · obtain ⟨alternatives, hmem, rfl⟩ := List.mem_map.mp hrepeated
      obtain ⟨names, hnames⟩ := exists_mem_choices signature.fixed
      exact ⟨⟨names, signature.rest⟩, List.mem_map_of_mem hnames,
        (Pattern.uses_eq_true_iff name _).mpr
          (Or.inr ⟨alternatives, Option.mem_toList.mp hmem, hname⟩)⟩

/-! ### Clauses with different keys -/

/-- The keys of clauses. -/
def clauseKeys (clauses : List Clause) : List String :=
  clauses.map (·.pattern.key)

/-- The first key that repeats an earlier one. -/
def FirstRepeated (keys : List String) (key : String) : Prop :=
  ∃ before after, keys = before ++ key :: after ∧ before.Nodup ∧ key ∈ before

theorem FirstRepeated.not_nodup {keys : List String} {key : String}
    (hrepeated : FirstRepeated keys key) : ¬ keys.Nodup := by
  obtain ⟨before, after, rfl, -, hmem⟩ := hrepeated
  intro hnodup
  exact (List.nodup_append.mp hnodup).2.2 key hmem key List.mem_cons_self rfl

@[simp] theorem addTo_eq_error_iff {clauses : List Clause} {clause : Clause} {failure : Failure} :
    Clause.addTo clauses clause = .error failure ↔
      clause.pattern.key ∈ clauseKeys clauses ∧
        failure = .duplicateSignature clause.pattern.key := by
  unfold Clause.addTo
  by_cases htaken : clauses.any (·.pattern.key == clause.pattern.key) = true
  · have hmem : clause.pattern.key ∈ clauseKeys clauses := by simpa [clauseKeys] using htaken
    rw [if_pos htaken, Except.error.injEq, eq_comm, and_iff_right hmem]
  · have hnot : clause.pattern.key ∉ clauseKeys clauses := by simpa [clauseKeys] using htaken
    rw [if_neg htaken]
    simp [hnot]

@[simp] theorem addTo_eq_ok_iff {clauses changed : List Clause} {clause : Clause} :
    Clause.addTo clauses clause = .ok changed ↔
      clause.pattern.key ∉ clauseKeys clauses ∧ changed = clauses ++ [clause] := by
  unfold Clause.addTo
  by_cases htaken : clauses.any (·.pattern.key == clause.pattern.key) = true
  · have hmem : clause.pattern.key ∈ clauseKeys clauses := by simpa [clauseKeys] using htaken
    rw [if_pos htaken]
    simp [hmem]
  · have hnot : clause.pattern.key ∉ clauseKeys clauses := by simpa [clauseKeys] using htaken
    rw [if_neg htaken, Except.ok.injEq, eq_comm, and_iff_right hnot]

/-- Clauses can be put together exactly if their keys are different. -/
@[simp] theorem foldlM_clauseAddTo_eq_ok_iff {clauses result : List Clause} :
    clauses.foldlM Clause.addTo [] = .ok result ↔
      (clauseKeys clauses).Nodup ∧ result = clauses := by
  induction clauses using List.reverseRecOn generalizing result with
  | nil =>
    constructor
    · intro hempty
      exact ⟨List.nodup_nil, (Except.ok.inj hempty).symm⟩
    · rintro ⟨-, rfl⟩
      rfl
  | append_singleton before clause ih =>
    have hkeys : (clauseKeys (before ++ [clause])).Nodup ↔
        (clauseKeys before).Nodup ∧ clause.pattern.key ∉ clauseKeys before :=
      nodup_map_concat_iff
    simp [ih, hkeys, and_assoc]

/-- Otherwise the first repeated key is reported. -/
theorem foldlM_clauseAddTo_eq_error_iff {clauses : List Clause} {failure : Failure} :
    clauses.foldlM Clause.addTo [] = .error failure ↔
      ∃ key, FirstRepeated (clauseKeys clauses) key ∧ failure = .duplicateSignature key := by
  rw [foldlM_eq_error_iff]
  simp only [foldlM_clauseAddTo_eq_ok_iff, addTo_eq_error_iff]
  constructor
  · rintro ⟨before, clause, after, now, rfl, ⟨hnodup, rfl⟩, hmem, hfailure⟩
    refine ⟨_, ⟨clauseKeys now, clauseKeys after, ?_, hnodup, hmem⟩, hfailure⟩
    rw [clauseKeys, List.map_append, List.map_cons]
    rfl
  · rintro ⟨key, ⟨firstKeys, lastKeys, hsplit, hnodup, hmem⟩, hfailure⟩
    obtain ⟨before, others, rfl, rfl, hothers⟩ := List.map_eq_append_iff.mp hsplit
    obtain ⟨clause, after, rfl, rfl, -⟩ := List.map_eq_cons_iff.mp hothers
    exact ⟨before, clause, after, before, rfl, ⟨hnodup, rfl⟩, hmem, hfailure⟩

/-! ### The clauses of a table -/

/-- What is left of methods without the ignored types. -/
def remaining (ignored : List String) (methods : List (String × Implementation)) : List Method :=
  methods.filterMap fun method ↦
    (Method.parse method.1 method.2).toOption.bind (Method.without ignored)

/-- A method that can be read is expanded into the clauses of what is left of it. -/
theorem addClauses_eq {ignored : List String} {method : String × Implementation}
    {signature : Signature} (hparse : Signature.parse method.1 = .ok signature)
    (clauses : List Clause) :
    MethodTable.addClauses ignored clauses method =
      ((remaining ignored [method]).flatMap Method.clauses).foldlM Clause.addTo clauses := by
  have hread : Method.parse method.1 method.2 = .ok ⟨signature, method.2⟩ := by
    rw [Method.parse, hparse]
    rfl
  have hremaining : remaining ignored [method] =
      (Method.without ignored ⟨signature, method.2⟩).toList := by
    have hbind : (Method.parse method.1 method.2).toOption.bind (Method.without ignored) =
        Method.without ignored ⟨signature, method.2⟩ := by
      rw [hread]
      rfl
    rw [remaining, List.filterMap_cons, hbind]
    cases Method.without ignored ⟨signature, method.2⟩ <;> rfl
  rw [hremaining, MethodTable.addClauses, hread]
  dsimp only [bind, Except.bind]
  cases Method.without ignored ⟨signature, method.2⟩ with
  | none => rfl
  | some kept => rw [Option.toList_some, List.flatMap_singleton]

theorem foldlM_addClauses_eq {ignored : List String} {methods : List (String × Implementation)}
    (hread : ∀ method ∈ methods, ∃ signature, Signature.parse method.1 = .ok signature)
    (clauses : List Clause) :
    methods.foldlM (MethodTable.addClauses ignored) clauses =
      ((remaining ignored methods).flatMap Method.clauses).foldlM Clause.addTo clauses := by
  induction methods generalizing clauses with
  | nil => rfl
  | cons method methods ih =>
    obtain ⟨signature, hparse⟩ := hread method List.mem_cons_self
    have hsplit : remaining ignored (method :: methods) =
        remaining ignored [method] ++ remaining ignored methods := by
      rw [remaining, ← List.singleton_append, List.filterMap_append]
      rfl
    rw [List.foldlM_cons, addClauses_eq hparse, hsplit, List.flatMap_append, List.foldlM_append]
    congr 1
    funext changed
    exact ih (fun other hmem ↦ hread other (List.mem_cons_of_mem _ hmem)) changed

namespace MethodTable

/-- Keys in normal form can be read. -/
theorem IsNormal.exists_parse {table : MethodTable} (hnormal : table.IsNormal) :
    ∀ method ∈ table.methods, ∃ signature, Signature.parse method.1 = .ok signature := by
  intro method hmem
  obtain ⟨signature, hparse, -⟩ := Signature.normalForm_eq_ok_iff.mp (hnormal method hmem)
  exact ⟨signature, hparse⟩

/-- The clauses that a table is to have. -/
def expansion (ignored : List String) (table : MethodTable) : List Clause :=
  (remaining ignored table.methods).flatMap Method.clauses

/-- Keys are read before their clauses are made. -/
theorem exists_parse_of_clauses {ignored : List String} {table : MethodTable}
    {clauses : List Clause} (hclauses : table.clauses ignored = .ok clauses) :
    ∀ method ∈ table.methods, ∃ signature, Signature.parse method.1 = .ok signature := by
  intro method hmem
  obtain ⟨now, next, hnext⟩ := exists_ok_of_mem_foldlM hclauses hmem
  obtain ⟨read, hread, -⟩ := bind_eq_ok_iff.mp hnext
  obtain ⟨signature, hparse, -⟩ := map_eq_ok_iff.mp hread
  exact ⟨signature, hparse⟩

theorem clauses_eq_ok_iff {ignored : List String} {table : MethodTable} (hnormal : table.IsNormal)
    (result : List Clause) :
    table.clauses ignored = .ok result ↔
      (clauseKeys (table.expansion ignored)).Nodup ∧ result = table.expansion ignored := by
  rw [MethodTable.clauses, foldlM_addClauses_eq hnormal.exists_parse, foldlM_clauseAddTo_eq_ok_iff]
  rfl

theorem clauses_eq_error_iff {ignored : List String} {table : MethodTable}
    (hnormal : table.IsNormal) (failure : Failure) :
    table.clauses ignored = .error failure ↔
      ∃ key, FirstRepeated (clauseKeys (table.expansion ignored)) key ∧
        failure = .duplicateSignature key := by
  rw [MethodTable.clauses, foldlM_addClauses_eq hnormal.exists_parse,
    foldlM_clauseAddTo_eq_error_iff]
  rfl

end MethodTable

end Multimethod
