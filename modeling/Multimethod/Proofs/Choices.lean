import Multimethod.Proofs.PatternKeys

/-!
# The order of choices

The choices of a signature are the ordered product of its slots. `places` lists the positions of one
alternative in every slot: in lexicographic order, where the first slot counts most
(`pairwise_places`), and each way of choosing is there (`mem_places_iff`). The choices are the names
at these positions, one by one (`forall₂_places_choices`). So there are as many of them as the
product of the numbers of alternatives (`length_choices`), and no choice comes twice
(`nodup_choices`).
-/

set_option autoImplicit false
set_option relaxedAutoImplicit false

namespace Multimethod

/-- The ways of taking one of so many positions for every slot, the first slot varying slowest. -/
def places : List Nat → List (List Nat)
  | [] => [[]]
  | count :: counts =>
    (List.range count).flatMap fun position ↦ (places counts).map fun later ↦ position :: later

/-- The names at some positions, one in every slot. -/
def namesAt (slots : List Alternatives) (way : List Nat) : List (Option String) :=
  List.zipWith (fun alternatives position ↦ alternatives.names[position]?) slots way

/-! ### Positions -/

/-- Each way of taking one of the positions of every slot is there. -/
@[simp] theorem mem_places_iff (counts way : List Nat) :
    way ∈ places counts ↔ List.Forall₂ (fun position count ↦ position < count) way counts := by
  induction counts generalizing way with
  | nil => rw [places, List.mem_singleton, List.forall₂_nil_right_iff]
  | cons count counts ih =>
    rw [places, List.mem_flatMap, List.forall₂_cons_right_iff]
    simp only [List.mem_range, List.mem_map, ih]
    constructor
    · rintro ⟨position, hposition, later, hlater, rfl⟩
      exact ⟨position, later, hposition, hlater, rfl⟩
    · rintro ⟨position, later, hposition, hlater, rfl⟩
      exact ⟨position, hposition, later, hlater, rfl⟩

/-- The ways are in lexicographic order, where the first slot counts most. -/
theorem pairwise_places (counts : List Nat) : (places counts).Pairwise (· < ·) := by
  induction counts with
  | nil => exact List.pairwise_singleton _ _
  | cons count counts ih =>
    rw [places, List.pairwise_flatMap]
    constructor
    · intro position _
      rw [List.pairwise_map]
      exact ih.imp fun hlater ↦ List.cons_lt_cons_iff.mpr (Or.inr ⟨rfl, hlater⟩)
    · refine List.pairwise_lt_range.imp fun hposition first hfirst second hsecond ↦ ?_
      obtain ⟨later, -, rfl⟩ := List.mem_map.mp hfirst
      obtain ⟨others, -, rfl⟩ := List.mem_map.mp hsecond
      exact List.cons_lt_cons_iff.mpr (Or.inl hposition)

/-! ### Names -/

/-- Each way of taking one name of every slot is a choice. -/
@[simp] theorem mem_choices_iff (slots : List Alternatives) (names : List String) :
    names ∈ choices slots ↔
      List.Forall₂ (fun name alternatives ↦ name ∈ alternatives.names) names slots := by
  induction slots generalizing names with
  | nil => rw [choices, List.mem_singleton, List.forall₂_nil_right_iff]
  | cons alternatives slots ih =>
    rw [choices, List.mem_flatMap, List.forall₂_cons_right_iff]
    simp only [List.mem_map, ih]
    constructor
    · rintro ⟨name, hname, later, hlater, rfl⟩
      exact ⟨name, later, hname, hlater, rfl⟩
    · rintro ⟨name, later, hname, hlater, rfl⟩
      exact ⟨name, hname, later, hlater, rfl⟩

/-- The choices are the names at the ways of choosing, one by one. -/
theorem forall₂_places_choices (slots : List Alternatives) :
    List.Forall₂ (fun way names ↦ names.map some = namesAt slots way)
      (places (slots.map (·.names.length))) (choices slots) := by
  induction slots with
  | nil => exact .cons rfl .nil
  | cons alternatives slots ih =>
    refine List.rel_flatMap (forall₂_range_getElem? alternatives.names) fun position name hname ↦ ?_
    rw [List.forall₂_map_left_iff, List.forall₂_map_right_iff]
    refine ih.imp fun later names hnames ↦ ?_
    rw [List.map_cons, hnames, ← hname]
    rfl

/-- There are as many choices as the product of the numbers of alternatives. -/
theorem length_choices (slots : List Alternatives) :
    (choices slots).length = (slots.map (·.names.length)).foldr (· * ·) 1 := by
  induction slots with
  | nil => rfl
  | cons alternatives slots ih =>
    simp only [choices, List.length_flatMap, List.length_map, List.map_const',
      List.sum_replicate_nat, ih, List.map_cons, List.foldr_cons]

/-- No choice comes twice if no alternative does. -/
theorem nodup_choices {slots : List Alternatives}
    (hslots : ∀ alternatives ∈ slots, alternatives.names.Nodup) : (choices slots).Nodup := by
  induction slots with
  | nil => exact List.nodup_singleton _
  | cons alternatives slots ih =>
    obtain ⟨hfirst, hlater⟩ := List.forall_mem_cons.mp hslots
    have hcons : ∀ name : String, Function.Injective fun names : List String ↦ name :: names :=
      fun _ _ _ hsame ↦ (List.cons.inj hsame).2
    refine List.nodup_flatMap.mpr ⟨fun name _ ↦ (ih hlater).map (hcons name), ?_⟩
    refine hfirst.imp fun hne names hnames hothers ↦ ?_
    obtain ⟨later, -, rfl⟩ := List.mem_map.mp hnames
    obtain ⟨others, -, hsame⟩ := List.mem_map.mp hothers
    exact hne (List.cons.inj hsame).1.symm

/-! ### Clauses -/

namespace Method

/-- A method has as many clauses as there are choices. -/
theorem length_clauses (method : Method) :
    method.clauses.length = method.signature.choiceCount := by
  rw [clauses, List.length_map, Signature.patterns, List.length_map, length_choices]
  rfl

theorem isNormal_of_mem_clauses {method : Method} (hnormal : method.signature.IsNormal)
    {clause : Clause} (hclause : clause ∈ method.clauses) : clause.pattern.IsNormal :=
  Pattern.isNormal_of_mem_patterns hnormal ((method.mem_clauses_iff clause).mp hclause).1

/-- The clauses of a method that was read have different patterns. -/
theorem nodup_patterns {method : Method} (hnormal : method.signature.IsNormal) :
    (method.clauses.map Clause.pattern).Nodup := by
  have hfixed : ∀ alternatives ∈ method.signature.fixed, alternatives.names.Nodup :=
    fun alternatives hmem ↦ (hnormal.of_mem_fixed hmem).nodup
  rw [clauses, List.map_map, Signature.patterns, List.map_map]
  refine (nodup_choices hfixed).map fun names others hsame ↦ ?_
  exact congrArg Pattern.fixed hsame

/-- The clauses of a method that was read have different keys. -/
theorem nodup_clauseKeys {method : Method} (hnormal : method.signature.IsNormal) :
    (clauseKeys method.clauses).Nodup :=
  (nodup_clauseKeys_iff fun _ ↦ isNormal_of_mem_clauses hnormal).mpr (nodup_patterns hnormal)

/-- The clauses of a method take the names at the ways of choosing, one by one. -/
theorem forall₂_places_clauses (method : Method) :
    List.Forall₂ (fun way clause ↦
        clause.pattern.fixed.map some = namesAt method.signature.fixed way)
      (places (method.signature.fixed.map (·.names.length))) method.clauses := by
  rw [clauses, Signature.patterns, List.map_map, List.forall₂_map_right_iff]
  exact forall₂_places_choices method.signature.fixed

end Method

end Multimethod
