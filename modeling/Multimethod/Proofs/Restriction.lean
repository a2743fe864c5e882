import Multimethod.Proofs.Pieces

/-!
# Ignored types

Types can be dropped from the slots of a signature before it is taken apart into clauses, or the
clauses can be filtered afterwards. Both give the same (`Method.clauses_of_restrict`), because a
filter commutes with the choices of alternatives (`choices_of_keep?`): a clause stays if the types
of all its single arguments stay, and its repeated slot, which is never taken apart, keeps what is
left of it. Nothing at all is left exactly if a slot has no alternative that stays
(`restrict_eq_none_iff`).

So the clauses of a table are the clauses of its texts, filtered one by one
(`MethodTable.expansion_eq_filterMap`), and none of them uses an ignored type.
-/

set_option autoImplicit false
set_option relaxedAutoImplicit false

namespace Multimethod

/-! ### Choices among fewer alternatives -/

/-- The choices among the alternatives that stay are the choices of which every name stays. -/
theorem choices_of_keep? {keep : String → Bool} {slots kept : List Alternatives}
    (hkept : slots.mapM (Alternatives.keep? keep) = some kept) :
    choices kept = (choices slots).filter fun names ↦ names.all keep := by
  rw [mapM_eq_some_iff] at hkept
  induction hkept with
  | nil => rfl
  | cons hfirst _ ih =>
    rw [choices, choices, ih, ← Alternatives.keep?_eq_some_iff.mp hfirst, flatMap_filter,
      List.filter_flatMap]
    refine List.flatMap_congr fun name _ ↦ ?_
    rw [List.filter_map]
    cases hname : keep name with
    | true => simp only [if_pos, Function.comp_def, List.all_cons, hname, Bool.true_and]
    | false =>
      simp only [Function.comp_def, List.all_cons, hname, Bool.false_and, List.filter_false]
      rfl

/-! ### Signatures that are left -/

namespace Signature

/-- What is left of a signature is what is left of each of its slots. -/
theorem restrict_eq_some_iff {keep : String → Bool} {signature restricted : Signature} :
    signature.restrict keep = some restricted ↔
      signature.fixed.mapM (Alternatives.keep? keep) = some restricted.fixed ∧
        signature.rest.map (Alternatives.keep? keep) = restricted.rest.map some := by
  obtain ⟨fixed, rest⟩ := signature
  obtain ⟨left, last⟩ := restricted
  refine Option.bind_eq_some_iff.trans ?_
  constructor
  · rintro ⟨kept, hfixed, hwhole⟩
    cases rest with
    | none =>
      obtain ⟨rfl, rfl⟩ := Signature.mk.inj (Option.some.inj hwhole)
      exact ⟨hfixed, rfl⟩
    | some alternatives =>
      obtain ⟨found, hfound, hsame⟩ := Option.map_eq_some_iff.mp hwhole
      obtain ⟨rfl, rfl⟩ := Signature.mk.inj hsame
      exact ⟨hfixed, congrArg some hfound⟩
  · rintro ⟨hfixed, hrest⟩
    refine ⟨left, hfixed, ?_⟩
    cases rest with
    | none =>
      obtain rfl := Option.map_eq_none_iff.mp hrest.symm
      rfl
    | some alternatives =>
      obtain ⟨found, rfl, hfound⟩ := Option.map_eq_some_iff.mp hrest.symm
      exact Option.map_eq_some_iff.mpr ⟨found, hfound.symm, rfl⟩

/-- The repeated slot of what is left is what is left of the repeated slot. -/
theorem rest_of_restrict {keep : String → Bool} {signature restricted : Signature}
    (hrestrict : signature.restrict keep = some restricted) :
    restricted.rest = signature.rest.bind (Alternatives.keep? keep) := by
  obtain ⟨-, hrest⟩ := restrict_eq_some_iff.mp hrestrict
  have hjoined := congrArg (Option.bind · id) hrest
  simp only [Option.bind_map, Function.id_comp, Option.bind_fun_some] at hjoined
  exact hjoined.symm

/-- Nothing is left of a signature exactly if a slot has no alternative that stays. -/
theorem restrict_eq_none_iff {keep : String → Bool} {signature : Signature} :
    signature.restrict keep = none ↔
      ∃ slot ∈ signature.slots, ∀ name ∈ slot.alternatives.names, keep name = false := by
  have hsplit : signature.restrict keep = none ↔
      signature.fixed.mapM (Alternatives.keep? keep) = none ∨
        ∃ alternatives ∈ signature.rest, alternatives.keep? keep = none := by
    rw [restrict]
    cases signature.fixed.mapM (Alternatives.keep? keep) <;> cases signature.rest <;> simp
  simp [hsplit, slots, or_and_right, exists_or]

end Signature

/-! ### Clauses that are left -/

/-- What is left of a pattern. The types of all its single arguments have to stay. -/
def Pattern.restrict (keep : String → Bool) (pattern : Pattern) : Option Pattern :=
  if pattern.fixed.all keep && pattern.rest.all (·.names.any keep) then
    some ⟨pattern.fixed, pattern.rest.bind (Alternatives.keep? keep)⟩
  else
    none

/-- What is left of a clause without the ignored types. -/
def Clause.without (ignored : List String) (clause : Clause) : Option Clause :=
  (clause.pattern.restrict fun name ↦ !ignored.contains name).map
    fun pattern ↦ ⟨pattern, clause.implementation⟩

namespace Pattern

theorem restrict_eq_some_iff {keep : String → Bool} {pattern left : Pattern} :
    pattern.restrict keep = some left ↔
      ((∀ name ∈ pattern.fixed, keep name = true) ∧
        ∀ alternatives ∈ pattern.rest, ∃ name ∈ alternatives.names, keep name = true) ∧
      left = ⟨pattern.fixed, pattern.rest.bind (Alternatives.keep? keep)⟩ := by
  unfold restrict
  rw [Option.ite_none_right_eq_some, Option.some.injEq, Bool.and_eq_true, List.all_eq_true,
    Option.all_eq_true, eq_comm]
  simp only [List.any_eq_true, Option.mem_def]

/-- No dropped name is in what is left of a pattern. -/
theorem not_uses_of_restrict {keep : String → Bool} {pattern left : Pattern}
    (hleft : pattern.restrict keep = some left) {name : String} (hdropped : keep name = false) :
    left.uses name = false := by
  obtain ⟨⟨hfixed, -⟩, rfl⟩ := restrict_eq_some_iff.mp hleft
  by_contra huses
  rcases (uses_eq_true_iff name _).mp (Bool.not_eq_false _ ▸ huses) with
    hname | ⟨kept, hkept, hname⟩
  · exact ne_true_of_eq_false hdropped (hfixed name hname)
  · obtain ⟨alternatives, -, hkept⟩ := Option.bind_eq_some_iff.mp hkept
    rw [← Alternatives.keep?_eq_some_iff.mp hkept] at hname
    exact ne_true_of_eq_false hdropped (List.mem_filter.mp hname).2

end Pattern

/-- No ignored type is in what is left of a clause. -/
theorem Clause.not_uses_of_without {ignored : List String} {clause left : Clause}
    (hleft : clause.without ignored = some left) {name : String} (hignored : name ∈ ignored) :
    left.pattern.uses name = false := by
  obtain ⟨pattern, hpattern, rfl⟩ := Option.map_eq_some_iff.mp hleft
  refine Pattern.not_uses_of_restrict hpattern ?_
  rw [List.contains_iff_mem.mpr hignored, Bool.not_true]

namespace Signature

/-- The patterns of what is left of a signature are those of which the types of all single arguments
stay. -/
theorem patterns_of_restrict {keep : String → Bool} {signature restricted : Signature}
    (hrestrict : signature.restrict keep = some restricted) :
    restricted.patterns =
      (signature.patterns.filter fun pattern ↦ pattern.fixed.all keep).map fun pattern ↦
        ⟨pattern.fixed, pattern.rest.bind (Alternatives.keep? keep)⟩ := by
  obtain ⟨hfixed, -⟩ := restrict_eq_some_iff.mp hrestrict
  rw [patterns, choices_of_keep? hfixed, rest_of_restrict hrestrict, patterns, List.filter_map,
    List.map_map]
  rfl

theorem any_rest_of_restrict {keep : String → Bool} {signature restricted : Signature}
    (hrestrict : signature.restrict keep = some restricted) :
    signature.rest.all (·.names.any keep) = true := by
  obtain ⟨-, hrest⟩ := restrict_eq_some_iff.mp hrestrict
  rw [Option.all_eq_true]
  intro alternatives hmem
  rw [Option.mem_def.mp hmem] at hrest
  obtain ⟨kept, -, hkept⟩ := Option.map_eq_some_iff.mp hrest.symm
  obtain ⟨name, hname⟩ := List.exists_mem_of_ne_nil _ kept.nonempty
  rw [← Alternatives.keep?_eq_some_iff.mp hkept.symm, List.mem_filter] at hname
  exact List.any_eq_true.mpr ⟨name, hname⟩

/-- A slot without an alternative that stays takes every pattern along. -/
theorem restrict_pattern_eq_none {keep : String → Bool} {signature : Signature}
    (hrestrict : signature.restrict keep = none) {pattern : Pattern}
    (hpattern : pattern ∈ signature.patterns) : pattern.restrict keep = none := by
  obtain ⟨slot, hslot, hdropped⟩ := restrict_eq_none_iff.mp hrestrict
  obtain ⟨names, hnames, rfl⟩ := List.mem_map.mp hpattern
  refine Option.eq_none_iff_forall_ne_some.mpr fun left hleft ↦ ?_
  obtain ⟨⟨hfixed, hrest⟩, -⟩ := Pattern.restrict_eq_some_iff.mp hleft
  rcases List.mem_append.mp hslot with hsingle | hrepeated
  · obtain ⟨alternatives, hmem, rfl⟩ := List.mem_map.mp hsingle
    obtain ⟨name, hname, hin⟩ :=
      exists_rel_of_mem_right ((mem_choices_iff _ names).mp hnames) hmem
    exact ne_true_of_eq_false (hdropped name hin) (hfixed name hname)
  · obtain ⟨alternatives, hmem, rfl⟩ := List.mem_map.mp hrepeated
    obtain ⟨name, hname, hkept⟩ := hrest alternatives (Option.mem_toList.mp hmem)
    exact ne_true_of_eq_false (hdropped name hname) hkept

/-- The patterns of what is left of a signature are what is left of its patterns. -/
theorem flatMap_restrict (keep : String → Bool) (signature : Signature) :
    (signature.restrict keep).toList.flatMap patterns =
      signature.patterns.filterMap (Pattern.restrict keep) := by
  cases hrestrict : signature.restrict keep with
  | none =>
    exact (List.filterMap_eq_nil_iff.mpr fun _ ↦ restrict_pattern_eq_none hrestrict).symm
  | some restricted =>
    have hone : ∀ pattern ∈ signature.patterns, pattern.restrict keep =
        if pattern.fixed.all keep then
          (some ∘ fun whole ↦ ⟨whole.fixed, whole.rest.bind (Alternatives.keep? keep)⟩) pattern
        else none := by
      intro pattern hpattern
      obtain ⟨names, -, rfl⟩ := List.mem_map.mp hpattern
      rw [Pattern.restrict, any_rest_of_restrict hrestrict, Bool.and_true]
      rfl
    rw [Option.toList_some, List.flatMap_singleton, patterns_of_restrict hrestrict,
      List.filterMap_congr hone, ← List.filterMap_filter, List.filterMap_eq_map]

end Signature

namespace Method

/-- The clauses of what is left of a method are those of which the types of all single arguments
stay. -/
theorem clauses_of_restrict {method : Method} {keep : String → Bool} {restricted : Signature}
    (hrestrict : method.signature.restrict keep = some restricted) :
    clauses ⟨restricted, method.implementation⟩ =
      (method.clauses.filter fun clause ↦ clause.pattern.fixed.all keep).map fun clause ↦
        ⟨⟨clause.pattern.fixed, clause.pattern.rest.bind (Alternatives.keep? keep)⟩,
          method.implementation⟩ := by
  rw [clauses, clauses, Signature.patterns_of_restrict hrestrict, List.filter_map, List.map_map,
    List.map_map]
  rfl

/-- The repeated slot of what is left of a method is written as its alternatives that stay. -/
theorem slotTexts_of_restrict {method : Method} {keep : String → Bool} {restricted : Signature}
    (hrestrict : method.signature.restrict keep = some restricted) {clause : Clause}
    (hclause : clause ∈ clauses ⟨restricted, method.implementation⟩) :
    clause.pattern.slotTexts = clause.pattern.fixed ++
      method.signature.rest.toList.map fun alternatives ↦
        "|".intercalate (alternatives.names.filter keep) := by
  obtain ⟨-, hrest⟩ := Signature.restrict_eq_some_iff.mp hrestrict
  obtain ⟨hpattern, -⟩ := (mem_clauses_iff _ clause).mp hclause
  obtain ⟨names, -, hnames⟩ := List.mem_map.mp hpattern
  have hlast : clause.pattern.rest = restricted.rest := congrArg Pattern.rest hnames.symm
  rw [Pattern.slotTexts, hlast]
  cases hsome : restricted.rest with
  | none =>
    rw [hsome] at hrest
    rw [Option.map_eq_none_iff.mp hrest]
    rfl
  | some kept =>
    rw [hsome] at hrest
    obtain ⟨alternatives, halternatives, hkept⟩ := Option.map_eq_some_iff.mp hrest
    rw [halternatives, Option.toList_some, Option.toList_some, List.map_singleton,
      List.map_singleton, Alternatives.keep?_eq_some_iff.mp hkept, Alternatives.text]

/-- The clauses of what is left of a method are what is left of its clauses. -/
theorem flatMap_without (ignored : List String) (method : Method) :
    (method.without ignored).toList.flatMap clauses =
      method.clauses.filterMap (Clause.without ignored) := by
  rw [without, Option.toList_map, List.flatMap_map]
  show (List.flatMap (fun signature : Signature ↦ signature.patterns.map fun pattern ↦
    Clause.mk pattern method.implementation) _) = _
  rw [← List.map_flatMap, Signature.flatMap_restrict, List.map_filterMap, clauses,
    List.filterMap_map]
  rfl

end Method

/-! ### Tables -/

namespace MethodTable

/-- The clauses of a table are what is left of the clauses of its texts, one by one. -/
theorem expansion_eq_filterMap (ignored : List String) (table : MethodTable) :
    table.expansion ignored =
      (table.methods.flatMap Offer.clauses).filterMap (Clause.without ignored) := by
  rw [expansion, remaining, List.filterMap_eq_flatMap_toList, List.flatMap_assoc,
    List.filterMap_flatMap]
  refine List.flatMap_congr fun offer _ ↦ ?_
  rw [Offer.clauses]
  cases Method.parse offer.1 offer.2 with
  | error failure => rfl
  | ok method => exact Method.flatMap_without ignored method

/-- A table has clauses exactly if its texts can be read and the keys of their clauses, without the
ignored types, are different. -/
theorem clauses_eq_ok_iff_filterMap (ignored : List String) (table : MethodTable)
    (clauses : List Clause) :
    table.clauses ignored = .ok clauses ↔
      (∀ method ∈ table.methods, ∃ signature, Signature.parse method.1 = .ok signature) ∧
        (clauseKeys clauses).Nodup ∧
          clauses = (table.methods.flatMap Offer.clauses).filterMap (Clause.without ignored) := by
  rw [← expansion_eq_filterMap]
  constructor
  · intro hclauses
    have hread := exists_parse_of_clauses hclauses
    rw [MethodTable.clauses, foldlM_addClauses_eq hread, foldlM_clauseAddTo_eq_ok_iff] at hclauses
    obtain ⟨hkeys, rfl⟩ := hclauses
    exact ⟨hread, hkeys, rfl⟩
  · rintro ⟨hread, hkeys, rfl⟩
    rw [MethodTable.clauses, foldlM_addClauses_eq hread, foldlM_clauseAddTo_eq_ok_iff]
    exact ⟨hkeys, rfl⟩

end MethodTable

/-- Dropping types before a signature is taken apart is the same as filtering afterwards. A
signature goes exactly if one of its slots has no alternative that stays. Otherwise its clauses are,
in order, those of the whole signature of which the types of all single arguments stay, with what is
left of the repeated slot. So the clauses of a table are the clauses of its texts, filtered in this
way, and no ignored type is in them. -/
theorem ignoring_filters_clauses :
    (∀ (method : Method) (keep : String → Bool),
      (method.signature.restrict keep = none ↔
        ∃ slot ∈ method.signature.slots, ∀ name ∈ slot.alternatives.names, keep name = false) ∧
      ∀ restricted, method.signature.restrict keep = some restricted →
        Method.clauses ⟨restricted, method.implementation⟩ =
          (method.clauses.filter fun clause ↦ clause.pattern.fixed.all keep).map (fun clause ↦
            ⟨⟨clause.pattern.fixed, clause.pattern.rest.bind (Alternatives.keep? keep)⟩,
              method.implementation⟩) ∧
        ∀ clause ∈ Method.clauses ⟨restricted, method.implementation⟩,
          clause.pattern.slotTexts = clause.pattern.fixed ++
            method.signature.rest.toList.map fun alternatives ↦
              "|".intercalate (alternatives.names.filter keep)) ∧
    ∀ (engine : Engine) (table : MethodTable) (clauses : List Clause),
      (table.clauses engine.ignored = .ok clauses ↔
        (∀ method ∈ table.methods, ∃ signature, Signature.parse method.1 = .ok signature) ∧
        (clauseKeys clauses).Nodup ∧
        clauses = (table.methods.flatMap Offer.clauses).filterMap
          (Clause.without engine.ignored)) ∧
      (table.clauses engine.ignored = .ok clauses →
        ∀ clause ∈ clauses, ∀ name ∈ engine.ignored, clause.pattern.uses name = false) := by
  refine ⟨fun method keep ↦ ⟨Signature.restrict_eq_none_iff, fun restricted hrestrict ↦
      ⟨Method.clauses_of_restrict hrestrict, fun _ ↦ Method.slotTexts_of_restrict hrestrict⟩⟩,
    fun engine table clauses ↦ ?_⟩
  have hclauses := table.clauses_eq_ok_iff_filterMap engine.ignored clauses
  refine ⟨hclauses, fun hok clause hclause name hname ↦ ?_⟩
  obtain ⟨-, -, rfl⟩ := hclauses.mp hok
  obtain ⟨whole, -, hleft⟩ := List.mem_filterMap.mp hclause
  exact Clause.not_uses_of_without hleft hname

/-- Three texts, with alternatives that are going to be ignored. -/
def withIgnorable : MethodTable where
  methods := [("number|null,string|null|Array...", several), ("null|undefined", single),
    ("null", single)]

/-- Without `null` the first text keeps one of its two clauses, the second text keeps one of its two
as well, and nothing is left of the third. -/
theorem ignoring_filters_clauses_null :
    withIgnorable.clauses ["null"] = .ok
      [⟨⟨["number"], some (.mk ["string", "Array"])⟩, several⟩, ⟨⟨["undefined"], none⟩, single⟩] ∧
    (Signature.mk [.mk ["number", "null"]] (some (.mk ["string", "null", "Array"]))).restrict
      (· != "null") = some ⟨[.single "number"], some (.mk ["string", "Array"])⟩ ∧
    (∀ clause ∈ Method.clauses ⟨⟨[.single "number"], some (.mk ["string", "Array"])⟩, several⟩,
      clause.pattern.slotTexts = clause.pattern.fixed ++ ["string|Array"]) ∧
    (Signature.mk [.single "null"] none).restrict (· != "null") = none := by
  obtain ⟨hsplit, htable⟩ := ignoring_filters_clauses
  have hread : ∀ method ∈ withIgnorable.methods,
      ∃ signature, Signature.parse method.1 = .ok signature := by
    simp only [withIgnorable, List.forall_mem_cons]
    exact ⟨⟨_, rfl⟩, ⟨_, rfl⟩, ⟨_, rfl⟩, List.forall_mem_nil _⟩
  have hwhole : (Signature.mk [.mk ["number", "null"]]
      (some (.mk ["string", "null", "Array"]))).restrict (· != "null") =
        some ⟨[.single "number"], some (.mk ["string", "Array"])⟩ := rfl
  refine ⟨?_, hwhole, ?_, ?_⟩
  · exact (htable { Engine.standard with ignored := ["null"] } withIgnorable _).1.mpr
      ⟨hread, by decide, rfl⟩
  · exact ((hsplit ⟨_, several⟩ _).2 _ hwhole).2
  · exact (hsplit ⟨_, single⟩ _).1.mpr
      ⟨⟨.single "null", false⟩, List.mem_singleton_self _, by decide⟩

end Multimethod
