import Multimethod.Proofs.Expansion
import Multimethod.Proofs.LookedUp

/-!
# When building succeeds

Building checks four things in turn, and each of them is stated here without the steps of building:
the names that are given agree (`AllEqual`), no offer of the sources is refused (`Acceptable`), the
clauses that are left without ignored types have different keys, and every name that is left is the
wildcard or a registered type (`Engine.Lacks` is the contrary). `BuildFault` says which failure
belongs to which check.

A build that fails has the failure of the first check that fails (`buildFault_of_build`), and a
build that succeeds has passed all of them (`passed_of_build`). No other failure is possible: keys
that are read again are in normal form, clauses with different keys have different places in the
tree, and reachable engines have no conversion from or to an unknown type. `build_classifies` puts
this together.
-/

set_option autoImplicit false
set_option relaxedAutoImplicit false

namespace Multimethod

/-! ### Names -/

/-- The names that have to agree: the given one and those of merged multimethods, except empty
ones. -/
def givenNames (name : Option String) (sources : List Source) : List String :=
  (name.toList ++ sources.filterMap Source.name?).filter (!·.isEmpty)

/-- All names are one. -/
def AllEqual (names : List String) : Prop :=
  ∀ first ∈ names, ∀ second ∈ names, first = second

/-- The first name, and the first one that differs from it. -/
def FirstDifference (names : List String) (first other : String) : Prop :=
  ∃ same later, names = first :: (same ++ other :: later) ∧ (∀ name ∈ same, name = first) ∧
    other ≠ first

@[simp] theorem allEqual_singleton (name : String) : AllEqual [name] := by
  intro first hfirst second hsecond
  rw [List.mem_singleton.mp hfirst, List.mem_singleton.mp hsecond]

/-- A given name that no source has to agree with is not in conflict. -/
@[simp] theorem allEqual_givenNames_nil (name : Option String) : AllEqual (givenNames name []) := by
  have hgiven : ∀ found ∈ givenNames name [], found ∈ name := by
    intro found hmem
    have hname := (List.mem_filter.mp hmem).1
    rw [List.filterMap_nil, List.append_nil] at hname
    exact Option.mem_toList.mp hname
  intro first hfirst second hsecond
  exact Option.mem_unique (hgiven first hfirst) (hgiven second hsecond)

theorem FirstDifference.not_allEqual {names : List String} {first other : String}
    (hdifference : FirstDifference names first other) : ¬ AllEqual names := by
  obtain ⟨same, later, rfl, -, hother⟩ := hdifference
  intro hequal
  have hmem : other ∈ first :: (same ++ other :: later) :=
    List.mem_cons_of_mem _ (List.mem_append_right _ List.mem_cons_self)
  exact hother (hequal other hmem first List.mem_cons_self)

/-- Names that agree are agreed on. -/
theorem agreedName_eq_ok {names : List String} {agreed : Option String}
    (hagreed : Engine.agreedName names = .ok agreed) :
    AllEqual (names.filter (!·.isEmpty)) ∧ agreed = (names.filter (!·.isEmpty)).head? := by
  unfold Engine.agreedName at hagreed
  cases hnames : names.filter (!·.isEmpty) with
  | nil =>
    rw [hnames] at hagreed
    exact ⟨fun first hmem ↦ absurd hmem List.not_mem_nil, (Except.ok.inj hagreed).symm⟩
  | cons first others =>
    rw [hnames] at hagreed
    cases hfind : others.find? (· != first) with
    | some other =>
      simp only [hfind] at hagreed
      exact nomatch hagreed
    | none =>
      simp only [hfind] at hagreed
      have hfirst : ∀ name ∈ first :: others, name = first := by
        intro name hmem
        rcases List.mem_cons.mp hmem with heq | hlater
        · exact heq
        · simpa using List.find?_eq_none.mp hfind name hlater
      refine ⟨fun name hname other hother ↦ ?_, (Except.ok.inj hagreed).symm⟩
      rw [hfirst name hname, hfirst other hother]

/-- Names that do not agree are reported: the first one, and the first one that differs. -/
theorem agreedName_eq_error {names : List String} {failure : Failure}
    (hconflict : Engine.agreedName names = .error failure) :
    ∃ first other, FirstDifference (names.filter (!·.isEmpty)) first other ∧
      failure = .nameConflict first other := by
  unfold Engine.agreedName at hconflict
  cases hnames : names.filter (!·.isEmpty) with
  | nil =>
    rw [hnames] at hconflict
    exact nomatch hconflict
  | cons first others =>
    rw [hnames] at hconflict
    cases hfind : others.find? (· != first) with
    | none =>
      simp only [hfind] at hconflict
      exact nomatch hconflict
    | some other =>
      simp only [hfind] at hconflict
      obtain ⟨hother, same, later, hsplit, hsame⟩ := List.find?_eq_some_iff_append.mp hfind
      refine ⟨first, other, ⟨same, later, by rw [hsplit], fun name hmem ↦ ?_, ?_⟩,
        (Except.error.inj hconflict).symm⟩
      · simpa using hsame name hmem
      · simpa using hother

/-! ### The faults of a build -/

namespace Engine

/-- The table that the offers of some sources make. -/
def collect (sources : List Source) : MethodTable :=
  .ofOffers (sources.flatMap Source.offers)

/-- A name is left in a signature, but it is neither the wildcard nor a registered type. -/
def Lacks (engine : Engine) (sources : List Source) (name : String) : Prop :=
  (∃ method ∈ remaining engine.ignored (collect sources).methods,
    ∃ slot ∈ method.signature.slots, name ∈ slot.alternatives.names) ∧
  name ≠ wildcard ∧ name ∉ engine.types.names

/-- The keys of the clauses that are left. -/
def keysLeft (engine : Engine) (sources : List Source) : List String :=
  clauseKeys ((collect sources).expansion engine.ignored)

/-- The failure of the first check that fails. -/
inductive BuildFault (engine : Engine) (name : Option String) (sources : List Source) :
    Failure → Prop
  | names {first other : String}
      (hdifference : FirstDifference (givenNames name sources) first other) :
      BuildFault engine name sources (.nameConflict first other)
  | offers {failure : Failure} (hnames : AllEqual (givenNames name sources))
      (hrefusal : FirstRefusal (sources.flatMap Source.offers) failure) :
      BuildFault engine name sources failure
  | keys {key : String} (hnames : AllEqual (givenNames name sources))
      (hoffers : Acceptable (sources.flatMap Source.offers))
      (hrepeated : FirstRepeated (engine.keysLeft sources) key) :
      BuildFault engine name sources (.duplicateSignature key)
  | types {unknown : String} (hnames : AllEqual (givenNames name sources))
      (hoffers : Acceptable (sources.flatMap Source.offers))
      (hkeys : (engine.keysLeft sources).Nodup) (hlacks : engine.Lacks sources unknown) :
      BuildFault engine name sources
        (.unknownType unknown (Text.nearest unknown engine.types.names))

/-! ### A build and its checks -/

variable {engine : Engine} {name : Option String} {sources : List Source}

/-- The names in the clauses that are left are those in the slots that are left. -/
theorem exists_clause_uses_iff (ignored : List String) (table : MethodTable) (name : String) :
    (∃ clause ∈ table.expansion ignored, clause.pattern.uses name = true) ↔
      ∃ method ∈ remaining ignored table.methods,
        ∃ slot ∈ method.signature.slots, name ∈ slot.alternatives.names := by
  constructor
  · rintro ⟨clause, hclause, huses⟩
    obtain ⟨method, hmethod, hmem⟩ := List.mem_flatMap.mp hclause
    obtain ⟨pattern, hpattern, rfl⟩ := List.mem_map.mp hmem
    exact ⟨method, hmethod, (exists_pattern_uses_iff method.signature name).mp
      ⟨pattern, hpattern, huses⟩⟩
  · rintro ⟨method, hmethod, hslot⟩
    obtain ⟨pattern, hpattern, huses⟩ :=
      (exists_pattern_uses_iff method.signature name).mpr hslot
    exact ⟨⟨pattern, method.implementation⟩,
      List.mem_flatMap.mpr ⟨method, hmethod, List.mem_map_of_mem hpattern⟩, huses⟩

theorem lacks_iff (name : String) :
    engine.Lacks sources name ↔
      (∃ clause ∈ (collect sources).expansion engine.ignored, clause.pattern.uses name = true) ∧
        engine.types.contains name = false := by
  rw [Lacks, exists_clause_uses_iff, engine.types.contains_eq_false_iff]

theorem exists_tree_of_keysLeft (hkeys : (engine.keysLeft sources).Nodup) :
    ∃ tree, Tree.ofClauses ((collect sources).expansion engine.ignored) = .ok tree := by
  refine Tree.exists_ofClauses (List.Nodup.of_map Pattern.key ?_)
  rw [List.map_map]
  exact hkeys

/-- A build that fails has the failure of the first check that fails. -/
theorem buildFault_of_build (hengine : engine.Reachable) (hsources : NormalSources sources)
    {failure : Failure} (hbuild : engine.build name sources = .error failure) :
    engine.BuildFault name sources failure := by
  rcases bind_eq_error_iff.mp hbuild with hname | ⟨agreed, hname, hbuild⟩
  · obtain ⟨first, other, hdifference, rfl⟩ := agreedName_eq_error hname
    exact .names hdifference
  have hnames := (agreedName_eq_ok hname).1
  rcases bind_eq_error_iff.mp hbuild with hcollect | ⟨table, hcollect, hbuild⟩
  · rw [foldlM_addTo_eq hsources, collect_eq_error_iff] at hcollect
    exact .offers hnames hcollect
  rw [foldlM_addTo_eq hsources, collect_eq_ok_iff] at hcollect
  obtain ⟨hoffers, rfl⟩ := hcollect
  rcases bind_eq_error_iff.mp hbuild with hclauses | ⟨clauses, hclauses, hbuild⟩
  · rw [MethodTable.clauses_eq_error_iff (isNormal_collected _)] at hclauses
    obtain ⟨key, hrepeated, rfl⟩ := hclauses
    exact .keys hnames hoffers hrepeated
  rw [MethodTable.clauses_eq_ok_iff (isNormal_collected _)] at hclauses
  obtain ⟨hkeys, rfl⟩ := hclauses
  -- Different keys have different patterns, so no two clauses meet in the tree.
  rcases bind_eq_error_iff.mp hbuild with htree | ⟨tree, htree, hbuild⟩
  · obtain ⟨tree, hmade⟩ := exists_tree_of_keysLeft hkeys
    exact nomatch hmade.symm.trans htree
  -- The conversions of a reachable engine are between its types, so a clause has the unknown name.
  rcases bind_eq_error_iff.mp hbuild with hroutine | ⟨routine, -, hpure⟩
  · obtain ⟨unknown, hlooks, hunknown, rfl⟩ := Routine.ofTree_eq_error hroutine
    have huses := (Tree.represents_ofClauses htree).exists_uses hengine.isSound hlooks hunknown
    exact .types hnames hoffers hkeys ((lacks_iff unknown).mpr ⟨huses, hunknown⟩)
  · exact nomatch hpure

/-- A build that succeeds has passed all checks, and made the routine of what is left. -/
theorem passed_of_build (hengine : engine.Reachable) (hsources : NormalSources sources)
    {dispatcher : Dispatcher} (hbuild : engine.build name sources = .ok dispatcher) :
    AllEqual (givenNames name sources) ∧ Acceptable (sources.flatMap Source.offers) ∧
      (engine.keysLeft sources).Nodup ∧ (∀ unknown, ¬ engine.Lacks sources unknown) ∧
      ∃ tree routine, Tree.ofClauses ((collect sources).expansion engine.ignored) = .ok tree ∧
        Routine.ofTree engine.types engine.conversions tree = .ok routine ∧
        dispatcher =
          ⟨(givenNames name sources).head?, collect sources, routine, engine.rescue⟩ := by
  obtain ⟨agreed, hname, table, hcollect, clauses, hclauses, tree, htree, routine, hroutine, rfl⟩ :=
    build_eq_ok_iff_exists.mp hbuild
  obtain ⟨hnames, rfl⟩ := agreedName_eq_ok hname
  rw [foldlM_addTo_eq hsources, collect_eq_ok_iff] at hcollect
  obtain ⟨hoffers, rfl⟩ := hcollect
  rw [MethodTable.clauses_eq_ok_iff (isNormal_collected _)] at hclauses
  obtain ⟨hkeys, rfl⟩ := hclauses
  refine ⟨hnames, hoffers, hkeys, fun unknown hlacks ↦ ?_, tree, routine, htree, hroutine, rfl⟩
  obtain ⟨⟨clause, hmem, huses⟩, hunknown⟩ := (lacks_iff unknown).mp hlacks
  have hknown := ((Tree.represents_ofClauses htree).exists_ofTree_iff hengine.isSound).mp
    ⟨routine, hroutine⟩ clause hmem unknown huses
  exact ne_true_of_eq_false hunknown hknown

section Checks

variable (hengine : engine.Reachable) (hsources : NormalSources sources)

include hengine hsources

theorem firstDifference_of_build {first other : String}
    (hbuild : engine.build name sources = .error (.nameConflict first other)) :
    FirstDifference (givenNames name sources) first other := by
  cases buildFault_of_build hengine hsources hbuild with
  | names hdifference => exact hdifference
  | offers _ hrefusal => exact absurd hrefusal (not_firstRefusal_nameConflict _ first other)

/-- A conflict of names is reported exactly if the names do not agree. -/
theorem exists_build_eq_nameConflict_iff :
    (∃ first other, engine.build name sources = .error (.nameConflict first other)) ↔
      ¬ AllEqual (givenNames name sources) := by
  constructor
  · rintro ⟨first, other, hbuild⟩
    exact (firstDifference_of_build hengine hsources hbuild).not_allEqual
  · intro hdiffer
    cases hbuild : engine.build name sources with
    | ok dispatcher => exact absurd (passed_of_build hengine hsources hbuild).1 hdiffer
    | error failure =>
      cases buildFault_of_build hengine hsources hbuild with
      | @names first other _ => exact ⟨first, other, rfl⟩
      | offers hnames _ => exact absurd hnames hdiffer
      | keys hnames _ _ => exact absurd hnames hdiffer
      | types hnames _ _ _ => exact absurd hnames hdiffer

variable (hnames : AllEqual (givenNames name sources))

include hnames

/-- When the names agree, the first refusal of an offer is reported. -/
theorem build_of_firstRefusal {failure : Failure}
    (hrefusal : FirstRefusal (sources.flatMap Source.offers) failure) :
    engine.build name sources = .error failure := by
  have hrefused : ¬ Acceptable (sources.flatMap Source.offers) := fun haccept ↦
    (acceptable_iff _).mp haccept failure hrefusal
  cases hbuild : engine.build name sources with
  | ok dispatcher => exact absurd (passed_of_build hengine hsources hbuild).2.1 hrefused
  | error found =>
    cases buildFault_of_build hengine hsources hbuild with
    | names hdifference => exact absurd hnames hdifference.not_allEqual
    | offers _ hfound => rw [hfound.unique hrefusal]
    | keys _ hoffers _ => exact absurd hoffers hrefused
    | types _ hoffers _ _ => exact absurd hoffers hrefused

variable (hoffers : Acceptable (sources.flatMap Source.offers))

include hoffers

theorem exists_build_eq_duplicateSignature_iff :
    (∃ key, engine.build name sources = .error (.duplicateSignature key)) ↔
      ¬ (engine.keysLeft sources).Nodup := by
  constructor
  · rintro ⟨key, hbuild⟩
    cases buildFault_of_build hengine hsources hbuild with
    | offers _ hrefusal => exact absurd hrefusal ((acceptable_iff _).mp hoffers _)
    | keys _ _ hrepeated => exact hrepeated.not_nodup
  · intro hrepeats
    cases hbuild : engine.build name sources with
    | ok dispatcher => exact absurd (passed_of_build hengine hsources hbuild).2.2.1 hrepeats
    | error failure =>
      cases buildFault_of_build hengine hsources hbuild with
      | names hdifference => exact absurd hnames hdifference.not_allEqual
      | offers _ hrefusal => exact absurd hrefusal ((acceptable_iff _).mp hoffers _)
      | @keys key _ _ _ => exact ⟨key, rfl⟩
      | types _ _ hkeys _ => exact absurd hkeys hrepeats

omit hnames in
theorem firstRepeated_of_build {key : String}
    (hbuild : engine.build name sources = .error (.duplicateSignature key)) :
    FirstRepeated (engine.keysLeft sources) key := by
  cases buildFault_of_build hengine hsources hbuild with
  | offers _ hrefusal => exact absurd hrefusal ((acceptable_iff _).mp hoffers _)
  | keys _ _ hrepeated => exact hrepeated

variable (hkeys : (engine.keysLeft sources).Nodup)

include hkeys

theorem exists_build_eq_unknownType_iff :
    (∃ unknown nearest, engine.build name sources = .error (.unknownType unknown nearest)) ↔
      ∃ unknown, engine.Lacks sources unknown := by
  constructor
  · rintro ⟨unknown, nearest, hbuild⟩
    cases buildFault_of_build hengine hsources hbuild with
    | offers _ hrefusal => exact absurd hrefusal ((acceptable_iff _).mp hoffers _)
    | types _ _ _ hlacks => exact ⟨unknown, hlacks⟩
  · rintro ⟨unknown, hlacks⟩
    cases hbuild : engine.build name sources with
    | ok dispatcher =>
      exact absurd hlacks ((passed_of_build hengine hsources hbuild).2.2.2.1 unknown)
    | error failure =>
      cases buildFault_of_build hengine hsources hbuild with
      | names hdifference => exact absurd hnames hdifference.not_allEqual
      | offers _ hrefusal => exact absurd hrefusal ((acceptable_iff _).mp hoffers _)
      | keys _ _ hrepeated => exact absurd hkeys hrepeated.not_nodup
      | @types found _ _ _ _ => exact ⟨found, _, rfl⟩

omit hnames hkeys in
theorem lacks_of_build {unknown : String} {nearest : Option String}
    (hbuild : engine.build name sources = .error (.unknownType unknown nearest)) :
    engine.Lacks sources unknown ∧ nearest = Text.nearest unknown engine.types.names := by
  cases buildFault_of_build hengine hsources hbuild with
  | offers _ hrefusal => exact absurd hrefusal ((acceptable_iff _).mp hoffers _)
  | types _ _ _ hlacks => exact ⟨hlacks, rfl⟩

/-- When nothing is lacking, the build succeeds. -/
theorem build_of_passed (hknown : ∀ unknown, ¬ engine.Lacks sources unknown) :
    ∃ tree routine, Tree.ofClauses ((collect sources).expansion engine.ignored) = .ok tree ∧
      Routine.ofTree engine.types engine.conversions tree = .ok routine ∧
      engine.build name sources =
        .ok ⟨(givenNames name sources).head?, collect sources, routine, engine.rescue⟩ := by
  cases hbuild : engine.build name sources with
  | ok dispatcher =>
    obtain ⟨-, -, -, -, tree, routine, htree, hroutine, rfl⟩ :=
      passed_of_build hengine hsources hbuild
    exact ⟨tree, routine, htree, hroutine, rfl⟩
  | error failure =>
    cases buildFault_of_build hengine hsources hbuild with
    | names hdifference => exact absurd hnames hdifference.not_allEqual
    | offers _ hrefusal => exact absurd hrefusal ((acceptable_iff _).mp hoffers _)
    | keys _ _ hrepeated => exact absurd hkeys hrepeated.not_nodup
    | types _ _ _ hlacks => exact absurd hlacks (hknown _)

end Checks

end Engine

/-! ### The outcome of a build -/

/-- A build of a reachable engine from entries and multimethods that were built before fails exactly
as the first check that fails says, and succeeds if none does: the names agree; no entry is refused;
the keys that are left are different; the names that are left are known. The multimethod that is
built has the name that was agreed on and the offers that were collected, and its routine is that of
the tree of what is left. -/
theorem build_classifies (engine : Engine) (hengine : engine.Reachable) (name : Option String)
    (sources : List Source)
    (hmerged : ∀ merged, Source.dispatcher merged ∈ sources → merged.Built) :
    (((∃ first other, engine.build name sources = .error (.nameConflict first other)) ↔
        ¬ AllEqual (givenNames name sources)) ∧
      ∀ first other, engine.build name sources = .error (.nameConflict first other) →
        FirstDifference (givenNames name sources) first other) ∧
    (AllEqual (givenNames name sources) →
      (∀ failure, FirstRefusal (sources.flatMap Source.offers) failure →
        engine.build name sources = .error failure) ∧
      ((∀ failure, ¬ FirstRefusal (sources.flatMap Source.offers) failure) →
        (((∃ key, engine.build name sources = .error (.duplicateSignature key)) ↔
            ¬ (engine.keysLeft sources).Nodup) ∧
          ∀ key, engine.build name sources = .error (.duplicateSignature key) →
            FirstRepeated (engine.keysLeft sources) key) ∧
        ((engine.keysLeft sources).Nodup →
          (((∃ unknown nearest,
              engine.build name sources = .error (.unknownType unknown nearest)) ↔
              ∃ unknown, engine.Lacks sources unknown) ∧
            ∀ unknown nearest,
              engine.build name sources = .error (.unknownType unknown nearest) →
                engine.Lacks sources unknown ∧
                  nearest = Text.nearest unknown engine.types.names) ∧
          ((∀ unknown, ¬ engine.Lacks sources unknown) →
            ∃ tree routine,
              Tree.ofClauses ((Engine.collect sources).expansion engine.ignored) = .ok tree ∧
              Routine.ofTree engine.types engine.conversions tree = .ok routine ∧
              engine.build name sources =
                .ok ⟨(givenNames name sources).head?, Engine.collect sources, routine,
                  engine.rescue⟩)))) := by
  have hsources : NormalSources sources := fun merged hmem ↦ (hmerged merged hmem).isNormal
  refine ⟨⟨Engine.exists_build_eq_nameConflict_iff hengine hsources,
    fun first other ↦ Engine.firstDifference_of_build hengine hsources⟩, fun hnames ↦
    ⟨fun failure ↦ Engine.build_of_firstRefusal hengine hsources hnames, fun hnone ↦ ?_⟩⟩
  have hoffers := (acceptable_iff (sources.flatMap Source.offers)).mpr hnone
  refine ⟨⟨Engine.exists_build_eq_duplicateSignature_iff hengine hsources hnames hoffers,
    fun key ↦ Engine.firstRepeated_of_build hengine hsources hoffers⟩, fun hkeys ↦ ?_⟩
  exact ⟨⟨Engine.exists_build_eq_unknownType_iff hengine hsources hnames hoffers hkeys,
    fun unknown nearest ↦ Engine.lacks_of_build hengine hsources hoffers⟩,
    Engine.build_of_passed hengine hsources hnames hoffers hkeys⟩

/-- The last two checks are passed if the methods that are left have different keys and name
registered types only. -/
theorem Engine.passed_of_left {engine : Engine} {sources : List Source} {left : List Method}
    (hleft : remaining engine.ignored (Engine.collect sources).methods = left)
    (hkeys : (clauseKeys (left.flatMap Method.clauses)).Nodup)
    (hknown : ∀ method ∈ left, ∀ slot ∈ method.signature.slots, ∀ name ∈ slot.alternatives.names,
      name ∈ engine.types.names) :
    (engine.keysLeft sources).Nodup ∧ ∀ unknown, ¬ engine.Lacks sources unknown := by
  subst hleft
  refine ⟨hkeys, ?_⟩
  rintro unknown ⟨⟨method, hmethod, slot, hslot, hname⟩, -, hunknown⟩
  exact hunknown (hknown method hmethod slot hslot unknown hname)

/-- An implementation that answers with what it is given. -/
def single : Implementation :=
  ⟨0, fun passed ↦ .ok (.array passed)⟩

/-- Another implementation that answers with what it is given. -/
def several : Implementation :=
  ⟨1, fun passed ↦ .ok (.array passed)⟩

/-- A merged multimethod, an entry that names a type which need not exist, and an entry that offers
a method of the merged multimethod again. -/
def mergedWithEntries (merged : Dispatcher) : List Source :=
  [.dispatcher merged, .entries [("string | Missing, number ...", several), (" number ", single)]]

/-- A multimethod that is built from one entry. -/
theorem exists_build_area :
    ∃ merged, Engine.standard.build (some "area") [.entries [("number", single)]] = .ok merged ∧
      merged.name = some "area" ∧ merged.methods = .mk [("number", single)] := by
  have hoffers : Acceptable [("number", single)] :=
    ((collect_eq_ok_iff _ (.mk [("number", single)])).mp rfl).1
  have hleft : remaining [] (collected [("number", single)]) =
      [⟨⟨[.single "number"], none⟩, single⟩] := rfl
  obtain ⟨hkeys, hknown⟩ :=
    @Engine.passed_of_left .standard [.entries [("number", single)]] _ hleft
      (by decide) (by decide)
  obtain ⟨-, before, -, -, hbuild⟩ :=
    @Engine.build_of_passed .standard (some "area") [.entries [("number", single)]] .standard
      (by simp [NormalSources]) (allEqual_singleton "area") hoffers hkeys hknown
  exact ⟨_, hbuild, rfl, rfl⟩

/-- The ignored type need not be registered, the method that is offered again is kept once, and the
name is that of the merged multimethod. -/
theorem build_classifies_merged :
    ∃ merged engine routine,
      Engine.standard.build (some "area") [.entries [("number", single)]] = .ok merged ∧
      Engine.ofSetup { ignored := ["Missing"] } = .ok engine ∧
      engine.build none (mergedWithEntries merged) =
        .ok ⟨some "area", .mk [("number", single), ("string|Missing,number...", several)], routine,
          none⟩ := by
  obtain ⟨merged, hmerged, hname, hmethods⟩ := exists_build_area
  have hbuilt : ∀ other, Source.dispatcher other ∈ mergedWithEntries merged → other.Built := by
    intro other hmem
    have hother : other = merged := by simpa [mergedWithEntries] using hmem
    rw [hother]
    exact .build .standard (by simp) hmerged
  have hsetup : Engine.ofSetup { ignored := ["Missing"] } =
      .ok ⟨.standard, .empty, ["Missing"], none⟩ := rfl
  have hbuild := build_classifies _ (.ofSetup hsetup) none (mergedWithEntries merged) hbuilt
  have hgiven : givenNames none (mergedWithEntries merged) = ["area"] := by
    have hmergedNames : (mergedWithEntries merged).filterMap Source.name? = ["area"] := by
      rw [mergedWithEntries, List.filterMap_cons, Source.name?, hname]
      rfl
    rw [givenNames, hmergedNames]
    rfl
  have hoffered : (mergedWithEntries merged).flatMap Source.offers =
      [("number", single), ("string | Missing, number ...", several), (" number ", single)] := by
    show merged.methods.methods ++ _ = _
    rw [hmethods]
    rfl
  have hoffers : Acceptable
      [("number", single), ("string | Missing, number ...", several), (" number ", single)] :=
    ((collect_eq_ok_iff _ (.mk [("number", single), ("string|Missing,number...", several)])).mp
      rfl).1
  have hcollect : Engine.collect (mergedWithEntries merged) =
      .mk [("number", single), ("string|Missing,number...", several)] := by
    rw [Engine.collect, hoffered]
    rfl
  have hleft : remaining ["Missing"] (Engine.collect (mergedWithEntries merged)).methods =
      [⟨⟨[.single "number"], none⟩, single⟩,
        ⟨⟨[.single "string"], some (.single "number")⟩, several⟩] := by
    rw [hcollect]
    rfl
  obtain ⟨hkeys, hknown⟩ :=
    @Engine.passed_of_left ⟨.standard, .empty, ["Missing"], none⟩ _ _ hleft (by decide) (by decide)
  rw [hgiven, hoffered, hcollect] at hbuild
  obtain ⟨-, routine, -, -, hbuilt⟩ :=
    (((hbuild.2 (allEqual_singleton "area")).2 ((acceptable_iff _).mp hoffers)).2 hkeys).2 hknown
  exact ⟨merged, _, routine, hmerged, hsetup, hbuilt⟩

end Multimethod
