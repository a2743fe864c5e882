import Multimethod.Proofs.Building
import Multimethod.Proofs.NormalOffers

/-!
# Merging in groups

Multimethods can be merged at once, or some of them first and the results after that. A `Grouping`
says in which groups, one inside the other, and `Engine.merge` builds every group from the results
of its parts. The groups do not matter (`merge_regroups`): what can be merged at once can be merged
in all groups, with one result.

A build of multimethods depends on their names, on whether their implementations agree, and on what
is collected of their methods (`Engine.build_asSources_eq_ok_iff`). `StandsFor` says that one
multimethod brings along what several others do, and multimethods are merged like those for which
they stand (`StandsFor.build_eq_ok_iff`). That a group inside others can be built at all is a fact
about fewer multimethods (`Engine.exists_build_of_subset`): no check of a build is passed by
multimethods and failed by some of them, because names, methods and clauses only get fewer. This
needs an engine without conversions from or to unknown types.
-/

set_option autoImplicit false
set_option relaxedAutoImplicit false

namespace Multimethod

/-! ### Names that agree -/

/-- Names are agreed on exactly if they are all one, and then on the first of them. -/
@[simp] theorem agreedName_eq_ok_iff (names : List String) (agreed : Option String) :
    Engine.agreedName names = .ok agreed ↔
      AllEqual (names.filter (!·.isEmpty)) ∧ agreed = (names.filter (!·.isEmpty)).head? := by
  refine ⟨agreedName_eq_ok, ?_⟩
  rintro ⟨hequal, rfl⟩
  cases hagreed : Engine.agreedName names with
  | ok found => rw [(agreedName_eq_ok hagreed).2]
  | error failure =>
    obtain ⟨first, other, hdifference, -⟩ := agreedName_eq_error hagreed
    exact absurd hequal hdifference.not_allEqual

theorem AllEqual.mono {names more : List String} (hequal : AllEqual more)
    (hsubset : ∀ name ∈ names, name ∈ more) : AllEqual names :=
  fun first hfirst second hsecond ↦
    hequal first (hsubset first hfirst) second (hsubset second hsecond)

/-- Groups of names that agree in themselves agree with each other exactly if their first names
do. -/
theorem allEqual_flatMap_head?_iff {α : Type} {parts : List α} {names : α → List String}
    (hequal : ∀ part ∈ parts, AllEqual (names part)) :
    AllEqual (parts.flatMap fun part ↦ (names part).head?.toList) ↔
      AllEqual (parts.flatMap names) := by
  constructor
  · intro hheads first hfirst second hsecond
    have hhead : ∀ name ∈ parts.flatMap names,
        name ∈ parts.flatMap fun part ↦ (names part).head?.toList := by
      intro name hmem
      obtain ⟨part, hpart, hname⟩ := List.mem_flatMap.mp hmem
      refine List.mem_flatMap.mpr ⟨part, hpart, ?_⟩
      cases hnames : names part with
      | nil =>
        rw [hnames] at hname
        exact absurd hname List.not_mem_nil
      | cons head others =>
        have hsame : name = head :=
          hequal part hpart name hname head (hnames ▸ List.mem_cons_self)
        rw [hsame]
        exact List.mem_singleton_self head
    exact hheads first (hhead first hfirst) second (hhead second hsecond)
  · intro hall
    refine hall.mono fun name hmem ↦ ?_
    obtain ⟨part, hpart, hname⟩ := List.mem_flatMap.mp hmem
    exact List.mem_flatMap.mpr ⟨part, hpart, List.mem_of_mem_head? (Option.mem_toList.mp hname)⟩

/-! ### Fewer methods -/

/-- What is left of the signature of a key without the ignored types. -/
def leftSignature? (ignored : List String) (key : String) : Option Signature :=
  (Signature.parse key).toOption.bind (Signature.restrict fun name ↦ !ignored.contains name)

/-- The keys of the patterns that are left of a key. -/
def leftPatternKeys (ignored : List String) (key : String) : List String :=
  (leftSignature? ignored key).toList.flatMap fun signature ↦ signature.patterns.map Pattern.key

theorem map_signature_remaining (ignored : List String) (methods : List Offer) :
    (remaining ignored methods).map Method.signature =
      (offerKeys methods).filterMap (leftSignature? ignored) := by
  rw [remaining, List.map_filterMap, offerKeys, List.filterMap_map]
  congr 1
  funext method
  rw [Function.comp_apply, leftSignature?, Method.parse]
  cases Signature.parse method.1 with
  | error failure => rfl
  | ok signature =>
    show (Method.without ignored ⟨signature, method.2⟩).map Method.signature = _
    rw [Method.without, Option.map_map]
    exact Option.map_id'

theorem clauseKeys_expansion (ignored : List String) (table : MethodTable) :
    clauseKeys (table.expansion ignored) =
      (offerKeys table.methods).flatMap (leftPatternKeys ignored) := by
  have hkeys : clauseKeys (table.expansion ignored) =
      ((remaining ignored table.methods).map Method.signature).flatMap
        fun signature ↦ signature.patterns.map Pattern.key := by
    rw [clauseKeys, MethodTable.expansion, List.map_flatMap, List.flatMap_map]
    congr 1
    funext method
    rw [Method.clauses, List.map_map]
    rfl
  rw [hkeys, map_signature_remaining, List.filterMap_eq_flatMap_toList, List.flatMap_assoc]
  rfl

/-- More keys leave more signatures. -/
theorem exists_remaining_of_subset {ignored : List String} {methods more : List Offer}
    (hsubset : ∀ key ∈ offerKeys methods, key ∈ offerKeys more) {method : Method}
    (hmem : method ∈ remaining ignored methods) :
    ∃ other ∈ remaining ignored more, other.signature = method.signature := by
  have hleft : method.signature ∈ (offerKeys methods).filterMap (leftSignature? ignored) := by
    rw [← map_signature_remaining]
    exact List.mem_map_of_mem hmem
  obtain ⟨key, hkey, hsignature⟩ := List.mem_filterMap.mp hleft
  rw [← List.mem_map, map_signature_remaining]
  exact List.mem_filterMap.mpr ⟨key, hsubset key hkey, hsignature⟩

/-! ### Multimethods as sources -/

/-- The multimethods as sources of a build. -/
abbrev asSources (dispatchers : List Dispatcher) : List Source :=
  dispatchers.map .dispatcher

/-- The names of multimethods, except empty ones. -/
def usedNames (dispatchers : List Dispatcher) : List String :=
  (dispatchers.filterMap Dispatcher.name).filter (!·.isEmpty)

/-- The methods of multimethods as offers, in order. -/
def allOffers (dispatchers : List Dispatcher) : List Offer :=
  dispatchers.flatMap (·.methods.methods)

@[simp] theorem givenNames_asSources (dispatchers : List Dispatcher) :
    givenNames none (asSources dispatchers) = usedNames dispatchers := by
  rw [givenNames, asSources, List.filterMap_map]
  rfl

theorem usedNames_singleton (dispatcher : Dispatcher) :
    usedNames [dispatcher] = dispatcher.name.toList.filter (!·.isEmpty) := by
  rw [usedNames, List.filterMap_cons, List.filterMap_nil]
  cases dispatcher.name <;> rfl

/-- A name that was agreed on is used. -/
theorem usedNames_of_agreed {dispatcher : Dispatcher} {names : List String}
    (hname : dispatcher.name = (names.filter (!·.isEmpty)).head?) :
    usedNames [dispatcher] = dispatcher.name.toList := by
  rw [usedNames_singleton, hname, List.filter_eq_self]
  intro name hmem
  exact (List.mem_filter.mp (List.mem_of_mem_head? (Option.mem_toList.mp hmem))).2

theorem usedNames_cons (dispatcher : Dispatcher) (dispatchers : List Dispatcher) :
    usedNames (dispatcher :: dispatchers) = usedNames [dispatcher] ++ usedNames dispatchers := by
  rw [usedNames, ← List.singleton_append, List.filterMap_append, List.filter_append]
  rfl

@[simp] theorem usedNames_flatten (groups : List (List Dispatcher)) :
    usedNames groups.flatten = groups.flatMap usedNames := by
  rw [usedNames, List.filterMap_flatten, List.filter_flatten, List.map_map, ← List.flatMap_def]
  rfl

@[simp] theorem allOffers_flatten (groups : List (List Dispatcher)) :
    allOffers groups.flatten = groups.flatMap allOffers := by
  rw [allOffers, List.flatten_eq_flatMap, List.flatMap_assoc]
  rfl

@[simp] theorem flatMap_offers_asSources (dispatchers : List Dispatcher) :
    (asSources dispatchers).flatMap Source.offers = allOffers dispatchers := by
  rw [asSources, List.flatMap_map]
  rfl

theorem normalSources_asSources {dispatchers : List Dispatcher}
    (hbuilt : ∀ dispatcher ∈ dispatchers, dispatcher.Built) :
    NormalSources (asSources dispatchers) := by
  intro dispatcher hmem
  obtain ⟨found, hfound, hsource⟩ := List.mem_map.mp hmem
  rw [← Source.dispatcher.inj hsource]
  exact (hbuilt found hfound).isNormal

theorem normalOffers_allOffers {dispatchers : List Dispatcher}
    (hbuilt : ∀ dispatcher ∈ dispatchers, dispatcher.Built) :
    NormalOffers (allOffers dispatchers) :=
  normalOffers_flatMap fun dispatcher hmem ↦ (hbuilt dispatcher hmem).isNormal

/-! ### Building from a method table -/

namespace Engine

variable {engine : Engine}

/-- The multimethod of a name and a method table. -/
def assemble (engine : Engine) (name : Option String) (methods : MethodTable) :
    Except Failure Dispatcher := do
  let tree ← Tree.ofClauses (← methods.clauses engine.ignored)
  let routine ← Routine.ofTree engine.types engine.conversions tree
  return ⟨name, methods, routine, engine.rescue⟩

theorem assemble_eq_ok_iff {name : Option String} {methods : MethodTable} {result : Dispatcher} :
    engine.assemble name methods = .ok result ↔
      ∃ clauses, methods.clauses engine.ignored = .ok clauses ∧
        ∃ tree, Tree.ofClauses clauses = .ok tree ∧
          ∃ routine, Routine.ofTree engine.types engine.conversions tree = .ok routine ∧
            result = ⟨name, methods, routine, engine.rescue⟩ := by
  simp only [assemble, bind_eq_ok_iff, pure, Except.pure, Except.ok.injEq, eq_comm (a := result)]

/-- A multimethod has the name and the methods that it was assembled from. -/
theorem eq_of_assemble {name : Option String} {methods : MethodTable} {result : Dispatcher}
    (hassemble : engine.assemble name methods = .ok result) :
    result.name = name ∧ result.methods = methods := by
  obtain ⟨clauses, -, tree, -, routine, -, rfl⟩ := assemble_eq_ok_iff.mp hassemble
  exact ⟨rfl, rfl⟩

/-- A build succeeds exactly if the names agree, no offer is refused, and what was collected can be
assembled under the first name. -/
theorem build_eq_ok_iff {name : Option String} {sources : List Source} {result : Dispatcher}
    (hsources : NormalSources sources) :
    engine.build name sources = .ok result ↔
      AllEqual (givenNames name sources) ∧ Acceptable (sources.flatMap Source.offers) ∧
        engine.assemble (givenNames name sources).head? (collect sources) = .ok result := by
  have hbuild : engine.build name sources =
      (agreedName (name.toList ++ sources.filterMap Source.name?) >>= fun agreed ↦
        sources.foldlM Source.addTo MethodTable.empty >>= engine.assemble agreed) := rfl
  simp [hbuild, foldlM_addTo_eq hsources, givenNames, collect, and_assoc]

/-- Multimethods are merged exactly if their names agree, their implementations agree, and what was
collected of their methods can be assembled. -/
theorem build_asSources_eq_ok_iff {dispatchers : List Dispatcher} {result : Dispatcher}
    (hbuilt : ∀ dispatcher ∈ dispatchers, dispatcher.Built) :
    engine.build none (asSources dispatchers) = .ok result ↔
      AllEqual (usedNames dispatchers) ∧ Agree (allOffers dispatchers) ∧
        engine.assemble (usedNames dispatchers).head? (.ofOffers (allOffers dispatchers)) =
          .ok result := by
  rw [build_eq_ok_iff (normalSources_asSources hbuilt), givenNames_asSources, collect,
    flatMap_offers_asSources, acceptable_iff_agree (normalOffers_allOffers hbuilt)]

theorem Lacks.mono {sources more : List Source}
    (hsubset : ∀ key ∈ offerKeys (collect sources).methods, key ∈ offerKeys (collect more).methods)
    {name : String} (hlacks : engine.Lacks sources name) : engine.Lacks more name := by
  obtain ⟨⟨method, hmethod, slot, hslot, hname⟩, hunknown⟩ := hlacks
  obtain ⟨other, hother, hsignature⟩ := exists_remaining_of_subset hsubset hmethod
  exact ⟨⟨other, hother, slot, hsignature.symm ▸ hslot, hname⟩, hunknown⟩

theorem nodup_keysLeft_of_subset {sources more : List Source}
    (hsubset : ∀ key ∈ offerKeys (collect sources).methods, key ∈ offerKeys (collect more).methods)
    (hkeys : (engine.keysLeft more).Nodup) : (engine.keysLeft sources).Nodup := by
  rw [keysLeft, clauseKeys_expansion] at hkeys ⊢
  exact nodup_flatMap_of_subset (nodup_offerKeys_collected _) hsubset hkeys

/-- Where multimethods can be merged, fewer of them can. -/
theorem exists_build_of_subset (hengine : engine.Reachable) {dispatchers more : List Dispatcher}
    (hbuilt : ∀ dispatcher ∈ more, dispatcher.Built)
    (hsubset : ∀ dispatcher ∈ dispatchers, dispatcher ∈ more) {result : Dispatcher}
    (hmerge : engine.build none (asSources more) = .ok result) :
    ∃ fewer, engine.build none (asSources dispatchers) = .ok fewer := by
  have hbuiltFewer : ∀ dispatcher ∈ dispatchers, dispatcher.Built :=
    fun dispatcher hmem ↦ hbuilt dispatcher (hsubset dispatcher hmem)
  obtain ⟨hnames, hagree, -⟩ := (build_asSources_eq_ok_iff hbuilt).mp hmerge
  obtain ⟨-, -, hkeys, hknown, -⟩ :=
    passed_of_build hengine (normalSources_asSources hbuilt) hmerge
  have hnamesFewer : AllEqual (usedNames dispatchers) := by
    refine hnames.mono fun name hmem ↦ ?_
    obtain ⟨hmem, hused⟩ := List.mem_filter.mp hmem
    obtain ⟨dispatcher, hdispatcher, hname⟩ := List.mem_filterMap.mp hmem
    exact List.mem_filter.mpr
      ⟨List.mem_filterMap.mpr ⟨dispatcher, hsubset dispatcher hdispatcher, hname⟩, hused⟩
  have hoffers : ∀ offer ∈ allOffers dispatchers, offer ∈ allOffers more := by
    intro offer hmem
    obtain ⟨dispatcher, hdispatcher, hoffer⟩ := List.mem_flatMap.mp hmem
    exact List.mem_flatMap.mpr ⟨dispatcher, hsubset dispatcher hdispatcher, hoffer⟩
  have hcollect : ∀ key ∈ offerKeys (collect (asSources dispatchers)).methods,
      key ∈ offerKeys (collect (asSources more)).methods := by
    intro key hkey
    rw [collect, flatMap_offers_asSources, MethodTable.methods_ofOffers,
      mem_offerKeys_collected_iff (normalOffers_allOffers hbuiltFewer)] at hkey
    rw [collect, flatMap_offers_asSources, MethodTable.methods_ofOffers,
      mem_offerKeys_collected_iff (normalOffers_allOffers hbuilt)]
    obtain ⟨offer, hoffer, rfl⟩ := List.mem_map.mp hkey
    exact List.mem_map_of_mem (hoffers offer hoffer)
  have hacceptable : Acceptable ((asSources dispatchers).flatMap Source.offers) := by
    rw [flatMap_offers_asSources, acceptable_iff_agree (normalOffers_allOffers hbuiltFewer)]
    exact hagree.mono hoffers
  obtain ⟨-, routine, -, -, hbuild⟩ :=
    build_of_passed hengine (normalSources_asSources hbuiltFewer)
      ((givenNames_asSources dispatchers).symm ▸ hnamesFewer) hacceptable
      (nodup_keysLeft_of_subset hcollect hkeys) fun unknown hlacks ↦
        hknown unknown (hlacks.mono hcollect)
  exact ⟨_, hbuild⟩

end Engine

/-! ### Standing for other multimethods -/

/-- A multimethod that can be merged in place of some multimethods: it has their name and what is
collected of their methods. -/
structure StandsFor (dispatcher : Dispatcher) (dispatchers : List Dispatcher) : Prop where
  normal : NormalOffers (allOffers dispatchers)
  allEqual : AllEqual (usedNames dispatchers)
  agree : Agree (allOffers dispatchers)
  name : usedNames [dispatcher] = (usedNames dispatchers).head?.toList
  methods : dispatcher.methods.methods = collected (allOffers dispatchers)

/-- The methods of a multimethod that was built were collected. -/
theorem Dispatcher.Built.collected_methods {dispatcher : Dispatcher} (hbuilt : dispatcher.Built) :
    collected dispatcher.methods.methods = dispatcher.methods.methods := by
  cases hbuilt with
  | build _ hmerged hbuild =>
    rw [methods_of_build (fun other hmem ↦ (hmerged other hmem).isNormal) hbuild]
    exact collected_collected _

namespace StandsFor

/-- A multimethod stands for itself. -/
theorem self {dispatcher : Dispatcher} (hbuilt : dispatcher.Built) :
    StandsFor dispatcher [dispatcher] := by
  have hnames : ∃ name? : Option String, usedNames [dispatcher] = name?.toList := by
    rw [usedNames_singleton]
    cases dispatcher.name with
    | none => exact ⟨none, rfl⟩
    | some name =>
      by_cases hused : (!name.isEmpty) = true
      · exact ⟨some name, List.filter_eq_self.mpr (List.forall_mem_singleton.mpr hused)⟩
      · exact ⟨none, List.filter_eq_nil_iff.mpr (List.forall_mem_singleton.mpr hused)⟩
  have hoffers : allOffers [dispatcher] = collected dispatcher.methods.methods := by
    rw [allOffers, List.flatMap_singleton, hbuilt.collected_methods]
  obtain ⟨name?, hnames⟩ := hnames
  constructor
  · exact normalOffers_allOffers (List.forall_mem_singleton.mpr hbuilt)
  · rw [hnames]
    cases name? with
    | none => exact nofun
    | some name => exact allEqual_singleton name
  · rw [hoffers]
    exact agree_collected _
  · rw [hnames]
    cases name? <;> rfl
  · rw [hoffers, collected_collected, hbuilt.collected_methods]

/-- What multimethods were merged into stands for them. -/
theorem of_build {engine : Engine} {dispatchers : List Dispatcher} {result : Dispatcher}
    (hbuilt : ∀ dispatcher ∈ dispatchers, dispatcher.Built)
    (hmerge : engine.build none (asSources dispatchers) = .ok result) :
    StandsFor result dispatchers := by
  obtain ⟨hnames, hagree, hassemble⟩ := (Engine.build_asSources_eq_ok_iff hbuilt).mp hmerge
  obtain ⟨hname, hmethods⟩ := Engine.eq_of_assemble hassemble
  refine ⟨normalOffers_allOffers hbuilt, hnames, hagree, ?_, congrArg MethodTable.methods hmethods⟩
  rw [usedNames_of_agreed hname, hname]

variable {dispatchers : List Dispatcher} {groups : List (List Dispatcher)}

theorem usedNames_eq (hstands : List.Forall₂ StandsFor dispatchers groups) :
    usedNames dispatchers = groups.flatMap fun group ↦ (usedNames group).head?.toList := by
  induction hstands with
  | nil => rfl
  | @cons dispatcher group dispatchers groups hfirst _ ih =>
    rw [usedNames_cons, hfirst.name, ih, List.flatMap_cons]

theorem allOffers_eq (hstands : List.Forall₂ StandsFor dispatchers groups) :
    allOffers dispatchers = groups.flatMap fun group ↦ collected (allOffers group) := by
  induction hstands with
  | nil => rfl
  | @cons dispatcher group dispatchers groups hfirst _ ih =>
    rw [allOffers, List.flatMap_cons, hfirst.methods, List.flatMap_cons, ← ih]
    rfl

/-- Multimethods are merged like those for which they stand. -/
theorem build_eq_ok_iff {engine : Engine} {result : Dispatcher}
    (hstands : List.Forall₂ StandsFor dispatchers groups)
    (hbuilt : ∀ dispatcher ∈ dispatchers, dispatcher.Built)
    (hgroups : ∀ dispatcher ∈ groups.flatten, dispatcher.Built) :
    engine.build none (asSources dispatchers) = .ok result ↔
      engine.build none (asSources groups.flatten) = .ok result := by
  have heach : ∀ group ∈ groups, ∃ dispatcher, StandsFor dispatcher group := by
    intro group hmem
    obtain ⟨dispatcher, -, hgroup⟩ := exists_rel_of_mem_right hstands hmem
    exact ⟨dispatcher, hgroup⟩
  have hnormal : ∀ group ∈ groups, NormalOffers (allOffers group) :=
    fun group hmem ↦ (heach group hmem).elim fun _ hgroup ↦ hgroup.normal
  have hequal : ∀ group ∈ groups, AllEqual (usedNames group) :=
    fun group hmem ↦ (heach group hmem).elim fun _ hgroup ↦ hgroup.allEqual
  have hagree : ∀ group ∈ groups, Agree (allOffers group) :=
    fun group hmem ↦ (heach group hmem).elim fun _ hgroup ↦ hgroup.agree
  have hmethods := MethodTable.ofOffers_congr (collected_flatMap_collected hnormal)
  rw [Engine.build_asSources_eq_ok_iff hbuilt, Engine.build_asSources_eq_ok_iff hgroups,
    usedNames_eq hstands, allOffers_eq hstands, usedNames_flatten, allOffers_flatten,
    allEqual_flatMap_head?_iff hequal, head?_flatMap_head?,
    agree_flatMap_collected_iff hnormal hagree, hmethods]

end StandsFor

/-! ### Copies of a multimethod -/

section Copies

variable {dispatcher : Dispatcher} {copies : List Dispatcher}
  (hcopies : ∀ copy ∈ copies, copy = dispatcher)

include hcopies

theorem mem_usedNames_of_copies {name : String} (hmem : name ∈ usedNames copies) :
    name ∈ usedNames [dispatcher] := by
  obtain ⟨hmem, hused⟩ := List.mem_filter.mp hmem
  obtain ⟨copy, hcopy, hname⟩ := List.mem_filterMap.mp hmem
  rw [hcopies copy hcopy] at hname
  exact List.mem_filter.mpr
    ⟨List.mem_filterMap.mpr ⟨dispatcher, List.mem_singleton_self dispatcher, hname⟩, hused⟩

theorem mem_allOffers_of_copies {offer : Offer} (hmem : offer ∈ allOffers copies) :
    offer ∈ allOffers [dispatcher] := by
  obtain ⟨copy, hcopy, hoffer⟩ := List.mem_flatMap.mp hmem
  exact List.mem_flatMap.mpr
    ⟨dispatcher, List.mem_singleton_self dispatcher, hcopies copy hcopy ▸ hoffer⟩

/-- With copies of itself a multimethod keeps its name. -/
theorem head?_usedNames_copies {names : List String}
    (hname : dispatcher.name = (names.filter (!·.isEmpty)).head?) :
    (usedNames (dispatcher :: copies)).head? = dispatcher.name := by
  have hused := usedNames_of_agreed hname
  rw [usedNames_cons, hused]
  cases hfirst : dispatcher.name with
  | some first => rfl
  | none =>
    have hnone : usedNames copies = [] := by
      refine List.eq_nil_iff_forall_not_mem.mpr fun name hmem ↦ ?_
      have hfound := mem_usedNames_of_copies hcopies hmem
      rw [hused, hfirst] at hfound
      exact List.not_mem_nil hfound
    rw [hnone]
    rfl

/-- With copies of itself a multimethod keeps its methods. -/
theorem collected_allOffers_copies (hbuilt : dispatcher.Built) :
    collected (allOffers (dispatcher :: copies)) = dispatcher.methods.methods := by
  have hsplit : allOffers (dispatcher :: copies) =
      dispatcher.methods.methods ++ allOffers copies :=
    List.flatMap_cons
  have hnormal : NormalOffers (allOffers (dispatcher :: copies)) :=
    normalOffers_allOffers
      (List.forall_mem_cons.mpr ⟨hbuilt, fun copy hmem ↦ (hcopies copy hmem).symm ▸ hbuilt⟩)
  rw [hsplit] at hnormal ⊢
  rw [collected_append_of_subset hnormal, hbuilt.collected_methods]
  intro key hkey
  obtain ⟨offer, hoffer, rfl⟩ := List.mem_map.mp hkey
  have hown := mem_allOffers_of_copies hcopies hoffer
  rw [allOffers, List.flatMap_singleton] at hown
  exact List.mem_map_of_mem hown

end Copies

/-! ### Groupings -/

/-- A way to merge multimethods: one of them as it is, or several parts that are merged before they
are merged with each other. -/
inductive Grouping where
  | single (dispatcher : Dispatcher)
  | group (parts : List Grouping)

namespace Grouping

mutual

/-- The multimethods of a grouping, in order. -/
def dispatchers : Grouping → List Dispatcher
  | .single dispatcher => [dispatcher]
  | .group parts => dispatchersOf parts

/-- The multimethods of several groupings, in order. -/
def dispatchersOf : List Grouping → List Dispatcher
  | [] => []
  | part :: parts => dispatchers part ++ dispatchersOf parts

end

theorem dispatchersOf_eq_flatten (parts : List Grouping) :
    dispatchersOf parts = (parts.map dispatchers).flatten := by
  induction parts with
  | nil => rfl
  | cons part parts ih => rw [dispatchersOf, ih, List.map_cons, List.flatten_cons]

theorem mem_dispatchers_of_mem {parts : List Grouping} {part : Grouping} (hpart : part ∈ parts)
    {dispatcher : Dispatcher} (hmem : dispatcher ∈ part.dispatchers) :
    dispatcher ∈ (Grouping.group parts).dispatchers := by
  rw [dispatchers, dispatchersOf_eq_flatten]
  exact List.mem_flatten.mpr ⟨part.dispatchers, List.mem_map_of_mem hpart, hmem⟩

/-- The grouping without groups in it. -/
@[simp] theorem dispatchers_singles (all : List Dispatcher) :
    (Grouping.group (all.map .single)).dispatchers = all := by
  rw [dispatchers, dispatchersOf_eq_flatten, List.map_map]
  exact (List.flatMap_def ..).symm.trans (List.flatMap_singleton' all)

/-- What holds of a grouping if it holds of its parts holds of every grouping. -/
theorem induction {motive : Grouping → Prop} (hsingle : ∀ dispatcher, motive (.single dispatcher))
    (hgroup : ∀ parts, (∀ part ∈ parts, motive part) → motive (.group parts))
    (grouping : Grouping) : motive grouping :=
  @Grouping.rec motive (fun parts ↦ ∀ part ∈ parts, motive part) hsingle hgroup
    (fun _ hmem ↦ absurd hmem List.not_mem_nil)
    (fun _ _ hpart hparts ↦ List.forall_mem_cons.mpr ⟨hpart, hparts⟩) grouping

end Grouping

namespace Engine

mutual

/-- The multimethod of a grouping: every group is built from the results of its parts. -/
def merge (engine : Engine) : Grouping → Except Failure Dispatcher
  | .single dispatcher => .ok dispatcher
  | .group parts => do engine.build none (asSources (← mergeAll engine parts))

/-- The multimethods of several groupings. -/
def mergeAll (engine : Engine) : List Grouping → Except Failure (List Dispatcher)
  | [] => .ok []
  | part :: parts => do
    let first ← merge engine part
    let others ← mergeAll engine parts
    return first :: others

end

variable {engine : Engine}

theorem mergeAll_eq_mapM (parts : List Grouping) :
    engine.mergeAll parts = parts.mapM engine.merge := by
  induction parts with
  | nil => rfl
  | cons part parts ih =>
    rw [mergeAll, ih, List.mapM_cons]

/-- Merging a grouping gives a multimethod that stands for those of the grouping, and succeeds where
they can be merged at once. -/
structure MergesWell (engine : Engine) (grouping : Grouping) : Prop where
  built : ∀ result, engine.merge grouping = .ok result → result.Built
  standsFor : ∀ result, engine.merge grouping = .ok result →
    StandsFor result grouping.dispatchers
  succeeds : (∃ result, engine.build none (asSources grouping.dispatchers) = .ok result) →
    ∃ result, engine.merge grouping = .ok result

/-- A group whose parts merge well is merged exactly as its multimethods are merged at once. -/
theorem merge_group_eq_ok_iff (hengine : engine.Reachable) {parts : List Grouping}
    (hparts : ∀ part ∈ parts, engine.MergesWell part)
    (hbuilt : ∀ dispatcher ∈ (Grouping.group parts).dispatchers, dispatcher.Built)
    (result : Dispatcher) :
    engine.merge (.group parts) = .ok result ↔
      engine.build none (asSources (Grouping.group parts).dispatchers) = .ok result := by
  have hflatten : (Grouping.group parts).dispatchers = (parts.map Grouping.dispatchers).flatten :=
    Grouping.dispatchersOf_eq_flatten parts
  rw [hflatten] at hbuilt ⊢
  -- Whenever all parts can be merged, their results stand for them.
  have hmerged : ∀ results, parts.mapM engine.merge = .ok results →
      (engine.build none (asSources results) = .ok result ↔
        engine.build none (asSources (parts.map Grouping.dispatchers).flatten) = .ok result) := by
    intro results hresults
    rw [mapM_eq_ok_iff] at hresults
    have hstands : List.Forall₂ StandsFor results (parts.map Grouping.dispatchers) := by
      rw [List.forall₂_map_right_iff]
      have hall := (List.forall₂_and_left _ _).mpr ⟨hparts, hresults⟩
      exact hall.flip.imp fun result part hpart ↦ hpart.1.standsFor result hpart.2
    refine StandsFor.build_eq_ok_iff hstands ?_ hbuilt
    intro dispatcher hmem
    obtain ⟨part, hpart, hmerge⟩ := exists_rel_of_mem_right hresults hmem
    exact (hparts part hpart).built dispatcher hmerge
  have hmerge : engine.merge (.group parts) =
      parts.mapM engine.merge >>= fun results ↦ engine.build none (asSources results) := by
    rw [merge, mergeAll_eq_mapM]
  rw [hmerge, bind_eq_ok_iff]
  constructor
  · rintro ⟨results, hresults, hbuild⟩
    exact (hmerged results hresults).mp hbuild
  · intro hbuild
    cases hresults : parts.mapM engine.merge with
    | ok results => exact ⟨results, rfl, (hmerged results hresults).mpr hbuild⟩
    | error failure =>
      obtain ⟨part, hpart, herror⟩ := exists_mem_of_mapM_error hresults
      have hfewer : ∀ dispatcher ∈ part.dispatchers,
          dispatcher ∈ (parts.map Grouping.dispatchers).flatten :=
        fun dispatcher hmem ↦ hflatten ▸ Grouping.mem_dispatchers_of_mem hpart hmem
      obtain ⟨fewer, hmergeFewer⟩ := (hparts part hpart).succeeds
        (exists_build_of_subset hengine hbuilt hfewer hbuild)
      exact nomatch herror.symm.trans hmergeFewer

/-- Every grouping of multimethods that were built merges well. -/
theorem mergesWell (hengine : engine.Reachable) (grouping : Grouping)
    (hbuilt : ∀ dispatcher ∈ grouping.dispatchers, dispatcher.Built) :
    engine.MergesWell grouping := by
  induction grouping using Grouping.induction with
  | hsingle dispatcher =>
    have hdispatcher : dispatcher.Built := hbuilt dispatcher (List.mem_singleton_self dispatcher)
    refine ⟨fun result hmerge ↦ ?_, fun result hmerge ↦ ?_, fun _ ↦ ⟨dispatcher, rfl⟩⟩
    · rw [← Except.ok.inj hmerge]
      exact hdispatcher
    · rw [← Except.ok.inj hmerge]
      exact .self hdispatcher
  | hgroup parts ih =>
    have hparts : ∀ part ∈ parts, engine.MergesWell part := by
      intro part hpart
      exact ih part hpart fun dispatcher hmem ↦
        hbuilt dispatcher (Grouping.mem_dispatchers_of_mem hpart hmem)
    have hmerge := merge_group_eq_ok_iff hengine hparts hbuilt
    refine ⟨fun result hresult ↦ ?_, fun result hresult ↦ ?_, ?_⟩
    · refine .build hengine (fun other hmem ↦ ?_) ((hmerge result).mp hresult)
      obtain ⟨found, hfound, hsource⟩ := List.mem_map.mp hmem
      rw [← Source.dispatcher.inj hsource]
      exact hbuilt found hfound
    · exact .of_build hbuilt ((hmerge result).mp hresult)
    · rintro ⟨result, hbuild⟩
      exact ⟨result, (hmerge result).mpr hbuild⟩

/-- A multimethod is built again, by the engine that built it, from one or more copies of itself. -/
theorem build_copies {name : Option String} {sources : List Source} {dispatcher : Dispatcher}
    (hengine : engine.Reachable)
    (hmerged : ∀ other, Source.dispatcher other ∈ sources → other.Built)
    (hbuild : engine.build name sources = .ok dispatcher) {copies : List Dispatcher}
    (hcopies : ∀ copy ∈ copies, copy = dispatcher) :
    engine.build none (asSources (dispatcher :: copies)) = .ok dispatcher := by
  have hbuilt : dispatcher.Built := .build hengine hmerged hbuild
  have hself := StandsFor.self hbuilt
  have hall : ∀ copy ∈ dispatcher :: copies, copy = dispatcher :=
    List.forall_mem_cons.mpr ⟨rfl, hcopies⟩
  obtain ⟨-, -, hassemble⟩ :=
    (build_eq_ok_iff fun other hmem ↦ (hmerged other hmem).isNormal).mp hbuild
  obtain ⟨hname, hmethods⟩ := eq_of_assemble hassemble
  rw [← hname, ← hmethods] at hassemble
  have hkept : MethodTable.ofOffers (allOffers (dispatcher :: copies)) = dispatcher.methods :=
    MethodTable.ext (collected_allOffers_copies hcopies hbuilt)
  rw [build_asSources_eq_ok_iff fun copy hmem ↦ (hall copy hmem).symm ▸ hbuilt,
    head?_usedNames_copies hcopies hname, hkept]
  exact ⟨hself.allEqual.mono fun _ ↦ mem_usedNames_of_copies hall,
    hself.agree.mono fun _ ↦ mem_allOffers_of_copies hall, hassemble⟩

end Engine

/-! ### Merging -/

/-- Merging does not depend on the groups in which it is done: multimethods that cannot be merged at
once cannot be merged in any groups, and others give in all groups the multimethod that they give at
once, with its name, its methods, its routine and its rescue. A multimethod is merged into itself by
the engine that built it, alone and with a copy of itself. -/
theorem merge_regroups (engine : Engine) (hengine : engine.Reachable) :
    (∀ dispatchers : List Dispatcher, (∀ dispatcher ∈ dispatchers, dispatcher.Built) →
      ((∃ failure, engine.build none (asSources dispatchers) = .error failure) ↔
        ∀ parts, (Grouping.group parts).dispatchers = dispatchers →
          ∃ failure, engine.merge (.group parts) = .error failure) ∧
      ∀ result, engine.build none (asSources dispatchers) = .ok result →
        ∀ parts, (Grouping.group parts).dispatchers = dispatchers →
          engine.merge (.group parts) = .ok result) ∧
    ∀ (name : Option String) (sources : List Source) (dispatcher : Dispatcher),
      (∀ other, Source.dispatcher other ∈ sources → other.Built) →
        engine.build name sources = .ok dispatcher →
          engine.build none (asSources [dispatcher]) = .ok dispatcher ∧
            engine.build none (asSources [dispatcher, dispatcher]) = .ok dispatcher := by
  constructor
  · intro dispatchers hbuilt
    have hmerge : ∀ parts, (Grouping.group parts).dispatchers = dispatchers → ∀ result,
        engine.merge (.group parts) = .ok result ↔
          engine.build none (asSources dispatchers) = .ok result := by
      rintro parts rfl result
      exact Engine.merge_group_eq_ok_iff hengine
        (fun part hpart ↦ Engine.mergesWell hengine part fun dispatcher hmem ↦
          hbuilt dispatcher (Grouping.mem_dispatchers_of_mem hpart hmem)) hbuilt result
    refine ⟨⟨?_, ?_⟩, fun result hbuild parts hparts ↦ (hmerge parts hparts result).mpr hbuild⟩
    · rintro ⟨failure, hbuild⟩ parts hparts
      cases hgroup : engine.merge (.group parts) with
      | error found => exact ⟨found, rfl⟩
      | ok result => exact nomatch hbuild.symm.trans ((hmerge parts hparts result).mp hgroup)
    · intro hfails
      cases hbuild : engine.build none (asSources dispatchers) with
      | error failure => exact ⟨failure, rfl⟩
      | ok result =>
        have hsingles := Grouping.dispatchers_singles dispatchers
        obtain ⟨failure, hgroup⟩ := hfails _ hsingles
        exact nomatch hgroup.symm.trans ((hmerge _ hsingles result).mpr hbuild)
  · intro name sources dispatcher hmerged hbuild
    exact ⟨Engine.build_copies hengine hmerged hbuild nofun,
      Engine.build_copies hengine hmerged hbuild fun copy hmem ↦ List.mem_singleton.mp hmem⟩

/-- A build succeeds if the names agree, the offers can be collected, and the methods that are left
have different keys and name registered types only. -/
theorem Engine.exists_build_of_left {engine : Engine} (hengine : engine.Reachable)
    (name : Option String) {sources : List Source} (hsources : NormalSources sources)
    (names : List String) (table : MethodTable) (left : List Method)
    (hgiven : givenNames name sources = names) (hnames : AllEqual names)
    (hcollect : (sources.flatMap Source.offers).foldlM Source.addEntry MethodTable.empty =
      .ok table)
    (hleft : remaining engine.ignored table.methods = left)
    (hkeys : (clauseKeys (left.flatMap Method.clauses)).Nodup)
    (hknown : ∀ method ∈ left, ∀ slot ∈ method.signature.slots, ∀ name ∈ slot.alternatives.names,
      name ∈ engine.types.names) :
    ∃ result, engine.build name sources = .ok result ∧ result.name = names.head? ∧
      result.methods = table := by
  subst hgiven
  obtain ⟨hacceptable, rfl⟩ := (collect_eq_ok_iff _ table).mp hcollect
  obtain ⟨hnodup, hlacks⟩ := @Engine.passed_of_left engine sources left hleft hkeys hknown
  obtain ⟨-, routine, -, -, hbuild⟩ :=
    Engine.build_of_passed hengine hsources hnames hacceptable hnodup hlacks
  exact ⟨_, hbuild, rfl, rfl⟩

/-- An engine that ignores a type which does not exist. -/
def lenient : Engine :=
  ⟨.standard, .empty, ["Missing"], none⟩

/-- Three multimethods share a method, one of them has a name, and one has a method of which nothing
is left without the ignored type. The first two are merged before the third is merged with the
result, which has all methods under the name of the first. -/
theorem merge_regroups_shared :
    ∃ first second third result,
      lenient.build (some "area") [.entries [("number", single)]] = .ok first ∧
      lenient.build none [.entries [("string | Missing", several), (" number ", single)]] =
        .ok second ∧
      lenient.build none [.entries [("Missing", several), ("number", single)]] = .ok third ∧
      result.name = some "area" ∧
      result.methods =
        .mk [("number", single), ("string|Missing", several), ("Missing", several)] ∧
      lenient.merge (.group [.group [.single first, .single second], .single third]) =
        .ok result ∧
      lenient.build none (asSources [first, first]) = .ok first := by
  have hlenient : lenient.Reachable :=
    @Engine.Reachable.ofSetup { ignored := ["Missing"] } lenient rfl
  have hentries : ∀ list : List Offer, NormalSources [.entries list] := by simp [NormalSources]
  have hbuilt : ∀ {name : Option String} {list : List Offer} {dispatcher : Dispatcher},
      lenient.build name [.entries list] = .ok dispatcher → dispatcher.Built :=
    fun hbuild ↦ .build hlenient (by simp) hbuild
  obtain ⟨first, hfirst, hfirstName, hfirstMethods⟩ :=
    Engine.exists_build_of_left hlenient (some "area") (hentries [("number", single)]) ["area"]
      (.mk [("number", single)]) [⟨⟨[.single "number"], none⟩, single⟩] rfl
      (allEqual_singleton "area") rfl
      rfl (by decide) (by decide)
  obtain ⟨second, hsecond, hsecondName, hsecondMethods⟩ :=
    Engine.exists_build_of_left hlenient none
      (hentries [("string | Missing", several), (" number ", single)]) []
      (.mk [("string|Missing", several), ("number", single)])
      [⟨⟨[.single "string"], none⟩, several⟩, ⟨⟨[.single "number"], none⟩, single⟩] rfl
      (List.forall_mem_nil _) rfl rfl (by decide) (by decide)
  obtain ⟨third, hthird, hthirdName, hthirdMethods⟩ :=
    Engine.exists_build_of_left hlenient none
      (hentries [("Missing", several), ("number", single)]) []
      (.mk [("Missing", several), ("number", single)]) [⟨⟨[.single "number"], none⟩, single⟩] rfl
      (List.forall_mem_nil _) rfl rfl (by decide) (by decide)
  have hall : ∀ dispatcher ∈ [first, second, third], dispatcher.Built := by
    simp only [List.forall_mem_cons]
    exact ⟨hbuilt hfirst, hbuilt hsecond, hbuilt hthird, List.forall_mem_nil _⟩
  have hnames : givenNames none (asSources [first, second, third]) = ["area"] := by
    rw [givenNames_asSources, usedNames]
    simp [hfirstName, hsecondName, hthirdName]
  have hoffers : (asSources [first, second, third]).flatMap Source.offers =
      [("number", single), ("string|Missing", several), ("number", single), ("Missing", several),
        ("number", single)] := by
    rw [flatMap_offers_asSources, allOffers]
    simp [hfirstMethods, hsecondMethods, hthirdMethods]
  obtain ⟨result, hresult, hname, hmethods⟩ :=
    Engine.exists_build_of_left hlenient none (normalSources_asSources hall) ["area"]
      (.mk [("number", single), ("string|Missing", several), ("Missing", several)])
      [⟨⟨[.single "number"], none⟩, single⟩, ⟨⟨[.single "string"], none⟩, several⟩] hnames
      (allEqual_singleton "area") (by rw [hoffers]; rfl) rfl (by decide) (by decide)
  exact ⟨first, second, third, result, hfirst, hsecond, hthird, hname, hmethods,
    ((merge_regroups lenient hlenient).1 [first, second, third] hall).2 result hresult
      [.group [.single first, .single second], .single third] rfl,
    ((merge_regroups lenient hlenient).2 (some "area") _ first (by simp) hfirst).2⟩

end Multimethod
