import Multimethod.Proofs.Canonical
import Multimethod.Proofs.Furthest
import Multimethod.Proofs.HelpfulConversions
import Multimethod.Proofs.InertConversions
import Multimethod.Proofs.RepeatedSlot
import Multimethod.Proofs.Restriction

/-!
# Converting and dispatching

A value can be converted to a type by `Engine.convert`, or by a call of a multimethod whose one
signature is that type. The two choose conversions by different rules: converting tries all that
lead to the type, while a branch leaves out those that start from the type and all but the first of
those that start from one other type. A conversion that starts from the type is never used, because
a value of the type is not converted at all. So the two agree if no two conversions have the same
ends (`pass?_eq_convert?`); otherwise the call may find less, but never more
(`pass?_eq_none_of_convert?`).
-/

set_option autoImplicit false
set_option relaxedAutoImplicit false

namespace Multimethod

/-! ### Conversions that are not shadowed -/

/-- A conversion leads from outside some types into them. -/
def Conversion.helps (targets : List String) (conversion : Conversion) : Bool :=
  targets.contains conversion.target && !targets.contains conversion.source

theorem Conversion.helps_iff (targets : List String) (conversion : Conversion) :
    conversion.helps targets = true ↔
      conversion.target ∈ targets ∧ conversion.source ∉ targets := by
  simp [helps]

namespace ConversionTable

/-- No two conversions have both the same source and the same target. -/
def HasDistinctEnds (table : ConversionTable) : Prop :=
  table.conversions.Pairwise fun first second ↦
    ¬ (first.source = second.source ∧ first.target = second.target)

/-- The conversions that help are all selected if they start from different types. -/
theorem toward_eq_filter {table : ConversionTable} {targets : List String}
    (hsources : ((table.conversions.filter (·.helps targets)).map Conversion.source).Nodup) :
    table.toward targets = table.conversions.filter (·.helps targets) := by
  obtain ⟨conversions⟩ := table
  induction conversions using List.reverseRecOn with
  | nil => rfl
  | append_singleton before conversion ih =>
    rw [List.filter_append, List.map_append, List.nodup_append] at hsources
    obtain ⟨hbefore, -, hnew⟩ := hsources
    have hhelps : conversion.HelpsAfter targets before ↔ conversion.helps targets = true := by
      rw [conversion.helps_iff]
      refine ⟨fun hafter ↦ ⟨hafter.1, hafter.2.1⟩, fun ⟨htarget, hsource⟩ ↦ ?_⟩
      refine ⟨htarget, hsource, fun earlier hearlier hsame hinto ↦ ?_⟩
      have hkept : earlier ∈ before.filter (·.helps targets) :=
        List.mem_filter.mpr ⟨hearlier, (earlier.helps_iff targets).mpr ⟨hinto, hsame ▸ hsource⟩⟩
      have hlast : conversion ∈ [conversion].filter (·.helps targets) :=
        List.mem_filter.mpr
          ⟨List.mem_singleton_self _, (conversion.helps_iff targets).mpr ⟨htarget, hsource⟩⟩
      exact hnew _ (List.mem_map_of_mem hkept) _ (List.mem_map_of_mem hlast) hsame
    rw [toward_concat, ih hbefore, List.filter_append, List.filter_singleton]
    simp only [hhelps, Bool.cond_eq_ite]

/-- Where one type is expected, the conversions to it from other types are selected. -/
theorem toward_singleton {table : ConversionTable} (hdistinct : table.HasDistinctEnds)
    (target : String) :
    table.toward [target] = (table.into target).filter (·.source != target) := by
  have hhelps : ∀ conversion : Conversion, conversion.helps [target] =
      (conversion.source != target && conversion.target == target) := by
    intro conversion
    rw [Conversion.helps, List.contains_cons, List.contains_nil, Bool.or_false, List.contains_cons,
      List.contains_nil, Bool.or_false, Bool.and_comm]
    rfl
  rw [toward_eq_filter, into, List.filter_filter]
  · exact List.filter_congr fun conversion _ ↦ hhelps conversion
  · refine List.pairwise_map.mpr ((hdistinct.filter _).imp_of_mem ?_)
    intro first second hfirst hsecond hne hsame
    have htarget : ∀ conversion ∈ table.conversions.filter (·.helps [target]),
        conversion.target = target := by
      intro conversion hmem
      have hhelp := (List.mem_filter.mp hmem).2
      rw [hhelps, Bool.and_eq_true] at hhelp
      exact beq_iff_eq.mp hhelp.2
    exact hne ⟨hsame, (htarget first hfirst).trans (htarget second hsecond).symm⟩

end ConversionTable

/-! ### Converting without failures -/

section Values

variable {types : TypeTable} {conversions : ConversionTable} {target : String} {value : Value}

/-- A value as one of a type: as it is if it has the type, else by the first conversion to the type
that applies. -/
def ConversionTable.convert? (conversions : ConversionTable) (types : TypeTable) (value : Value)
    (target : String) : Option Value :=
  if types.accepts target value then some value
  else (conversions.into target).findSome? fun conversion ↦ conversion.output? types value

/-- What cannot be converted to a type is refused where the type is expected. -/
theorem pass?_eq_none_of_convert? (hnone : conversions.convert? types value target = none) :
    Alternatives.pass? types conversions (.single target) value = none := by
  unfold ConversionTable.convert? at hnone
  unfold Alternatives.pass?
  rw [Alternatives.names_single, List.any_cons, List.any_nil, Bool.or_false]
  cases haccepts : types.accepts target value with
  | true =>
    rw [haccepts] at hnone
    cases hnone
  | false =>
    rw [haccepts, if_neg Bool.false_ne_true, List.findSome?_eq_none_iff] at hnone
    rw [if_neg Bool.false_ne_true, List.findSome?_eq_none_iff]
    intro conversion hwired
    obtain ⟨hmem, htarget⟩ := ConversionTable.mem_of_mem_toward hwired
    refine hnone conversion (List.mem_filter.mpr ⟨hmem, ?_⟩)
    exact beq_iff_eq.mpr (List.mem_singleton.mp htarget)

/-- Where one type is expected, a value is passed on as it is converted to this type, if no two
conversions have the same ends. -/
theorem pass?_eq_convert? (hdistinct : conversions.HasDistinctEnds) :
    Alternatives.pass? types conversions (.single target) value =
      conversions.convert? types value target := by
  unfold ConversionTable.convert? Alternatives.pass?
  rw [Alternatives.names_single, List.any_cons, List.any_nil, Bool.or_false]
  cases haccepts : types.accepts target value with
  | true => rfl
  | false =>
    rw [if_neg Bool.false_ne_true, if_neg Bool.false_ne_true,
      ConversionTable.toward_singleton hdistinct]
    refine findSome?_filter_of_forall fun conversion _ happlies ↦ ?_
    -- A conversion from the target would start from a value that has the type already.
    obtain ⟨taken, htaken⟩ := Option.isSome_iff_exists.mp happlies
    have hboth := (Option.ite_none_right_eq_some.mp htaken).1
    have hstarts := (Bool.and_eq_true_iff.mp hboth).1
    refine bne_iff_ne.mpr fun hsource ↦ ?_
    rw [hsource, haccepts] at hstarts
    cases hstarts

end Values

/-- An engine converts a value to a known type, or reports the type that the value has. -/
theorem Engine.convert_eq {engine : Engine} (hsound : engine.IsSound) {target : String}
    (hknown : engine.types.contains target = true) (value : Value) :
    engine.convert value target =
      match engine.conversions.convert? engine.types value target with
      | some converted => .ok converted
      | none => .error (.inconvertible (engine.types.classify value) target) := by
  have htest := (engine.types.test_eq_ok_iff target _).mpr ⟨hknown, rfl⟩
  have hsources : ∀ conversion ∈ engine.conversions.into target,
      engine.types.contains conversion.source = true :=
    fun conversion hmem ↦ hsound.contains (List.mem_filter.mp hmem).1 (Or.inl rfl)
  have hby : convertBy engine.types (engine.types.accepts target) value
      (engine.conversions.into target) = .ok ((engine.conversions.into target).findSome?
        fun conversion ↦ conversion.output? engine.types value) := by
    rw [convertBy_eq_ok _ value hsources]
    refine congrArg _ (findSome?_eq_of_forall₂ (List.forall₂_same.mpr fun conversion hmem ↦ ?_)
      fun _ _ hsame ↦ hsame)
    rw [Conversion.output?, beq_iff_eq.mp (List.mem_filter.mp hmem).2]
  rw [convert, htest, ConversionTable.convert?]
  dsimp only [bind, Except.bind]
  cases engine.types.accepts target value with
  | true => rfl
  | false =>
    simp only [hby, if_neg Bool.false_ne_true]
    cases (engine.conversions.into target).findSome? _ <;> rfl

/-! ### Multimethods of one type -/

/-- The names of the types of a reachable engine can stand in signatures. -/
theorem Engine.Reachable.isPlain {engine : Engine} (hreachable : engine.Reachable) {name : String}
    (hname : name ∈ engine.types.names) : TypeName.IsPlain name := by
  have hnames : ∀ name ∈ engine.types.names, TypeName.fault? name = none := by
    refine hreachable.types_induction
      (motive := fun types ↦ ∀ name ∈ types.names, TypeName.fault? name = none) (by decide)
      (by decide) fun types changed type beforeCatchAll hnow hadd name hmem ↦ ?_
    obtain ⟨hproper, hnew, rfl⟩ := (TypeTable.add_eq_ok_iff ..).mp hadd
    rcases (TypeTable.mem_names_insert ..).mp hmem with rfl | hold
    · exact hproper
    · exact hnow name hold
  exact ((TypeName.fault?_eq_none_iff name).mp (hnames name hname)).2

/-- A name is the written form of a pattern. -/
@[simp] theorem Pattern.key_of_name (name : String) : key ⟨[name], none⟩ = name := by
  show ",".intercalate [name] = name
  exact String.intercalate_singleton

theorem Pattern.isNormal_of_name {name : String} (hplain : TypeName.IsPlain name) :
    IsNormal ⟨[name], none⟩ :=
  ⟨fun _ hmem ↦ List.mem_singleton.mp hmem ▸ hplain, nofun⟩

/-- The one clause of the key of a pattern is kept if no type of the pattern is ignored. -/
theorem MethodTable.clauses_of_pattern {ignored : List String} {pattern : Pattern}
    (hnormal : pattern.IsNormal)
    (hkept : pattern.restrict (fun name ↦ !ignored.contains name) = some pattern)
    (implementation : Implementation) :
    clauses ignored (.mk [(pattern.key, implementation)] (List.nodup_singleton _)) =
      .ok [⟨pattern, implementation⟩] := by
  obtain ⟨single, hparse, hsingle⟩ := @Method.clauses_of_key ⟨pattern, implementation⟩ hnormal
  have hleft : Clause.without ignored ⟨pattern, implementation⟩ =
      some ⟨pattern, implementation⟩ := by
    rw [Clause.without, hkept]
    rfl
  rw [clauses_eq_ok_iff_filterMap, List.flatMap_singleton, Offer.clauses_of_ok hparse, hsingle,
    List.filterMap_cons_some hleft]
  exact ⟨List.forall_mem_singleton.mpr ⟨_, Pattern.parse_key hnormal⟩, List.nodup_singleton _, rfl⟩

/-- A multimethod can be built from one entry with a normal pattern of known types, of which none
is ignored. -/
theorem Engine.exists_build_of_pattern {engine : Engine} (hengine : engine.Reachable)
    {pattern : Pattern} (hnormal : pattern.IsNormal)
    (hkept : pattern.restrict (fun name ↦ !engine.ignored.contains name) = some pattern)
    (hknown : ∀ name, pattern.uses name = true → engine.types.contains name = true)
    (name : Option String) (implementation : Implementation) :
    ∃ routine, Routine.ofTree engine.types engine.conversions
        ⟨[(pattern.arity, .way ⟨pattern, implementation⟩ pattern.fixed)]⟩ = .ok routine ∧
      engine.build name [.entries [(pattern.key, implementation)]] =
        .ok ⟨(givenNames name []).head?,
          .mk [(pattern.key, implementation)] (List.nodup_singleton _), routine,
          engine.rescue⟩ := by
  have htree : Tree.ofClauses [⟨pattern, implementation⟩] =
      .ok ⟨[(pattern.arity, .way ⟨pattern, implementation⟩ pattern.fixed)]⟩ := rfl
  obtain ⟨routine, hroutine⟩ :=
    ((Tree.represents_ofClauses htree).exists_ofTree_iff hengine.isSound).mpr
      fun clause hclause ↦ List.mem_singleton.mp hclause ▸ hknown
  have hform : Signature.normalForm pattern.key = .ok pattern.key :=
    Signature.normalForm_eq_ok_iff.mpr ⟨_, Pattern.parse_key hnormal, Pattern.key_signature _⟩
  have hoffers : NormalOffers [(pattern.key, implementation)] :=
    List.forall_mem_singleton.mpr hform
  have hclauses := MethodTable.clauses_of_pattern hnormal hkept implementation
  have hcollected : collected [(pattern.key, implementation)] = [(pattern.key, implementation)] :=
    collected_eq_self hoffers (List.nodup_singleton _)
  have hagree : Agree [(pattern.key, implementation)] := by
    rw [← hcollected]
    exact agree_collected _
  refine ⟨routine, hroutine, (build_eq_ok_iff (normalSources_entries _)).mpr
    ⟨allEqual_givenNames_nil name, (acceptable_iff_agree hoffers).mpr hagree, ?_⟩⟩
  show engine.assemble _ (.ofOffers [(pattern.key, implementation)]) = _
  have htable : MethodTable.ofOffers [(pattern.key, implementation)] =
      .mk [(pattern.key, implementation)] (List.nodup_singleton _) := MethodTable.ext hcollected
  rw [htable]
  exact assemble_eq_ok_iff.mpr ⟨_, hclauses, _, htree, routine, hroutine, rfl⟩

/-- No plan stops without an argument that is left. -/
@[simp] theorem Plan.stops_nil (plan : Plan) (position : Nat) : plan.stops position [] = [] := by
  cases plan with
  | done clause => rfl
  | branch steps => rfl
  | collect arms => exact List.filterMap_eq_nil_iff.mpr fun _ _ ↦ rfl

section OneName

variable {types : TypeTable} {conversions : ConversionTable} {target : String}
  {implementation : Implementation} {routine : Routine}

/-- A call of one argument of a multimethod of one type stops only at the argument. -/
theorem mismatch_of_name (hroutine : Routine.ofTree types conversions
      ⟨[(.exact 1, .way ⟨⟨[target], none⟩, implementation⟩ [target])]⟩ = .ok routine)
    (function : Option String) (value : Value) :
    routine.mismatch function [value] =
      .argumentType function 0 (types.classify value) [target] := by
  obtain ⟨hgroups, htypes⟩ := ofTree_eq_ok hroutine
  obtain ⟨⟨arity, plan⟩, others, ⟨rfl, hplan⟩, hothers, hsplit⟩ :=
    List.forall₂_cons_left_iff.mp hgroups
  rw [List.forall₂_nil_left_iff.mp hothers] at hsplit
  have hplans : routine.plansFor 1 = [plan] := by
    rw [Routine.plansFor, hsplit]
    rfl
  obtain ⟨direct, hdirect, rfl⟩ := Plan.ofNode_branch_eq_ok hplan
  have hnames : (types.inOrder [(target, Node.way ⟨⟨[target], none⟩, implementation⟩ [])]).map
      Prod.fst = [target] := by
    rw [TypeTable.inOrder, List.perm_singleton.mp (Rank.perm_sort _ _)]
    rfl
  have hstops : routine.stops [value] = [⟨0, [target]⟩] := by
    rw [Routine.stops, List.length_singleton, hplans, List.flatMap_singleton, Plan.stops,
      expected_steps hdirect, hnames]
    refine congrArg _ (List.flatMap_eq_nil_iff.mpr fun step _ ↦ ?_)
    rw [Plan.stops_nil, ite_self]
  rw [Routine.mismatch, List.length_singleton, hplans, hstops]
  show Failure.argumentType function 0 (routine.types.classify value) [target] = _
  rw [htypes]

/-- A call of one argument of a multimethod of one type runs the implementation on what the type
passes on, or reports the type of the argument and the expected one. -/
theorem run_of_name (hplain : TypeName.IsPlain target)
    (hroutine : Routine.ofTree types conversions
      ⟨[(.exact 1, .way ⟨⟨[target], none⟩, implementation⟩ [target])]⟩ = .ok routine)
    (function : Option String) (value : Value) :
    routine.run function [value] =
      match Alternatives.pass? types conversions (.single target) value with
      | some taken => .ok (implementation.run [taken])
      | none => .error (.argumentType function 0 (types.classify value) [target]) := by
  have hnormal : (Method.mk ⟨[.single target], none⟩ implementation).signature.IsNormal :=
    (Pattern.isNormal_signature_iff ⟨[target], none⟩).mpr (Pattern.isNormal_of_name hplain)
  rw [run_of_method hnormal rfl hroutine function rfl, mismatch_of_name hroutine, passSlots?]
  cases Alternatives.pass? types conversions (.single target) value <;> rfl

end OneName

/-! ### Converting and calling -/

/-- Converting a value to a type agrees with calling a multimethod whose one signature is the type
and whose implementation gives its argument back. Such a multimethod can be built for the wildcard
and for every registered type, unless the name is ignored. If it answers, the value can be
converted, and to the same value if no two conversions have the same ends; if the value cannot be
converted, the call reports the same actual type, and the target as the only expected one. -/
theorem convert_agrees_with_call (engine : Engine) (hengine : engine.Reachable)
    (hrescue : engine.rescue = none) (target : String)
    (htarget : target = wildcard ∨ target ∈ engine.types.names) (hkept : target ∉ engine.ignored)
    (name : Option String) (implementation : Implementation)
    (hidentity : ∀ value, implementation.run [value] = .ok value) :
    ∃ dispatcher, engine.build name [.entries [(target, implementation)]] = .ok dispatcher ∧
      ∀ value,
        (∀ result, dispatcher.call [value] = .ok result →
          ∃ converted, engine.convert value target = .ok converted) ∧
        (engine.conversions.HasDistinctEnds → ∀ result,
          dispatcher.call [value] = .ok result ↔ engine.convert value target = .ok result) ∧
        ∀ actual, engine.convert value target = .error (.inconvertible actual target) →
          dispatcher.call [value] = .error (.argumentType dispatcher.name 0 actual [target]) := by
  have hplain : TypeName.IsPlain target := by
    rcases htarget with rfl | hmem
    · exact TypeName.isPlain_wildcard
    · exact hengine.isPlain hmem
  have hknown : engine.types.contains target = true :=
    (engine.types.contains_eq_true_iff target).mpr htarget
  have hleft : Pattern.restrict (fun name ↦ !engine.ignored.contains name) ⟨[target], none⟩ =
      some ⟨[target], none⟩ := by
    refine Pattern.restrict_eq_some_iff.mpr ⟨⟨List.forall_mem_singleton.mpr ?_,
      fun _ hmem ↦ absurd hmem (Option.not_mem_none _)⟩, rfl⟩
    simpa using hkept
  have huses : ∀ found, Pattern.uses found ⟨[target], none⟩ = true →
      engine.types.contains found = true := by
    intro found hfound
    have hsame : found = target := by simpa [Pattern.uses] using hfound
    rw [hsame, hknown]
  obtain ⟨routine, hroutine, hbuild⟩ := Engine.exists_build_of_pattern hengine
    (Pattern.isNormal_of_name hplain) hleft huses name implementation
  rw [Pattern.key_of_name] at hbuild
  refine ⟨_, hbuild, fun value ↦ ?_⟩
  rw [Engine.convert_eq hengine.isSound hknown, Dispatcher.call,
    run_of_name hplain hroutine, hrescue]
  cases hconvert : engine.conversions.convert? engine.types value target with
  | none =>
    rw [pass?_eq_none_of_convert? hconvert]
    have hrefused (failure : Failure) (result : Value) : Except.error failure ≠ .ok result := by
      intro hanswer
      cases hanswer
    refine ⟨fun result hcall ↦ absurd hcall (hrefused _ result),
      fun _ result ↦ iff_of_false (hrefused _ result) (hrefused _ result), fun actual hactual ↦ ?_⟩
    obtain ⟨hclassify, -⟩ := Failure.inconvertible.inj (Except.error.inj hactual)
    rw [hclassify]
  | some converted =>
    refine ⟨fun _ _ ↦ ⟨converted, rfl⟩, fun hdistinct result ↦ ?_, fun actual hactual ↦ ?_⟩
    · rw [pass?_eq_convert? hdistinct, hconvert]
      show implementation.run [converted] = .ok result ↔ _
      rw [hidentity]
    · cases hactual

/-- An implementation that gives its first argument back. -/
def givingBack : Implementation :=
  ⟨0, fun passed ↦ .ok (passed.headD .undefined)⟩

/-- The standard engine with a conversion that wraps an absent value. -/
def wrappingEngine : Engine :=
  ⟨.standard, wrapping, [], none⟩

/-- An absent value is wrapped by both ways, and an undefined one is refused by both. -/
theorem convert_agrees_with_call_wrapping :
    ∃ dispatcher,
      wrappingEngine.build (some "listed") [.entries [("Array", givingBack)]] = .ok dispatcher ∧
      wrappingEngine.convert .null "Array" = .ok (.array [.null]) ∧
      dispatcher.call [.null] = .ok (.array [.null]) ∧
      wrappingEngine.convert .undefined "Array" = .error (.inconvertible "undefined" "Array") ∧
      dispatcher.call [.undefined] =
        .error (.argumentType dispatcher.name 0 "undefined" ["Array"]) := by
  have hchange : Engine.standard.withConversion ⟨"null", "Array", fun value ↦ .array [value]⟩ =
      .ok wrappingEngine := rfl
  have hdistinct : wrappingEngine.conversions.HasDistinctEnds := List.pairwise_singleton _ _
  have harray : "Array" ∈ wrappingEngine.types.names := by decide
  obtain ⟨dispatcher, hbuild, hagrees⟩ := convert_agrees_with_call wrappingEngine
    (.withConversion .standard hchange) rfl "Array" (Or.inr harray) List.not_mem_nil
    (some "listed") givingBack fun _ ↦ rfl
  have hconvert : wrappingEngine.convert .null "Array" = .ok (.array [.null]) := rfl
  have hrefused : wrappingEngine.convert .undefined "Array" =
      .error (.inconvertible "undefined" "Array") := rfl
  exact ⟨dispatcher, hbuild, hconvert, ((hagrees .null).2.1 hdistinct _).mpr hconvert, hrefused,
    (hagrees .undefined).2.2 _ hrefused⟩

/-- An engine that ignores the wildcard. -/
def ignoringWildcard : Engine :=
  ⟨.standard, .empty, [wildcard], none⟩

/-- If the wildcard is ignored, nothing is left of its signature, so that no call of one argument is
answered. Converting does not ask what is ignored, and gives every value back. -/
theorem convert_although_ignored :
    ignoringWildcard.Reachable ∧ ignoringWildcard.rescue = none ∧
      ignoringWildcard.conversions.HasDistinctEnds ∧
      ∃ dispatcher,
        ignoringWildcard.build none [.entries [("*", givingBack)]] = .ok dispatcher ∧
        ∀ value, ignoringWildcard.convert value "*" = .ok value ∧
          dispatcher.call [value] = .error (.argumentCount none 1 "none") := by
  have hsetup : Engine.ofSetup { ignored := [wildcard] } = .ok ignoringWildcard := rfl
  refine ⟨.ofSetup hsetup, rfl, List.Pairwise.nil, ?_⟩
  exact ⟨⟨none, .mk [("*", givingBack)], ⟨[], .standard⟩, none⟩, rfl, fun value ↦ ⟨rfl, rfl⟩⟩

end Multimethod
