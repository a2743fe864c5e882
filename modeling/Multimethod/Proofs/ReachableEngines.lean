import Multimethod.Engine.Setup
import Multimethod.Proofs.Results

/-!
# Reachable engines

An engine starts as the standard one or as the engine of a setup, and changes only by new types, by
new conversions and by dropping all conversions. `Engine.Reachable` says so, one case for each of
these operations; an operation that fails leaves the engine that was there.

Types are never dropped, and a conversion is added only between registered types. So both ends of
every conversion of a reachable engine are registered types (`Engine.Reachable.isSound`).
-/

set_option autoImplicit false
set_option relaxedAutoImplicit false

namespace Multimethod

/-! ### Registered types -/

namespace TypeTable

@[simp] theorem contains_eq_false_iff (types : TypeTable) (name : String) :
    types.contains name = false ↔ name ≠ wildcard ∧ name ∉ types.names := by
  simp [← Bool.not_eq_true]

/-- A new type is added to the names, and no name is dropped. -/
@[simp] theorem mem_names_insert (types : TypeTable) (type : ValueType) (beforeCatchAll : Bool)
    (hnew : type.name ∉ types.names) (name : String) :
    name ∈ (types.insert type beforeCatchAll hnew).names ↔
      name = type.name ∨ name ∈ types.names := by
  have hperm := List.perm_insertIdx type types.types (types.newPlace_le beforeCatchAll)
  exact (hperm.map ValueType.name).mem_iff.trans List.mem_cons

end TypeTable

/-! ### Conversions between registered types -/

/-- Both ends of every conversion are registered types. -/
def ConversionTable.Within (conversions : ConversionTable) (types : TypeTable) : Prop :=
  ∀ conversion ∈ conversions.conversions,
    (conversion.source ≠ wildcard ∧ conversion.source ∈ types.names) ∧
      conversion.target ≠ wildcard ∧ conversion.target ∈ types.names

namespace ConversionTable

@[simp] theorem within_empty (types : TypeTable) : empty.Within types :=
  fun _ hmem ↦ absurd hmem List.not_mem_nil

@[simp] theorem checkEnd_eq_ok_iff (types : TypeTable) (name : String) (result : Unit) :
    checkEnd types name = .ok result ↔ name ≠ wildcard ∧ name ∈ types.names := by
  unfold checkEnd TypeTable.test
  by_cases hname : name = wildcard
  · simp [hname]
  · rw [if_neg hname, if_neg hname, ← TypeTable.isSome_find?_iff]
    cases types.find? name with
    | none => simp [Except.map]
    | some type => simp [Except.map, hname]

/-- A conversion is added between registered types, after the others. -/
theorem add_eq_ok {conversions changed : ConversionTable} {types : TypeTable}
    {conversion : Conversion} (hadd : conversions.add types conversion = .ok changed) :
    (conversion.source ≠ wildcard ∧ conversion.source ∈ types.names) ∧
      (conversion.target ≠ wildcard ∧ conversion.target ∈ types.names) ∧
        changed.conversions = conversions.conversions ++ [conversion] := by
  obtain ⟨sourceChecked, hsource, hrest⟩ := bind_eq_ok_iff.mp hadd
  obtain ⟨targetChecked, htarget, hpure⟩ := bind_eq_ok_iff.mp hrest
  rw [← Except.ok.inj hpure]
  exact ⟨(checkEnd_eq_ok_iff types _ _).mp hsource, (checkEnd_eq_ok_iff types _ _).mp htarget, rfl⟩

theorem within_add {conversions changed : ConversionTable} {types : TypeTable}
    {conversion : Conversion} (hwithin : conversions.Within types)
    (hadd : conversions.add types conversion = .ok changed) : changed.Within types := by
  obtain ⟨hsource, htarget, hchanged⟩ := add_eq_ok hadd
  intro found hmem
  rw [hchanged] at hmem
  rcases List.mem_append.mp hmem with hold | hnew
  · exact hwithin found hold
  · rw [List.mem_singleton.mp hnew]
    exact ⟨hsource, htarget⟩

/-- More types leave conversions between registered types. -/
theorem Within.mono {conversions : ConversionTable} {types more : TypeTable}
    (hwithin : conversions.Within types) (hmore : ∀ name ∈ types.names, name ∈ more.names) :
    conversions.Within more := by
  intro conversion hmem
  obtain ⟨⟨hsource, hsourceIn⟩, htarget, htargetIn⟩ := hwithin conversion hmem
  exact ⟨⟨hsource, hmore _ hsourceIn⟩, htarget, hmore _ htargetIn⟩

/-- The ends of a conversion between registered types can be looked up. -/
theorem Within.contains {conversions : ConversionTable} {types : TypeTable}
    (hwithin : conversions.Within types) {conversion : Conversion}
    (hmem : conversion ∈ conversions.conversions) {name : String}
    (hend : name = conversion.source ∨ name = conversion.target) : types.contains name = true := by
  obtain ⟨⟨-, hsource⟩, -, htarget⟩ := hwithin conversion hmem
  rw [types.contains_eq_true_iff]
  rcases hend with rfl | rfl
  · exact Or.inr hsource
  · exact Or.inr htarget

end ConversionTable

/-! ### Reachable engines -/

namespace Engine

/-- The engines that are made by a setup and changed by the operations on engines. -/
inductive Reachable : Engine → Prop
  | standard : Reachable Engine.standard
  | ofSetup {setup : Setup} {engine : Engine} (hsetup : Engine.ofSetup setup = .ok engine) :
      Reachable engine
  | withType {engine changed : Engine} {type : ValueType} {beforeCatchAll : Bool}
      (hengine : Reachable engine) (hchange : engine.withType type beforeCatchAll = .ok changed) :
      Reachable changed
  | withConversion {engine changed : Engine} {conversion : Conversion}
      (hengine : Reachable engine) (hchange : engine.withConversion conversion = .ok changed) :
      Reachable changed
  | withoutConversions {engine : Engine} (hengine : Reachable engine) :
      Reachable engine.withoutConversions

/-- The conversions of an engine are between its types. -/
def IsSound (engine : Engine) : Prop :=
  engine.conversions.Within engine.types

theorem isSound_ofSetup {setup : Setup} {engine : Engine}
    (hsetup : Engine.ofSetup setup = .ok engine) : engine.IsSound := by
  obtain ⟨types, -, hrest⟩ := bind_eq_ok_iff.mp hsetup
  obtain ⟨conversions, hconversions, hpure⟩ := bind_eq_ok_iff.mp hrest
  rw [← Except.ok.inj hpure]
  show conversions.Within types
  exact foldlM_ok_induction (motive := fun _ now ↦ now.Within types)
    (ConversionTable.within_empty types)
    (fun _ _ _ _ hnow hadd ↦ ConversionTable.within_add hnow hadd) hconversions

theorem isSound_withType {engine changed : Engine} {type : ValueType} {beforeCatchAll : Bool}
    (hsound : engine.IsSound) (hchange : engine.withType type beforeCatchAll = .ok changed) :
    changed.IsSound := by
  obtain ⟨types, hadd, rfl⟩ := map_eq_ok_iff.mp hchange
  obtain ⟨-, hnew, rfl⟩ := (TypeTable.add_eq_ok_iff ..).mp hadd
  exact hsound.mono fun name hmem ↦ by simp [hmem]

theorem isSound_withConversion {engine changed : Engine} {conversion : Conversion}
    (hsound : engine.IsSound) (hchange : engine.withConversion conversion = .ok changed) :
    changed.IsSound := by
  obtain ⟨conversions, hadd, rfl⟩ := map_eq_ok_iff.mp hchange
  exact ConversionTable.within_add hsound hadd

/-- What holds of the two tables that an engine can start with, and is kept when a type is added,
holds of the types of every reachable engine. -/
theorem Reachable.types_induction {motive : TypeTable → Prop} (hempty : motive .empty)
    (hstandard : motive .standard)
    (hadd : ∀ (types changed : TypeTable) (type : ValueType) (beforeCatchAll : Bool), motive types →
      types.add type beforeCatchAll = .ok changed → motive changed)
    {engine : Engine} (hreachable : engine.Reachable) : motive engine.types := by
  induction hreachable with
  | standard => exact hstandard
  | @ofSetup setup engine hsetup =>
    obtain ⟨types, htypes, hrest⟩ := bind_eq_ok_iff.mp hsetup
    obtain ⟨conversions, -, hpure⟩ := bind_eq_ok_iff.mp hrest
    rw [← Except.ok.inj hpure]
    show motive types
    refine foldlM_ok_induction (motive := fun _ now ↦ motive now) ?_
      (fun _ type now next hnow hnext ↦ hadd now next type.1 type.2 hnow hnext) htypes
    cases setup.withKinds with
    | true => exact hstandard
    | false => exact hempty
  | withType _ hchange ih =>
    obtain ⟨types, htypes, rfl⟩ := map_eq_ok_iff.mp hchange
    exact hadd _ _ _ _ ih htypes
  | withConversion _ hchange ih =>
    obtain ⟨conversions, -, rfl⟩ := map_eq_ok_iff.mp hchange
    exact ih
  | withoutConversions _ ih => exact ih

/-- Both ends of every conversion of a reachable engine are registered types. -/
theorem Reachable.isSound {engine : Engine} (hreachable : engine.Reachable) : engine.IsSound := by
  induction hreachable with
  | standard => exact ConversionTable.within_empty _
  | ofSetup hsetup => exact isSound_ofSetup hsetup
  | withType _ hchange ih => exact isSound_withType ih hchange
  | withConversion _ hchange ih => exact isSound_withConversion ih hchange
  | withoutConversions _ _ => exact ConversionTable.within_empty _

end Engine

end Multimethod
