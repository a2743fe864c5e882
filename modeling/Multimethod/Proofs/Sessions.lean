import Multimethod.Engine.Session
import Multimethod.Proofs.InertConversions

/-!
# What sessions keep

Every operation on an engine is work in place: it checks first and changes one table last. So it
either leaves the changed engine or fails and leaves the engine as it was (`Engine.on_perform`),
and `settled` is this pattern. It holds of the tables (`TypeTable.on_put`, `ConversionTable.on_put`)
and is handed on from there. A setup performs its changes one after the other on the engine that it
starts from (`Engine.ofSetup_eq_finished`).

A change of one engine of a session leaves the others as they are (`Session.getElem?_on_onEngine`).
One command keeps all engines reachable (`Session.IsReachable.on_perform`), hence so do any
commands, failed ones included (`Session.isReachable_after`). Reachable engines have conversions
between their own types only, so no failure of theirs is about a conversion
(`sessions_hold_no_dangling_conversion`).
-/

set_option autoImplicit false
set_option relaxedAutoImplicit false

namespace Multimethod

/-! ### Settled work -/

/-- What work does that gives the changed state or fails: it leaves the changed state, or the one
from before. -/
def settled {σ : Type} (before : σ) : Except Failure σ → Except Failure Unit × σ
  | .ok changed => (.ok (), changed)
  | .error failure => (.error failure, before)

/-- The state that work leaves if it does not fail. -/
def finished {σ : Type} (done : Except Failure Unit × σ) : Except Failure σ :=
  done.1.map fun _ ↦ done.2

theorem snd_settled_of_error {σ : Type} {before : σ} {result : Except Failure σ}
    {failure : Failure} (hfails : (settled before result).1 = .error failure) :
    (settled before result).2 = before := by
  cases result with
  | ok changed => exact nomatch hfails
  | error failure => rfl

namespace InPlace

variable {σ : Type}

/-- What work does that goes on after other work: nothing if this has failed. -/
def resume {α β : Type} (next : α → InPlace σ β) :
    Except Failure α × σ → Except Failure β × σ
  | (.ok result, left) => (next result).on left
  | (.error failure, left) => (.error failure, left)

/-- Work after other work starts from what this has left. -/
@[simp] theorem on_bind {α β : Type} (work : InPlace σ α) (next : α → InPlace σ β) (state : σ) :
    (work >>= next).on state = resume next (work.on state) := by
  unfold on
  rw [ExceptT.run_bind, StateT.run_bind]
  obtain ⟨result, left⟩ : Except Failure α × σ := (ExceptT.run work).run state
  cases result <;> rfl

theorem on_forM_cons {α : Type} (work : α → InPlace σ Unit) (entry : α) (entries : List α)
    (state : σ) :
    ((entry :: entries).forM work).on state =
      resume (fun _ ↦ entries.forM work) ((work entry).on state) :=
  on_bind (work entry) (fun _ ↦ entries.forM work) state

@[simp] theorem on_get (state : σ) : (get : InPlace σ σ).on state = (.ok state, state) :=
  rfl

/-- Checks leave the state as it is. -/
@[simp] theorem on_check {α : Type} (check : Except Failure α) (state : σ) :
    (liftM check : InPlace σ α).on state = (check, state) :=
  rfl

end InPlace

/-! ### Tables -/

namespace TypeTable

/-- Putting a type into a table in place gives what adding it gives. -/
@[simp] theorem on_put (table : TypeTable) (type : ValueType) (beforeCatchAll : Bool) :
    (put type beforeCatchAll).on table = settled table (table.add type beforeCatchAll) := by
  unfold put
  rw [InPlace.on_bind, InPlace.on_get, InPlace.resume]
  split
  · next failure hrefusal =>
    rw [(add_eq_error_iff ..).mpr hrefusal]
    rfl
  · next hrefusal =>
    obtain ⟨hproper, hnew⟩ := (table.refusal?_eq_none_iff _).mp hrefusal
    rw [(add_eq_ok_iff ..).mpr ⟨hproper, hnew, rfl⟩]
    rfl

end TypeTable

/-- Putting a conversion into a table in place gives what adding it gives. -/
@[simp] theorem ConversionTable.on_put (table : ConversionTable) (types : TypeTable)
    (conversion : Conversion) :
    (put types conversion).on table = settled table (table.add types conversion) := by
  unfold put add
  rw [InPlace.on_bind, InPlace.on_forM_cons, InPlace.on_check]
  cases checkEnd types conversion.source with
  | error failure => rfl
  | ok _ =>
    rw [InPlace.resume, InPlace.on_forM_cons, InPlace.on_check]
    cases checkEnd types conversion.target <;> rfl

/-! ### Engines -/

namespace Engine

/-- The changed engine, if the change does not fail. -/
def changed (engine : Engine) : Change → Except Failure Engine
  | .registerType type => engine.withType type false
  | .addType type beforeCatchAll => engine.withType type beforeCatchAll
  | .registerConversion conversion => engine.withConversion conversion
  | .clearConversions => .ok engine.withoutConversions

@[simp] theorem on_onTypes_put (engine : Engine) (type : ValueType) (beforeCatchAll : Bool) :
    (onTypes (TypeTable.put type beforeCatchAll)).on engine =
      settled engine (engine.withType type beforeCatchAll) := by
  change (((TypeTable.put type beforeCatchAll).on engine.types).1,
    { engine with types := ((TypeTable.put type beforeCatchAll).on engine.types).2 }) = _
  rw [TypeTable.on_put, withType]
  cases engine.types.add type beforeCatchAll <;> rfl

@[simp] theorem on_onConversions_put (engine : Engine) (conversion : Conversion) :
    (onConversions (ConversionTable.put engine.types conversion)).on engine =
      settled engine (engine.withConversion conversion) := by
  change (((ConversionTable.put engine.types conversion).on engine.conversions).1,
    { engine with
      conversions := ((ConversionTable.put engine.types conversion).on engine.conversions).2 }) = _
  rw [ConversionTable.on_put, withConversion]
  cases engine.conversions.add engine.types conversion <;> rfl

/-- A change in place gives the changed engine, or fails and leaves the engine as it was. -/
@[simp] theorem on_perform (engine : Engine) (change : Change) :
    change.perform.on engine = settled engine (engine.changed change) := by
  cases change with
  | registerType type => exact on_onTypes_put engine type false
  | addType type beforeCatchAll => exact on_onTypes_put engine type beforeCatchAll
  | registerConversion conversion =>
    rw [Change.perform, InPlace.on_bind, InPlace.on_get]
    exact on_onConversions_put engine conversion
  | clearConversions => rfl

/-- One change keeps an engine reachable. -/
theorem Reachable.on_perform {engine : Engine} (hreachable : engine.Reachable) (change : Change) :
    (change.perform.on engine).2.Reachable := by
  rw [Engine.on_perform]
  cases hchanged : engine.changed change with
  | error failure => exact hreachable
  | ok result =>
    cases change with
    | registerType type => exact hreachable.withType hchanged
    | addType type beforeCatchAll => exact hreachable.withType hchanged
    | registerConversion conversion => exact hreachable.withConversion hchanged
    | clearConversions =>
      cases hchanged
      exact hreachable.withoutConversions

/-- Changes that are made one after the other give the last changed engine, or fail with the first
failure. -/
theorem finished_forM_perform (changes : List Change) (engine : Engine) :
    finished ((changes.forM Change.perform).on engine) = changes.foldlM Engine.changed engine := by
  induction changes generalizing engine with
  | nil => rfl
  | cons change changes ih =>
    rw [InPlace.on_forM_cons, Engine.on_perform, List.foldlM_cons]
    cases hchanged : engine.changed change with
    | error failure => rfl
    | ok result => exact ih result

/-- Types that are added one after the other change only the types. -/
theorem foldlM_changed_types (types : List (ValueType × Bool)) (engine : Engine) :
    (types.map fun type ↦ Change.addType type.1 type.2).foldlM Engine.changed engine =
      (types.foldlM (fun (table : TypeTable) type ↦ table.add type.1 type.2) engine.types).map
        fun table ↦ { engine with types := table } := by
  induction types generalizing engine with
  | nil => rfl
  | cons type types ih =>
    rw [List.map_cons, List.foldlM_cons, List.foldlM_cons, Engine.changed, withType]
    cases engine.types.add type.1 type.2 with
    | error failure => rfl
    | ok table => exact ih { engine with types := table }

/-- Conversions that are added one after the other change only the conversions. -/
theorem foldlM_changed_conversions (conversions : List Conversion) (engine : Engine) :
    (conversions.map Change.registerConversion).foldlM Engine.changed engine =
      (conversions.foldlM
        (fun (table : ConversionTable) conversion ↦ table.add engine.types conversion)
        engine.conversions).map fun table ↦ { engine with conversions := table } := by
  induction conversions generalizing engine with
  | nil => rfl
  | cons conversion conversions ih =>
    rw [List.map_cons, List.foldlM_cons, List.foldlM_cons, Engine.changed, withConversion]
    cases engine.conversions.add engine.types conversion with
    | error failure => rfl
    | ok table => exact ih { engine with conversions := table }

/-- The engine of a setup is what its changes make of the engine that it starts from. -/
theorem ofSetup_eq_finished (setup : Setup) :
    Engine.ofSetup setup = finished ((setup.changes.forM Change.perform).on setup.start) := by
  rw [finished_forM_perform, Setup.changes, List.foldlM_append, foldlM_changed_types, ofSetup]
  change _ = (setup.types.foldlM (fun (types : TypeTable) type ↦ types.add type.1 type.2)
    (if setup.withKinds then .standard else .empty)).map _ >>= _
  cases setup.types.foldlM (fun (types : TypeTable) type ↦ types.add type.1 type.2)
      (if setup.withKinds then .standard else .empty) with
  | error failure => rfl
  | ok types =>
    refine Eq.trans ?_ (foldlM_changed_conversions setup.conversions
      { setup.start with types := types }).symm
    rfl

end Engine

/-! ### Sessions -/

namespace Session

/-- All engines of a session are reachable. -/
def IsReachable (session : Session) : Prop :=
  ∀ engine ∈ session, engine.Reachable

theorem IsReachable.concat {session : Session} (hsession : session.IsReachable) {engine : Engine}
    (hengine : engine.Reachable) : IsReachable (session ++ [engine]) := by
  intro found hmem
  rcases List.mem_append.mp hmem with hold | hnew
  · exact hsession found hold
  · exact List.mem_singleton.mp hnew ▸ hengine

/-- Work on an engine changes the session at the place of the engine only. -/
@[simp] theorem on_onEngine (session : Session) (place : Nat) (work : InPlace Engine Unit) :
    (onEngine place work).on session =
      match session[place]? with
      | none => (.ok (), session)
      | some engine => ((work.on engine).1, session.set place (work.on engine).2) := by
  change onEngine place work session = _
  unfold onEngine
  cases session[place]? <;> rfl

/-- A change of an engine leaves the others as they are, copies included. -/
theorem getElem?_on_onEngine (session : Session) {place other : Nat} (hother : place ≠ other)
    (work : InPlace Engine Unit) :
    ((onEngine place work).on session).2[other]? = session[other]? := by
  rw [on_onEngine]
  cases session[place]? with
  | none => rfl
  | some engine => exact List.getElem?_set_ne hother

/-- Work that keeps an engine reachable keeps a session reachable. -/
theorem IsReachable.on_onEngine {session : Session} (hsession : session.IsReachable) (place : Nat)
    {work : InPlace Engine Unit}
    (hwork : ∀ engine : Engine, engine.Reachable → (work.on engine).2.Reachable) :
    IsReachable ((onEngine place work).on session).2 := by
  rw [Session.on_onEngine]
  cases hengine : session[place]? with
  | none => exact hsession
  | some engine =>
    intro found hmem
    rcases List.mem_or_eq_of_mem_set hmem with hold | rfl
    · exact hsession found hold
    · exact hwork engine (hsession engine (List.mem_of_getElem? hengine))

/-- One command keeps all engines reachable. -/
theorem IsReachable.on_perform {session : Session} (hsession : session.IsReachable)
    (command : Command) : IsReachable (command.perform.on session).2 := by
  cases command with
  | create => exact hsession.concat .standard
  | setUp setup =>
    rw [Command.perform, InPlace.on_bind, InPlace.on_check]
    cases hsetup : Engine.ofSetup setup with
    | error failure => exact hsession
    | ok engine => exact hsession.concat (.ofSetup hsetup)
  | update place change =>
    exact hsession.on_onEngine place fun engine hengine ↦ hengine.on_perform change
  | clone place =>
    change IsReachable (session ++ session[place]?.toList)
    cases hengine : session[place]? with
    | none => exact (List.append_nil session).symm ▸ hsession
    | some engine => exact hsession.concat (hsession engine (List.mem_of_getElem? hengine))

/-- After any commands, all engines of the session are reachable. -/
theorem isReachable_after (commands : List Command) : (Session.after commands).IsReachable := by
  induction commands using List.reverseRecOn with
  | nil => exact fun engine hmem ↦ absurd hmem List.not_mem_nil
  | append_singleton commands command ih =>
    rw [Session.after, List.foldl_append]
    exact ih.on_perform command

end Session

/-! ### What sessions promise -/

/-- Both ends of every conversion of an engine are registered types, whatever was done with the
engines of a session before. So converting a value finds an unknown type only if this is the target,
and building fails exactly as it does without conversions: a type that it does not know is named in
a signature that is left without ignored types. A change that fails leaves the engine as it was. A
setup gives what adding its types and then its conversions makes of the engine that it starts from,
or the first failure of these. -/
theorem sessions_hold_no_dangling_conversion :
    (∀ commands, ∀ engine ∈ Session.after commands,
      (∀ conversion ∈ engine.conversions.conversions,
        (conversion.source ≠ wildcard ∧ conversion.source ∈ engine.types.names) ∧
          conversion.target ≠ wildcard ∧ conversion.target ∈ engine.types.names) ∧
      (∀ value target unknown nearest,
        engine.convert value target = .error (.unknownType unknown nearest) →
          unknown = target ∧ target ≠ wildcard ∧ target ∉ engine.types.names) ∧
      ∀ name sources,
        (∀ failure, engine.build name sources = .error failure ↔
          engine.withoutConversions.build name sources = .error failure) ∧
        ((∀ merged, Source.dispatcher merged ∈ sources → merged.Built) → ∀ unknown nearest,
          engine.build name sources = .error (.unknownType unknown nearest) →
            engine.Lacks sources unknown)) ∧
    (∀ (engine : Engine) (change : Engine.Change) failure,
      (change.perform.on engine).1 = .error failure → (change.perform.on engine).2 = engine) ∧
    ∀ setup : Engine.Setup, Engine.ofSetup setup =
      finished ((setup.changes.forM Engine.Change.perform).on setup.start) := by
  refine ⟨fun commands engine hmem ↦ ?_, fun engine change failure hfails ↦ ?_,
    Engine.ofSetup_eq_finished⟩
  · have hreachable := Session.isReachable_after commands engine hmem
    refine ⟨hreachable.isSound,
      fun value target unknown nearest ↦ Engine.eq_target_of_unknownType hreachable.isSound,
      fun name sources ↦
        ⟨Engine.build_eq_error_iff_withoutConversions hreachable.isSound name sources, ?_⟩⟩
    intro hmerged unknown nearest hbuild
    have hsources : NormalSources sources := fun merged hmem ↦ (hmerged merged hmem).isNormal
    exact Engine.lacks_of_unknownType hreachable hsources hbuild
  · rw [Engine.on_perform] at hfails ⊢
    exact snd_settled_of_error hfails

/-- A type of absent values under another name. -/
def emptyType : ValueType :=
  ⟨"Empty", fun value ↦ value.kind == .null, false⟩

/-- A conversion that empties a text. -/
def emptying : Conversion :=
  ⟨"string", "Empty", fun _ ↦ .null⟩

/-- An engine and a copy of it. The copy gets a type and a conversion to it; the engine itself
refuses the conversion, because it has no such type. -/
def copied : List Command :=
  [.create, .clone 0, .update 1 (.registerType emptyType),
    .update 1 (.registerConversion emptying), .update 0 (.registerConversion emptying)]

/-- The copy after these commands. -/
def emptyingEngine : Engine :=
  ⟨.mk (TypeTable.standard.types ++ [emptyType]), ⟨[emptying]⟩, [], none⟩

/-- An entry that names a type which does not exist. -/
def naming : List Source :=
  [.entries [("Missing", several)]]

/-- What the copy lacks for this entry is the type that it names. -/
theorem lacks_naming_iff (unknown : String) :
    emptyingEngine.Lacks naming unknown ↔ unknown = "Missing" := by
  have hleft : remaining [] (Engine.collect naming).methods =
      [⟨⟨[.single "Missing"], none⟩, several⟩] := rfl
  show (∃ method ∈ remaining [] _, _) ∧ _ ↔ _
  rw [hleft]
  constructor
  · rintro ⟨⟨method, hmethod, slot, hslot, hnamed⟩, -, -⟩
    rw [List.mem_singleton.mp hmethod] at hslot
    rw [List.mem_singleton.mp hslot] at hnamed
    exact List.mem_singleton.mp hnamed
  · rintro rfl
    exact ⟨⟨_, List.mem_singleton_self _, ⟨.single "Missing", false⟩, by decide, by decide⟩,
      by decide,
      by decide⟩

theorem exists_build_naming :
    ∃ nearest, emptyingEngine.build none naming = .error (.unknownType "Missing" nearest) := by
  have hreachable : emptyingEngine.Reachable :=
    Session.isReachable_after copied _ (List.mem_cons_of_mem _ List.mem_cons_self)
  have hsources : NormalSources naming := by simp [naming, NormalSources]
  have hnames : AllEqual (givenNames none naming) := List.forall_mem_nil _
  have hoffers : Acceptable (naming.flatMap Source.offers) :=
    ((collect_eq_ok_iff _ (.mk [("Missing", several)])).mp rfl).1
  have hkeys : (emptyingEngine.keysLeft naming).Nodup := by
    show (clauseKeys ([⟨⟨[.single "Missing"], none⟩, several⟩].flatMap Method.clauses)).Nodup
    decide
  obtain ⟨unknown, nearest, hbuild⟩ := (Engine.exists_build_eq_unknownType_iff hreachable hsources
    hnames hoffers hkeys).mpr ⟨"Missing", (lacks_naming_iff _).mpr rfl⟩
  have hlacks := Engine.lacks_of_unknownType hreachable hsources hbuild
  exact ⟨nearest, (lacks_naming_iff unknown).mp hlacks ▸ hbuild⟩

/-- The copy has a conversion, whose ends it knows, and still does not know another type. -/
theorem sessions_hold_no_dangling_conversion_copied :
    Session.after copied = [.standard, emptyingEngine] ∧
      (∃ nearest,
        emptyingEngine.build none naming = .error (.unknownType "Missing" nearest)) ∧
      emptyingEngine.Lacks naming "Missing" ∧
      emptyingEngine.convert .null "Missing" = .error (emptyingEngine.types.unknown "Missing") ∧
      "Missing" ∉ emptyingEngine.types.names ∧
      "Empty" ∈ emptyingEngine.types.names ∧
      ((Engine.Change.registerConversion emptying).perform.on .standard).2 = .standard := by
  obtain ⟨hsessions, hfailed, -⟩ := sessions_hold_no_dangling_conversion
  have hafter : Session.after copied = [.standard, emptyingEngine] := rfl
  have hmem : emptyingEngine ∈ Session.after copied := by
    rw [hafter]
    exact List.mem_cons_of_mem _ List.mem_cons_self
  obtain ⟨hends, hconvert, hbuilds⟩ := hsessions copied emptyingEngine hmem
  obtain ⟨nearest, hbuild⟩ := exists_build_naming
  have hfails : emptyingEngine.convert .null "Missing" =
      .error (emptyingEngine.types.unknown "Missing") :=
    rfl
  exact ⟨hafter, ⟨nearest, hbuild⟩,
    (hbuilds none naming).2 (by simp [naming]) "Missing" nearest hbuild, hfails,
    (hconvert .null "Missing" "Missing" _ hfails).2.2, (hends emptying List.mem_cons_self).2.2,
    hfailed .standard (.registerConversion emptying) _ rfl⟩

end Multimethod
