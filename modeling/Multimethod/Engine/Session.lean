import Multimethod.Engine.Setup

/-!
# Working with engines

`Engine.withType` and its like give a changed engine. A program that holds an engine changes it in
place instead: it calls an operation, and if the operation fails, the engine is whatever the
operation has left of it. `InPlace` is such work. `TypeTable.put` and `ConversionTable.put` are the
two operations on tables, `Engine.Change.perform` those on engines.

A `Session` is all the engines that a program holds. `Command.perform` makes an engine, sets one up,
copies one or changes one; a session goes on after a command that fails (`Session.after`).
-/

set_option autoImplicit false
set_option relaxedAutoImplicit false

namespace Multimethod

/-! ### Work in place -/

/-- Work that changes a state in place. If it fails, the state stays as the work has left it. -/
abbrev InPlace (σ α : Type) :=
  ExceptT Failure (StateM σ) α

/-- What the work gives when it starts from a state, and the state that it leaves. -/
def InPlace.on {σ α : Type} (work : InPlace σ α) (state : σ) : Except Failure α × σ :=
  (ExceptT.run work).run state

/-- Puts a new type into the table. -/
def TypeTable.put (type : ValueType) (beforeCatchAll : Bool) : InPlace TypeTable Unit := do
  let table ← get
  match hrefusal : table.refusal? type.name with
  | some failure => throw failure
  | none =>
    set (table.insert type beforeCatchAll ((table.refusal?_eq_none_iff _).mp hrefusal).2)

/-- Puts a conversion after the others. -/
def ConversionTable.put (types : TypeTable) (conversion : Conversion) :
    InPlace ConversionTable Unit := do
  [conversion.source, conversion.target].forM fun name ↦ checkEnd types name
  modify fun table ↦ ⟨table.conversions ++ [conversion]⟩

namespace Engine

/-- Work on the types of an engine. -/
def onTypes (work : InPlace TypeTable Unit) : InPlace Engine Unit := fun engine ↦
  let (result, types) := work.on engine.types
  (result, { engine with types })

/-- Work on the conversions of an engine. -/
def onConversions (work : InPlace ConversionTable Unit) : InPlace Engine Unit := fun engine ↦
  let (result, conversions) := work.on engine.conversions
  (result, { engine with conversions })

/-! ### Changes of an engine -/

/-- The operations that change an engine. -/
inductive Change where
  | registerType (type : ValueType)
  | addType (type : ValueType) (beforeCatchAll : Bool)
  | registerConversion (conversion : Conversion)
  | clearConversions

/-- Changes an engine. -/
def Change.perform : Change → InPlace Engine Unit
  | .registerType type => onTypes (TypeTable.put type false)
  | .addType type beforeCatchAll => onTypes (TypeTable.put type beforeCatchAll)
  | .registerConversion conversion => do
    let engine ← get
    onConversions (ConversionTable.put engine.types conversion)
  | .clearConversions => onConversions (set ConversionTable.empty)

/-! ### Setups -/

/-- The engine that a setup starts from. -/
def Setup.start (setup : Setup) : Engine :=
  ⟨if setup.withKinds then .standard else .empty, .empty, setup.ignored.eraseDups, setup.rescue⟩

/-- The changes that a setup asks for: the types in order, then the conversions in order. -/
def Setup.changes (setup : Setup) : List Change :=
  setup.types.map (fun type ↦ .addType type.1 type.2) ++
    setup.conversions.map .registerConversion

end Engine

/-! ### Sessions -/

/-- The engines that a program holds, in the order in which they were made. -/
abbrev Session := List Engine

/-- Work on the engine at a place, if there is one. -/
def Session.onEngine (place : Nat) (work : InPlace Engine Unit) : InPlace Session Unit :=
  fun session ↦
    match session[place]? with
    | none => (.ok (), session)
    | some engine =>
      let (result, changed) := work.on engine
      (result, session.set place changed)

/-- What a program does with its engines. -/
inductive Command where
  | create
  | setUp (setup : Engine.Setup)
  | update (place : Nat) (change : Engine.Change)
  | clone (place : Nat)

/-- Carries a command out. -/
def Command.perform : Command → InPlace Session Unit
  | .create => modify (· ++ [.standard])
  | .setUp setup => do
    let engine ← Engine.ofSetup setup
    modify (· ++ [engine])
  | .update place change => Session.onEngine place change.perform
  | .clone place => modify fun session ↦ session ++ session[place]?.toList

/-- The session after some commands, those that failed included. -/
def Session.after (commands : List Command) : Session :=
  commands.foldl (fun session command ↦ (command.perform.on session).2) []

end Multimethod
