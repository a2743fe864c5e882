import Multimethod.Plan

/-!
# Searching a plan

A call searches a plan depth first. The search collects the arguments as the steps on its way hand
them on; the arguments of a repeated slot are collected as one array. When nothing below a step
takes the remaining arguments, the search gives back what the step collected and goes on with the
next step. The first clause that is reached gets all that was collected, and its outcome ends the
search, whatever it is.
-/

set_option autoImplicit false
set_option relaxedAutoImplicit false

namespace Multimethod

/-- A part of a search, which works on the values collected so far. -/
abbrev Search := StateM (List Value)

namespace Search

/-- Collects one more value. -/
def push (value : Value) : Search Unit :=
  modify (· ++ [value])

/-- Gives back the value that was collected last. -/
def pop : Search Unit :=
  modify List.dropLast

/-- The first outcome that trying some entries in order gives. -/
def first {α : Type} (attempt : α → Search (Option Outcome)) :
    List α → Search (Option Outcome)
  | [] => return none
  | entry :: entries => do
    match ← attempt entry with
    | some outcome => return some outcome
    | none => first attempt entries

end Search

/-- What the implementation of an arm gives for the values collected and all the arguments that are
left, if the arm takes them. -/
def Arm.attempt (values : List Value) (arm : Arm) : Search (Option Outcome) := do
  match arm.takeAll values with
  | none => return none
  | some items =>
    Search.push (.array items)
    let outcome := arm.clause.implementation.run (← get)
    Search.pop
    return some outcome

/-- The outcome of the first clause that a plan leads to with some arguments. -/
def Plan.attempt : Plan → List Value → Search (Option Outcome)
  | .done clause, _ => return some (clause.implementation.run (← get))
  | .branch _, [] => return none
  | .branch steps, value :: values =>
    Search.first (fun step ↦ do
      match step.1.take value with
      | none => return none
      | some taken =>
        Search.push taken
        match ← attempt step.2 values with
        | some outcome => return some outcome
        | none =>
          Search.pop
          return none) steps
  | .collect _, [] => return none
  | .collect arms, value :: values => Search.first (Arm.attempt (value :: values)) arms

/-- The outcome of the first clause that one of several plans leads to. Each plan starts with
nothing collected. -/
def Plan.attemptAny (plans : List Plan) (arguments : List Value) : Search (Option Outcome) :=
  Search.first (fun plan ↦ do
    match ← plan.attempt arguments with
    | some outcome => return some outcome
    | none =>
      set ([] : List Value)
      return none) plans

end Multimethod
