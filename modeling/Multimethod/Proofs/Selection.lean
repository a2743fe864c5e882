import Multimethod.Routine

/-!
# What a search finds

A search works on the values collected so far and may change them at every step. What it finds does
not depend on them: `Plan.select` gives the clause and the arguments for it with nothing collected,
and `Finds` says that a search has this outcome whatever was collected before and that it leaves the
collected values as they were when it finds nothing. `attempt_finds` is this fact for every plan,
and `run_eq_select` what it means for a call.
-/

set_option autoImplicit false
set_option relaxedAutoImplicit false

namespace Multimethod

/-! ### Selections -/

/-- A clause and the arguments that it gets. -/
structure Selection where
  clause : Clause
  arguments : List Value

namespace Selection

/-- The selection with one more argument before the others. -/
def cons (argument : Value) (selection : Selection) : Selection :=
  { selection with arguments := argument :: selection.arguments }

/-- What the implementation gives. -/
def outcome (selection : Selection) : Outcome :=
  selection.clause.implementation.run selection.arguments

/-- What the implementation gives when it gets some collected values first. -/
def outcomeAfter (collected : List Value) (selection : Selection) : Outcome :=
  selection.clause.implementation.run (collected ++ selection.arguments)

@[simp]
theorem outcomeAfter_cons (collected : List Value) (argument : Value) (selection : Selection) :
    (selection.cons argument).outcomeAfter collected =
      selection.outcomeAfter (collected ++ [argument]) := by
  simp [outcomeAfter, cons]

end Selection

/-- The selection of an arm, if the arm takes all the arguments that are left. -/
def Arm.select (values : List Value) (arm : Arm) : Option Selection :=
  (arm.takeAll values).map fun items ↦ ⟨arm.clause, [.array items]⟩

/-- The first selection of a plan for some arguments. -/
def Plan.select : Plan → List Value → Option Selection
  | .done clause, _ => some ⟨clause, []⟩
  | .branch _, [] => none
  | .branch steps, value :: values =>
    steps.findSome? fun step ↦
      (step.1.take value).bind fun taken ↦ (select step.2 values).map (·.cons taken)
  | .collect _, [] => none
  | .collect arms, value :: values => arms.findSome? (Arm.select (value :: values))

/-- The first selection of the plans for some arguments. -/
def Routine.select (routine : Routine) (arguments : List Value) : Option Selection :=
  (routine.plansFor arguments.length).findSome? (·.select arguments)

/-! ### Searches and selections -/

/-- The second of two searches goes on with what the first one leaves. -/
theorem Search.run_bind_of_run_eq {α β : Type} {search : Search α} {next : α → Search β}
    {before after : List Value} {result : α} (hrun : search.run before = (result, after)) :
    (search >>= next).run before = (next result).run after := by
  rw [StateT.run_bind, hrun]
  rfl

/-- Started with some collected values, a search finds a selection, or it finds nothing and gives
back all that it collected. -/
def Finds (collected : List Value) (search : Search (Option Outcome)) : Option Selection → Prop
  | none => search.run collected = (none, collected)
  | some selection => ∃ left,
      search.run collected = (some (selection.outcomeAfter collected), left)

namespace Finds

/-- Trying entries in order finds what the first successful entry finds. -/
theorem first {α : Type} {attempt : α → Search (Option Outcome)} {pick : α → Option Selection}
    {collected : List Value} {entries : List α}
    (hfinds : ∀ entry ∈ entries, Finds collected (attempt entry) (pick entry)) :
    Finds collected (Search.first attempt entries) (entries.findSome? pick) := by
  induction entries with
  | nil => rfl
  | cons entry entries ih =>
    have hentry := hfinds entry List.mem_cons_self
    have hrest := ih fun other hother ↦ hfinds other (List.mem_cons_of_mem _ hother)
    rw [List.findSome?_cons]
    cases hpick : pick entry with
    | some selection =>
      rw [hpick] at hentry
      obtain ⟨left, hleft⟩ := hentry
      exact ⟨left, Search.run_bind_of_run_eq hleft⟩
    | none =>
      rw [hpick] at hentry
      have hskip : (Search.first attempt (entry :: entries)).run collected =
          (Search.first attempt entries).run collected :=
        Search.run_bind_of_run_eq hentry
      cases hfound : entries.findSome? pick with
      | none =>
        rw [hfound] at hrest
        exact hskip.trans hrest
      | some selection =>
        rw [hfound] at hrest
        obtain ⟨left, hleft⟩ := hrest
        exact ⟨left, hskip.trans hleft⟩

/-- A search that collects one more value, searches below, and gives the value back when nothing is
found there, finds what the search below finds, with the value in front. -/
theorem below {collected : List Value} {taken : Value} {search : Search (Option Outcome)}
    {found : Option Selection} (hfinds : Finds (collected ++ [taken]) search found) :
    Finds collected (do
      Search.push taken
      match ← search with
      | some outcome => return some outcome
      | none =>
        Search.pop
        return none) (found.map (·.cons taken)) := by
  have hpush : (Search.push taken).run collected = ((), collected ++ [taken]) := rfl
  cases found with
  | none =>
    have hpop : Search.pop.run (collected ++ [taken]) = ((), collected) := by
      change ((), (collected ++ [taken]).dropLast) = ((), collected)
      rw [List.dropLast_concat]
    rw [Option.map_none, Finds, Search.run_bind_of_run_eq hpush, Search.run_bind_of_run_eq hfinds,
      Search.run_bind_of_run_eq hpop]
    rfl
  | some selection =>
    obtain ⟨left, hbelow⟩ := hfinds
    refine ⟨left, ?_⟩
    rw [Search.run_bind_of_run_eq hpush, Search.run_bind_of_run_eq hbelow,
      Selection.outcomeAfter_cons]
    rfl

end Finds

/-- An arm finds its own selection. -/
theorem Arm.attempt_finds (values : List Value) (arm : Arm) (collected : List Value) :
    Finds collected (arm.attempt values) (arm.select values) := by
  unfold Arm.attempt Arm.select
  cases arm.takeAll values with
  | none => rfl
  | some items => exact ⟨_, rfl⟩

/-- A way that ends finds its clause, which gets the collected values. -/
theorem Plan.attempt_done_finds (clause : Clause) (values collected : List Value) :
    Finds collected ((Plan.done clause).attempt values) (some ⟨clause, []⟩) := by
  refine ⟨collected, ?_⟩
  rw [Selection.outcomeAfter, List.append_nil]
  cases values <;> rfl

/-- The search of a plan finds the selection of the plan. -/
theorem Plan.attempt_finds (plan : Plan) (arguments collected : List Value) :
    Finds collected (plan.attempt arguments) (plan.select arguments) := by
  -- Every step of a plan takes one argument.
  induction arguments generalizing plan collected with
  | nil =>
    cases plan with
    | done clause => exact attempt_done_finds clause [] collected
    | branch steps => rfl
    | collect arms => rfl
  | cons value values ih =>
    cases plan with
    | done clause => exact attempt_done_finds clause (value :: values) collected
    | branch steps =>
      refine Finds.first fun step _ ↦ ?_
      cases step.1.take value with
      | none => rfl
      | some taken => exact (ih step.2 (collected ++ [taken])).below
    | collect arms => exact Finds.first fun arm _ ↦ arm.attempt_finds (value :: values) collected

/-- The outcome of a call is that of its selection, and a call without one is a mismatch. -/
theorem Routine.run_eq_select (routine : Routine) (function : Option String)
    (arguments : List Value) :
    routine.run function arguments =
      match routine.select arguments with
      | some selection => .ok selection.outcome
      | none => .error (routine.mismatch function arguments) := by
  have hplans : Finds [] (Plan.attemptAny (routine.plansFor arguments.length) arguments)
      (routine.select arguments) := by
    refine Finds.first fun plan _ ↦ ?_
    have hplan := plan.attempt_finds arguments []
    cases hselect : plan.select arguments with
    | none =>
      rw [hselect] at hplan
      exact Search.run_bind_of_run_eq hplan
    | some selection =>
      rw [hselect] at hplan
      obtain ⟨left, hleft⟩ := hplan
      exact ⟨left, Search.run_bind_of_run_eq hleft⟩
  unfold run
  cases hselect : routine.select arguments with
  | none =>
    rw [hselect] at hplans
    rw [hplans]
  | some selection =>
    rw [hselect] at hplans
    obtain ⟨left, hleft⟩ := hplans
    rw [hleft]
    rfl

end Multimethod
