import Multimethod.Dispatcher
import Multimethod.Proofs.Routes

/-!
# The acts of a call

A call asks steps and arms whether they take arguments, runs an implementation, or calls the rescue.
`Performer` leaves open how these acts are carried out, and `Dispatcher.callBy` is the call over any
performer. Without effects it is the call itself (`Dispatcher.callBy_plain`); when every act is
noted it has the same outcome (`Dispatcher.callBy_noting_fst`), and `Dispatcher.acts` is what was
noted.

`Notes` says what a part of a search notes, for whatever was noted and collected before: questions
alone if it finds nothing, and questions with one run after them if it finds a selection. It is kept
at every step down a plan (`Notes.below`) and along entries tried in order (`Notes.first`), which
gives it for every plan (`Plan.attemptBy_notes`). So the run of an implementation ends a call, its
outcome is never looked at, and the rescue gets exactly the calls that have no route
(`call_ends_with_route`).
-/

set_option autoImplicit false
set_option relaxedAutoImplicit false

namespace Multimethod

/-! ### Acts and how they are carried out -/

/-- An act of a call. -/
inductive Act where
  /-- A step of a branch is asked to take an argument. -/
  | step (step : Step) (argument : Value)
  /-- An arm is asked to take all the arguments that are left. -/
  | arm (arm : Arm) (arguments : List Value)
  /-- An implementation runs. -/
  | implementation (implementation : Implementation) (arguments : List Value)
  /-- The rescue is called. -/
  | rescue (function : Option String) (arguments : List Value) (failure : Failure)

/-- Whether an act only asks whether arguments are taken. -/
def Act.isQuestion : Act → Bool
  | .step .. => true
  | .arm .. => true
  | .implementation .. => false
  | .rescue .. => false

/-- How the acts of a call are carried out, which may have effects. -/
structure Performer (m : Type → Type) where
  /-- Asks a step to take an argument. -/
  take : Step → Value → m (Option Value)
  /-- Asks an arm to take all the arguments that are left. -/
  takeAll : Arm → List Value → m (Option (List Value))
  /-- Runs an implementation. -/
  run : Implementation → List Value → m Outcome
  /-- Calls a rescue. -/
  rescue : Rescue → Option String → List Value → Failure → m Outcome

namespace Performer

/-- Acts without effects. -/
def plain : Performer Id where
  take step argument := step.take argument
  takeAll arm arguments := arm.takeAll arguments
  run implementation arguments := implementation.run arguments
  rescue rescue function arguments failure := rescue function arguments failure

/-- Notes one more act. -/
def note (act : Act) : StateM (List Act) Unit :=
  modify (· ++ [act])

/-- Acts that are noted, one after the other. -/
def noting : Performer (StateM (List Act)) where
  take step argument := do
    note (.step step argument)
    return step.take argument
  takeAll arm arguments := do
    note (.arm arm arguments)
    return arm.takeAll arguments
  run implementation arguments := do
    note (.implementation implementation arguments)
    return implementation.run arguments
  rescue rescue function arguments failure := do
    note (.rescue function arguments failure)
    return rescue function arguments failure

end Performer

/-! ### Calls with effects -/

section Effects

variable {m : Type → Type} [Monad m] (performer : Performer m)

/-- The first outcome that trying some entries in order gives. -/
def firstOf {α : Type} (attempt : α → StateT (List Value) m (Option Outcome)) :
    List α → StateT (List Value) m (Option Outcome)
  | [] => return none
  | entry :: entries => do
    match ← attempt entry with
    | some outcome => return some outcome
    | none => firstOf attempt entries

/-- `Arm.attempt` with effects. -/
def Arm.attemptBy (values : List Value) (arm : Arm) :
    StateT (List Value) m (Option Outcome) := do
  match ← performer.takeAll arm values with
  | none => return none
  | some items =>
    modify (· ++ [.array items])
    let outcome ← performer.run arm.clause.implementation (← get)
    modify List.dropLast
    return some outcome

/-- `Plan.attempt` with effects. -/
def Plan.attemptBy : Plan → List Value → StateT (List Value) m (Option Outcome)
  | .done clause, _ => do return some (← performer.run clause.implementation (← get))
  | .branch _, [] => return none
  | .branch steps, value :: values =>
    firstOf (fun step ↦ do
      match ← performer.take step.1 value with
      | none => return none
      | some taken =>
        modify (· ++ [taken])
        match ← attemptBy step.2 values with
        | some outcome => return some outcome
        | none =>
          modify List.dropLast
          return none) steps
  | .collect _, [] => return none
  | .collect arms, value :: values => firstOf (Arm.attemptBy performer (value :: values)) arms

/-- `Plan.attemptAny` with effects. -/
def Plan.attemptAnyBy (plans : List Plan) (arguments : List Value) :
    StateT (List Value) m (Option Outcome) :=
  firstOf (fun plan ↦ do
    match ← plan.attemptBy performer arguments with
    | some outcome => return some outcome
    | none =>
      set ([] : List Value)
      return none) plans

/-- `Dispatcher.call` with effects. -/
def Dispatcher.callBy (dispatcher : Dispatcher) (arguments : List Value) : m Outcome := do
  let plans := dispatcher.routine.plansFor arguments.length
  match (← (Plan.attemptAnyBy performer plans arguments).run []).1 with
  | some outcome => return outcome
  | none =>
    let failure := dispatcher.routine.mismatch dispatcher.name arguments
    match dispatcher.rescue with
    | some rescue => performer.rescue rescue dispatcher.name arguments failure
    | none => return .error failure

end Effects

/-! ### Plain calls -/

theorem firstOf_eq_first {α : Type} (attempt : α → Search (Option Outcome)) (entries : List α) :
    firstOf attempt entries = Search.first attempt entries := by
  induction entries with
  | nil => rfl
  | cons entry entries ih =>
    rw [firstOf, ih]
    rfl

@[simp] theorem Arm.attemptBy_plain (values : List Value) (arm : Arm) :
    arm.attemptBy .plain values = arm.attempt values := by
  funext collected
  unfold Arm.attempt Arm.attemptBy Performer.plain
  dsimp only
  cases arm.takeAll values <;> rfl

@[simp] theorem Plan.attemptBy_plain (plan : Plan) (arguments : List Value) :
    plan.attemptBy .plain arguments = plan.attempt arguments := by
  induction arguments generalizing plan with
  | nil => cases plan <;> rfl
  | cons value values ih =>
    cases plan with
    | done clause => rfl
    | branch steps =>
      rw [Plan.attemptBy, Plan.attempt, firstOf_eq_first]
      refine congrArg (Search.first · steps) (funext fun step ↦ ?_)
      have hplain : Performer.plain.take step.1 value = step.1.take value := rfl
      rw [ih, hplain]
      cases step.1.take value <;> rfl
    | collect arms =>
      rw [Plan.attemptBy, Plan.attempt, firstOf_eq_first]
      exact congrArg (Search.first · arms) (funext (Arm.attemptBy_plain (value :: values)))

@[simp] theorem Plan.attemptAnyBy_plain (plans : List Plan) (arguments : List Value) :
    Plan.attemptAnyBy .plain plans arguments = Plan.attemptAny plans arguments := by
  rw [Plan.attemptAnyBy, Plan.attemptAny, firstOf_eq_first]
  refine congrArg (Search.first · plans) (funext fun plan ↦ ?_)
  exact congrArg (· >>= _) (plan.attemptBy_plain arguments)

/-- Carried out without effects, the acts of a call give its outcome. -/
@[simp] theorem Dispatcher.callBy_plain (dispatcher : Dispatcher) (arguments : List Value) :
    dispatcher.callBy .plain arguments = dispatcher.call arguments := by
  unfold Dispatcher.callBy Dispatcher.call Routine.run
  dsimp only
  rw [Plan.attemptAnyBy_plain]
  show (match ((Plan.attemptAny _ arguments).run []).1 with
    | some outcome => outcome
    | none => _) = _
  cases ((Plan.attemptAny (dispatcher.routine.plansFor arguments.length) arguments).run []).1 with
  | some outcome => rfl
  | none => cases dispatcher.rescue <;> rfl

/-! ### Noted calls -/

/-- A search whose acts are noted. -/
abbrev NotedSearch := StateT (List Value) (StateM (List Act))

/-- Acts that only ask whether arguments are taken. -/
def Questions (acts : List Act) : Prop :=
  ∀ act ∈ acts, act.isQuestion = true

theorem Questions.append {asked more : List Act} (hasked : Questions asked)
    (hmore : Questions more) : Questions (asked ++ more) :=
  fun act hact ↦ (List.mem_append.mp hact).elim (hasked act) (hmore act)

/-- Whatever was noted before, a search with some collected values asks questions and ends with
some last acts, a result and other collected values. -/
def NotedSearch.AsksThen {α : Type} (search : NotedSearch α) (collected : List Value)
    (last : List Act) (result : α) (left : List Value) : Prop :=
  ∀ acts, ∃ asked, Questions asked ∧
    (search.run collected).run acts = ((result, left), acts ++ (asked ++ last))

namespace NotedSearch.AsksThen

variable {α β : Type} {search : NotedSearch α} {next : α → NotedSearch β}
  {collected left after : List Value} {last : List Act} {result : α} {final : β}

/-- Acts are in the order of the searches that do them. -/
theorem run_bind {acts between noted : List Act}
    (hsearch : (search.run collected).run acts = ((result, left), between))
    (hnext : ((next result).run left).run between = ((final, after), noted)) :
    ((search >>= next).run collected).run acts = ((final, after), noted) := by
  rw [StateT.run_bind, StateT.run_bind, hsearch]
  exact hnext

/-- A search that does nothing but ask a question. -/
theorem of_question {act : Act} (hact : act.isQuestion = true)
    (hrun : ∀ acts, (search.run collected).run acts = ((result, left), acts ++ [act])) :
    search.AsksThen collected [] result left :=
  fun acts ↦ ⟨[act], fun _ hmem ↦ List.mem_singleton.mp hmem ▸ hact, hrun acts⟩

/-- A search that asks nothing. -/
theorem of_silent
    (hrun : ∀ acts, (search.run collected).run acts = ((result, left), acts ++ last)) :
    search.AsksThen collected last result left :=
  fun acts ↦ ⟨[], fun _ hmem ↦ absurd hmem List.not_mem_nil, hrun acts⟩

/-- After questions a search goes on. -/
theorem bind (hsearch : search.AsksThen collected [] result left)
    (hnext : (next result).AsksThen left last final after) :
    (search >>= next).AsksThen collected last final after := by
  intro acts
  obtain ⟨asked, hasked, hrun⟩ := hsearch acts
  obtain ⟨more, hmore, hgoes⟩ := hnext (acts ++ (asked ++ []))
  refine ⟨asked ++ more, hasked.append hmore, run_bind hrun ?_⟩
  rw [hgoes]
  simp only [List.append_assoc, List.nil_append]

/-- After its last acts a search does nothing but hand on what it has. -/
theorem bind_silent (hsearch : search.AsksThen collected last result left)
    (hnext : ∀ acts, ((next result).run left).run acts = ((final, after), acts)) :
    (search >>= next).AsksThen collected last final after := by
  intro acts
  obtain ⟨asked, hasked, hrun⟩ := hsearch acts
  exact ⟨asked, hasked, run_bind hrun (hnext _)⟩

end NotedSearch.AsksThen

/-- The implementation of the selection runs. -/
def Selection.act (collected : List Value) (selection : Selection) : Act :=
  .implementation selection.clause.implementation (collected ++ selection.arguments)

/-- Started with some collected values, a search asks questions until it has found a selection, and
then runs its implementation as its last act; or it finds nothing, only asks questions, and gives
back all that it collected. -/
def Notes (collected : List Value) (search : NotedSearch (Option Outcome)) :
    Option Selection → Prop
  | none => search.AsksThen collected [] none collected
  | some selection => ∃ left,
      search.AsksThen collected [selection.act collected]
        (some (selection.outcomeAfter collected)) left

namespace Notes

theorem nothing (collected : List Value) : Notes collected (pure none) none :=
  NotedSearch.AsksThen.of_silent fun acts ↦ by
    rw [List.append_nil]
    rfl

variable {collected : List Value}

/-- A search may ask questions first. -/
theorem after {α : Type} {search : NotedSearch α} {next : α → NotedSearch (Option Outcome)}
    {result : α} {found : Option Selection}
    (hsearch : search.AsksThen collected [] result collected)
    (hnext : Notes collected (next result) found) : Notes collected (search >>= next) found := by
  cases found with
  | none => exact hsearch.bind hnext
  | some selection =>
    obtain ⟨left, hfound⟩ := hnext
    exact ⟨left, hsearch.bind hfound⟩

/-- A search that goes on only if nothing is found. -/
theorem orElse {search : NotedSearch (Option Outcome)}
    {next : Option Outcome → NotedSearch (Option Outcome)} {found other : Option Selection}
    (hsearch : Notes collected search found) (hnext : Notes collected (next none) other)
    (hstops : ∀ outcome, next (some outcome) = pure (some outcome)) :
    Notes collected (search >>= next) (found.or other) := by
  cases found with
  | none => exact after hsearch hnext
  | some selection =>
    obtain ⟨left, hfound⟩ := hsearch
    refine ⟨left, hfound.bind_silent fun acts ↦ ?_⟩
    rw [hstops]
    rfl

/-- Trying entries in order, a search asks until the first successful entry and runs what is found
there. -/
theorem first {α : Type} {attempt : α → NotedSearch (Option Outcome)}
    {pick : α → Option Selection} {entries : List α}
    (hnotes : ∀ entry ∈ entries, Notes collected (attempt entry) (pick entry)) :
    Notes collected (firstOf attempt entries) (entries.findSome? pick) := by
  induction entries with
  | nil => exact nothing collected
  | cons entry entries ih =>
    have hentry := hnotes entry List.mem_cons_self
    have hrest := ih fun other hother ↦ hnotes other (List.mem_cons_of_mem _ hother)
    have hfound : (entry :: entries).findSome? pick = (pick entry).or (entries.findSome? pick) := by
      rw [List.findSome?_cons]
      cases pick entry <;> rfl
    rw [hfound]
    exact hentry.orElse hrest fun _ ↦ rfl

/-- What is found below a value that was collected gets the value in front. -/
theorem below {taken : Value} {search : NotedSearch (Option Outcome)} {found : Option Selection}
    (hnotes : Notes (collected ++ [taken]) search found) :
    Notes collected (do
      modify (· ++ [taken])
      match ← search with
      | some outcome => return some outcome
      | none =>
        modify List.dropLast
        return none) (found.map (·.cons taken)) := by
  have hpush : (modify (· ++ [taken]) : NotedSearch Unit).AsksThen collected [] ()
      (collected ++ [taken]) :=
    .of_silent fun acts ↦ by rw [List.append_nil]; rfl
  cases found with
  | none =>
    refine hpush.bind (hnotes.bind_silent fun acts ↦ ?_)
    change ((none, (collected ++ [taken]).dropLast), acts) = ((none, collected), acts)
    rw [List.dropLast_concat]
  | some selection =>
    obtain ⟨left, hbelow⟩ := hnotes
    have hact : (selection.cons taken).act collected = selection.act (collected ++ [taken]) := by
      simp [Selection.act, Selection.cons]
    refine ⟨left, ?_⟩
    rw [Selection.outcomeAfter_cons, hact]
    exact hpush.bind (hbelow.bind_silent fun acts ↦ rfl)

end Notes

/-- An arm is asked once, and if it takes the arguments its implementation runs. -/
theorem Arm.attemptBy_notes (values : List Value) (arm : Arm) (collected : List Value) :
    Notes collected (arm.attemptBy .noting values) (arm.select values) := by
  have hask : (liftM (Performer.noting.takeAll arm values) : NotedSearch _).AsksThen collected []
      (arm.takeAll values) collected :=
    .of_question rfl fun acts ↦ rfl
  refine Notes.after hask ?_
  unfold Arm.select
  cases arm.takeAll values with
  | none => exact Notes.nothing collected
  | some items => exact ⟨_, .of_silent fun acts ↦ rfl⟩

theorem Plan.attemptBy_done_notes (clause : Clause) (values collected : List Value) :
    Notes collected ((Plan.done clause).attemptBy .noting values) (some ⟨clause, []⟩) := by
  refine ⟨collected, ?_⟩
  rw [Selection.outcomeAfter, Selection.act, List.append_nil]
  cases values <;> exact .of_silent fun acts ↦ rfl

/-- The search of a plan asks until it has its selection and then runs it. -/
theorem Plan.attemptBy_notes (plan : Plan) (arguments collected : List Value) :
    Notes collected (plan.attemptBy .noting arguments) (plan.select arguments) := by
  -- Every step of a plan takes one argument.
  induction arguments generalizing plan collected with
  | nil =>
    cases plan with
    | done clause => exact attemptBy_done_notes clause [] collected
    | branch steps => exact Notes.nothing collected
    | collect arms => exact Notes.nothing collected
  | cons value values ih =>
    cases plan with
    | done clause => exact attemptBy_done_notes clause (value :: values) collected
    | branch steps =>
      refine Notes.first fun step _ ↦ ?_
      have hask : (liftM (Performer.noting.take step.1 value) : NotedSearch _).AsksThen collected []
          (step.1.take value) collected :=
        .of_question rfl fun acts ↦ rfl
      refine Notes.after hask ?_
      cases step.1.take value with
      | none => exact Notes.nothing collected
      | some taken => exact (ih step.2 (collected ++ [taken])).below
    | collect arms =>
      exact Notes.first fun arm _ ↦ arm.attemptBy_notes (value :: values) collected

/-- A call asks until it has the selection of its routine and then runs it. -/
theorem Routine.attemptAnyBy_notes (routine : Routine) (arguments : List Value) :
    Notes [] (Plan.attemptAnyBy .noting (routine.plansFor arguments.length) arguments)
      (routine.select arguments) := by
  refine Notes.first fun plan _ ↦ ?_
  have hplan := plan.attemptBy_notes arguments []
  rw [← @Option.or_none _ (plan.select arguments)]
  exact hplan.orElse (Notes.nothing []) fun _ ↦ rfl

/-! ### The acts of a call -/

namespace Dispatcher

/-- The acts of a call, in order. -/
def acts (dispatcher : Dispatcher) (arguments : List Value) : List Act :=
  ((dispatcher.callBy .noting arguments).run []).2

/-- A call asks questions. If its routine has a selection, the call then runs it and gives what the
implementation gives; else it calls the rescue, or fails if there is none. -/
theorem callBy_noting (dispatcher : Dispatcher) (arguments : List Value) :
    ∃ asked, Questions asked ∧ (dispatcher.callBy .noting arguments).run [] =
      match dispatcher.routine.select arguments with
      | some selection => (selection.outcome, asked ++ [selection.act []])
      | none =>
        let failure := dispatcher.routine.mismatch dispatcher.name arguments
        match dispatcher.rescue with
        | some rescue => (rescue dispatcher.name arguments failure,
            asked ++ [.rescue dispatcher.name arguments failure])
        | none => (.error failure, asked) := by
  have hnotes := dispatcher.routine.attemptAnyBy_notes arguments
  unfold callBy
  cases hselect : dispatcher.routine.select arguments with
  | some selection =>
    rw [hselect] at hnotes
    obtain ⟨left, hfound⟩ := hnotes
    obtain ⟨asked, hasked, hrun⟩ := hfound []
    refine ⟨asked, hasked, ?_⟩
    dsimp only
    rw [StateT.run_bind, hrun]
    rfl
  | none =>
    rw [hselect] at hnotes
    obtain ⟨asked, hasked, hrun⟩ := hnotes []
    refine ⟨asked, hasked, ?_⟩
    dsimp only
    rw [StateT.run_bind, hrun, List.nil_append, List.append_nil]
    cases dispatcher.rescue <;> rfl

end Dispatcher

/-- Whether or not its acts are noted, a call has the same outcome. -/
@[simp] theorem Dispatcher.callBy_noting_fst (dispatcher : Dispatcher) (arguments : List Value) :
    ((dispatcher.callBy .noting arguments).run []).1 = dispatcher.call arguments := by
  obtain ⟨asked, -, hrun⟩ := dispatcher.callBy_noting arguments
  rw [hrun, call, Routine.run_eq_select]
  cases dispatcher.routine.select arguments with
  | some selection => rfl
  | none => cases dispatcher.rescue <;> rfl

/-- A call that has a route runs the first one and gives what the implementation gives, whatever
this is; the run is the last act of the call, and before it the call has only asked whether
arguments are taken. Exactly the calls without a route fail in the routine. Then the rescue, if
there is one, gets the name, the arguments and the failure as they are, as the last act of the call,
and gives the outcome. -/
theorem call_ends_with_route (types : TypeTable) (conversions : ConversionTable) (tree : Tree)
    (dispatcher : Dispatcher)
    (hroutine : Routine.ofTree types conversions tree = .ok dispatcher.routine)
    (arguments : List Value) :
    (dispatcher.callBy .plain arguments = dispatcher.call arguments ∧
      ((dispatcher.callBy .noting arguments).run []).1 = dispatcher.call arguments) ∧
    (∀ route, (tree.routes types conversions arguments).head? = some route →
      dispatcher.call arguments = route.clause.implementation.run route.arguments ∧
        ∃ asked, Questions asked ∧ dispatcher.acts arguments =
          asked ++ [.implementation route.clause.implementation route.arguments]) ∧
    ((∃ failure, dispatcher.routine.run dispatcher.name arguments = .error failure) ↔
      tree.routes types conversions arguments = []) ∧
    ∀ failure, dispatcher.routine.run dispatcher.name arguments = .error failure →
      (∀ rescue, dispatcher.rescue = some rescue →
        dispatcher.call arguments = rescue dispatcher.name arguments failure ∧
          ∃ asked, Questions asked ∧ dispatcher.acts arguments =
            asked ++ [.rescue dispatcher.name arguments failure]) ∧
      (dispatcher.rescue = none →
        dispatcher.call arguments = .error failure ∧ Questions (dispatcher.acts arguments)) := by
  obtain ⟨asked, hasked, hrun⟩ := dispatcher.callBy_noting arguments
  have hsame := dispatcher.callBy_noting_fst arguments
  have hselect := select_eq_head?_tree_routes hroutine arguments
  refine ⟨⟨dispatcher.callBy_plain arguments, hsame⟩, ?_, ?_, ?_⟩
  · intro route hroute
    rw [hselect, hroute] at hrun
    rw [← hsame, Dispatcher.acts, hrun]
    exact ⟨rfl, asked, hasked, rfl⟩
  · rw [dispatcher.routine.run_eq_select, hselect, ← List.head?_eq_none_iff]
    cases (tree.routes types conversions arguments).head? <;> simp
  · intro failure hfails
    rw [dispatcher.routine.run_eq_select] at hfails
    cases hnone : dispatcher.routine.select arguments with
    | some selection =>
      rw [hnone] at hfails
      exact nomatch hfails
    | none =>
      rw [hnone] at hfails hrun
      cases hfails
      rw [← hsame, Dispatcher.acts]
      constructor
      · intro rescue hrescue
        rw [hrescue] at hrun
        rw [hrun]
        exact ⟨rfl, asked, hasked, rfl⟩
      · intro hrescue
        rw [hrescue] at hrun
        rw [hrun]
        exact ⟨rfl, hasked⟩

/-- A clause that takes a number. -/
def numeric : List Clause :=
  [⟨⟨["number"], none⟩, ⟨0, fun passed ↦ .ok (.array passed)⟩⟩]

/-- A clause that hands one argument on to a dispatcher, and a clause for any arguments. -/
def delegating (inner : Dispatcher) : List Clause :=
  [⟨⟨["*"], none⟩, inner.asImplementation 1⟩,
    ⟨⟨[], some (.single "*")⟩, ⟨2, fun passed ↦ .ok (.array passed)⟩⟩]

/-- A mismatch of the inner dispatcher is the outcome of the outer one: neither the second clause,
which takes the argument too, nor the rescue gets it. The rescue gets the call without arguments,
which no clause takes. -/
theorem call_ends_with_route_nested : ∃ (inner : Dispatcher) (tree : Tree) (outer : Dispatcher),
    Tree.ofClauses (delegating inner) = .ok tree ∧
      Routine.ofTree .standard .empty tree = .ok outer.routine ∧
      outer.rescue = some (fun _ _ _ ↦ .ok (.string "rescued")) ∧
      outer.call [.string "a"] = .error (.argumentType (some "half") 0 "string" ["number"]) ∧
      (∃ asked, Questions asked ∧ outer.acts [.string "a"] =
        asked ++ [.implementation (inner.asImplementation 1) [.string "a"]]) ∧
      outer.call [] = .ok (.string "rescued") := by
  obtain ⟨innerTree, -, innerRoutine, -, hinner⟩ : ∃ tree, Tree.ofClauses numeric = .ok tree ∧
      ∃ routine, Routine.ofTree .standard .empty tree = .ok routine ∧
        Routine.run routine (some "half") [.string "a"] =
          .error (.argumentType (some "half") 0 "string" ["number"]) :=
    ⟨_, rfl, _, rfl, rfl⟩
  let inner : Dispatcher := ⟨some "half", .empty, innerRoutine, none⟩
  have hmismatch : inner.call [.string "a"] =
      .error (.argumentType (some "half") 0 "string" ["number"]) := by
    rw [Dispatcher.call, hinner]
  obtain ⟨tree, htree, routine, hroutine, hfirst, hnone⟩ :
      ∃ tree, Tree.ofClauses (delegating inner) = .ok tree ∧
        ∃ routine, Routine.ofTree .standard .empty tree = .ok routine ∧
          (tree.routes .standard .empty [.string "a"]).head? =
            some ⟨⟨⟨["*"], none⟩, inner.asImplementation 1⟩, [.string "a"]⟩ ∧
          tree.routes .standard .empty [] = [] :=
    ⟨_, rfl, _, rfl, rfl, rfl⟩
  let outer : Dispatcher := ⟨none, .empty, routine, some fun _ _ _ ↦ .ok (.string "rescued")⟩
  obtain ⟨-, hroute, -, -⟩ :=
    call_ends_with_route .standard .empty tree outer hroutine [.string "a"]
  obtain ⟨-, -, hfails, hrescued⟩ := call_ends_with_route .standard .empty tree outer hroutine []
  obtain ⟨hcall, hacts⟩ := hroute _ hfirst
  obtain ⟨failure, hfailure⟩ := hfails.mpr hnone
  exact ⟨inner, tree, outer, htree, hroutine, rfl, hcall.trans hmismatch, hacts,
    ((hrescued failure hfailure).1 _ rfl).1⟩

end Multimethod
