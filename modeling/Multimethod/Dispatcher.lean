import Multimethod.MethodTable
import Multimethod.Routine

/-!
# Dispatchers

A dispatcher is a finished multimethod: the methods it was built from and the routine that answers
calls. When no method accepts a call, the failure goes to the dispatcher's rescue, if it has one;
failures of an implementation never do.
-/

set_option autoImplicit false
set_option relaxedAutoImplicit false

namespace Multimethod

/-- What to do with a call that no method accepts: it gets the name of the function, the arguments
and the failure, and its outcome is that of the call. -/
abbrev Rescue := Option String → List Value → Failure → Outcome

/-- A finished multimethod. -/
structure Dispatcher where
  name : Option String
  methods : MethodTable
  routine : Routine
  rescue : Option Rescue

namespace Dispatcher

/-- The outcome of a call. -/
def call (dispatcher : Dispatcher) (arguments : List Value) : Outcome :=
  match dispatcher.routine.run dispatcher.name arguments with
  | .ok outcome => outcome
  | .error failure =>
    match dispatcher.rescue with
    | some rescue => rescue dispatcher.name arguments failure
    | none => .error failure

/-- The dispatcher as an implementation with an identity of its own. -/
def asImplementation (dispatcher : Dispatcher) (identity : Nat) : Implementation :=
  ⟨identity, dispatcher.call⟩

/-- The implementation of the method that has a signature. -/
def find (dispatcher : Dispatcher) (signature : String) : Except Failure Implementation := do
  let key ← Signature.normalForm signature
  match dispatcher.methods.find? key with
  | some implementation => return implementation
  | none => throw (.signatureNotFound dispatcher.name key)

/-- The dispatcher as a log shows it. -/
def inspect (dispatcher : Dispatcher) : String :=
  Text.openRecord "Dispatcher"
    [("name", Text.optional (dispatcher.name.map Text.quoted)),
      ("signatures", Text.bracketed (dispatcher.methods.keys.map Text.quoted))]

end Dispatcher

end Multimethod
