import Multimethod.Arity
import Multimethod.Signature

/-!
# Patterns

A pattern is a signature with one type for every single argument. `Signature.patterns` lists the
patterns of a signature: one for each choice of alternatives, the first slot varying slowest. The
slot of the remaining arguments stays whole, because each of those arguments may have another type.
-/

set_option autoImplicit false
set_option relaxedAutoImplicit false

namespace Multimethod

/-- A signature with one type for every single argument. -/
structure Pattern where
  /-- The types of the single arguments. -/
  fixed : List String
  /-- The alternatives for each of the arguments after them, of which there is at least one. -/
  rest : Option Alternatives
  deriving DecidableEq, Repr

namespace Pattern

/-- The numbers of arguments that the pattern takes. -/
def arity (pattern : Pattern) : Arity :=
  match pattern.rest with
  | none => .exact pattern.fixed.length
  | some _ => .atLeast (pattern.fixed.length + 1)

/-- The written forms of the slots. -/
def slotTexts (pattern : Pattern) : List String :=
  pattern.fixed ++ pattern.rest.toList.map Alternatives.text

/-- The written form by which patterns are told apart. -/
def key (pattern : Pattern) : String :=
  if pattern.rest.isSome then ",".intercalate pattern.slotTexts ++ repetitionMark
  else ",".intercalate pattern.slotTexts

/-- Whether a slot names a type. -/
def uses (name : String) (pattern : Pattern) : Bool :=
  pattern.fixed.contains name || pattern.rest.any (·.names.contains name)

end Pattern

/-- The ways of taking one alternative of each slot, the first slot varying slowest. -/
def choices : List Alternatives → List (List String)
  | [] => [[]]
  | alternatives :: slots =>
    alternatives.names.flatMap fun name ↦ (choices slots).map fun names ↦ name :: names

/-- The patterns of a signature. -/
def Signature.patterns (signature : Signature) : List Pattern :=
  (choices signature.fixed).map fun names ↦ ⟨names, signature.rest⟩

end Multimethod
