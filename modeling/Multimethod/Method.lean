import Multimethod.Signature.Parser
import Multimethod.Signature.Pattern

/-!
# Methods

An implementation is a function with an identity: two implementations are the same when their
identities are, whatever they compute. A `Method` is a signature with its implementation, and a
`Clause` is one of the patterns of that signature with the same implementation. `Method.clauses`
lists them in the order of the patterns, and `Clause.addTo` collects clauses whose keys differ.
-/

set_option autoImplicit false
set_option relaxedAutoImplicit false

namespace Multimethod

/-- A function from arguments to an outcome, told apart from others by its identity. -/
structure Implementation where
  identity : Nat
  run : List Value → Outcome

/-- Whether two implementations are one. -/
def Implementation.isSame (a b : Implementation) : Bool :=
  a.identity == b.identity

/-- An implementation for the arguments that a pattern takes. -/
structure Clause where
  pattern : Pattern
  implementation : Implementation

/-- Clauses with one more after them, unless one of them has its key. -/
def Clause.addTo (clauses : List Clause) (clause : Clause) : Except Failure (List Clause) :=
  if clauses.any (·.pattern.key == clause.pattern.key) then
    .error (.duplicateSignature clause.pattern.key)
  else
    .ok (clauses ++ [clause])

/-- An implementation for the arguments that a signature takes. -/
structure Method where
  signature : Signature
  implementation : Implementation

namespace Method

/-- The method that the text of a signature and an implementation make. -/
def parse (text : String) (implementation : Implementation) : Except Failure Method :=
  (Signature.parse text).map fun signature ↦ ⟨signature, implementation⟩

/-- The method with only the types that are not ignored, if every slot keeps one. -/
def without (ignored : List String) (method : Method) : Option Method :=
  (method.signature.restrict fun name ↦ !ignored.contains name).map
    fun signature ↦ ⟨signature, method.implementation⟩

/-- The clauses of a method. -/
def clauses (method : Method) : List Clause :=
  method.signature.patterns.map fun pattern ↦ ⟨pattern, method.implementation⟩

end Method

end Multimethod
