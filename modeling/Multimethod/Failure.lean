import Multimethod.Text.Inspect
import Multimethod.Value

/-!
# Failures

A `Failure` is a reason why a multimethod could not be built or called. Three groups exist:
`Failure.isConstruction` holds of the failures of building, `Failure.isMismatch` of the two ways in
which no signature accepts a call, and the others come from a search, a conversion or an
implementation. `Failure.message` words a failure for a user and `Failure.inspect` shows it for a
log.
-/

set_option autoImplicit false
set_option relaxedAutoImplicit false

namespace Multimethod

/-- Why a multimethod could not be built or called. A function without a name is `none`. -/
inductive Failure where
  /-- The text of a signature cannot be read. -/
  | malformedSignature (signature message : String)
  /-- Two signatures have the same types. -/
  | duplicateSignature (signature : String)
  /-- A type of this name exists. -/
  | duplicateType (name : String)
  /-- No type can have this name. -/
  | invalidTypeName (name reason : String)
  /-- A signature or a conversion names a type that does not exist. -/
  | unknownType (name : String) (suggestion : Option String)
  /-- Merged multimethods have different names. -/
  | nameConflict (first second : String)
  /-- No signature takes so many arguments. -/
  | argumentCount (function : Option String) (got : Nat) (expected : String)
  /-- No signature takes arguments of these types. -/
  | argumentType (function : Option String) (index : Nat) (actual : String)
      (expected : List String)
  /-- The multimethod has no such signature. -/
  | signatureNotFound (function : Option String) (signature : String)
  /-- The value has not the type, and no conversion gives it one. -/
  | inconvertible (actual target : String)
  /-- An implementation failed. -/
  | raised (message : String)
  deriving DecidableEq

/-- What a call gives: a value, or a failure. -/
abbrev Outcome := Except Failure Value

namespace Failure

/-! ### The groups of failures -/

/-- Whether no signature accepted a call. -/
def isMismatch : Failure → Bool
  | .argumentCount .. => true
  | .argumentType .. => true
  | _ => false

/-- Whether the failure arises only while a multimethod is built. -/
def isConstruction : Failure → Bool
  | .malformedSignature .. => true
  | .duplicateSignature .. => true
  | .duplicateType .. => true
  | .invalidTypeName .. => true
  | .unknownType .. => true
  | .nameConflict .. => true
  | _ => false

/-! ### Wording -/

/-- A name as messages quote it. -/
def ticked (name : String) : String :=
  "`" ++ name ++ "`"

/-- The name of a function in messages. -/
def functionName : Option String → String
  | none => "function"
  | some name => if name.isEmpty then "function" else name

/-- The alternatives of an expectation. -/
def alternatives (names : List String) : String :=
  " or ".intercalate names

/-- The failure in words. -/
def message : Failure → String
  | .malformedSignature signature message =>
    "syntax error in signature " ++ ticked signature ++ ": " ++ message
  | .duplicateSignature signature => "signature " ++ ticked signature ++ " is defined twice"
  | .duplicateType name => "type " ++ ticked name ++ " is already registered"
  | .invalidTypeName name reason => "invalid type name " ++ ticked name ++ ": " ++ reason
  | .unknownType name none => "unknown type " ++ ticked name
  | .unknownType name (some suggestion) =>
    "unknown type " ++ ticked name ++ "; did you mean " ++ ticked suggestion ++ "?"
  | .nameConflict first second =>
    "function names do not match: " ++ ticked first ++ " and " ++ ticked second
  | .argumentCount function got expected =>
    functionName function ++ ": wrong number of arguments (expected " ++ expected ++ ", got " ++
      Nat.repr got ++ ")"
  | .argumentType function index actual expected =>
    functionName function ++ ": wrong signature, unexpected type of argument " ++
      Nat.repr index ++ " (expected: " ++ alternatives expected ++ ", actual: " ++ actual ++ ")"
  | .signatureNotFound function signature =>
    functionName function ++ ": signature " ++ ticked signature ++ " not found"
  | .inconvertible actual target => "cannot convert " ++ actual ++ " to " ++ target
  | .raised message => message

open Text in
/-- The failure as a log shows it. -/
def inspect : Failure → String
  | .malformedSignature signature message =>
    record "Syntax" [("signature", quoted signature), ("message", quoted message)]
  | .duplicateSignature signature =>
    record "DuplicateSignature" [("signature", quoted signature)]
  | .duplicateType name => record "DuplicateType" [("name", quoted name)]
  | .invalidTypeName name reason =>
    record "InvalidTypeName" [("name", quoted name), ("reason", quoted reason)]
  | .unknownType name suggestion =>
    record "UnknownType"
      [("name", quoted name), ("suggestion", optional (suggestion.map quoted))]
  | .nameConflict first second =>
    record "NameConflict" [("first", quoted first), ("second", quoted second)]
  | .argumentCount function got expected =>
    record "WrongArgumentCount"
      [("function", optional (function.map quoted)), ("got", Nat.repr got),
        ("expected", quoted expected)]
  | .argumentType function index actual expected =>
    record "WrongSignature"
      [("function", optional (function.map quoted)), ("index", Nat.repr index),
        ("actual", quoted actual), ("expected", bracketed (expected.map quoted))]
  | .signatureNotFound function signature =>
    record "SignatureNotFound"
      [("function", optional (function.map quoted)), ("signature", quoted signature)]
  | .inconvertible actual target =>
    record "CannotConvert" [("actual", quoted actual), ("target", quoted target)]
  | .raised message => record "Custom" [("message", quoted message)]

end Failure

end Multimethod
