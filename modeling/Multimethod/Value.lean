/-!
# Values

A `Value` is what a multimethod takes and returns. Seven kinds of value exist, and `Value.kind`
tells them apart; `Kind.name` is the name of a kind in messages. An object is a list of entries
sorted by key, each key once: `Value.ofPairs` builds it from any list of pairs, where a later pair
replaces an earlier one with the same key.

`Value.equals` compares values by content. Numbers are compared as IEEE 754 says: `NaN` differs from
itself, and the two zeros are equal.
-/

set_option autoImplicit false
set_option relaxedAutoImplicit false

namespace Multimethod

/-! ### Kinds and values -/

/-- The kinds of value. -/
inductive Kind where
  | undefined
  | null
  | boolean
  | number
  | string
  | array
  | object
  deriving DecidableEq, Repr

/-- The name of a kind in messages. -/
def Kind.name : Kind → String
  | .undefined => "undefined"
  | .null => "null"
  | .boolean => "boolean"
  | .number => "number"
  | .string => "string"
  | .array => "Array"
  | .object => "Object"

/-- A value whose kind is known only when it is looked at. -/
inductive Value where
  | undefined
  | null
  | boolean (b : Bool)
  | number (x : Float)
  | string (s : String)
  | array (items : List Value)
  /-- The entries are sorted by key, and every key occurs once. -/
  | object (entries : List (String × Value))
  deriving Inhabited

namespace Value

/-- The kind of a value. -/
def kind : Value → Kind
  | .undefined => .undefined
  | .null => .null
  | .boolean _ => .boolean
  | .number _ => .number
  | .string _ => .string
  | .array _ => .array
  | .object _ => .object

/-! ### Contents by kind -/

/-- The content of a number. -/
def number? : Value → Option Float
  | .number x => some x
  | _ => none

/-- The content of a string. -/
def string? : Value → Option String
  | .string s => some s
  | _ => none

/-- The content of a boolean. -/
def boolean? : Value → Option Bool
  | .boolean b => some b
  | _ => none

/-- The items of an array. -/
def items? : Value → Option (List Value)
  | .array items => some items
  | _ => none

/-- The entries of an object. -/
def entries? : Value → Option (List (String × Value))
  | .object entries => some entries
  | _ => none

/-! ### Objects -/

/-- Entries sorted by key with one more pair: it replaces the entry with its key, or goes to its
place in the order. -/
def insertEntry (key : String) (value : Value) :
    List (String × Value) → List (String × Value)
  | [] => [(key, value)]
  | (k, v) :: entries =>
    if key < k then (key, value) :: (k, v) :: entries
    else if key = k then (key, value) :: entries
    else (k, v) :: insertEntry key value entries

/-- The object with the given pairs, of which the last one with a key counts. -/
def ofPairs (pairs : List (String × Value)) : Value :=
  .object (pairs.foldl (fun entries pair ↦ insertEntry pair.1 pair.2 entries) [])

/-- The entry of an object with a key. -/
def field? (key : String) (value : Value) : Option Value :=
  (value.entries?.getD []).lookup key

/-! ### Equality -/

mutual

/-- Whether two values have the same content. -/
def equals : Value → Value → Bool
  | .undefined, .undefined => true
  | .null, .null => true
  | .boolean a, .boolean b => a == b
  | .number a, .number b => a == b
  | .string a, .string b => a == b
  | .array as, .array bs => equalItems as bs
  | .object as, .object bs => equalEntries as bs
  | _, _ => false

/-- Whether two lists of items have the same length and equal items in order. -/
def equalItems : List Value → List Value → Bool
  | [], [] => true
  | a :: as, b :: bs => equals a b && equalItems as bs
  | _, _ => false

/-- Whether two lists of entries have the same keys and equal values in order. -/
def equalEntries : List (String × Value) → List (String × Value) → Bool
  | [], [] => true
  | (k, a) :: as, (l, b) :: bs => k == l && equals a b && equalEntries as bs
  | _, _ => false

end

end Value

end Multimethod
