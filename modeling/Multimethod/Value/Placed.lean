import Multimethod.Value

/-!
# Values with places

Strings, arrays and objects are kept apart from the value that holds them, so that a copy of a value
shares them with it. A `PlacedValue` shows this: every string, array and object in it has a
place, and a copy has the same places. `PlacedValue.equals` compares as an observer of such values
does: two parts at one place are equal without a look inside, and parts at different places are
compared by content. Sharing shows only where a number differs from itself.

`Value.placed` puts a value at places that nothing else uses, and `PlacedValue.content` forgets the
places. `content_placed` says that placing a value loses nothing.
-/

set_option autoImplicit false
set_option relaxedAutoImplicit false

namespace Multimethod

/-- A value whose strings, arrays and objects have places. -/
inductive PlacedValue where
  | undefined
  | null
  | boolean (b : Bool)
  | number (x : Float)
  | string (place : Nat) (s : String)
  | array (place : Nat) (items : List PlacedValue)
  | object (place : Nat) (entries : List (String × PlacedValue))

namespace PlacedValue

/-! ### Equality as sharing shows it -/

mutual

/-- Whether two values are equal, parts at one place being equal without comparison. -/
def equals : PlacedValue → PlacedValue → Bool
  | .undefined, .undefined => true
  | .null, .null => true
  | .boolean a, .boolean b => a == b
  | .number a, .number b => a == b
  | .string p a, .string q b => p == q || a == b
  | .array p as, .array q bs => p == q || equalItems as bs
  | .object p as, .object q bs => p == q || equalEntries as bs
  | _, _ => false

/-- Whether two lists of items have the same length and equal items in order. -/
def equalItems : List PlacedValue → List PlacedValue → Bool
  | [], [] => true
  | a :: as, b :: bs => equals a b && equalItems as bs
  | _, _ => false

/-- Whether two lists of entries have the same keys and equal values in order. -/
def equalEntries : List (String × PlacedValue) → List (String × PlacedValue) → Bool
  | [], [] => true
  | (k, a) :: as, (l, b) :: bs => k == l && equals a b && equalEntries as bs
  | _, _ => false

end

/-! ### Forgetting the places -/

mutual

/-- The value without its places. -/
def content : PlacedValue → Value
  | .undefined => .undefined
  | .null => .null
  | .boolean b => .boolean b
  | .number x => .number x
  | .string _ s => .string s
  | .array _ items => .array (itemContents items)
  | .object _ entries => .object (entryContents entries)

/-- The items without their places. -/
def itemContents : List PlacedValue → List Value
  | [] => []
  | item :: items => content item :: itemContents items

/-- The entries without their places. -/
def entryContents : List (String × PlacedValue) → List (String × Value)
  | [] => []
  | (key, value) :: entries => (key, content value) :: entryContents entries

end

end PlacedValue

/-! ### Places that nothing else uses -/

namespace Value

mutual

/-- The value at fresh places from `next` on, and the first place that is still free. -/
def placedFrom (next : Nat) : Value → PlacedValue × Nat
  | .undefined => (.undefined, next)
  | .null => (.null, next)
  | .boolean b => (.boolean b, next)
  | .number x => (.number x, next)
  | .string s => (.string next s, next + 1)
  | .array items =>
    let (placed, free) := placedItemsFrom (next + 1) items
    (.array next placed, free)
  | .object entries =>
    let (placed, free) := placedEntriesFrom (next + 1) entries
    (.object next placed, free)

/-- The items at fresh places from `next` on, and the first place that is still free. -/
def placedItemsFrom (next : Nat) : List Value → List PlacedValue × Nat
  | [] => ([], next)
  | item :: items =>
    let (placed, free) := placedFrom next item
    let (others, free) := placedItemsFrom free items
    (placed :: others, free)

/-- The entries at fresh places from `next` on, and the first place that is still free. -/
def placedEntriesFrom (next : Nat) :
    List (String × Value) → List (String × PlacedValue) × Nat
  | [] => ([], next)
  | (key, value) :: entries =>
    let (placed, free) := placedFrom next value
    let (others, free) := placedEntriesFrom free entries
    ((key, placed) :: others, free)

end

/-- The value at places that nothing else uses. -/
def placed (value : Value) : PlacedValue :=
  (value.placedFrom 0).1

/-- Whether a value equals a copy of itself, which shares its strings, arrays and objects. -/
def equalsCopy (value : Value) : Bool :=
  value.placed.equals value.placed

mutual

@[simp] theorem content_placedFrom (next : Nat) (value : Value) :
    (value.placedFrom next).1.content = value := by
  cases value with
  | array items =>
    simp [placedFrom, PlacedValue.content, itemContents_placedItemsFrom (next + 1) items]
  | object entries =>
    simp [placedFrom, PlacedValue.content, entryContents_placedEntriesFrom (next + 1) entries]
  | _ => rfl

@[simp] theorem itemContents_placedItemsFrom (next : Nat) (items : List Value) :
    PlacedValue.itemContents (placedItemsFrom next items).1 = items := by
  cases items with
  | nil => rfl
  | cons item items =>
    simp [placedItemsFrom, PlacedValue.itemContents, content_placedFrom next item,
      itemContents_placedItemsFrom _ items]

@[simp] theorem entryContents_placedEntriesFrom (next : Nat) (entries : List (String × Value)) :
    PlacedValue.entryContents (placedEntriesFrom next entries).1 = entries := by
  cases entries with
  | nil => rfl
  | cons entry entries =>
    obtain ⟨key, value⟩ := entry
    simp [placedEntriesFrom, PlacedValue.entryContents, content_placedFrom next value,
      entryContents_placedEntriesFrom _ entries]

end

/-- Placing a value loses nothing. -/
@[simp] theorem content_placed (value : Value) : value.placed.content = value :=
  content_placedFrom 0 value

end Value

end Multimethod
