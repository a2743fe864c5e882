/-!
# Signatures

A signature lists the types that an implementation takes. Each of its slots allows one or more
alternatives (`Alternatives`), and the last slot may stand for any positive number of arguments.
`Signature.fixed` holds the slots of single arguments and `Signature.rest` the slot of the remaining
ones, if there is one, so a repeated slot can only be the last.

`Signature.slots` is the signature as a row of slots, and `Signature.ofSlots?` goes back; that is
possible exactly for the rows in which no slot but the last is repeated (`ofSlots?_eq_some_iff`).
`Signature.key` is the normal written form. `Signature.restrict` keeps some of the alternatives.
-/

set_option autoImplicit false
set_option relaxedAutoImplicit false

namespace Multimethod

/-- The name that stands for every type. -/
def wildcard : String :=
  "*"

/-- The mark of a slot that stands for one or more arguments. -/
def repetitionMark : String :=
  "..."

/-- Whether the mark of repetition occurs in a text. -/
def holdsMark : List Char → Bool
  | '.' :: '.' :: '.' :: _ => true
  | _ :: text => holdsMark text
  | [] => false

/-- Names with one more after them, unless they have it. -/
def addName (names : List String) (name : String) : List String :=
  if name ∈ names then names else names ++ [name]

/-- Names with those after them that are new. -/
def addNames (names more : List String) : List String :=
  more.foldl addName names

theorem addNames_ne_nil {names : List String} (hsome : names ≠ []) (more : List String) :
    addNames names more ≠ [] := by
  induction more generalizing names with
  | nil => exact hsome
  | cons name more ih =>
    have hadded : addName names name ≠ [] := by
      unfold addName
      split
      · exact hsome
      · exact List.append_ne_nil_of_left_ne_nil hsome _
    exact ih hadded

/-! ### Slots -/

/-- The names of the types that one slot allows, in order of declaration. -/
@[ext]
structure Alternatives where
  names : List String
  /-- A slot allows something. -/
  nonempty : names ≠ [] := by exact List.cons_ne_nil _ _
  deriving DecidableEq, Repr

namespace Alternatives

/-- One type only. -/
def single (name : String) : Alternatives :=
  .mk [name]

@[simp] theorem names_single (name : String) : (single name).names = [name] :=
  rfl

/-- The alternatives that have the given names, if there are any. -/
def ofNames? : List String → Option Alternatives
  | [] => none
  | name :: names => some (.mk (name :: names))

@[simp]
theorem ofNames?_eq_none_iff (names : List String) : ofNames? names = none ↔ names = [] := by
  cases names <;> simp [ofNames?]

@[simp] theorem ofNames?_eq_some_iff (names : List String) (alternatives : Alternatives) :
    ofNames? names = some alternatives ↔ names = alternatives.names := by
  obtain ⟨kept, hkept⟩ := alternatives
  cases names with
  | nil => exact iff_of_false nofun fun hnil ↦ hkept hnil.symm
  | cons name names => simp [ofNames?]

/-- A name and those after it, each of them once. -/
def once (name : String) (names : List String) : Alternatives where
  names := addNames [name] names
  nonempty := addNames_ne_nil (List.cons_ne_nil _ _) names

/-- The alternatives with a property, if there are any. -/
def keep? (keep : String → Bool) (alternatives : Alternatives) : Option Alternatives :=
  ofNames? (alternatives.names.filter keep)

@[simp] theorem keep?_eq_none_iff {keep : String → Bool} {alternatives : Alternatives} :
    alternatives.keep? keep = none ↔ ∀ name ∈ alternatives.names, keep name = false := by
  rw [keep?, ofNames?_eq_none_iff, List.filter_eq_nil_iff]
  simp only [Bool.not_eq_true]

@[simp] theorem keep?_eq_some_iff {keep : String → Bool} {alternatives kept : Alternatives} :
    alternatives.keep? keep = some kept ↔ alternatives.names.filter keep = kept.names :=
  ofNames?_eq_some_iff _ _

/-- The written form of alternatives. -/
def text (alternatives : Alternatives) : String :=
  "|".intercalate alternatives.names

end Alternatives

/-- One position of a signature. -/
structure Slot where
  alternatives : Alternatives
  /-- Whether the slot stands for one or more arguments. -/
  repeated : Bool
  deriving DecidableEq, Repr

namespace Slot

/-- The written form of a slot. -/
def text (slot : Slot) : String :=
  if slot.repeated then slot.alternatives.text ++ repetitionMark else slot.alternatives.text

/-- Whether a slot allows one type only. -/
def isSingle (slot : Slot) : Bool :=
  slot.alternatives.names.length == 1

end Slot

/-- The types that an implementation takes. -/
structure Signature where
  /-- The slots of single arguments. -/
  fixed : List Alternatives
  /-- The slot of all the arguments after them, of which there is at least one. -/
  rest : Option Alternatives
  deriving DecidableEq, Repr

namespace Signature

/-! ### Signatures as rows of slots -/

/-- The slots in order. -/
def slots (signature : Signature) : List Slot :=
  (signature.fixed.map fun alternatives ↦ ⟨alternatives, false⟩) ++
    (signature.rest.toList.map fun alternatives ↦ ⟨alternatives, true⟩)

/-- The signature with one more slot before the others. -/
def cons (alternatives : Alternatives) (signature : Signature) : Signature :=
  { signature with fixed := alternatives :: signature.fixed }

/-- The signature with the given slots, if only the last one is repeated. -/
def ofSlots? : List Slot → Option Signature
  | [] => some ⟨[], none⟩
  | slot :: slots =>
    if slot.repeated then
      if slots.isEmpty then some ⟨[], some slot.alternatives⟩ else none
    else
      (ofSlots? slots).map (cons slot.alternatives)

@[simp] theorem slots_cons (alternatives : Alternatives) (signature : Signature) :
    (signature.cons alternatives).slots = ⟨alternatives, false⟩ :: signature.slots :=
  rfl

/-- A row of slots gives the signature that has these slots. -/
@[simp] theorem ofSlots?_eq_some_iff (slots : List Slot) (signature : Signature) :
    ofSlots? slots = some signature ↔ signature.slots = slots := by
  induction slots generalizing signature with
  | nil =>
    obtain ⟨fixed, rest⟩ := signature
    cases fixed <;> cases rest <;> simp [ofSlots?, Signature.slots]
  | cons slot others ih =>
    obtain ⟨alternatives, repeated⟩ := slot
    obtain ⟨fixed, rest⟩ := signature
    cases repeated with
    | true =>
      cases others <;> cases fixed <;> cases rest <;> simp [ofSlots?, Signature.slots]
      exact eq_comm
    | false =>
      have hstep : ofSlots? (⟨alternatives, false⟩ :: others) =
          (ofSlots? others).map (cons alternatives) := rfl
      rw [hstep, Option.map_eq_some_iff]
      constructor
      · rintro ⟨tail, htail, hcons⟩
        rw [← hcons, slots_cons, (ih tail).1 htail]
      · intro hslots
        cases fixed with
        | nil => cases rest <;> simp [Signature.slots] at hslots
        | cons first fixed =>
          have hsplit : (Slot.mk first false) :: slots ⟨fixed, rest⟩ =
              ⟨alternatives, false⟩ :: others := hslots
          injection hsplit with hfirst htail
          injection hfirst with hfirst
          exact ⟨⟨fixed, rest⟩, (ih _).2 htail, by rw [cons, hfirst]⟩

/-! ### The normal written form -/

/-- The normal written form: slots with commas between them. -/
def key (signature : Signature) : String :=
  ",".intercalate (signature.slots.map Slot.text)

/-- The number of ways to choose one alternative for each single argument. -/
def choiceCount (signature : Signature) : Nat :=
  (signature.fixed.map (·.names.length)).foldr (· * ·) 1

/-! ### Fewer alternatives -/

/-- The signature with only the alternatives that have a property, if every slot keeps one. -/
def restrict (keep : String → Bool) (signature : Signature) : Option Signature := do
  let fixed ← signature.fixed.mapM (Alternatives.keep? keep)
  match signature.rest with
  | none => some ⟨fixed, none⟩
  | some alternatives => (alternatives.keep? keep).map fun kept ↦ ⟨fixed, some kept⟩

end Signature

end Multimethod
