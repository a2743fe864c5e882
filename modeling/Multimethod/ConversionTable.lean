import Multimethod.TypeTable

/-!
# Conversions

A conversion makes a value of one type usable where another type is expected. A `ConversionTable`
lists the conversions in order of registration; that order decides between several of them.
`ConversionTable.toward` selects those that help when any of some types is expected: they lead
to one of these types and do not start from one, and of several with one source the first is
taken.
-/

set_option autoImplicit false
set_option relaxedAutoImplicit false

namespace Multimethod

/-- A way to make a value of one type stand for a value of another. -/
structure Conversion where
  source : String
  target : String
  convert : Value → Value

/-- The conversion as a log shows it. -/
def Conversion.inspect (conversion : Conversion) : String :=
  "Conversion(" ++ conversion.source ++ " -> " ++ conversion.target ++ ")"

/-- Conversions in order of registration. -/
structure ConversionTable where
  conversions : List Conversion

namespace ConversionTable

/-- The table without conversions. -/
def empty : ConversionTable :=
  ⟨[]⟩

/-! ### New conversions -/

/-- Checks that a name can be the source or the target of a conversion. -/
def checkEnd (types : TypeTable) (name : String) : Except Failure Unit :=
  if name = wildcard then
    .error (.invalidTypeName name "the wildcard cannot take part in a conversion")
  else
    (types.test name).map fun _ ↦ ()

/-- The table with one more conversion. Its source is checked before its target. -/
def add (table : ConversionTable) (types : TypeTable) (conversion : Conversion) :
    Except Failure ConversionTable := do
  checkEnd types conversion.source
  checkEnd types conversion.target
  return ⟨table.conversions ++ [conversion]⟩

/-! ### Finding conversions -/

/-- Conversions with one more after them, if it leads from outside the targets into them and starts
from a new source. -/
def extend (targets : List String) (wired : List Conversion) (conversion : Conversion) :
    List Conversion :=
  if targets.contains conversion.target && !targets.contains conversion.source &&
      !wired.any (·.source == conversion.source) then
    wired ++ [conversion]
  else
    wired

/-- The conversions that help when one of the targets is expected. -/
def toward (table : ConversionTable) (targets : List String) : List Conversion :=
  table.conversions.foldl (extend targets) []

theorem mem_foldl_extend {targets : List String} {conversion : Conversion}
    {more wired : List Conversion} (hmem : conversion ∈ more.foldl (extend targets) wired) :
    conversion ∈ wired ∨ conversion ∈ more ∧ conversion.target ∈ targets := by
  induction more generalizing wired with
  | nil => exact Or.inl hmem
  | cons next more ih =>
    rcases ih hmem with hwired | ⟨hmore, htarget⟩
    · unfold extend at hwired
      split at hwired
      · next hextends =>
        simp only [Bool.and_eq_true, List.contains_iff_mem] at hextends
        rcases List.mem_append.mp hwired with hbefore | hnew
        · exact Or.inl hbefore
        · cases List.mem_singleton.mp hnew
          exact Or.inr ⟨List.mem_cons_self, hextends.1.1⟩
      · exact Or.inl hwired
    · exact Or.inr ⟨List.mem_cons_of_mem _ hmore, htarget⟩

/-- The conversions that help are registered ones that lead to a target. -/
theorem mem_of_mem_toward {table : ConversionTable} {targets : List String}
    {conversion : Conversion} (hmem : conversion ∈ table.toward targets) :
    conversion ∈ table.conversions ∧ conversion.target ∈ targets :=
  (mem_foldl_extend hmem).resolve_left List.not_mem_nil

/-- The conversions to a type. -/
def into (table : ConversionTable) (target : String) : List Conversion :=
  table.conversions.filter (·.target == target)

/-- The table as a log shows it. -/
def inspect (table : ConversionTable) : String :=
  Text.record "ConversionRegistry"
    [("conversions", Text.bracketed (table.conversions.map Conversion.inspect))]

end ConversionTable

end Multimethod
