import Multimethod.Proofs.EditScripts
import Multimethod.Proofs.PlanOfNode
import Multimethod.Proofs.ReachableEngines

/-!
# The nearest name is found by one search

`nearest` first looks for a name that differs in the case of letters only and then for one at the
least distance. The first search is the second one at distance zero: the distance of two folded
names is zero exactly if the names agree up to the case of ASCII letters (`distance_eq_zero_iff`,
`folded_eq_folded_iff`). So the second search alone finds the same name (`nearest_eq_firstLeast`),
the first of those at the least distance (`IsFirstLeast`), unless even that is beyond the tolerance.

A name that is looked up in vain is in no table entry, so a suggestion is always another name
(`nearest_is_first_least`).
-/

set_option autoImplicit false
set_option relaxedAutoImplicit false

namespace Multimethod.Text

/-! ### Names up to case -/

/-- The same character, or a letter from `A` to `Z` and its small form. -/
def SameLetter (c d : Char) : Prop :=
  c = d ∨ (65 ≤ c.toNat ∧ c.toNat ≤ 90 ∧ d.toNat = c.toNat + 32) ∨
    (65 ≤ d.toNat ∧ d.toNat ≤ 90 ∧ c.toNat = d.toNat + 32)

/-- Two names have the same characters, up to the case of letters from `A` to `Z`. -/
def AgreeUpToCase (first second : String) : Prop :=
  List.Forall₂ SameLetter first.toList second.toList

theorem toNat_toLower (c : Char) :
    c.toLower.toNat = if 65 ≤ c.toNat ∧ c.toNat ≤ 90 then c.toNat + 32 else c.toNat := by
  have hcapital : (c.val ≥ 'A'.val ∧ c.val ≤ 'Z'.val) ↔ 65 ≤ c.toNat ∧ c.toNat ≤ 90 := Iff.rfl
  unfold Char.toLower
  split
  · next hletter =>
    rw [if_pos (hcapital.mp hletter)]
    have hsmall := (hcapital.mp hletter).2
    change (c.val + 32).toNat = c.toNat + 32
    rw [UInt32.toNat_add]
    exact Nat.mod_eq_of_lt (by change c.toNat + 32 < 2 ^ 32; omega)
  · next hother => rw [if_neg (hother ∘ hcapital.mpr)]

@[simp] theorem toLower_eq_toLower_iff (c d : Char) : c.toLower = d.toLower ↔ SameLetter c d := by
  rw [SameLetter, ← Char.toNat_inj, ← Char.toNat_inj, toNat_toLower, toNat_toLower]
  split <;> split <;> omega

/-- Folded names are equal exactly if the names agree up to case. -/
@[simp] theorem folded_eq_folded_iff (first second : String) :
    folded first = folded second ↔ AgreeUpToCase first second := by
  rw [folded, folded, ← List.forall₂_eq_eq_eq, List.forall₂_map_left_iff,
    List.forall₂_map_right_iff, AgreeUpToCase]
  simp

/-- The distance of two names, case ignored. -/
def distance (name candidate : String) : Nat :=
  editDistance (folded name) (folded candidate)

@[simp] theorem distance_eq_zero_iff (name candidate : String) :
    distance name candidate = 0 ↔ folded candidate = folded name := by
  rw [distance, editDistance_eq_zero_iff]
  exact eq_comm

/-! ### The first entry with the least measure -/

section FirstLeast

variable {α : Type} {measure : α → Nat} {entries : List α} {found other : α}

/-- An entry whose measure no entry falls below and no earlier one reaches. -/
def IsFirstLeast (measure : α → Nat) (entries : List α) (found : α) : Prop :=
  ∃ before after, entries = before ++ found :: after ∧
    (∀ earlier ∈ before, measure found < measure earlier) ∧
      ∀ later ∈ after, measure found ≤ measure later

theorem IsFirstLeast.le (hfound : IsFirstLeast measure entries found) (hother : other ∈ entries) :
    measure found ≤ measure other := by
  obtain ⟨before, after, rfl, hbefore, hafter⟩ := hfound
  rcases List.mem_append.mp hother with hmem | hmem
  · exact Nat.le_of_lt (hbefore other hmem)
  · rcases List.mem_cons.mp hmem with rfl | hmem
    · exact Nat.le_refl _
    · exact hafter other hmem

theorem IsFirstLeast.mem (hfound : IsFirstLeast measure entries found) : found ∈ entries := by
  obtain ⟨before, after, rfl, -, -⟩ := hfound
  exact List.mem_append_right before List.mem_cons_self

/-- Of two entries of which neither falls below the other, the first one is determined. -/
theorem IsFirstLeast.unique (hfound : IsFirstLeast measure entries found)
    (hother : IsFirstLeast measure entries other) : found = other := by
  have hle := hfound.le hother.mem
  have hge := hother.le hfound.mem
  obtain ⟨before, after, rfl, hbefore, -⟩ := hfound
  obtain ⟨before', after', heq, hbefore', -⟩ := hother
  rcases List.append_eq_append_iff.mp heq with ⟨between, rfl, htail⟩ | ⟨between, rfl, htail⟩
  · cases between with
    | nil => exact (List.cons.inj htail).1
    | cons entry between =>
      cases htail
      have hlt := hbefore' found (List.mem_append_right before List.mem_cons_self)
      omega
  · cases between with
    | nil => exact (List.cons.inj htail).1.symm
    | cons entry between =>
      cases htail
      have hlt := hbefore other (List.mem_append_right before' List.mem_cons_self)
      omega

@[simp] theorem firstLeast_eq_none_iff : firstLeast measure entries = none ↔ entries = [] := by
  cases entries with
  | nil => simp [firstLeast]
  | cons entry entries =>
    rw [firstLeast]
    cases firstLeast measure entries with
    | none => simp
    | some least =>
      dsimp only
      split <;> simp

theorem isFirstLeast_of_firstLeast (hfound : firstLeast measure entries = some found) :
    IsFirstLeast measure entries found := by
  induction entries generalizing found with
  | nil => exact nomatch hfound
  | cons entry entries ih =>
    rw [firstLeast] at hfound
    cases hleast : firstLeast measure entries with
    | none =>
      rw [hleast] at hfound
      cases hfound
      cases firstLeast_eq_none_iff.mp hleast
      exact ⟨[], [], rfl, by simp, by simp⟩
    | some least =>
      rw [hleast] at hfound
      dsimp only at hfound
      split at hfound
      · next hlt =>
        cases hfound
        obtain ⟨before, after, rfl, hbefore, hafter⟩ := ih hleast
        exact ⟨entry :: before, after, rfl, List.forall_mem_cons.mpr ⟨hlt, hbefore⟩, hafter⟩
      · next hnot =>
        cases hfound
        refine ⟨[], entries, rfl, by simp, ?_⟩
        intro later hlater
        exact (Nat.le_of_not_lt hnot).trans ((ih hleast).le hlater)

/-- The search finds the first entry with the least measure. -/
theorem firstLeast_eq_some_iff :
    firstLeast measure entries = some found ↔ IsFirstLeast measure entries found := by
  constructor
  · exact isFirstLeast_of_firstLeast
  · intro hfound
    cases hsearch : firstLeast measure entries with
    | none =>
      cases firstLeast_eq_none_iff.mp hsearch
      exact absurd hfound.mem List.not_mem_nil
    | some least => rw [(isFirstLeast_of_firstLeast hsearch).unique hfound]

/-- Entries beyond a limit can be left out before the search or after it. -/
theorem firstLeast_filter (measure : α → Nat) (limit : Nat) (entries : List α) :
    firstLeast measure (entries.filter (measure · ≤ limit)) =
      (firstLeast measure entries).filter (measure · ≤ limit) := by
  induction entries with
  | nil => rfl
  | cons entry entries ih =>
    rw [List.filter_cons, firstLeast]
    cases hleast : firstLeast measure entries with
    | none =>
      rw [hleast] at ih
      by_cases hentry : measure entry ≤ limit
      · simp [hentry, firstLeast, ih, Option.filter]
      · simp [hentry, ih, Option.filter]
    | some least =>
      rw [hleast] at ih
      by_cases hentry : measure entry ≤ limit
      · by_cases hlt : measure least < measure entry
        · have hwithin : measure least ≤ limit := by omega
          simp [hentry, hlt, hwithin, firstLeast, ih, Option.filter]
        · by_cases hwithin : measure least ≤ limit <;>
            simp [hentry, hlt, hwithin, firstLeast, ih, Option.filter]
      · by_cases hlt : measure least < measure entry
        · simp [hentry, hlt, ih]
        · have hbeyond : ¬ measure least ≤ limit := by omega
          simp [hentry, hlt, hbeyond, ih, Option.filter]

end FirstLeast

/-! ### The search for a name -/

/-- The search at the least distance alone finds the same name. -/
theorem nearest_eq_firstLeast (name : String) (known : List String) :
    nearest name known =
      firstLeast (distance name) (known.filter (distance name · ≤ tolerance name.length)) := by
  unfold nearest
  cases hexact : known.find? (folded · == folded name) with
  | none => rfl
  | some exact =>
    obtain ⟨hfolded, before, after, rfl, hbefore⟩ := List.find?_eq_some_iff_append.mp hexact
    have hzero : distance name exact = 0 :=
      (distance_eq_zero_iff name exact).mpr (beq_iff_eq.mp hfolded)
    have hfirst : IsFirstLeast (distance name) (before ++ exact :: after) exact := by
      refine ⟨before, after, rfl, ?_, fun later _ ↦ hzero ▸ Nat.zero_le _⟩
      intro earlier hearlier
      have hother : folded earlier ≠ folded name := by simpa using hbefore earlier hearlier
      rw [hzero]
      exact Nat.pos_of_ne_zero fun h ↦ hother ((distance_eq_zero_iff name earlier).mp h)
    have hsecond : (firstLeast (distance name) (before ++ exact :: after)).filter
        (distance name · ≤ tolerance name.length) = some exact := by
      rw [firstLeast_eq_some_iff.mpr hfirst]
      simp [Option.filter, hzero]
    exact (hsecond ▸ firstLeast_filter _ _ _).symm

theorem nearest_eq_some_iff (name : String) (known : List String) (found : String) :
    nearest name known = some found ↔
      IsFirstLeast (distance name) known found ∧ distance name found ≤ tolerance name.length := by
  rw [nearest_eq_firstLeast, firstLeast_filter, Option.filter_eq_some_iff, firstLeast_eq_some_iff,
    decide_eq_true_iff]

theorem nearest_eq_none_iff (name : String) (known : List String) :
    nearest name known = none ↔
      ∀ candidate ∈ known, tolerance name.length < distance name candidate := by
  rw [nearest_eq_firstLeast, firstLeast_eq_none_iff, List.filter_eq_nil_iff]
  simp

theorem mem_of_nearest {name found : String} {known : List String}
    (hnearest : nearest name known = some found) : found ∈ known :=
  ((nearest_eq_some_iff name known found).mp hnearest).1.mem

/-- The name to suggest is the first of those at the least distance, case ignored, if that is within
the tolerance for the length of the unknown name; otherwise there is none. Names that agree with it
up to case are those at distance zero, so looking for them first finds nothing else than the search
at the least distance alone. What the failure of a lookup suggests is a registered name other than
the one that was looked up. -/
theorem nearest_is_first_least (name : String) (known : List String) :
    (∀ found, nearest name known = some found ↔
      IsFirstLeast (distance name) known found ∧ distance name found ≤ tolerance name.length) ∧
    (nearest name known = none ↔
      ∀ candidate ∈ known, tolerance name.length < distance name candidate) ∧
    (∀ candidate, (folded candidate == folded name) = true ↔ AgreeUpToCase candidate name) ∧
    (∀ candidate, AgreeUpToCase candidate name ↔ distance name candidate = 0) ∧
    nearest name known =
      firstLeast (distance name) (known.filter (distance name · ≤ tolerance name.length)) ∧
    ∀ (types : TypeTable) (unknown suggestion : String),
      types.test name = .error (.unknownType unknown (some suggestion)) →
        unknown = name ∧ suggestion ∈ types.names ∧ suggestion ≠ name := by
  refine ⟨nearest_eq_some_iff name known, nearest_eq_none_iff name known, ?_, ?_,
    nearest_eq_firstLeast name known, ?_⟩
  · intro candidate
    simp
  · intro candidate
    simp
  · intro types unknown suggestion hfails
    obtain ⟨hunknown, hfailure⟩ := (types.test_eq_error_iff name _).mp hfails
    obtain ⟨hname, hnearest⟩ := Failure.unknownType.inj hfailure
    have hregistered : suggestion ∈ types.names := mem_of_nearest hnearest.symm
    refine ⟨hname, hregistered, ?_⟩
    rintro rfl
    exact ((types.contains_eq_false_iff suggestion).mp hunknown).2 hregistered

/-- Of two types whose names are at one distance from an unknown name, the first is suggested. -/
theorem nearest_is_first_least_tied :
    let types : TypeTable := .mk [⟨"Date", fun _ ↦ false, false⟩, ⟨"Data", fun _ ↦ true, false⟩]
    types.test "dats" = .error (.unknownType "dats" (some "Date")) ∧
      "Date" ∈ types.names ∧ "Date" ≠ "dats" := by
  intro types
  have hfails : types.test "dats" = .error (.unknownType "dats" (some "Date")) := rfl
  exact ⟨hfails, ((nearest_is_first_least "dats" types.names).2.2.2.2.2
    types "dats" "Date" hfails).2⟩

end Multimethod.Text
