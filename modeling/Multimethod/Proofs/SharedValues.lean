import Mathlib
import Multimethod.Proofs.Lists
import Multimethod.Value.Placed

/-!
# Equality of values that share

`PlacedValue.equals` takes two parts at one place as equal without a look inside. So it is symmetric
(`equals_comm`), and on the values of one heap, where a place holds one thing, it is transitive
(`LiesIn.equals_trans`): parts at one place are the same part, whichever of the three values they
are in. Only a bare `NaN` differs from itself (`equals_self_iff`), because a copy has the places of
what it was copied from.

Values without a common place are compared by content only (`equals_eq_equals_content`), and a value
has the content of itself exactly if it holds no `NaN` (`Value.equals_self_iff`). Numbers are
compared as IEEE 754 says (`number_equals_number_iff`).
-/

set_option autoImplicit false
set_option relaxedAutoImplicit false

namespace Multimethod

/-! ### Numbers -/

theorem isNaN_eq_false_iff (x : Float) : x.isNaN = false ↔ x ≠ Float.nan := by
  rw [Float.isNaN_eq_decide_eq_nan, decide_eq_false_iff_not]

theorem float_beq_symm {x y : Float} (hxy : (x == y) = true) : (y == x) = true := by
  rw [Float.beq_iff_ne_nan_and_eq] at *
  obtain ⟨hx, hy, rfl | ⟨rfl, rfl⟩ | ⟨rfl, rfl⟩⟩ := hxy
  · exact ⟨hx, hx, Or.inl rfl⟩
  · exact ⟨hy, hx, Or.inr (Or.inr ⟨rfl, rfl⟩)⟩
  · exact ⟨hy, hx, Or.inr (Or.inl ⟨rfl, rfl⟩)⟩

theorem float_beq_comm (x y : Float) : (x == y) = (y == x) :=
  Bool.eq_iff_iff.mpr ⟨float_beq_symm, float_beq_symm⟩

theorem float_beq_trans {x y z : Float} (hxy : (x == y) = true) (hyz : (y == z) = true) :
    (x == z) = true := by
  rw [Float.beq_iff_ne_nan_and_eq] at *
  obtain ⟨hx, -, hxy⟩ := hxy
  obtain ⟨-, hz, hyz⟩ := hyz
  refine ⟨hx, hz, ?_⟩
  rcases hxy with rfl | ⟨rfl, rfl⟩ | ⟨rfl, rfl⟩
  · exact hyz
  · rcases hyz with rfl | ⟨-, rfl⟩ | ⟨-, rfl⟩
    · exact Or.inr (Or.inl ⟨rfl, rfl⟩)
    · exact Or.inr (Or.inl ⟨rfl, rfl⟩)
    · exact Or.inl rfl
  · rcases hyz with rfl | ⟨-, rfl⟩ | ⟨-, rfl⟩
    · exact Or.inr (Or.inr ⟨rfl, rfl⟩)
    · exact Or.inl rfl
    · exact Or.inr (Or.inr ⟨rfl, rfl⟩)

/-! ### Content -/

namespace Value

/-- A value is `NaN` or holds it, at whichever depth. -/
inductive HoldsNaN : Value → Prop where
  | number {x : Float} (hnan : x.isNaN = true) : HoldsNaN (.number x)
  | item {items : List Value} {item : Value} (hmem : item ∈ items) (hitem : HoldsNaN item) :
      HoldsNaN (.array items)
  | entry {entries : List (String × Value)} {entry : String × Value} (hmem : entry ∈ entries)
      (hentry : HoldsNaN entry.2) : HoldsNaN (.object entries)

@[simp] theorem holdsNaN_number_iff (x : Float) : HoldsNaN (.number x) ↔ x.isNaN = true :=
  ⟨fun | .number hnan => hnan, .number⟩

@[simp] theorem holdsNaN_array_iff (items : List Value) :
    HoldsNaN (.array items) ↔ ∃ item ∈ items, item.HoldsNaN :=
  ⟨fun | .item hmem hitem => ⟨_, hmem, hitem⟩, fun ⟨_, hmem, hitem⟩ ↦ .item hmem hitem⟩

@[simp] theorem holdsNaN_object_iff (entries : List (String × Value)) :
    HoldsNaN (.object entries) ↔ ∃ entry ∈ entries, entry.2.HoldsNaN :=
  ⟨fun | .entry hmem hentry => ⟨_, hmem, hentry⟩, fun ⟨_, hmem, hentry⟩ ↦ .entry hmem hentry⟩

mutual

/-- A value has the content of itself exactly if it holds no `NaN`. -/
theorem equals_self_iff (value : Value) : value.equals value = true ↔ ¬ value.HoldsNaN := by
  cases value with
  | number x => simp [equals]
  | array items => simp [equals, equalItems_self_iff items]
  | object entries => simp [equals, equalEntries_self_iff entries]
  | undefined => exact iff_of_true rfl nofun
  | null => exact iff_of_true rfl nofun
  | boolean b => exact iff_of_true (beq_self_eq_true b) nofun
  | string s => exact iff_of_true (beq_self_eq_true s) nofun

theorem equalItems_self_iff (items : List Value) :
    equalItems items items = true ↔ ∀ item ∈ items, ¬ item.HoldsNaN := by
  cases items with
  | nil => simp [equalItems]
  | cons item items =>
    rw [equalItems, Bool.and_eq_true, equals_self_iff item, equalItems_self_iff items,
      List.forall_mem_cons]

theorem equalEntries_self_iff (entries : List (String × Value)) :
    equalEntries entries entries = true ↔ ∀ entry ∈ entries, ¬ entry.2.HoldsNaN := by
  cases entries with
  | nil => simp [equalEntries]
  | cons entry entries =>
    obtain ⟨key, value⟩ := entry
    rw [equalEntries, Bool.and_eq_true, Bool.and_eq_true, equals_self_iff value,
      equalEntries_self_iff entries, List.forall_mem_cons, and_iff_right (beq_self_eq_true key)]

end

end Value

namespace PlacedValue

/-! ### Comparing numbers, and comparing with oneself -/

@[simp] theorem number_equals_number_iff (x y : Float) :
    (PlacedValue.number x).equals (.number y) = true ↔
      x.isNaN = false ∧ y.isNaN = false ∧ (x = y ∨ x = 0 ∧ y = -0 ∨ x = -0 ∧ y = 0) := by
  rw [equals, Float.beq_iff_ne_nan_and_eq, isNaN_eq_false_iff, isNaN_eq_false_iff]

/-- A value equals its copy, which has the same places, unless it is a bare `NaN`. -/
theorem equals_self_iff (value : PlacedValue) :
    value.equals value = true ↔ ∀ x, value = .number x → x.isNaN = false := by
  cases value with
  | number x =>
    rw [equals, Float.beq_self_iff, ← isNaN_eq_false_iff]
    exact ⟨fun hnan y heq ↦ PlacedValue.number.inj heq ▸ hnan, fun hall ↦ hall x rfl⟩
  | _ => simp [equals]

theorem equalsCopy_iff (value : Value) :
    value.equalsCopy = true ↔ ∀ x, value = .number x → x.isNaN = false := by
  rw [Value.equalsCopy, equals_self_iff]
  cases value <;> simp [Value.placed, Value.placedFrom]

/-! ### Symmetry -/

mutual

theorem equals_comm (first second : PlacedValue) :
    first.equals second = second.equals first := by
  cases first with
  | array place items =>
    cases second with
    | array place' items' =>
      rw [equals, equals, equalItems_comm items items', BEq.comm]
    | _ => rfl
  | object place entries =>
    cases second with
    | object place' entries' =>
      rw [equals, equals, equalEntries_comm entries entries', BEq.comm]
    | _ => rfl
  | number x =>
    cases second with
    | number y => exact float_beq_comm x y
    | _ => rfl
  | string place s =>
    cases second with
    | string place' s' => rw [equals, equals, BEq.comm (a := s), BEq.comm (a := place)]
    | _ => rfl
  | boolean b =>
    cases second with
    | boolean b' => exact BEq.comm
    | _ => rfl
  | undefined => cases second <;> rfl
  | null => cases second <;> rfl

theorem equalItems_comm (first second : List PlacedValue) :
    equalItems first second = equalItems second first := by
  cases first with
  | nil => cases second <;> rfl
  | cons item items =>
    cases second with
    | nil => rfl
    | cons item' items' =>
      rw [equalItems, equalItems, equals_comm item item', equalItems_comm items items']

theorem equalEntries_comm (first second : List (String × PlacedValue)) :
    equalEntries first second = equalEntries second first := by
  cases first with
  | nil => cases second <;> rfl
  | cons entry entries =>
    cases second with
    | nil => rfl
    | cons entry' entries' =>
      obtain ⟨key, value⟩ := entry
      obtain ⟨key', value'⟩ := entry'
      rw [equalEntries, equalEntries, equals_comm value value',
        equalEntries_comm entries entries', BEq.comm]

end

/-! ### Transitivity on one heap -/

/-- The value lies in a heap: what it has at a place is what the heap holds there. -/
inductive LiesIn (heap : Nat → PlacedValue) : PlacedValue → Prop where
  | undefined : LiesIn heap .undefined
  | null : LiesIn heap .null
  | boolean (b : Bool) : LiesIn heap (.boolean b)
  | number (x : Float) : LiesIn heap (.number x)
  | string {place : Nat} {s : String} (hplace : heap place = .string place s) :
      LiesIn heap (.string place s)
  | array {place : Nat} {items : List PlacedValue} (hplace : heap place = .array place items)
      (hitems : ∀ item ∈ items, LiesIn heap item) : LiesIn heap (.array place items)
  | object {place : Nat} {entries : List (String × PlacedValue)}
      (hplace : heap place = .object place entries)
      (hentries : ∀ entry ∈ entries, LiesIn heap entry.2) : LiesIn heap (.object place entries)

@[simp] theorem equalItems_eq_true_iff (first second : List PlacedValue) :
    equalItems first second = true ↔
      List.Forall₂ (fun item item' ↦ item.equals item' = true) first second := by
  induction first generalizing second with
  | nil => cases second <;> simp [equalItems]
  | cons item items ih => cases second <;> simp [equalItems, ih]

@[simp] theorem equalEntries_eq_true_iff (first second : List (String × PlacedValue)) :
    equalEntries first second = true ↔
      List.Forall₂ (fun entry entry' ↦ entry.1 = entry'.1 ∧ entry.2.equals entry'.2 = true)
        first second := by
  induction first generalizing second with
  | nil => cases second <;> simp [equalEntries]
  | cons entry entries ih => cases second <;> simp [equalEntries, ih]

/-- Things of one sort that a heap holds are compared by place first, which is transitive where
comparing the things is: what it holds at one place is one thing. -/
theorem held_trans {α : Type} (sort : Nat → α → PlacedValue)
    (hinjective : ∀ {place a b}, sort place a = sort place b → a = b) {heap : Nat → PlacedValue}
    {p q r : Nat} {a b c : α} (hfirst : heap p = sort p a) (hsecond : heap q = sort q b)
    (hthird : heap r = sort r c) {same : α → α → Prop} (htrans : same a b → same b c → same a c)
    (hequal : p = q ∨ same a b) (hequal' : q = r ∨ same b c) : p = r ∨ same a c := by
  rcases hequal with rfl | hsame
  · cases hinjective (hfirst.symm.trans hsecond)
    exact hequal'
  · rcases hequal' with rfl | hsame'
    · cases hinjective (hsecond.symm.trans hthird)
      exact Or.inr hsame
    · exact Or.inr (htrans hsame hsame')

/-- On one heap, equality is transitive. -/
theorem LiesIn.equals_trans {heap : Nat → PlacedValue} {first second third : PlacedValue}
    (hfirst : first.LiesIn heap) (hsecond : second.LiesIn heap) (hthird : third.LiesIn heap)
    (hequal : first.equals second = true) (hequal' : second.equals third = true) :
    first.equals third = true := by
  induction hfirst generalizing second third with
  | undefined => cases hsecond with
    | undefined => exact hequal'
    | _ => exact nomatch hequal
  | null => cases hsecond with
    | null => exact hequal'
    | _ => exact nomatch hequal
  | boolean b => cases hsecond with
    | boolean b' => cases hthird with
      | boolean b'' => exact beq_iff_eq.mpr ((beq_iff_eq.mp hequal).trans (beq_iff_eq.mp hequal'))
      | _ => exact nomatch hequal'
    | _ => exact nomatch hequal
  | number x => cases hsecond with
    | number y => cases hthird with
      | number z => exact float_beq_trans hequal hequal'
      | _ => exact nomatch hequal'
    | _ => exact nomatch hequal
  | string hplace => cases hsecond with
    | string hplace' => cases hthird with
      | string hplace'' =>
        simp only [equals, Bool.or_eq_true, beq_iff_eq] at hequal hequal' ⊢
        exact held_trans .string (fun heq ↦ (PlacedValue.string.inj heq).2)
          hplace hplace' hplace'' Eq.trans hequal hequal'
      | _ => exact nomatch hequal'
    | _ => exact nomatch hequal
  | array hplace _ ih => cases hsecond with
    | array hplace' hitems' => cases hthird with
      | array hplace'' hitems'' =>
        simp only [equals, Bool.or_eq_true, beq_iff_eq, equalItems_eq_true_iff] at hequal hequal' ⊢
        refine held_trans .array (fun heq ↦ (PlacedValue.array.inj heq).2)
          hplace hplace' hplace'' (forall₂_trans ?_) hequal hequal'
        intro item hitem item' hitem' item'' hitem''
        exact ih item hitem (hitems' item' hitem') (hitems'' item'' hitem'')
      | _ => exact nomatch hequal'
    | _ => exact nomatch hequal
  | object hplace _ ih => cases hsecond with
    | object hplace' hentries' => cases hthird with
      | object hplace'' hentries'' =>
        simp only [equals, Bool.or_eq_true, beq_iff_eq, equalEntries_eq_true_iff]
          at hequal hequal' ⊢
        refine held_trans .object (fun heq ↦ (PlacedValue.object.inj heq).2)
          hplace hplace' hplace'' (forall₂_trans ?_) hequal hequal'
        rintro entry hentry entry' hentry' entry'' hentry'' ⟨hkey, hvalue⟩ ⟨hkey', hvalue'⟩
        exact ⟨hkey.trans hkey', ih entry hentry (hentries' entry' hentry')
          (hentries'' entry'' hentry'') hvalue hvalue'⟩
      | _ => exact nomatch hequal'
    | _ => exact nomatch hequal

/-! ### Values without a common place -/

mutual

/-- The places of the strings, arrays and objects in a value. -/
def places : PlacedValue → List Nat
  | .string place _ => [place]
  | .array place items => place :: itemPlaces items
  | .object place entries => place :: entryPlaces entries
  | _ => []

/-- The places in the items. -/
def itemPlaces : List PlacedValue → List Nat
  | [] => []
  | item :: items => item.places ++ itemPlaces items

/-- The places in the entries. -/
def entryPlaces : List (String × PlacedValue) → List Nat
  | [] => []
  | (_, value) :: entries => value.places ++ entryPlaces entries

end

mutual

/-- Values without a common place are compared by content. -/
theorem equals_eq_equals_content (first second : PlacedValue)
    (hapart : first.places.Disjoint second.places) :
    first.equals second = first.content.equals second.content := by
  cases first with
  | array place items =>
    cases second with
    | array place' items' =>
      obtain ⟨hother, hitems⟩ := disjoint_cons_cons hapart
      rw [equals, content, content, Value.equals, hother, Bool.false_or]
      exact equalItems_eq_equalItems_contents items items' hitems
    | _ => rfl
  | object place entries =>
    cases second with
    | object place' entries' =>
      obtain ⟨hother, hentries⟩ := disjoint_cons_cons hapart
      rw [equals, content, content, Value.equals, hother, Bool.false_or]
      exact equalEntries_eq_equalEntries_contents entries entries' hentries
    | _ => rfl
  | string place s =>
    cases second with
    | string place' s' =>
      obtain ⟨hother, -⟩ := disjoint_cons_cons hapart
      rw [equals, content, content, Value.equals, hother, Bool.false_or]
    | _ => rfl
  | _ => cases second <;> rfl

theorem equalItems_eq_equalItems_contents (first second : List PlacedValue)
    (hapart : (itemPlaces first).Disjoint (itemPlaces second)) :
    equalItems first second =
      Value.equalItems (itemContents first) (itemContents second) := by
  cases first with
  | nil => cases second <;> rfl
  | cons item items =>
    cases second with
    | nil => rfl
    | cons item' items' =>
      rw [itemPlaces, itemPlaces, List.disjoint_append_left, List.disjoint_append_right,
        List.disjoint_append_right] at hapart
      rw [equalItems, itemContents, itemContents, Value.equalItems,
        equals_eq_equals_content item item' hapart.1.1,
        equalItems_eq_equalItems_contents items items' hapart.2.2]

theorem equalEntries_eq_equalEntries_contents (first second : List (String × PlacedValue))
    (hapart : (entryPlaces first).Disjoint (entryPlaces second)) :
    equalEntries first second =
      Value.equalEntries (entryContents first) (entryContents second) := by
  cases first with
  | nil => cases second <;> rfl
  | cons entry entries =>
    cases second with
    | nil => rfl
    | cons entry' entries' =>
      obtain ⟨key, value⟩ := entry
      obtain ⟨key', value'⟩ := entry'
      rw [entryPlaces, entryPlaces, List.disjoint_append_left, List.disjoint_append_right,
        List.disjoint_append_right] at hapart
      rw [equalEntries, entryContents, entryContents, Value.equalEntries,
        equals_eq_equals_content value value' hapart.1.1,
        equalEntries_eq_equalEntries_contents entries entries' hapart.2.2]

end

/-! ### The laws of equality -/

/-- Equality is symmetric, and on the values of one heap it is transitive. A value equals its copy,
which has the same places, unless it is a bare `NaN`; two copies without a common place are equal
exactly if they hold no `NaN` at any depth. Numbers are equal as IEEE 754 says: `NaN` equals
nothing, and the two zeros are equal. -/
theorem equals_broken_by_nan_only :
    (∀ x y, (PlacedValue.number x).equals (.number y) = true ↔
      x.isNaN = false ∧ y.isNaN = false ∧ (x = y ∨ x = 0 ∧ y = -0 ∨ x = -0 ∧ y = 0)) ∧
    (∀ first second : PlacedValue, first.equals second = second.equals first) ∧
    (∀ (heap : Nat → PlacedValue) (first second third : PlacedValue),
      first.LiesIn heap → second.LiesIn heap → third.LiesIn heap →
        first.equals second = true → second.equals third = true → first.equals third = true) ∧
    (∀ value : PlacedValue, value.equals value = true ↔
      ∀ x, value = .number x → x.isNaN = false) ∧
    (∀ value : Value, value.equalsCopy = true ↔ ∀ x, value = .number x → x.isNaN = false) ∧
    ∀ (value : Value) (first second : PlacedValue), first.content = value →
      second.content = value → first.places.Disjoint second.places →
        (first.equals second = true ↔ ¬ value.HoldsNaN) := by
  refine ⟨number_equals_number_iff, equals_comm, ?_, equals_self_iff, equalsCopy_iff, ?_⟩
  · intro heap first second third hfirst hsecond hthird
    exact hfirst.equals_trans hsecond hthird
  · rintro value first second rfl hsecond hapart
    rw [equals_eq_equals_content first second hapart, hsecond, Value.equals_self_iff]

/-- Three arrays share an array that holds `NaN`; an array and a copy that shares nothing with it
hold `NaN` each. -/
theorem equals_broken_by_nan_only_shared :
    let inner : PlacedValue := .array 0 [.number Float.nan]
    let first : PlacedValue := .array 1 [inner, .string 2 "a"]
    let second : PlacedValue := .array 3 [inner, .string 4 "a"]
    let third : PlacedValue := .array 5 [inner, .string 4 "a"]
    let heap : Nat → PlacedValue := fun
      | 0 => inner
      | 1 => first
      | 2 => .string 2 "a"
      | 3 => second
      | 4 => .string 4 "a"
      | _ => third
    let value : Value := .array [.array [.number Float.nan], .string "a"]
    let apart : PlacedValue := .array 6 [.array 7 [.number Float.nan], .string 8 "a"]
    ((first.LiesIn heap ∧ second.LiesIn heap ∧ third.LiesIn heap) ∧
      (first.equals second = true ∧ second.equals third = true) ∧ first.equals third = true) ∧
    (first.content = value ∧ apart.content = value ∧ first.places.Disjoint apart.places) ∧
      (first.equals apart = true ↔ ¬ value.HoldsNaN) := by
  intro inner first second third heap value apart
  have hinner : inner.LiesIn heap := .array rfl (by simpa using LiesIn.number Float.nan)
  have hfirst : first.LiesIn heap :=
    .array rfl (by simpa using ⟨hinner, @LiesIn.string heap _ _ rfl⟩)
  have hsecond : second.LiesIn heap :=
    .array rfl (by simpa using ⟨hinner, @LiesIn.string heap _ _ rfl⟩)
  have hthird : third.LiesIn heap :=
    .array rfl (by simpa using ⟨hinner, @LiesIn.string heap _ _ rfl⟩)
  have hplaces : ∀ place ∈ [1, 0, 2], place ∉ [6, 7, 8] := by decide
  have hapart : first.places.Disjoint apart.places := fun place ↦ hplaces place
  exact ⟨⟨⟨hfirst, hsecond, hthird⟩, ⟨rfl, rfl⟩, equals_broken_by_nan_only.2.2.1 heap first second
      third hfirst hsecond hthird rfl rfl⟩, ⟨rfl, rfl, hapart⟩,
    equals_broken_by_nan_only.2.2.2.2.2 value first apart rfl rfl hapart⟩

end PlacedValue

end Multimethod
