import Mathlib.Order.Bounds.Basic
import Multimethod.Text.EditDistance

/-!
# The edit distance counts edits

An `Edit` inserts, deletes or replaces one character anywhere in a text, and `Edits` is a script of
so many of them. `apart` is the number of edits that a script needs which goes through both texts
from the front: such a script exists (`edits_apart`), and no script is shorter (`Edits.apart_le`),
since one edit moves a text nearer to any other text by one at most (`Edit.apart_le`).

The table is read with the texts reversed. After some characters of the first text, the row holds
how far they are from each initial part of the second one (`distances`); one character more gives
the next such row (`nextRow_distances`), so the last cell is the distance of the whole texts
(`editDistance_eq_apart`). Reversing the texts does not change the number of edits between them
(`Edits.reverse`), so the table counts edits (`isLeast_editDistance`).
-/

set_option autoImplicit false
set_option relaxedAutoImplicit false

namespace Multimethod.Text

/-! ### Edits -/

/-- One insertion, deletion or replacement of a single character. -/
inductive Edit : List Char → List Char → Prop where
  | insertion (before after : List Char) (new : Char) :
      Edit (before ++ after) (before ++ new :: after)
  | deletion (before after : List Char) (old : Char) :
      Edit (before ++ old :: after) (before ++ after)
  | replacement (before after : List Char) (old new : Char) :
      Edit (before ++ old :: after) (before ++ new :: after)

/-- So many edits, one after the other. -/
inductive Edits : Nat → List Char → List Char → Prop where
  | none (a : List Char) : Edits 0 a a
  | next {count : Nat} {a b c : List Char} (first : Edit a b) (others : Edits count b c) :
      Edits (count + 1) a c

namespace Edit

variable {a b : List Char}

/-- An edit can be taken back. -/
theorem symm (hedit : Edit a b) : Edit b a := by
  cases hedit with
  | insertion before after new => exact .deletion before after new
  | deletion before after old => exact .insertion before after old
  | replacement before after old new => exact .replacement before after new old

theorem cons (hedit : Edit a b) (c : Char) : Edit (c :: a) (c :: b) := by
  cases hedit with
  | insertion before after new => exact .insertion (c :: before) after new
  | deletion before after old => exact .deletion (c :: before) after old
  | replacement before after old new => exact .replacement (c :: before) after old new

theorem reverse (hedit : Edit a b) : Edit a.reverse b.reverse := by
  cases hedit with
  | insertion before after new =>
    simpa using Edit.insertion after.reverse before.reverse new
  | deletion before after old =>
    simpa using Edit.deletion after.reverse before.reverse old
  | replacement before after old new =>
    simpa using Edit.replacement after.reverse before.reverse old new

end Edit

namespace Edits

variable {m n : Nat} {a b c : List Char}

theorem cons (hedits : Edits n a b) (x : Char) : Edits n (x :: a) (x :: b) := by
  induction hedits with
  | none a => exact .none (x :: a)
  | next first others ih => exact .next (first.cons x) ih

theorem reverse (hedits : Edits n a b) : Edits n a.reverse b.reverse := by
  induction hedits with
  | none a => exact .none a.reverse
  | next first others ih => exact .next first.reverse ih

/-- One script after another. -/
theorem trans (hfirst : Edits m a b) (hsecond : Edits n b c) : Edits (m + n) a c := by
  induction hfirst with
  | none a => rwa [Nat.zero_add]
  | next first others ih =>
    rw [Nat.succ_add]
    exact .next first (ih hsecond)

theorem concat (hedits : Edits n a b) (hlast : Edit b c) : Edits (n + 1) a c :=
  hedits.trans (.next hlast (.none c))

/-- A script can be taken back. -/
theorem symm (hedits : Edits n a b) : Edits n b a := by
  induction hedits with
  | none a => exact .none a
  | next first others ih => exact ih.concat first.symm

/-- The shorter of two scripts. -/
theorem min (hfirst : Edits m a b) (hsecond : Edits n a b) : Edits (min m n) a b := by
  rcases Nat.le_total m n with hle | hle
  · rwa [Nat.min_eq_left hle]
  · rwa [Nat.min_eq_right hle]

theorem eq_of_zero (hedits : Edits 0 a b) : a = b := by
  cases hedits with
  | none => rfl

end Edits

@[simp] theorem edits_reverse_iff {n : Nat} {a b : List Char} :
    Edits n a.reverse b.reverse ↔ Edits n a b := by
  constructor
  · intro hedits
    simpa using hedits.reverse
  · exact Edits.reverse

/-! ### Going through both texts from the front -/

/-- The number of edits that going through both texts from the front needs: at each place a
character of one text is passed over, or the two characters are matched. -/
def apart : List Char → List Char → Nat
  | [], b => b.length
  | x :: a, [] => (x :: a).length
  | x :: a, y :: b =>
    min (min (apart a (y :: b) + 1) (apart (x :: a) b + 1))
      (apart a b + if x = y then 0 else 1)
termination_by a b => a.length + b.length

@[simp] theorem apart_nil_left (b : List Char) : apart [] b = b.length := by
  rw [apart]

@[simp] theorem apart_nil_right (a : List Char) : apart a [] = a.length := by
  cases a <;> rw [apart]

theorem apart_cons_cons (x y : Char) (a b : List Char) :
    apart (x :: a) (y :: b) =
      min (min (apart a (y :: b) + 1) (apart (x :: a) b + 1))
        (apart a b + if x = y then 0 else 1) := by
  rw [apart]

@[simp] theorem apart_self (a : List Char) : apart a a = 0 := by
  induction a with
  | nil => simp
  | cons x a ih => rw [apart_cons_cons, ih, if_pos rfl, Nat.min_zero]

/-- A script of as many edits exists. -/
theorem edits_apart (a b : List Char) : Edits (apart a b) a b := by
  induction a, b using apart.induct with
  | case1 b =>
    rw [apart_nil_left]
    induction b with
    | nil => exact .none []
    | cons y b ih => exact ih.concat (.insertion [] b y)
  | case2 x a =>
    rw [apart_nil_right]
    induction x :: a with
    | nil => exact .none []
    | cons y b ih => exact .next (.deletion [] b y) ih
  | case3 x a y b ihleft ihright ihboth =>
    have hpassed : Edits (apart a (y :: b) + 1) (x :: a) (y :: b) :=
      .next (.deletion [] a x) ihleft
    have hadded : Edits (apart (x :: a) b + 1) (x :: a) (y :: b) :=
      ihright.concat (.insertion [] b y)
    have hmatched : Edits (apart a b + if x = y then 0 else 1) (x :: a) (y :: b) := by
      split
      · next heq =>
        subst heq
        exact ihboth.cons x
      · exact .next (.replacement [] a x y) (ihboth.cons y)
    rw [apart_cons_cons]
    exact (hpassed.min hadded).min hmatched

/-! ### No script is shorter -/

theorem apart_cons_le (x : Char) (a c : List Char) : apart (x :: a) c ≤ apart a c + 1 := by
  cases c with
  | nil => simp
  | cons z c =>
    rw [apart_cons_cons]
    omega

theorem apart_le_apart_cons_right (z : Char) (a c : List Char) :
    apart a (z :: c) ≤ apart a c + 1 := by
  cases a with
  | nil => simp
  | cons x a =>
    rw [apart_cons_cons]
    omega

theorem apart_le_cons (x : Char) (a c : List Char) : apart a c ≤ apart (x :: a) c + 1 := by
  induction c with
  | nil =>
    simp only [apart_nil_right, List.length_cons]
    omega
  | cons z c ih =>
    have hright := apart_le_apart_cons_right z a c
    rw [apart_cons_cons]
    omega

theorem apart_replace_le (x y : Char) (a c : List Char) :
    apart (x :: a) c ≤ apart (y :: a) c + 1 := by
  induction c with
  | nil =>
    simp
  | cons z c ih =>
    rw [apart_cons_cons x, apart_cons_cons y]
    split <;> split <;> omega

theorem apart_cons_le_cons {a b : List Char} (hnear : ∀ c, apart a c ≤ apart b c + 1) (x : Char)
    (c : List Char) : apart (x :: a) c ≤ apart (x :: b) c + 1 := by
  induction c with
  | nil =>
    simpa using hnear []
  | cons z c ih =>
    have hleft := hnear (z :: c)
    have hboth := hnear c
    rw [apart_cons_cons x, apart_cons_cons x]
    omega

theorem apart_append_le_append {a b : List Char} (hnear : ∀ c, apart a c ≤ apart b c + 1)
    (before c : List Char) : apart (before ++ a) c ≤ apart (before ++ b) c + 1 := by
  induction before generalizing c with
  | nil => exact hnear c
  | cons x before ih => exact apart_cons_le_cons ih x c

/-- One edit moves a text nearer to another text by one at most. -/
theorem Edit.apart_le {a b : List Char} (hedit : Edit a b) (c : List Char) :
    apart a c ≤ apart b c + 1 := by
  cases hedit with
  | insertion before after new => exact apart_append_le_append (apart_le_cons new after) before c
  | deletion before after old => exact apart_append_le_append (apart_cons_le old after) before c
  | replacement before after old new =>
    exact apart_append_le_append (apart_replace_le old new after) before c

/-- No script is shorter than the one that goes through both texts from the front. -/
theorem Edits.apart_le {n : Nat} {a b : List Char} (hedits : Edits n a b) : apart a b ≤ n := by
  induction hedits with
  | none a => exact Nat.le_of_eq (apart_self a)
  | next first others ih => exact (first.apart_le _).trans (Nat.succ_le_succ ih)

/-! ### The table -/

/-- How far `read` is from `passed` and from every longer initial part of the second text, of which
`rest` is still to come; both texts are held in reverse. -/
def distances (read passed : List Char) : List Char → List Nat
  | [] => [apart read passed]
  | b :: rest => apart read passed :: distances read (b :: passed) rest

theorem distances_eq_cons (read passed rest : List Char) :
    distances read passed rest = apart read passed :: (distances read passed rest).tail := by
  cases rest <;> rfl

/-- The cells after a first one continue its row. -/
theorem nextCells_distances (a : Char) (read passed rest : List Char) :
    nextCells a (apart (a :: read) passed) rest (distances read passed rest) =
      (distances (a :: read) passed rest).tail := by
  induction rest generalizing passed with
  | nil => rfl
  | cons b rest ih =>
    change nextCells a _ (b :: rest) (apart read passed :: distances read (b :: passed) rest) =
      distances (a :: read) (b :: passed) rest
    rw [distances_eq_cons read, nextCells, ← apart_cons_cons a b read passed,
      ← distances_eq_cons read, ih]
    exact (distances_eq_cons _ _ _).symm

/-- One more character gives the next row. -/
theorem nextRow_distances (a : Char) (read b : List Char) :
    nextRow b (distances read [] b) a = distances (a :: read) [] b := by
  have hfirst : (distances read [] b).headD 0 + 1 = apart (a :: read) [] := by
    rw [distances_eq_cons]
    simp
  rw [nextRow, hfirst, nextCells_distances]
  exact (distances_eq_cons _ _ _).symm

/-- All characters of the first text give the last row. -/
theorem foldl_nextRow_distances (a read b : List Char) :
    a.foldl (nextRow b) (distances read [] b) = distances (a.reverse ++ read) [] b := by
  induction a generalizing read with
  | nil => rfl
  | cons x a ih =>
    rw [List.foldl_cons, nextRow_distances, ih, List.reverse_cons, List.append_assoc]
    rfl

theorem distances_nil (passed rest : List Char) :
    distances [] passed rest = List.range' passed.length (rest.length + 1) := by
  induction rest generalizing passed with
  | nil => simp [distances]
  | cons b rest ih =>
    simp [distances, ih, List.range'_succ]

theorem getLastD_distances (read passed rest : List Char) :
    (distances read passed rest).getLastD 0 = apart read (rest.reverse ++ passed) := by
  induction rest generalizing passed with
  | nil => rfl
  | cons b rest ih =>
    rw [List.reverse_cons, List.append_assoc, List.singleton_append, ← ih, distances,
      distances_eq_cons]
    rfl

/-- The last cell is the distance of the whole texts. -/
theorem editDistance_eq_apart (a b : List Char) :
    editDistance a b = apart a.reverse b.reverse := by
  have hstart : List.range (b.length + 1) = distances [] [] b := by
    rw [distances_nil, List.range_eq_range']
    rfl
  rw [editDistance, hstart, foldl_nextRow_distances, getLastD_distances, List.append_nil,
    List.append_nil]

/-! ### The distance -/

/-- The distance is reached by a script, and no script is shorter. -/
theorem isLeast_editDistance (a b : List Char) :
    IsLeast {count | Edits count a b} (editDistance a b) := by
  rw [editDistance_eq_apart]
  constructor
  · exact edits_reverse_iff.mp (edits_apart a.reverse b.reverse)
  · intro count hedits
    exact (edits_reverse_iff.mpr hedits).apart_le

theorem edits_editDistance (a b : List Char) : Edits (editDistance a b) a b :=
  (isLeast_editDistance a b).1

theorem Edits.editDistance_le {n : Nat} {a b : List Char} (hedits : Edits n a b) :
    editDistance a b ≤ n :=
  (isLeast_editDistance a b).2 hedits

theorem editDistance_comm (a b : List Char) : editDistance a b = editDistance b a :=
  Nat.le_antisymm (edits_editDistance b a).symm.editDistance_le
    (edits_editDistance a b).symm.editDistance_le

@[simp] theorem editDistance_eq_zero_iff (a b : List Char) : editDistance a b = 0 ↔ a = b := by
  constructor
  · intro hzero
    exact (hzero ▸ edits_editDistance a b).eq_of_zero
  · rintro rfl
    exact Nat.le_zero.mp (Edits.none a).editDistance_le

/-- The edit distance of two texts is the least number of single-character insertions, deletions
and replacements that turn the one into the other. So it is the same in both directions, it is zero
only between a text and itself, and going through a third text is no shorter. -/
theorem editDistance_counts_edits (a b : List Char) :
    IsLeast {count | Edits count a b} (editDistance a b) ∧
      editDistance a b = editDistance b a ∧
      (editDistance a b = 0 ↔ a = b) ∧
      ∀ c, editDistance a c ≤ editDistance a b + editDistance b c := by
  refine ⟨isLeast_editDistance a b, editDistance_comm a b, editDistance_eq_zero_iff a b, ?_⟩
  intro c
  exact ((edits_editDistance a b).trans (edits_editDistance b c)).editDistance_le

end Multimethod.Text
