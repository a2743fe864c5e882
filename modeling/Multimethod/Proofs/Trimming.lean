import Mathlib.Data.List.DropRight
import Multimethod.Text.Blank

/-!
# Trimmed texts

Trimming drops nothing but characters at the ends (`trim_sublist`), and it drops all and only the
blanks there: a text is its trimmed form between blanks (`exists_trim`), blanks that are put before
or after it make no difference (`trim_blank_append`, `trim_append_blank`), and only a text of blanks
trims to nothing (`trim_eq_nil_iff`).
-/

set_option autoImplicit false
set_option relaxedAutoImplicit false

namespace Multimethod.Text

/-- Trimming only drops characters. -/
theorem trim_sublist (text : List Char) : (trim text).Sublist text := by
  have hstart : (trimStart text).Sublist text := List.dropWhile_sublist _
  have hend : (trimEnd (trimStart text)).Sublist (trimStart text) := by
    rw [trimEnd, ← List.reverse_sublist, List.reverse_reverse]
    exact List.dropWhile_sublist _
  exact hend.trans hstart

/-- A text without blanks has none at its start. -/
theorem trimStart_eq_self {text : List Char} (hplain : ∀ c ∈ text, isBlank c = false) :
    trimStart text = text := by
  cases text with
  | nil => rfl
  | cons c text =>
    rw [trimStart, List.dropWhile_cons, hplain c List.mem_cons_self, if_neg Bool.false_ne_true]

/-- A text without blanks has none at its end. -/
theorem trimEnd_eq_self {text : List Char} (hplain : ∀ c ∈ text, isBlank c = false) :
    trimEnd text = text := by
  have hreverse : trimStart text.reverse = text.reverse :=
    trimStart_eq_self fun c hmem ↦ hplain c (List.mem_reverse.mp hmem)
  rw [trimEnd, ← trimStart, hreverse, List.reverse_reverse]

/-- A text without blanks is trimmed already. -/
theorem trim_eq_self {text : List Char} (hplain : ∀ c ∈ text, isBlank c = false) :
    trim text = text := by
  rw [trim, trimStart_eq_self hplain, trimEnd_eq_self hplain]

/-! ### Texts of blanks -/

/-- A text of blanks, or without any character. -/
def AllBlank (text : List Char) : Prop :=
  ∀ c ∈ text, isBlank c = true

@[simp] theorem trimStart_eq_nil_iff (text : List Char) : trimStart text = [] ↔ AllBlank text :=
  List.dropWhile_eq_nil_iff

@[simp] theorem trimEnd_eq_nil_iff (text : List Char) : trimEnd text = [] ↔ AllBlank text := by
  simp [trimEnd, AllBlank]

/-- Only a text of blanks trims to nothing. -/
@[simp] theorem trim_eq_nil_iff (text : List Char) : trim text = [] ↔ AllBlank text := by
  have hagain : trimStart (trimStart text) = trimStart text :=
    List.dropWhile_idempotent _ _
  rw [trim, trimEnd_eq_nil_iff, ← trimStart_eq_nil_iff, hagain, trimStart_eq_nil_iff]

/-! ### Blanks at the ends -/

theorem exists_trimStart (text : List Char) :
    ∃ left, AllBlank left ∧ text = left ++ trimStart text :=
  ⟨text.takeWhile isBlank, List.all_eq_true.mp List.all_takeWhile,
    List.takeWhile_append_dropWhile.symm⟩

theorem exists_trimEnd (text : List Char) :
    ∃ right, AllBlank right ∧ text = trimEnd text ++ right := by
  obtain ⟨left, hleft, hsplit⟩ := exists_trimStart text.reverse
  refine ⟨left.reverse, fun c hmem ↦ hleft c (List.mem_reverse.mp hmem), ?_⟩
  rw [trimEnd, ← trimStart, ← List.reverse_append, ← hsplit, List.reverse_reverse]

/-- A text is its trimmed form between blanks. -/
theorem exists_trim (text : List Char) :
    ∃ left right, AllBlank left ∧ AllBlank right ∧ text = left ++ trim text ++ right := by
  obtain ⟨left, hleft, hstart⟩ := exists_trimStart text
  obtain ⟨right, hright, hend⟩ := exists_trimEnd (trimStart text)
  refine ⟨left, right, hleft, hright, ?_⟩
  rw [List.append_assoc, trim, ← hend, ← hstart]

theorem trimStart_blank_append {left : List Char} (hleft : AllBlank left) (text : List Char) :
    trimStart (left ++ text) = trimStart text :=
  List.dropWhile_append_of_pos hleft

theorem trimEnd_append_blank {right : List Char} (hright : AllBlank right) (text : List Char) :
    trimEnd (text ++ right) = trimEnd text := by
  have hreverse : AllBlank right.reverse := fun c hmem ↦ hright c (List.mem_reverse.mp hmem)
  rw [trimEnd, List.reverse_append, ← trimStart, trimStart_blank_append hreverse]
  rfl

/-- Where a text has more than blanks, trimming its start leaves what follows the text. -/
theorem trimStart_append {text : List Char} (hsome : ¬ AllBlank text) (after : List Char) :
    trimStart (text ++ after) = trimStart text ++ after := by
  have hnonempty : (text.dropWhile isBlank).isEmpty = false := by
    rw [List.isEmpty_eq_false_iff]
    exact fun hnil ↦ hsome ((trimStart_eq_nil_iff text).mp hnil)
  rw [trimStart, List.dropWhile_append, hnonempty, if_neg Bool.false_ne_true]
  rfl

/-- Where a text has more than blanks, trimming its end leaves what stands before the text. -/
theorem trimEnd_append {text : List Char} (hsome : ¬ AllBlank text) (before : List Char) :
    trimEnd (before ++ text) = before ++ trimEnd text := by
  have hreverse : ¬ AllBlank text.reverse := fun hall ↦
    hsome fun c hmem ↦ hall c (List.mem_reverse.mpr hmem)
  rw [trimEnd, List.reverse_append, ← trimStart, trimStart_append hreverse, List.reverse_append,
    List.reverse_reverse]
  rfl

theorem trim_blank_append {left : List Char} (hleft : AllBlank left) (text : List Char) :
    trim (left ++ text) = trim text := by
  rw [trim, trimStart_blank_append hleft, trim]

theorem trim_append_blank {right : List Char} (hright : AllBlank right) (text : List Char) :
    trim (text ++ right) = trim text := by
  by_cases htext : AllBlank text
  · rw [(trim_eq_nil_iff text).mpr htext, trim_eq_nil_iff]
    exact fun c hmem ↦ (List.mem_append.mp hmem).elim (htext c) (hright c)
  · rw [trim, trimStart_append htext, trimEnd_append_blank hright, trim]

@[simp] theorem trim_trimStart (text : List Char) : trim (trimStart text) = trim text := by
  obtain ⟨left, hleft, hsplit⟩ := exists_trimStart text
  rw [← trim_blank_append hleft, ← hsplit]

@[simp] theorem trim_trimEnd (text : List Char) : trim (trimEnd text) = trim text := by
  obtain ⟨right, hright, hsplit⟩ := exists_trimEnd text
  rw [← trim_append_blank hright, ← hsplit]

end Multimethod.Text
