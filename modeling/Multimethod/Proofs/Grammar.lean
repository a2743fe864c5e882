import Multimethod.Proofs.ReadBack

/-!
# The grammar of signatures

`Signature.Writes` says which texts write which rows of slots, without saying how a text is read. A
row is written as slots with commas between them, a slot as names with bars between them and at most
one mark before or after them, and blanks may stand around names, marks and slots. Names are plain
(`TypeName.IsPlain`): not empty and without comma, bar, blank or three dots in a row
(`holdsMark_eq_true_iff`). Only the last slot may carry a mark. A text of blanks writes the row
without slots.

Names may hold single and double dots, so one text may be written in several ways: the mark of
`....` stands before the name `.` or after it. Reading looks for the mark at the start first. It is
right nevertheless, because names that are followed by a mark show one at their start only if they
are one or two dots, and then both ways leave these dots (`eq_of_afterMark?`). So a text is read
exactly if it writes something, and it writes what is read and nothing else (`parse_iff_writes`).
-/

set_option autoImplicit false
set_option relaxedAutoImplicit false

namespace Multimethod

open Text

namespace Signature

/-! ### The grammar -/

/-- A name with blanks around it. -/
inductive WritesName : List Char → String → Prop
  | padded {left right : List Char} {name : String} (hleft : AllBlank left)
      (hright : AllBlank right) (hplain : TypeName.IsPlain name) :
      WritesName (left ++ name.toList ++ right) name

/-- One or more pieces with separators between them, each of which writes its entry. -/
inductive Separated {α : Type} (separator : Char) (writes : List Char → α → Prop) :
    List Char → List α → Prop
  | last {piece : List Char} {entry : α} (hpiece : writes piece entry) :
      Separated separator writes piece [entry]
  | cons {piece text : List Char} {entry : α} {entries : List α} (hpiece : writes piece entry)
      (htext : Separated separator writes text entries) :
      Separated separator writes (piece ++ separator :: text) (entry :: entries)

/-- Names with bars between them. -/
abbrev WritesNames : List Char → List String → Prop :=
  Separated '|' WritesName

/-- Names without a mark, or with one before or after them. A name that is given again does not
count. -/
inductive WritesSlot : List Char → Slot → Prop
  | unmarked {left text right : List Char} {names : List String} {alternatives : Alternatives}
      (hleft : AllBlank left) (hnames : WritesNames text names) (hright : AllBlank right)
      (honce : alternatives.names = names.eraseDups) :
      WritesSlot (left ++ text ++ right) ⟨alternatives, false⟩
  | markedBefore {left gap text right : List Char} {names : List String}
      {alternatives : Alternatives} (hleft : AllBlank left) (hgap : AllBlank gap)
      (hnames : WritesNames text names) (hright : AllBlank right)
      (honce : alternatives.names = names.eraseDups) :
      WritesSlot (left ++ ['.', '.', '.'] ++ gap ++ text ++ right) ⟨alternatives, true⟩
  | markedAfter {left text gap right : List Char} {names : List String}
      {alternatives : Alternatives} (hleft : AllBlank left) (hnames : WritesNames text names)
      (hgap : AllBlank gap) (hright : AllBlank right)
      (honce : alternatives.names = names.eraseDups) :
      WritesSlot (left ++ text ++ gap ++ ['.', '.', '.'] ++ right) ⟨alternatives, true⟩

/-- Blanks, or slots with commas between them of which only the last may be repeated. -/
inductive Writes : List Char → List Slot → Prop
  | blank {text : List Char} (hblank : AllBlank text) : Writes text []
  | row {text : List Char} {slots : List Slot} (hslots : Separated ',' WritesSlot text slots)
      (hlast : ∀ slot ∈ slots.dropLast, slot.repeated = false) : Writes text slots

/-! ### Separated pieces -/

namespace Separated

variable {α : Type} {separator : Char} {writes : List Char → α → Prop} {text : List Char}
  {entries : List α}

theorem not_mem {c : Char} (hc : c ≠ separator)
    (hwrites : ∀ piece entry, writes piece entry → c ∉ piece)
    (hseparated : Separated separator writes text entries) : c ∉ text := by
  induction hseparated with
  | last hpiece => exact hwrites _ _ hpiece
  | cons hpiece _ ih =>
    rw [List.mem_append, List.mem_cons, not_or, not_or]
    exact ⟨hwrites _ _ hpiece, hc, ih⟩

theorem not_allBlank (hwrites : ∀ piece entry, writes piece entry → ¬ AllBlank piece)
    (hseparated : Separated separator writes text entries) : ¬ AllBlank text := by
  cases hseparated with
  | last hpiece => exact hwrites _ _ hpiece
  | cons hpiece _ =>
    exact fun hblank ↦ hwrites _ _ hpiece fun c hmem ↦ hblank c (List.mem_append_left _ hmem)

/-- Pieces with separators between them can be read off by splitting, if no piece can hold the
separator. -/
theorem iff_splitOn (hwrites : ∀ piece entry, writes piece entry → separator ∉ piece) :
    Separated separator writes text entries ↔
      List.Forall₂ writes (text.splitOn separator) entries := by
  constructor
  · intro hseparated
    induction hseparated with
    | last hpiece =>
      rw [List.splitOn_eq_singleton (hwrites _ _ hpiece)]
      exact .cons hpiece .nil
    | cons hpiece _ ih =>
      rw [List.splitOn_append_cons_self, List.splitOn_eq_singleton (hwrites _ _ hpiece)]
      exact .cons hpiece ih
  · intro hall
    have hjoined : [separator].intercalate (text.splitOn separator) = text :=
      List.intercalate_splitOn separator
    rw [← hjoined]
    clear hjoined
    have hsome := List.splitOn_ne_nil separator text
    generalize text.splitOn separator = pieces at hall hsome
    induction hall with
    | nil => exact absurd rfl hsome
    | @cons piece entry pieces entries hpiece hothers ih =>
      by_cases hlast : pieces = []
      · subst hlast
        cases hothers
        rw [List.intercalate_singleton]
        exact .last hpiece
      · rw [List.intercalate_cons_of_ne_nil hlast, List.append_assoc]
        exact .cons hpiece (ih hlast)

end Separated

/-! ### Names -/

theorem holdsMark_blank_append {left : List Char} (hleft : AllBlank left) (text : List Char) :
    holdsMark (left ++ text) = holdsMark text := by
  induction left with
  | nil => rfl
  | cons c left ih =>
    rw [← ih fun d hmem ↦ hleft d (List.mem_cons_of_mem _ hmem)]
    have hdot : c ≠ '.' := by
      rintro rfl
      exact nomatch hleft '.' List.mem_cons_self
    exact holdsMark_append_cons hdot [] (left ++ text)

/-- Blanks around a text complete no mark in it. -/
theorem holdsMark_padded {left right : List Char} (hleft : AllBlank left) (hright : AllBlank right)
    (text : List Char) : holdsMark (left ++ text ++ right) = holdsMark text := by
  rw [List.append_assoc, holdsMark_blank_append hleft]
  cases right with
  | nil => rw [List.append_nil]
  | cons c right =>
    have hdot : c ≠ '.' := by
      rintro rfl
      exact nomatch hright '.' List.mem_cons_self
    have hblank : AllBlank right := fun d hmem ↦ hright d (List.mem_cons_of_mem _ hmem)
    rw [holdsMark_append_cons hdot, ← List.append_nil right, holdsMark_blank_append hblank,
      holdsMark, Bool.or_false]

/-- A piece writes a name exactly if the name is plain and is what trimming the piece leaves. -/
@[simp] theorem writesName_iff {piece : List Char} {name : String} :
    WritesName piece name ↔ TypeName.IsPlain name ∧ trim piece = name.toList := by
  constructor
  · rintro ⟨hleft, hright, hplain⟩
    rw [trim_append_blank hright, trim_blank_append hleft]
    exact ⟨hplain, trim_eq_self fun c hmem ↦ (hplain.letters c hmem).2.2⟩
  · rintro ⟨hplain, htrim⟩
    obtain ⟨left, right, hleft, hright, hsplit⟩ := exists_trim piece
    rw [hsplit, htrim]
    exact .padded hleft hright hplain

namespace WritesName

variable {piece : List Char} {name : String}

theorem not_allBlank (hwrites : WritesName piece name) : ¬ AllBlank piece := by
  obtain ⟨hplain, htrim⟩ := writesName_iff.mp hwrites
  intro hblank
  exact hplain.nonempty (htrim.symm.trans ((trim_eq_nil_iff piece).mpr hblank))

theorem holdsMark_eq_false (hwrites : WritesName piece name) : holdsMark piece = false := by
  cases hwrites with
  | padded hleft hright hplain =>
    rw [holdsMark_padded hleft hright]
    exact hplain.markless

/-- A name and the blanks around it hold no comma and no bar. -/
theorem not_mem (hwrites : WritesName piece name) {c : Char} (hc : c = ',' ∨ c = '|') :
    c ∉ piece := by
  have hvisible : isBlank c = false := by rcases hc with rfl | rfl <;> decide
  cases hwrites with
  | padded hleft hright hplain =>
    rw [List.mem_append, List.mem_append]
    rintro ((hmem | hmem) | hmem)
    · exact nomatch hvisible.symm.trans (hleft c hmem)
    · obtain ⟨hcomma, hbar, -⟩ := hplain.letters c hmem
      exact hc.elim hcomma hbar
    · exact nomatch hvisible.symm.trans (hright c hmem)

/-- Texts that are trimmed to the same write the same names. -/
theorem of_trim_eq (hwrites : WritesName piece name) {other : List Char}
    (htrim : trim other = trim piece) : WritesName other name := by
  rw [writesName_iff] at hwrites ⊢
  rw [htrim]
  exact hwrites

end WritesName

/-- A piece between bars is read as a name exactly if it writes the name. -/
theorem nameOf_eq_ok_iff {piece : List Char} {name : String} (hbar : '|' ∉ piece) :
    nameOf piece = .ok name ↔ WritesName piece name := by
  rw [writesName_iff]
  constructor
  · intro hname
    refine ⟨isPlain_of_nameOf hbar hname, ?_⟩
    unfold nameOf at hname
    dsimp only at hname
    split_ifs at hname
    cases hname
    exact String.toList_ofList.symm
  · rintro ⟨hplain, htrim⟩
    rw [← nameOf_toList hplain]
    unfold nameOf
    rw [htrim, trim_eq_self fun c hmem ↦ (hplain.letters c hmem).2.2]

/-! ### Names with bars between them -/

namespace WritesNames

variable {text : List Char} {names : List String}

theorem not_allBlank (hwrites : WritesNames text names) : ¬ AllBlank text :=
  Separated.not_allBlank (fun _ _ ↦ WritesName.not_allBlank) hwrites

theorem comma_not_mem (hwrites : WritesNames text names) : ',' ∉ text :=
  Separated.not_mem (by decide) (fun _ _ hname ↦ hname.not_mem (Or.inl rfl)) hwrites

theorem holdsMark_eq_false (hwrites : WritesNames text names) : holdsMark text = false := by
  induction hwrites with
  | last hpiece => exact hpiece.holdsMark_eq_false
  | cons hpiece _ ih =>
    rw [holdsMark_append_cons (by decide), hpiece.holdsMark_eq_false, ih, Bool.false_or]

theorem append_blank (hwrites : WritesNames text names) {right : List Char}
    (hright : AllBlank right) : WritesNames (text ++ right) names := by
  induction hwrites with
  | last hpiece => exact .last (hpiece.of_trim_eq (trim_append_blank hright _))
  | cons hpiece _ ih =>
    rw [List.append_assoc, List.cons_append]
    exact .cons hpiece ih

theorem trimStart (hwrites : WritesNames text names) :
    WritesNames (Text.trimStart text) names := by
  cases hwrites with
  | last hpiece => exact .last (hpiece.of_trim_eq (trim_trimStart _))
  | cons hpiece hothers =>
    rw [trimStart_append hpiece.not_allBlank]
    exact .cons (hpiece.of_trim_eq (trim_trimStart _)) hothers

theorem trimEnd (hwrites : WritesNames text names) : WritesNames (Text.trimEnd text) names := by
  induction hwrites with
  | last hpiece => exact .last (hpiece.of_trim_eq (trim_trimEnd _))
  | cons hpiece hothers ih =>
    rw [List.append_cons, trimEnd_append (not_allBlank hothers), List.append_assoc]
    exact .cons hpiece ih

end WritesNames

/-- A text is read as names between bars exactly if it writes them. -/
theorem mapM_nameOf_eq_ok_iff {text : List Char} {names : List String} :
    (text.splitOn '|').mapM nameOf = .ok names ↔ WritesNames text names := by
  rw [WritesNames, Separated.iff_splitOn fun _ _ hname ↦ hname.not_mem (Or.inr rfl), mapM_eq_ok_iff]
  have hbars : ∀ piece ∈ text.splitOn '|', '|' ∉ piece := fun _ ↦ not_mem_of_mem_splitOn
  generalize text.splitOn '|' = pieces at hbars
  induction pieces generalizing names with
  | nil => simp
  | cons piece pieces ih =>
    simp only [List.forall₂_cons_left_iff, nameOf_eq_ok_iff (hbars piece List.mem_cons_self),
      ih fun other hother ↦ hbars other (List.mem_cons_of_mem _ hother)]

/-! ### Slots -/

/-- What is left of a text after its marks were taken off stands behind a mark, or before one, or is
the whole text. -/
theorem unmarked_eq_ok {body text : List Char} {repeated : Bool}
    (hunmarked : unmarked body = .ok (text, repeated)) :
    (body = text ∧ repeated = false) ∨
      ∃ gap, AllBlank gap ∧ repeated = true ∧
        (body = ['.', '.', '.'] ++ gap ++ text ∨ body = text ++ gap ++ ['.', '.', '.']) := by
  unfold unmarked at hunmarked
  cases hafter : afterMark? body with
  | some after =>
    rw [hafter] at hunmarked
    dsimp only at hunmarked
    split at hunmarked
    · exact nomatch hunmarked
    · cases hunmarked
      obtain ⟨gap, hgap, hsplit⟩ := exists_trimStart after
      refine Or.inr ⟨gap, hgap, rfl, Or.inl ?_⟩
      rw [List.append_assoc, ← hsplit]
      exact afterMark?_eq_some_iff.mp hafter
  | none =>
    rw [hafter] at hunmarked
    dsimp only at hunmarked
    cases hbefore : beforeMark? body with
    | some before =>
      rw [hbefore] at hunmarked
      cases hunmarked
      obtain ⟨gap, hgap, hsplit⟩ := exists_trimEnd before
      refine Or.inr ⟨gap, hgap, rfl, Or.inr ?_⟩
      rw [← hsplit]
      exact beforeMark?_eq_some_iff.mp hbefore
    | none =>
      rw [hbefore] at hunmarked
      cases hunmarked
      exact Or.inl ⟨rfl, rfl⟩

/-- A piece is read as a slot in three steps: it is trimmed, its marks are taken off, and what is
left is read as names. -/
theorem slotOf_eq_ok_iff_unmarked {piece : List Char} {slot : Slot} :
    slotOf piece = .ok slot ↔ ¬ AllBlank piece ∧
      ∃ text names, unmarked (trim piece) = .ok (text, slot.repeated) ∧ WritesNames text names ∧
        slot.alternatives.names = names.eraseDups := by
  have hnames : ∀ names : List String, addNames [] names = names.eraseDups :=
    addNames_eraseDups []
  rw [slotOf_eq_ok_iff_exists, ne_eq, trim_eq_nil_iff]
  simp only [alternativesOf_eq_ok_iff, mapM_nameOf_eq_ok_iff, hnames, ← exists_and_left]
  simp only [eq_comm]

@[simp] theorem not_allBlank_mark : ¬ AllBlank ['.', '.', '.'] :=
  fun hblank ↦ nomatch hblank '.' List.mem_cons_self

namespace WritesSlot

variable {piece : List Char} {slot : Slot}

theorem not_allBlank (hwrites : WritesSlot piece slot) : ¬ AllBlank piece := by
  intro hblank
  cases hwrites with
  | unmarked _ hnames _ _ =>
    exact WritesNames.not_allBlank hnames fun c hmem ↦ hblank c (by simp [hmem])
  | markedBefore | markedAfter =>
    exact not_allBlank_mark fun c hmem ↦ hblank c (by simp_all)

theorem comma_not_mem (hwrites : WritesSlot piece slot) : ',' ∉ piece := by
  have hblank : ∀ text, AllBlank text → ',' ∉ text := fun text htext hmem ↦
    nomatch htext ',' hmem
  cases hwrites with
  | unmarked hleft hnames hright _ =>
    simp [hblank _ hleft, hblank _ hright, WritesNames.comma_not_mem hnames]
  | markedBefore hleft hgap hnames hright _ | markedAfter hleft hnames hgap hright _ =>
    simp [hblank _ hleft, hblank _ hgap, hblank _ hright, WritesNames.comma_not_mem hnames]

end WritesSlot

/-- A mark before names is taken off with the blanks after it. -/
theorem unmarked_mark_append {text gap : List Char} {names : List String} (hgap : AllBlank gap)
    (hnames : WritesNames text names) :
    unmarked (['.', '.', '.'] ++ gap ++ text) = .ok (trimStart text, true) := by
  have hafter : afterMark? (['.', '.', '.'] ++ gap ++ text) = some (gap ++ text) := rfl
  unfold unmarked
  rw [hafter]
  dsimp only
  rw [trimStart_blank_append hgap,
    (marks_eq_none (WritesNames.holdsMark_eq_false (WritesNames.trimStart hnames))).2]

/-- Around a slot with a mark before its names, blanks are trimmed and the mark stays. -/
theorem trim_markedBefore {left gap text right : List Char} {names : List String}
    (hleft : AllBlank left) (hnames : WritesNames text names) (hright : AllBlank right) :
    trim (left ++ ['.', '.', '.'] ++ gap ++ text ++ right) =
      ['.', '.', '.'] ++ gap ++ trimEnd text := by
  rw [trim_append_blank hright, List.append_assoc, List.append_assoc, trim_blank_append hleft, trim,
    trimStart_append not_allBlank_mark, ← List.append_assoc,
    trimEnd_append (WritesNames.not_allBlank hnames)]
  rfl

/-- Around a slot with a mark after its names, blanks are trimmed and the mark stays. -/
theorem trim_markedAfter {left text gap right : List Char} {names : List String}
    (hleft : AllBlank left) (hnames : WritesNames text names) (hright : AllBlank right) :
    trim (left ++ text ++ gap ++ ['.', '.', '.'] ++ right) =
      trimStart text ++ gap ++ ['.', '.', '.'] := by
  rw [trim_append_blank hright, List.append_assoc, List.append_assoc, trim_blank_append hleft, trim,
    trimStart_append (WritesNames.not_allBlank hnames), ← List.append_assoc,
    trimEnd_append not_allBlank_mark]
  rfl

/-- A piece that is read as a slot writes it. -/
theorem writesSlot_of_slotOf {piece : List Char} {slot : Slot} (hslot : slotOf piece = .ok slot) :
    WritesSlot piece slot := by
  obtain ⟨-, text, names, hunmarked, hnames, honce⟩ := slotOf_eq_ok_iff_unmarked.mp hslot
  obtain ⟨left, right, hleft, hright, hsplit⟩ := exists_trim piece
  obtain ⟨alternatives, repeated⟩ := slot
  rw [hsplit]
  rcases unmarked_eq_ok hunmarked with ⟨hbody, hsingle⟩ | ⟨gap, hgap, hrepeated, hbody | hbody⟩
  · cases hsingle
    rw [hbody]
    exact .unmarked hleft hnames hright honce
  · cases hrepeated
    rw [hbody, ← List.append_assoc, ← List.append_assoc]
    exact .markedBefore hleft hgap hnames hright honce
  · cases hrepeated
    rw [hbody, ← List.append_assoc, ← List.append_assoc]
    exact .markedAfter hleft hnames hgap hright honce

/-- A piece that writes a slot is read as this slot. -/
theorem WritesSlot.slotOf_eq_ok {piece : List Char} {slot : Slot}
    (hwrites : WritesSlot piece slot) : slotOf piece = .ok slot := by
  refine slotOf_eq_ok_iff_unmarked.mpr ⟨hwrites.not_allBlank, ?_⟩
  cases hwrites with
  | @unmarked left text right names _ hleft hnames hright honce =>
    have htrimmed : WritesNames (trim text) names :=
      WritesNames.trimEnd (WritesNames.trimStart hnames)
    rw [trim_append_blank hright, trim_blank_append hleft]
    exact ⟨trim text, names, unmarked_eq_self (WritesNames.holdsMark_eq_false htrimmed), htrimmed,
      honce⟩
  | @markedBefore left gap text right names _ hleft hgap hnames hright honce =>
    have hend := WritesNames.trimEnd hnames
    rw [trim_markedBefore hleft hnames hright]
    exact ⟨_, names, unmarked_mark_append hgap hend, WritesNames.trimStart hend, honce⟩
  | @markedAfter left text gap right names _ hleft hnames hgap hright honce =>
    have hstart := WritesNames.append_blank (WritesNames.trimStart hnames) hgap
    have hnonempty : trimStart text ++ gap ≠ [] := by
      intro hnil
      rw [hnil] at hstart
      exact WritesNames.not_allBlank hstart (List.forall_mem_nil _)
    rw [trim_markedAfter hleft hnames hright]
    -- Whether the mark is found at the start or at the end, the names are left.
    rcases unmarked_append_mark_cases hnonempty (WritesNames.holdsMark_eq_false hstart) with
      hwhole | htrimmed
    · exact ⟨_, names, hwhole, hstart, honce⟩
    · exact ⟨_, names, htrimmed, WritesNames.trimEnd hstart, honce⟩

/-- A piece is read as a slot exactly if it writes the slot. -/
theorem slotOf_eq_ok_iff {piece : List Char} {slot : Slot} :
    slotOf piece = .ok slot ↔ WritesSlot piece slot :=
  ⟨writesSlot_of_slotOf, WritesSlot.slotOf_eq_ok⟩

/-! ### Rows of slots -/

theorem map_single_eq {row : List Slot} (hsingle : ∀ slot ∈ row, slot.repeated = false) :
    (row.map Slot.alternatives).map (fun alternatives ↦ Slot.mk alternatives false) = row := by
  rw [List.map_map]
  refine (List.map_congr_left fun slot hslot ↦ ?_).trans row.map_id
  rw [Function.comp_apply, ← hsingle slot hslot]
  rfl

/-- A row is that of a signature exactly if no slot but the last is repeated. -/
theorem exists_slots_eq_iff (row : List Slot) :
    (∃ signature : Signature, signature.slots = row) ↔
      ∀ slot ∈ row.dropLast, slot.repeated = false := by
  constructor
  · rintro ⟨⟨fixed, rest⟩, rfl⟩ slot hslot
    have hfixed : slot ∈ fixed.map fun alternatives ↦ Slot.mk alternatives false := by
      cases rest with
      | none =>
        rw [slots, Option.toList_none, List.map_nil, List.append_nil] at hslot
        exact List.dropLast_subset _ hslot
      | some alternatives =>
        rw [slots, Option.toList_some, List.map_singleton, List.dropLast_concat] at hslot
        exact hslot
    obtain ⟨alternatives, -, rfl⟩ := List.mem_map.mp hfixed
    rfl
  · intro hlast
    cases row using List.reverseRecOn with
    | nil => exact ⟨⟨[], none⟩, rfl⟩
    | append_singleton init last =>
      rw [List.dropLast_concat] at hlast
      obtain ⟨alternatives, repeated⟩ := last
      cases repeated with
      | true =>
        refine ⟨⟨init.map Slot.alternatives, some alternatives⟩, ?_⟩
        rw [slots, map_single_eq hlast]
        rfl
      | false =>
        refine ⟨⟨(init ++ [Slot.mk alternatives false]).map Slot.alternatives, none⟩, ?_⟩
        rw [slots, map_single_eq, Option.toList_none, List.map_nil, List.append_nil]
        rw [List.forall_mem_append, List.forall_mem_singleton]
        exact ⟨hlast, rfl⟩

namespace Writes

variable {text : List Char} {row : List Slot}

/-- Blanks write only the row without slots. -/
theorem eq_nil (hwrites : Writes text row) (hblank : AllBlank text) : row = [] := by
  cases hwrites with
  | blank _ => rfl
  | row hslots _ =>
    exact absurd hblank (hslots.not_allBlank fun _ _ ↦ WritesSlot.not_allBlank)

theorem separated (hwrites : Writes text row) (hsome : ¬ AllBlank text) :
    Separated ',' WritesSlot text row := by
  cases hwrites with
  | blank hblank => exact absurd hblank hsome
  | row hslots _ => exact hslots

theorem exists_slots (hwrites : Writes text row) :
    ∃ signature : Signature, signature.slots = row := by
  cases hwrites with
  | blank _ => exact ⟨⟨[], none⟩, rfl⟩
  | row _ hlast => exact (exists_slots_eq_iff row).mpr hlast

end Writes

/-- A signature is read from a text exactly if the text writes its slots. -/
theorem parse_eq_ok_iff {text : String} {signature : Signature} :
    parse text = .ok signature ↔ Writes text.toList signature.slots := by
  by_cases hblank : AllBlank text.toList
  · rw [parse_of_allBlank hblank]
    constructor
    · intro hok
      cases hok
      exact .blank hblank
    · intro hwrites
      have hnone : signature = ⟨[], none⟩ := eq_of_slots_eq (hwrites.eq_nil hblank)
      rw [hnone]
  · rw [parse_of_not_allBlank hblank, faulty_eq_ok_iff, ofPieces_eq_ok_iff, mapM_eq_ok_iff]
    simp only [slotOf_eq_ok_iff]
    rw [← Separated.iff_splitOn fun _ _ ↦ WritesSlot.comma_not_mem]
    constructor
    · intro hslots
      exact .row hslots ((exists_slots_eq_iff _).mp ⟨signature, rfl⟩)
    · intro hwrites
      exact hwrites.separated hblank

/-- Reading accepts the texts of the grammar and no others, and gives the row of slots that the text
writes. All ways in which a text may be written by the grammar write one row. Every other text is
reported as malformed, and the report quotes it as it is. -/
theorem parse_iff_writes (text : String) :
    (∀ row, (∃ signature, parse text = .ok signature ∧ signature.slots = row) ↔
      Writes text.toList row) ∧
    (∀ row other, Writes text.toList row → Writes text.toList other → row = other) ∧
    ((∀ row, ¬ Writes text.toList row) →
      ∃ fault : Fault, parse text = .error (.malformedSignature text fault.message)) := by
  have hread : ∀ row, (∃ signature, parse text = .ok signature ∧ signature.slots = row) ↔
      Writes text.toList row := by
    intro row
    constructor
    · rintro ⟨signature, hparse, rfl⟩
      exact parse_eq_ok_iff.mp hparse
    · intro hwrites
      obtain ⟨signature, rfl⟩ := hwrites.exists_slots
      exact ⟨signature, parse_eq_ok_iff.mpr hwrites, rfl⟩
  refine ⟨hread, fun row other hrow hother ↦ ?_, fun hnone ↦ ?_⟩
  · obtain ⟨first, hfirst, rfl⟩ := (hread row).mpr hrow
    obtain ⟨second, hsecond, rfl⟩ := (hread other).mpr hother
    rw [Except.ok.inj (hfirst.symm.trans hsecond)]
  · cases hparse : parse text with
    | ok signature => exact absurd ((hread _).mp ⟨signature, hparse, rfl⟩) (hnone _)
    | error failure =>
      obtain ⟨fault, rfl⟩ := parse_eq_error hparse
      exact ⟨fault, rfl⟩

/-- Four dots are the name `.` with a mark, whether the mark is taken to stand before the name or
after it, and two marks with a blank between them are no slot. -/
theorem parse_iff_writes_dots :
    (∃ signature, parse "...." = .ok signature ∧ signature.slots = [⟨.single ".", true⟩]) ∧
    (∀ row, Writes "....".toList row → row = [⟨.single ".", true⟩]) ∧
    ∃ fault : Fault, parse "... ..." = .error (.malformedSignature "... ..." fault.message) := by
  have hplain : TypeName.IsPlain "." := by
    refine ⟨List.cons_ne_nil _ _, rfl, fun c hmem ↦ ?_⟩
    rw [List.mem_singleton.mp hmem]
    exact ⟨by decide, by decide, rfl⟩
  have hname : WritesNames ['.'] ["."] := .last (writesName_iff.mpr ⟨hplain, rfl⟩)
  have hdots : Writes "....".toList [⟨.single ".", true⟩] :=
    .row (.last (@WritesSlot.markedBefore [] [] ['.'] [] ["."] _ nofun nofun hname nofun rfl)) nofun
  refine ⟨((parse_iff_writes "....").1 _).mpr hdots,
    fun row hrow ↦ (parse_iff_writes "....").2.1 row _ hrow hdots,
    (parse_iff_writes "... ...").2.2 fun row hrow ↦ ?_⟩
  obtain ⟨signature, hparse, -⟩ := ((parse_iff_writes "... ...").1 row).mpr hrow
  exact nomatch hparse

end Signature

end Multimethod
