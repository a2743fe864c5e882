import Multimethod.Proofs.Results
import Multimethod.Proofs.Trimming
import Multimethod.Signature.Parser

/-!
# Reading a written signature back

A signature is normal when every slot has at least one alternative, no alternative twice, and only
plain names: names that are not empty and hold no comma, no bar, no blank and no mark of repetition.
Every signature that can be read is normal (`isNormal_of_parse`), and the written form of a normal
signature is read as this signature again (`parse_key`). So the normal form of a text is its own
normal form (`normalForm_key`).

Plain names may begin or end in dots, so the mark of a repeated slot may be found at either end of
its written form. What is left is the same in both cases (`unmarked_append_mark`).
-/

set_option autoImplicit false
set_option relaxedAutoImplicit false

namespace Multimethod

open Text

/-! ### Normal signatures -/

/-- A name that is read from a slot as it is written. -/
structure TypeName.IsPlain (name : String) : Prop where
  nonempty : name.toList ≠ []
  markless : holdsMark name.toList = false
  letters : ∀ c ∈ name.toList, c ≠ ',' ∧ c ≠ '|' ∧ isBlank c = false

/-- Alternatives as they are read: plain, and none twice. -/
structure Alternatives.IsNormal (alternatives : Alternatives) : Prop where
  nodup : alternatives.names.Nodup
  plain : ∀ name ∈ alternatives.names, TypeName.IsPlain name

/-- A signature as it is read. -/
def Signature.IsNormal (signature : Signature) : Prop :=
  ∀ slot ∈ signature.slots, slot.alternatives.IsNormal

/-! ### Names in a row -/

theorem mem_addNames {names more : List String} {name : String} :
    name ∈ addNames names more ↔ name ∈ names ∨ name ∈ more := by
  induction more generalizing names with
  | nil => simp [addNames]
  | cons next more ih =>
    have hnext : name ∈ addName names next ↔ name ∈ names ∨ name = next := by
      unfold addName
      by_cases hmem : next ∈ names
      · rw [if_pos hmem]
        exact ⟨Or.inl, fun h ↦ h.elim id fun heq ↦ heq ▸ hmem⟩
      · rw [if_neg hmem, List.mem_append, List.mem_singleton]
    show name ∈ addNames (addName names next) more ↔ _
    rw [ih, hnext, List.mem_cons, or_assoc]

theorem nodup_addNames {names more : List String} (hnodup : names.Nodup) :
    (addNames names more).Nodup := by
  induction more generalizing names with
  | nil => exact hnodup
  | cons next more ih =>
    have hnext : (addName names next).Nodup := by
      unfold addName
      by_cases hmem : next ∈ names
      · rw [if_pos hmem]
        exact hnodup
      · rw [if_neg hmem, ← List.concat_eq_append]
        exact hnodup.concat hmem
    exact ih hnext

theorem addNames_eq_append {names more : List String} (hnodup : (names ++ more).Nodup) :
    addNames names more = names ++ more := by
  induction more generalizing names with
  | nil => exact (List.append_nil names).symm
  | cons next more ih =>
    have hnew : next ∉ names := fun hmem ↦
      (List.nodup_append.mp hnodup).2.2 next hmem next List.mem_cons_self rfl
    rw [List.append_cons] at hnodup ⊢
    rw [← ih hnodup, addNames, List.foldl_cons, addName, if_neg hnew]
    rfl

/-- Adding names to names without duplicates erases the duplicates of all. -/
theorem addNames_eraseDups (names more : List String) :
    addNames names.eraseDups more = (names ++ more).eraseDups := by
  induction more generalizing names with
  | nil => rw [List.append_nil]; rfl
  | cons name more ih =>
    have hname : addName names.eraseDups name = (names ++ [name]).eraseDups := by
      rw [List.eraseDups, List.eraseDups, eraseDupsBy_concat, addName]
      by_cases hmem : name ∈ names.eraseDupsBy (· == ·)
      · rw [if_pos hmem, if_pos (List.any_eq_true.mpr ⟨name, hmem, beq_self_eq_true name⟩)]
      · rw [if_neg hmem, if_neg]
        simpa using hmem
    rw [addNames, List.foldl_cons, hname, List.append_cons names name more]
    exact ih (names ++ [name])

/-! ### The mark of repetition -/

/-- No mark goes on across a separator. -/
theorem holdsMark_append_cons {separator : Char} (hseparator : separator ≠ '.')
    (first second : List Char) :
    holdsMark (first ++ separator :: second) = (holdsMark first || holdsMark second) := by
  fun_induction holdsMark first with
  | case1 text => rfl
  | case2 c text hno ih =>
    rw [← ih]
    have hstart : ∀ others, c :: (text ++ separator :: second) ≠ '.' :: '.' :: '.' :: others := by
      rintro others hmark
      rcases text with _ | ⟨d, _ | ⟨e, text⟩⟩ <;> simp_all
    rw [List.cons_append, holdsMark]
    exact fun others hc htext ↦ hstart others (by rw [hc, htext])
  | case3 =>
    rw [List.nil_append, holdsMark, Bool.false_or]
    exact fun others hdot ↦ absurd hdot hseparator

/-- The mark is held where its three dots stand in a row. -/
@[simp] theorem holdsMark_eq_true_iff (text : List Char) :
    holdsMark text = true ↔ ['.', '.', '.'] <:+: text := by
  fun_induction holdsMark text with
  | case1 text => exact iff_of_true rfl (List.prefix_append ['.', '.', '.'] text).isInfix
  | case2 c text hno ih =>
    rw [ih, List.infix_cons_iff]
    refine (or_iff_right ?_).symm
    rintro ⟨after, hafter⟩
    obtain ⟨rfl, rfl⟩ := List.cons.inj hafter
    exact hno after rfl rfl
  | case3 => simp

@[simp]
theorem holdsMark_append_mark (text : List Char) : holdsMark (text ++ ['.', '.', '.']) = true :=
  (holdsMark_eq_true_iff _).mpr (List.suffix_append _ _).isInfix

theorem holdsMark_intercalate {separator : Char} (hseparator : separator ≠ '.')
    {pieces : List (List Char)} (hmarkless : ∀ piece ∈ pieces, holdsMark piece = false) :
    holdsMark ([separator].intercalate pieces) = false := by
  induction pieces with
  | nil => rfl
  | cons piece pieces ih =>
    have hpiece := hmarkless piece List.mem_cons_self
    by_cases hlast : pieces = []
    · rw [hlast, List.intercalate_singleton]
      exact hpiece
    · rw [List.intercalate_cons_of_ne_nil hlast, List.append_assoc, List.singleton_append,
        holdsMark_append_cons hseparator, hpiece, Bool.false_or]
      exact ih fun other hmem ↦ hmarkless other (List.mem_cons_of_mem _ hmem)

namespace Signature

@[simp] theorem afterMark?_eq_some_iff {text after : List Char} :
    afterMark? text = some after ↔ text = '.' :: '.' :: '.' :: after := by
  unfold afterMark?
  split
  · simp [eq_comm]
  · next hno => simpa using fun heq ↦ hno after heq

@[simp] theorem beforeMark?_eq_some_iff {text before : List Char} :
    beforeMark? text = some before ↔ text = before ++ ['.', '.', '.'] := by
  rw [beforeMark?, Option.map_eq_some_iff]
  simp only [afterMark?_eq_some_iff]
  constructor
  · rintro ⟨after, hafter, rfl⟩
    rw [← List.reverse_reverse text, hafter]
    simp
  · rintro rfl
    exact ⟨before.reverse, by simp, List.reverse_reverse before⟩

theorem marks_eq_none {text : List Char} (hmarkless : holdsMark text = false) :
    afterMark? text = none ∧ beforeMark? text = none := by
  rw [Option.eq_none_iff_forall_ne_some, Option.eq_none_iff_forall_ne_some]
  constructor
  · rintro after hafter
    rw [afterMark?_eq_some_iff.mp hafter, holdsMark] at hmarkless
    exact Bool.noConfusion hmarkless
  · rintro before hbefore
    rw [beforeMark?_eq_some_iff.mp hbefore, holdsMark_append_mark] at hmarkless
    exact Bool.noConfusion hmarkless

theorem unmarked_eq_self {text : List Char} (hmarkless : holdsMark text = false) :
    unmarked text = .ok (text, false) := by
  obtain ⟨hafter, hbefore⟩ := marks_eq_none hmarkless
  rw [unmarked, hafter, hbefore]

/-- When a mark after a text is found before it, the text consists of dots, so the two forms are
one. -/
theorem eq_of_afterMark? {text after : List Char} (hnonempty : text ≠ [])
    (hmarkless : holdsMark text = false)
    (hafter : afterMark? (text ++ ['.', '.', '.']) = some after) : after = text := by
  rw [afterMark?_eq_some_iff] at hafter
  -- The mark at the start takes one or two characters of the text, or it lies inside the text.
  rcases text with _ | ⟨c, _ | ⟨d, _ | ⟨e, text⟩⟩⟩
  · exact absurd rfl hnonempty
  · simp_all
  · simp_all
  · simp_all [holdsMark]

/-- The mark after a text can be taken off again, at whichever end it is found. At the end of the
text blanks before it are taken off as well. -/
theorem unmarked_append_mark_cases {text : List Char} (hnonempty : text ≠ [])
    (hmarkless : holdsMark text = false) :
    unmarked (text ++ ['.', '.', '.']) = .ok (text, true) ∨
      unmarked (text ++ ['.', '.', '.']) = .ok (trimEnd text, true) := by
  unfold unmarked
  cases hafter : afterMark? (text ++ ['.', '.', '.']) with
  | some after =>
    have hstart : trimStart text = text := by
      obtain ⟨c, others, rfl⟩ := List.exists_cons_of_ne_nil hnonempty
      have hdot := (List.cons.inj (afterMark?_eq_some_iff.mp hafter)).1
      rw [hdot]
      rfl
    left
    rw [eq_of_afterMark? hnonempty hmarkless hafter]
    dsimp only
    rw [hstart, (marks_eq_none hmarkless).2]
  | none =>
    right
    dsimp only
    rw [beforeMark?_eq_some_iff.mpr rfl]

theorem unmarked_append_mark {text : List Char} (hnonempty : text ≠ [])
    (hmarkless : holdsMark text = false) (hplain : ∀ c ∈ text, isBlank c = false) :
    unmarked (text ++ ['.', '.', '.']) = .ok (text, true) := by
  rcases unmarked_append_mark_cases hnonempty hmarkless with hwhole | htrimmed
  · exact hwhole
  · rw [htrimmed, trimEnd_eq_self hplain]

/-! ### Names -/

/-- A piece between bars is read as a plain name. -/
theorem isPlain_of_nameOf {piece : List Char} {name : String} (hbar : '|' ∉ piece)
    (hname : nameOf piece = .ok name) : TypeName.IsPlain name := by
  unfold nameOf at hname
  dsimp only at hname
  split at hname
  · cases hname
  · next hnonempty =>
    split at hname
    · cases hname
    · next hmarkless =>
      split at hname
      · cases hname
      · next hletters =>
        cases hname
        rw [Bool.not_eq_true, List.any_eq_false] at hletters
        refine ⟨?_, ?_, ?_⟩
        · rw [String.toList_ofList]
          exact fun hnil ↦ hnonempty (List.isEmpty_iff.mpr hnil)
        · rw [String.toList_ofList]
          exact Bool.eq_false_iff.mpr hmarkless
        · intro c hmem
          rw [String.toList_ofList] at hmem
          have hletter := hletters c hmem
          simp only [Bool.or_eq_true, beq_iff_eq, not_or, Bool.not_eq_true] at hletter
          exact ⟨hletter.1, fun heq ↦ hbar (heq ▸ (trim_sublist piece).subset hmem), hletter.2⟩

theorem nameOf_toList {name : String} (hplain : TypeName.IsPlain name) :
    nameOf name.toList = .ok name := by
  have htrim : trim name.toList = name.toList :=
    trim_eq_self fun c hmem ↦ (hplain.letters c hmem).2.2
  have hletters : (name.toList.any fun c ↦ c == ',' || isBlank c) = false := by
    rw [List.any_eq_false]
    intro c hmem
    obtain ⟨hcomma, -, hblank⟩ := hplain.letters c hmem
    simp [hcomma, hblank]
  have hnonempty : name.toList.isEmpty = false := by simpa using hplain.nonempty
  simp only [nameOf, htrim, hnonempty, hplain.markless, hletters, String.ofList_toList]
  rfl

/-! ### Slots -/

/-- The pieces of a text between bars are read one by one, and each name that they give counts
once. -/
theorem map_names_alternativesOf (text : List Char) :
    (alternativesOf text).map Alternatives.names =
      ((text.splitOn '|').mapM nameOf).map (addNames []) := by
  conv_rhs => rw [← List.cons_head_tail (List.splitOn_ne_nil '|' text), List.mapM_cons]
  unfold alternativesOf
  dsimp only
  cases nameOf ((text.splitOn '|').head (List.splitOn_ne_nil '|' text)) with
  | error fault => rfl
  | ok name =>
    change (List.mapM nameOf (text.splitOn '|').tail >>= _).map _ =
      (List.mapM nameOf (text.splitOn '|').tail >>= _).map _
    cases (text.splitOn '|').tail.mapM nameOf <;> rfl

theorem alternativesOf_eq_ok_iff {text : List Char} {alternatives : Alternatives} :
    alternativesOf text = .ok alternatives ↔
      ∃ names, (text.splitOn '|').mapM nameOf = .ok names ∧
        addNames [] names = alternatives.names := by
  rw [← map_eq_ok_iff, ← map_names_alternativesOf, map_eq_ok_iff]
  constructor
  · intro hread
    exact ⟨alternatives, hread, rfl⟩
  · rintro ⟨other, hread, hnames⟩
    rw [hread, Alternatives.ext hnames]

/-- What is read of a slot depends on what its text holds without blanks around it. -/
theorem slotOf_eq_ok_iff_exists {piece : List Char} {slot : Slot} :
    slotOf piece = .ok slot ↔ trim piece ≠ [] ∧
      ∃ text, unmarked (trim piece) = .ok (text, slot.repeated) ∧
        alternativesOf text = .ok slot.alternatives := by
  unfold slotOf
  dsimp only
  by_cases hempty : trim piece = []
  · rw [if_pos (List.isEmpty_iff.mpr hempty)]
    exact iff_of_false nofun fun hsome ↦ hsome.1 hempty
  · rw [if_neg fun hblank ↦ hempty (List.isEmpty_iff.mp hblank), and_iff_right hempty]
    simp only [bind_eq_ok_iff]
    constructor
    · rintro ⟨⟨text, repeated⟩, hunmarked, alternatives, hread, hpure⟩
      cases hpure
      exact ⟨text, hunmarked, hread⟩
    · rintro ⟨text, hunmarked, hread⟩
      exact ⟨(text, slot.repeated), hunmarked, slot.alternatives, hread, rfl⟩

theorem isNormal_of_slotOf {piece : List Char} {slot : Slot} (hslot : slotOf piece = .ok slot) :
    slot.alternatives.IsNormal := by
  obtain ⟨-, text, -, hread⟩ := slotOf_eq_ok_iff_exists.mp hslot
  obtain ⟨names, hnames, hadded⟩ := alternativesOf_eq_ok_iff.mp hread
  refine ⟨hadded ▸ nodup_addNames List.nodup_nil, fun name hmem ↦ ?_⟩
  rw [← hadded] at hmem
  have hname : name ∈ names := (mem_addNames.mp hmem).resolve_left List.not_mem_nil
  obtain ⟨piece, hpiece, hread⟩ := exists_mem_of_mem_mapM hnames hname
  exact isPlain_of_nameOf (not_mem_of_mem_splitOn hpiece) hread

/-- The names of normal alternatives, joined by bars, hold no mark, no comma and no blank, and are
taken apart into the names again. -/
theorem joined_of_isNormal {alternatives : Alternatives} (hnormal : alternatives.IsNormal) :
    alternatives.text.toList ≠ [] ∧ holdsMark alternatives.text.toList = false ∧
      (∀ c ∈ alternatives.text.toList, c ≠ ',' ∧ isBlank c = false) ∧
      alternatives.text.toList.splitOn '|' = alternatives.names.map String.toList := by
  have hjoined : alternatives.text.toList =
      ['|'].intercalate (alternatives.names.map String.toList) := String.toList_intercalate
  have hpieces : ∀ piece ∈ alternatives.names.map String.toList,
      ∃ name ∈ alternatives.names, TypeName.IsPlain name ∧ name.toList = piece := by
    intro piece hmem
    obtain ⟨name, hname, hpiece⟩ := List.mem_map.mp hmem
    exact ⟨name, hname, hnormal.plain name hname, hpiece⟩
  have hsome : alternatives.names.map String.toList ≠ [] := by
    simpa using alternatives.nonempty
  rw [hjoined]
  refine ⟨intercalate_ne_nil hsome ?_, holdsMark_intercalate (by decide) ?_, ?_,
    List.splitOn_intercalate '|' ?_ hsome⟩
  · intro piece hmem
    obtain ⟨name, -, hplain, rfl⟩ := hpieces piece hmem
    exact hplain.nonempty
  · intro piece hmem
    obtain ⟨name, -, hplain, rfl⟩ := hpieces piece hmem
    exact hplain.markless
  · intro c hmem
    rcases eq_or_exists_of_mem_intercalate hmem with rfl | ⟨piece, hpiece, hc⟩
    · exact ⟨by decide, by decide⟩
    · obtain ⟨name, -, hplain, rfl⟩ := hpieces piece hpiece
      obtain ⟨hcomma, -, hblank⟩ := hplain.letters c hc
      exact ⟨hcomma, hblank⟩
  · intro piece hmem hbar
    obtain ⟨name, -, hplain, rfl⟩ := hpieces piece hmem
    exact (hplain.letters '|' hbar).2.1 rfl

@[simp] theorem toList_slotText (slot : Slot) :
    slot.text.toList =
      slot.alternatives.text.toList ++ if slot.repeated then ['.', '.', '.'] else [] := by
  unfold Slot.text
  cases slot.repeated with
  | true => exact String.toList_append
  | false => exact (List.append_nil _).symm

/-- A written normal slot is not empty and holds no comma and no blank. -/
theorem slotText_of_isNormal {slot : Slot} (hnormal : slot.alternatives.IsNormal) :
    slot.text.toList ≠ [] ∧ ∀ c ∈ slot.text.toList, c ≠ ',' ∧ isBlank c = false := by
  obtain ⟨hnonempty, -, hletters, -⟩ := joined_of_isNormal hnormal
  rw [toList_slotText]
  refine ⟨fun hnil ↦ hnonempty (List.append_eq_nil_iff.mp hnil).1, fun c hmem ↦ ?_⟩
  rcases List.mem_append.mp hmem with hname | hmark
  · exact hletters c hname
  · have hdot : c = '.' := by
      cases hrepeated : slot.repeated <;> simp_all
    rw [hdot]
    exact ⟨by decide, by decide⟩

/-- Reading a written normal slot gives the slot. -/
theorem slotOf_text {slot : Slot} (hnormal : slot.alternatives.IsNormal) :
    slotOf slot.text.toList = .ok slot := by
  obtain ⟨hnonempty, hmarkless, hletters, hsplit⟩ := joined_of_isNormal hnormal
  obtain ⟨htext, hplain⟩ := slotText_of_isNormal hnormal
  have hbody : trim slot.text.toList = slot.text.toList :=
    trim_eq_self fun c hmem ↦ (hplain c hmem).2
  have hmark : unmarked slot.text.toList =
      .ok (slot.alternatives.text.toList, slot.repeated) := by
    rw [toList_slotText]
    cases slot.repeated with
    | true => exact unmarked_append_mark hnonempty hmarkless fun c hmem ↦ (hletters c hmem).2
    | false =>
      rw [if_neg Bool.false_ne_true, List.append_nil]
      exact unmarked_eq_self hmarkless
  have hnames : (slot.alternatives.names.map String.toList).mapM nameOf =
      .ok slot.alternatives.names := by
    rw [mapM_eq_ok_iff, List.forall₂_map_left_iff, List.forall₂_same]
    exact fun name hmem ↦ nameOf_toList (hnormal.plain name hmem)
  have hadded : addNames [] slot.alternatives.names = slot.alternatives.names :=
    addNames_eq_append hnormal.nodup
  -- Each step of reading the slot gives back what the written form was made of.
  rw [slotOf_eq_ok_iff_exists, hbody]
  refine ⟨htext, slot.alternatives.text.toList, hmark, alternativesOf_eq_ok_iff.mpr ?_⟩
  rw [hsplit]
  exact ⟨slot.alternatives.names, hnames, hadded⟩

/-! ### Signatures -/

theorem eq_of_slots_eq {first second : Signature} (hslots : first.slots = second.slots) :
    first = second := by
  have hfirst : ofSlots? first.slots = some first := (ofSlots?_eq_some_iff _ _).mpr rfl
  have hsecond : ofSlots? first.slots = some second := (ofSlots?_eq_some_iff _ _).mpr hslots.symm
  exact Option.some.inj (hfirst.symm.trans hsecond)

/-- Pieces are read as the signature whose slots they hold. -/
@[simp] theorem ofPieces_eq_ok_iff {pieces : List (List Char)} {signature : Signature} :
    ofPieces pieces = .ok signature ↔ pieces.mapM slotOf = .ok signature.slots := by
  unfold ofPieces
  rw [bind_eq_ok_iff]
  constructor
  · rintro ⟨slots, hslots, hrest⟩
    cases hsignature : ofSlots? slots with
    | none =>
      rw [hsignature] at hrest
      exact nomatch hrest
    | some found =>
      rw [hsignature] at hrest
      rw [← Except.ok.inj hrest, hslots, (ofSlots?_eq_some_iff slots found).mp hsignature]
  · intro hslots
    refine ⟨signature.slots, hslots, ?_⟩
    rw [(ofSlots?_eq_some_iff _ signature).mpr rfl]
    rfl

@[simp] theorem faulty_eq_ok_iff {α : Type} {text : String} {read : Except Fault α} {result : α} :
    faulty text read = .ok result ↔ read = .ok result := by
  cases read <;> simp [faulty]

theorem faulty_eq_error {α : Type} {text : String} {read : Except Fault α} {failure : Failure}
    (herror : faulty text read = .error failure) :
    ∃ fault : Fault, failure = .malformedSignature text fault.message := by
  cases read with
  | ok result => exact nomatch herror
  | error fault => exact ⟨fault, (Except.error.inj herror).symm⟩

theorem parse_of_allBlank {text : String} (hblank : AllBlank text.toList) :
    parse text = .ok ⟨[], none⟩ :=
  if_pos (List.isEmpty_iff.mpr ((trim_eq_nil_iff _).mpr hblank))

theorem parse_of_not_allBlank {text : String} (hsome : ¬ AllBlank text.toList) :
    parse text = faulty text (ofPieces (text.toList.splitOn ',')) :=
  if_neg fun hempty ↦ hsome ((trim_eq_nil_iff _).mp (List.isEmpty_iff.mp hempty))

theorem isNormal_of_ofPieces {pieces : List (List Char)} {signature : Signature}
    (hread : ofPieces pieces = .ok signature) : signature.IsNormal := by
  intro slot hmem
  obtain ⟨piece, -, hslot⟩ := exists_mem_of_mem_mapM (ofPieces_eq_ok_iff.mp hread) hmem
  exact isNormal_of_slotOf hslot

/-- Every signature that is read from a text is normal. -/
theorem isNormal_of_parse {text : String} {signature : Signature}
    (hparse : parse text = .ok signature) : signature.IsNormal := by
  by_cases hblank : AllBlank text.toList
  · rw [parse_of_allBlank hblank] at hparse
    cases hparse
    exact fun slot hmem ↦ absurd hmem List.not_mem_nil
  · rw [parse_of_not_allBlank hblank] at hparse
    exact isNormal_of_ofPieces (faulty_eq_ok_iff.mp hparse)

theorem isNormal_of_ofSlotTexts {texts : List String} {signature : Signature}
    (hread : ofSlotTexts texts = .ok signature) : signature.IsNormal :=
  isNormal_of_ofPieces (faulty_eq_ok_iff.mp hread)

/-- The written form of a normal signature with slots is not empty, holds no blank, and is taken
apart into the written slots again. -/
theorem key_of_isNormal {signature : Signature} (hnormal : signature.IsNormal)
    (hslots : signature.slots ≠ []) :
    signature.key.toList ≠ [] ∧ (∀ c ∈ signature.key.toList, isBlank c = false) ∧
      signature.key.toList.splitOn ',' = signature.slots.map fun slot ↦ slot.text.toList := by
  have hkey : signature.key.toList =
      [','].intercalate (signature.slots.map fun slot ↦ slot.text.toList) := by
    rw [key, String.toList_intercalate, List.map_map]
    rfl
  have hpieces : ∀ piece ∈ signature.slots.map fun slot ↦ slot.text.toList,
      piece ≠ [] ∧ ∀ c ∈ piece, c ≠ ',' ∧ isBlank c = false := by
    intro piece hmem
    obtain ⟨slot, hslot, rfl⟩ := List.mem_map.mp hmem
    exact slotText_of_isNormal (hnormal slot hslot)
  have hsome : signature.slots.map (fun slot ↦ slot.text.toList) ≠ [] := by simpa using hslots
  rw [hkey]
  refine ⟨intercalate_ne_nil hsome fun piece hmem ↦ (hpieces piece hmem).1, fun c hmem ↦ ?_,
    List.splitOn_intercalate ',' (fun piece hmem hcomma ↦ ?_) hsome⟩
  · rcases eq_or_exists_of_mem_intercalate hmem with rfl | ⟨piece, hpiece, hc⟩
    · decide
    · exact ((hpieces piece hpiece).2 c hc).2
  · exact ((hpieces piece hmem).2 ',' hcomma).1 rfl

/-- The written form of a normal signature is read as this signature. -/
theorem parse_key {signature : Signature} (hnormal : signature.IsNormal) :
    parse signature.key = .ok signature := by
  by_cases hslots : signature.slots = []
  · have hnone : signature = ⟨[], none⟩ := eq_of_slots_eq hslots
    rw [hnone]
    rfl
  · obtain ⟨hnonempty, hplain, hsplit⟩ := key_of_isNormal hnormal hslots
    have hsome : ¬ AllBlank signature.key.toList := by
      rw [← trim_eq_nil_iff, trim_eq_self hplain]
      exact hnonempty
    rw [parse_of_not_allBlank hsome, faulty_eq_ok_iff, ofPieces_eq_ok_iff, hsplit,
      mapM_eq_ok_iff, List.forall₂_map_left_iff, List.forall₂_same]
    exact fun slot hmem ↦ slotOf_text (hnormal slot hmem)

/-- A normal form is the written form of the signature that was read. -/
theorem normalForm_eq_ok_iff {text key : String} :
    normalForm text = .ok key ↔ ∃ signature, parse text = .ok signature ∧ signature.key = key :=
  map_eq_ok_iff

/-- A text that cannot be read has a fault, which the failure quotes with the text. -/
theorem parse_eq_error {text : String} {failure : Failure} (herror : parse text = .error failure) :
    ∃ fault : Fault, failure = .malformedSignature text fault.message := by
  by_cases hblank : AllBlank text.toList
  · rw [parse_of_allBlank hblank] at herror
    exact nomatch herror
  · rw [parse_of_not_allBlank hblank] at herror
    exact faulty_eq_error herror

theorem normalForm_eq_error {text : String} {failure : Failure}
    (herror : normalForm text = .error failure) :
    ∃ fault : Fault, failure = .malformedSignature text fault.message :=
  parse_eq_error (map_eq_error_iff.mp herror)

/-- The signature of a text can be read from the normal form of the text. -/
theorem parse_eq_of_normalForm {text key : String} (hform : normalForm text = .ok key) :
    parse key = parse text := by
  obtain ⟨signature, hparse, rfl⟩ := normalForm_eq_ok_iff.mp hform
  rw [parse_key (isNormal_of_parse hparse), hparse]

/-- A normal form is its own normal form. -/
theorem normalForm_key {text key : String} (hform : normalForm text = .ok key) :
    normalForm key = .ok key := by
  rw [← hform, normalForm, normalForm, parse_eq_of_normalForm hform]

end Signature

end Multimethod
