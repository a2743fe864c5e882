import Multimethod.Proofs.Grammar

/-!
# Signatures given slot by slot

`Signature.ofSlotTexts` reads a list of slot texts, `Signature.parse` one text, which it splits at
its commas. Joining slot texts by commas and reading the result is the same as reading the slots,
with two exceptions.

A comma inside a slot text would split the slot in two. No slot that can be read holds a comma
(`comma_not_mem_of_ofSlotTexts`), so such a list is refused. And a text of blanks is the signature
without slots, while a list of one blank slot has a slot that is empty. Everywhere else the joined
text is not blank (`not_allBlank_intercalate`) and splits into the slots again, so both readers see
the same pieces and find the same fault first (`ofSlotTexts_agrees_with_parse`).
-/

set_option autoImplicit false
set_option relaxedAutoImplicit false

namespace Multimethod.Signature

open Text

/-- A list of slots that cannot be read has a fault, and the failure quotes the joined text. -/
theorem ofSlotTexts_eq_error {texts : List String} {failure : Failure}
    (herror : ofSlotTexts texts = .error failure) :
    ∃ fault : Fault, failure = .malformedSignature (",".intercalate texts) fault.message :=
  faulty_eq_error herror

/-- A blank piece is an empty slot. -/
theorem slotOf_of_allBlank {piece : List Char} (hblank : AllBlank piece) :
    slotOf piece = .error .emptySlot :=
  if_pos (List.isEmpty_iff.mpr ((trim_eq_nil_iff piece).mpr hblank))

/-- No slot text that can be read holds a comma. -/
theorem comma_not_mem_of_ofSlotTexts {texts : List String} {signature : Signature}
    (hread : ofSlotTexts texts = .ok signature) {text : String} (hmem : text ∈ texts) :
    ',' ∉ text.toList := by
  have hslots := ofPieces_eq_ok_iff.mp (faulty_eq_ok_iff.mp hread)
  obtain ⟨slot, hslot⟩ := exists_ok_of_mem_mapM hslots (List.mem_map_of_mem hmem)
  exact (slotOf_eq_ok_iff.mp hslot).comma_not_mem

/-- Joined slot texts are not blank, unless there is none or a single blank one. -/
theorem not_allBlank_intercalate {texts : List String} (hsome : texts ≠ [])
    (hsingle : ∀ text, texts = [text] → ¬ AllBlank text.toList) :
    ¬ AllBlank (",".intercalate texts).toList := by
  match texts with
  | [] => exact absurd rfl hsome
  | [text] =>
    rw [String.intercalate_singleton]
    exact hsingle text rfl
  | first :: second :: others =>
    have hcomma : ',' ∈ (",".intercalate (first :: second :: others)).toList := by
      rw [String.toList_intercalate, List.map_cons,
        List.intercalate_cons_of_ne_nil (by simp), List.mem_append, List.mem_append]
      exact Or.inl (Or.inr (List.mem_singleton_self _))
    exact fun hblank ↦ nomatch hblank ',' hcomma

/-- Joined slot texts without commas split into the slot texts again. -/
theorem splitOn_intercalate {texts : List String} (hsome : texts ≠ [])
    (hcommas : ∀ text ∈ texts, ',' ∉ text.toList) :
    (",".intercalate texts).toList.splitOn ',' = texts.map String.toList := by
  rw [String.toList_intercalate]
  refine List.splitOn_intercalate ',' ?_ (by simpa using hsome)
  rw [List.forall_mem_map]
  exact hcommas

/-- Slots that are given one by one are read like their texts with commas between them. Two kinds of
lists are excepted: if a slot text holds a comma, the list cannot be read, and if there is one slot
and its text is blank, the list cannot be read although the text is the signature without slots.
Every other list is read as the signature of the joined text, or has the fault that the joined text
has. -/
theorem ofSlotTexts_agrees_with_parse (texts : List String) :
    ((∃ text ∈ texts, ',' ∈ text.toList) →
      ∃ fault : Fault, ofSlotTexts texts =
        .error (.malformedSignature (",".intercalate texts) fault.message)) ∧
    (∀ text, texts = [text] → AllBlank text.toList →
      ofSlotTexts texts =
        .error (.malformedSignature (",".intercalate texts) Fault.emptySlot.message) ∧
      parse (",".intercalate texts) = .ok ⟨[], none⟩) ∧
    ((∀ text ∈ texts, ',' ∉ text.toList) →
      (∀ text, texts = [text] → ¬ AllBlank text.toList) →
      ofSlotTexts texts = parse (",".intercalate texts) ∧
      ∀ failure, ofSlotTexts texts = .error failure →
        ∃ fault : Fault, failure =
          .malformedSignature (",".intercalate texts) fault.message) := by
  refine ⟨?_, ?_, fun hcommas hsingle ↦ ⟨?_, fun failure ↦ ofSlotTexts_eq_error⟩⟩
  · rintro ⟨text, hmem, hcomma⟩
    cases hread : ofSlotTexts texts with
    | ok signature => exact absurd hcomma (comma_not_mem_of_ofSlotTexts hread hmem)
    | error failure =>
      obtain ⟨fault, rfl⟩ := ofSlotTexts_eq_error hread
      exact ⟨fault, rfl⟩
  · rintro text rfl hblank
    rw [String.intercalate_singleton]
    refine ⟨?_, parse_of_allBlank hblank⟩
    rw [ofSlotTexts, String.intercalate_singleton, List.map_singleton, ofPieces, List.mapM_cons,
      slotOf_of_allBlank hblank]
    rfl
  · by_cases hsome : texts = []
    · rw [hsome]
      rfl
    · rw [parse_of_not_allBlank (not_allBlank_intercalate hsome hsingle),
        splitOn_intercalate hsome hcommas, ofSlotTexts]

/-- A comma in a slot text is refused where the joined text is not, and so is a single blank slot.
Both readers say the same of a repeated slot that is not the last, and of slots that can be read. -/
theorem ofSlotTexts_agrees_with_parse_misplaced :
    (∃ fault : Fault, ofSlotTexts ["number", "string,null"] =
      .error (.malformedSignature "number,string,null" fault.message)) ∧
    parse "number,string,null" = .ok ⟨[.single "number", .single "string", .single "null"], none⟩ ∧
    ofSlotTexts [" "] = .error (.malformedSignature " " "empty parameter") ∧
    parse " " = .ok ⟨[], none⟩ ∧
    ofSlotTexts ["... number", " string "] = parse "... number, string " ∧
    parse "... number, string " = .error (.malformedSignature "... number, string "
      "variadic parameter must be the last parameter") ∧
    ofSlotTexts [" number | string", "....."] = 
      .ok ⟨[.mk ["number", "string"]], some (.single "..")⟩ := by
  have hcomma := (ofSlotTexts_agrees_with_parse ["number", "string,null"]).1
  have hblank := (ofSlotTexts_agrees_with_parse [" "]).2.1 " " rfl
  have hmisplaced := (ofSlotTexts_agrees_with_parse ["... number", " string "]).2.2
  have hdots := (ofSlotTexts_agrees_with_parse [" number | string", "....."]).2.2
  have hspace : AllBlank " ".toList := List.forall_mem_singleton.mpr rfl
  refine ⟨hcomma ⟨"string,null", by simp, by decide⟩, rfl, (hblank hspace).1, (hblank hspace).2,
    (hmisplaced (by decide) (by simp)).1, rfl, ?_⟩
  rw [(hdots (by decide) (by simp)).1]
  rfl

end Multimethod.Signature
