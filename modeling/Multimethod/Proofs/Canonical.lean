import Multimethod.Proofs.Collecting
import Multimethod.Proofs.Grammar

/-!
# Canonical rows of slots

A row of slots is canonical when no slot allows a name twice, every name is the wildcard or one that
a type can have, and only the last slot is repeated. A slot allows one or more names by its type
(`Alternatives.nonempty`). The check of
new types (`TypeName.fault?`) and the reader of signatures know nothing of each other, but they
accept the same names (`TypeName.isUsable_iff_isPlain`). So canonical rows are the rows that can be
read, and each of them is read back from its written form (`canonical_iff_read`).

What follows for a multimethod is stated there as well: the keys under which offers are collected
are read as the signatures that were offered, so expanding a method table never fails at a key.
-/

set_option autoImplicit false
set_option relaxedAutoImplicit false

namespace Multimethod

open Text

/-! ### Names -/

namespace TypeName

/-- The wildcard, or a name that a type can have. -/
def IsUsable (name : String) : Prop :=
  name = wildcard ∨ fault? name = none

/-- Some table takes a new type of this name. -/
def IsAccepted (name : String) : Prop :=
  ∃ (types changed : TypeTable) (type : ValueType) (beforeCatchAll : Bool),
    type.name = name ∧ types.add type beforeCatchAll = .ok changed

@[simp] theorem isPlain_wildcard : IsPlain wildcard := by
  refine ⟨by decide, by decide, fun c hmem ↦ ?_⟩
  have hstar : c = '*' := by simpa [wildcard] using hmem
  rw [hstar]
  decide

/-- A name has a fault exactly if it is the wildcard or not plain. -/
@[simp] theorem fault?_eq_none_iff (name : String) :
    fault? name = none ↔ name ≠ wildcard ∧ IsPlain name := by
  unfold fault?
  by_cases hwildcard : name = wildcard
  · simp [hwildcard]
  rw [if_neg hwildcard]
  by_cases hempty : name.isEmpty = true
  · rw [if_pos hempty]
    have hnil : name.toList = [] := by simpa using hempty
    constructor
    · intro hnone
      exact nomatch hnone
    · rintro ⟨-, hplain⟩
      exact absurd hnil hplain.nonempty
  rw [if_neg hempty]
  have hnonempty : name.toList ≠ [] := by simpa using hempty
  have hplain : IsPlain name ↔
      (name.toList.any (fun c ↦ c == ',' || c == '|' || isBlank c) ||
        holdsMark name.toList) = false := by
    rw [Bool.or_eq_false_iff, List.any_eq_false]
    constructor
    · intro hplain
      refine ⟨fun c hmem ↦ ?_, hplain.markless⟩
      obtain ⟨hcomma, hbar, hblank⟩ := hplain.letters c hmem
      simp [hcomma, hbar, hblank]
    · rintro ⟨hletters, hmarkless⟩
      refine ⟨hnonempty, hmarkless, fun c hmem ↦ ?_⟩
      simpa [and_assoc] using hletters c hmem
  rw [hplain, and_iff_right hwildcard]
  split_ifs with hmarkup
  · simp [hmarkup]
  · simp [hmarkup]

/-- The names that types can have, with the wildcard, are the names that slots can hold. -/
theorem isUsable_iff_isPlain (name : String) : IsUsable name ↔ IsPlain name := by
  rw [IsUsable, fault?_eq_none_iff]
  by_cases hwildcard : name = wildcard
  · rw [hwildcard]
    exact iff_of_true (Or.inl rfl) isPlain_wildcard
  · simp [hwildcard]

/-- A table takes a type only if its name has no fault, and the empty table takes every such
type. -/
theorem isAccepted_iff (name : String) : IsAccepted name ↔ fault? name = none := by
  constructor
  · rintro ⟨types, changed, type, beforeCatchAll, rfl, hadd⟩
    exact ((TypeTable.add_eq_ok_iff ..).mp hadd).1
  · intro hproper
    let type : ValueType := ⟨name, fun _ ↦ true, false⟩
    refine ⟨.empty, TypeTable.empty.insert type false List.not_mem_nil, type, false, rfl, ?_⟩
    exact (TypeTable.add_eq_ok_iff ..).mpr ⟨hproper, List.not_mem_nil, rfl⟩

end TypeName

/-! ### Rows -/

/-- Names that can be used, none of them twice. There is one or more, as in every slot. -/
structure Slot.IsCanonical (slot : Slot) : Prop where
  nodup : slot.alternatives.names.Nodup
  usable : ∀ name ∈ slot.alternatives.names, TypeName.IsUsable name

@[simp] theorem Slot.isCanonical_iff (slot : Slot) :
    slot.IsCanonical ↔ slot.alternatives.IsNormal := by
  constructor
  · rintro ⟨hnodup, husable⟩
    exact ⟨hnodup, fun name hmem ↦
      (TypeName.isUsable_iff_isPlain name).mp (husable name hmem)⟩
  · rintro ⟨hnodup, hplain⟩
    exact ⟨hnodup, fun name hmem ↦
      (TypeName.isUsable_iff_isPlain name).mpr (hplain name hmem)⟩

namespace Signature

/-- Canonical slots of which only the last may be repeated. -/
structure IsCanonicalRow (row : List Slot) : Prop where
  canonical : ∀ slot ∈ row, slot.IsCanonical
  single : ∀ slot ∈ row.dropLast, slot.repeated = false

/-- Canonical rows are the rows of normal signatures. -/
theorem isCanonicalRow_iff (row : List Slot) :
    IsCanonicalRow row ↔ ∃ signature : Signature, signature.slots = row ∧ signature.IsNormal := by
  constructor
  · rintro ⟨hcanonical, hsingle⟩
    obtain ⟨signature, rfl⟩ := (exists_slots_eq_iff row).mpr hsingle
    exact ⟨signature, rfl, fun slot hmem ↦ slot.isCanonical_iff.mp (hcanonical slot hmem)⟩
  · rintro ⟨signature, rfl, hnormal⟩
    exact ⟨fun slot hmem ↦ slot.isCanonical_iff.mpr (hnormal slot hmem),
      (exists_slots_eq_iff _).mp ⟨signature, rfl⟩⟩

/-- A canonical row is read back from its written form. -/
theorem IsCanonicalRow.exists_parse_key {row : List Slot} (hrow : IsCanonicalRow row) :
    ∃ signature, signature.slots = row ∧ parse signature.key = .ok signature := by
  obtain ⟨signature, hslots, hnormal⟩ := (isCanonicalRow_iff row).mp hrow
  exact ⟨signature, hslots, parse_key hnormal⟩

end Signature

/-! ### Keys of collected methods -/

/-- A method that was collected from sources is read from its key as the signature that one of the
sources offered for it. -/
theorem exists_offer_of_collected {sources : List Source} (hsources : NormalSources sources)
    {table : MethodTable} (hcollect : sources.foldlM Source.addTo MethodTable.empty = .ok table)
    {method : String × Implementation} (hmem : method ∈ table.methods) :
    ∃ offer ∈ sources.flatMap Source.offers, offer.2 = method.2 ∧ ∃ signature,
      Signature.parse offer.1 = .ok signature ∧
        Method.parse method.1 method.2 = .ok ⟨signature, method.2⟩ := by
  rw [foldlM_addTo_eq hsources, collect_eq_ok_iff] at hcollect
  obtain ⟨-, rfl⟩ := hcollect
  obtain ⟨offer, hoffer, hform, himplementation⟩ := exists_offer_of_mem_collected hmem
  obtain ⟨signature, hparse, -⟩ := Signature.normalForm_eq_ok_iff.mp hform
  have hkey : Signature.parse method.1 = .ok signature :=
    (Signature.parse_eq_of_normalForm hform).trans hparse
  refine ⟨offer, hoffer, himplementation, signature, hparse, ?_⟩
  rw [Method.parse, hkey]
  rfl

/-! ### Reading and writing -/

namespace Signature

/-- Reading gives canonical rows only, from a text and from the texts of single slots, and every
canonical row is read back from its written form. Therefore a normal form is its own normal form and
is read as the signature of the text; the methods that are collected from sources are read from
their keys as they were offered; and the names that type tables accept can be used in every slot,
repeated or not. -/
theorem canonical_iff_read :
    (∀ row, IsCanonicalRow row ↔ ∃ text signature, parse text = .ok signature ∧
      signature.slots = row) ∧
    (∀ texts signature, ofSlotTexts texts = .ok signature → IsCanonicalRow signature.slots) ∧
    (∀ row, IsCanonicalRow row → ∃ signature, signature.slots = row ∧
      parse signature.key = .ok signature) ∧
    (∀ text key, normalForm text = .ok key → normalForm key = .ok key ∧ ∃ signature,
      parse text = .ok signature ∧ parse key = .ok signature) ∧
    (∀ sources : List Source, (∀ merged, Source.dispatcher merged ∈ sources → merged.Built) →
      ∀ table, sources.foldlM Source.addTo MethodTable.empty = .ok table →
        ∀ method ∈ table.methods, ∃ offer ∈ sources.flatMap Source.offers, offer.2 = method.2 ∧
          ∃ signature, parse offer.1 = .ok signature ∧
            Method.parse method.1 method.2 = .ok ⟨signature, method.2⟩) ∧
    (∀ row : List Slot,
      (∀ slot ∈ row, slot.alternatives.names.Nodup ∧
        ∀ name ∈ slot.alternatives.names, name = wildcard ∨ TypeName.IsAccepted name) →
      (∀ slot ∈ row.dropLast, slot.repeated = false) →
        ∃ signature, signature.slots = row ∧ parse signature.key = .ok signature) := by
  refine ⟨fun row ↦ ⟨fun hrow ↦ ?_, ?_⟩, fun texts signature hread ↦ ?_,
    fun row hrow ↦ hrow.exists_parse_key, fun text key hform ↦ ⟨normalForm_key hform, ?_⟩,
    fun sources hmerged table hcollect method hmem ↦ ?_, fun row hslots hsingle ↦ ?_⟩
  · obtain ⟨signature, hrow, hparse⟩ := hrow.exists_parse_key
    exact ⟨signature.key, signature, hparse, hrow⟩
  · rintro ⟨text, signature, hparse, hrow⟩
    exact (isCanonicalRow_iff row).mpr ⟨signature, hrow, isNormal_of_parse hparse⟩
  · exact (isCanonicalRow_iff _).mpr ⟨signature, rfl, isNormal_of_ofSlotTexts hread⟩
  · obtain ⟨signature, hparse, -⟩ := normalForm_eq_ok_iff.mp hform
    exact ⟨signature, hparse, (parse_eq_of_normalForm hform).trans hparse⟩
  · exact exists_offer_of_collected (fun merged hsource ↦ (hmerged merged hsource).isNormal)
      hcollect hmem
  · have hcanonical : ∀ slot ∈ row, slot.IsCanonical := by
      intro slot hmem
      obtain ⟨hnodup, hnames⟩ := hslots slot hmem
      refine ⟨hnodup, fun name hname ↦ ?_⟩
      rw [TypeName.IsUsable, ← TypeName.isAccepted_iff]
      exact hnames name hname
    exact IsCanonicalRow.exists_parse_key ⟨hcanonical, hsingle⟩

/-- A row in which names begin and end in dots, next to a mark and next to each other. -/
def dottedRow : List Slot :=
  [⟨.mk [".", "*"], false⟩, ⟨.mk ["..", "a."], true⟩]

/-- An implementation that answers with nothing. -/
def silent : Implementation :=
  ⟨0, fun _ ↦ .ok .null⟩

/-- The mark stands before the names in the text and after them in the normal form, where it follows
a name that ends in a dot; both are read as the same row. The name of one dot can be repeated. -/
theorem canonical_iff_read_dotted :
    normalForm " . | * | .,... ..|a." = .ok ".|*,..|a...." ∧
    normalForm ".|*,..|a...." = .ok ".|*,..|a...." ∧
    IsCanonicalRow dottedRow ∧
    (∃ signature, signature.slots = dottedRow ∧ parse signature.key = .ok signature) ∧
    (∃ offer ∈ [(" . | * | .,... ..|a.", silent)], offer.2 = silent ∧
      ∃ signature, parse offer.1 = .ok signature ∧
        Method.parse ".|*,..|a...." silent = .ok ⟨signature, silent⟩) ∧
    TypeName.IsAccepted "." ∧
    (∃ signature, signature.slots = [⟨.single ".", true⟩] ∧
      parse signature.key = .ok signature) := by
  obtain ⟨-, hslotTexts, hcanonical, hform, hcollected, haccepted⟩ := canonical_iff_read
  have hnormal : normalForm " . | * | .,... ..|a." = .ok ".|*,..|a...." := rfl
  have hrow : IsCanonicalRow dottedRow :=
    hslotTexts [". | *", "...  .. | a."] ⟨[.mk [".", "*"]], some (.mk ["..", "a."])⟩ rfl
  have hdot : TypeName.IsAccepted "." := (TypeName.isAccepted_iff ".").mpr rfl
  refine ⟨hnormal, (hform _ _ hnormal).1, hrow, hcanonical _ hrow, ?_, hdot, ?_⟩
  · exact hcollected [.entries [(" . | * | .,... ..|a.", silent)]] (by simp)
      (.mk [(".|*,..|a....", silent)]) rfl (".|*,..|a....", silent) (List.mem_singleton_self _)
  · refine haccepted [⟨.single ".", true⟩] ?_ nofun
    intro slot hslot
    rw [List.mem_singleton.mp hslot]
    refine ⟨by decide, fun name hname ↦ Or.inr ?_⟩
    rw [List.mem_singleton.mp hname]
    exact hdot

end Signature

end Multimethod
