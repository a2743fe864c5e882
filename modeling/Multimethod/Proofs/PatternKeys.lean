import Multimethod.Proofs.Expansion
import Multimethod.Proofs.TreeContents

/-!
# The keys of patterns

A pattern is written like the signature that has one alternative in every slot of a single argument
(`key_signature`), and it is the only pattern of this signature (`patterns_signature`). So the key
of a normal pattern is read as this signature, and what was read determines the pattern: different
patterns have different keys, even where names begin and end in dots (`eq_of_key_eq`). The written
slots, with the fact whether the last of them is repeated, determine the pattern as well
(`key_eq_key_iff`).

`Clause.FromText` says that a clause is one of those of a text that can be read. These are exactly
the clauses with normal patterns (`fromText_iff`).
-/

set_option autoImplicit false
set_option relaxedAutoImplicit false

namespace Multimethod

/-! ### Slots of normal signatures -/

namespace Signature

theorem isNormal_iff (signature : Signature) :
    signature.IsNormal ↔
      ∀ alternatives ∈ signature.fixed ++ signature.rest.toList, alternatives.IsNormal := by
  rw [IsNormal, slots, List.forall_mem_append, List.forall_mem_append, List.forall_mem_map,
    List.forall_mem_map]

theorem IsNormal.of_mem_fixed {signature : Signature} (hnormal : signature.IsNormal)
    {alternatives : Alternatives} (hmem : alternatives ∈ signature.fixed) :
    alternatives.IsNormal :=
  signature.isNormal_iff.mp hnormal alternatives (List.mem_append_left _ hmem)

theorem IsNormal.of_mem_rest {signature : Signature} (hnormal : signature.IsNormal)
    {alternatives : Alternatives} (hmem : alternatives ∈ signature.rest) :
    alternatives.IsNormal :=
  signature.isNormal_iff.mp hnormal alternatives
    (List.mem_append_right _ (Option.mem_toList.mpr hmem))

end Signature

namespace Pattern

/-- The signature that has one alternative in every slot of a single argument. -/
def signature (pattern : Pattern) : Signature :=
  ⟨pattern.fixed.map .single, pattern.rest⟩

/-- A pattern of a signature as it is read. -/
structure IsNormal (pattern : Pattern) : Prop where
  fixed : ∀ name ∈ pattern.fixed, TypeName.IsPlain name
  rest : ∀ alternatives ∈ pattern.rest, alternatives.IsNormal

@[simp] theorem slotTexts_cons (name : String) (names : List String) (rest : Option Alternatives) :
    slotTexts ⟨name :: names, rest⟩ = name :: slotTexts ⟨names, rest⟩ :=
  rfl

/-! ### Patterns as signatures -/

theorem signature_injective : Function.Injective signature := by
  rintro ⟨names, rest⟩ ⟨others, last⟩ hsame
  obtain ⟨hnames, hrest⟩ := Signature.mk.inj hsame
  have hsingle : Function.Injective Alternatives.single :=
    fun _ _ hsame ↦ List.singleton_inj.mp (Alternatives.mk.inj hsame)
  rw [mk.injEq]
  exact ⟨hsingle.list_map hnames, hrest⟩

theorem slotTexts_signature (pattern : Pattern) :
    pattern.signature.slots.map Slot.text =
      pattern.fixed ++ pattern.rest.toList.map fun alternatives ↦
        alternatives.text ++ repetitionMark := by
  have hsingle : ∀ names : List String,
      names.map (fun name ↦ Slot.text ⟨.single name, false⟩) = names := by
    intro names
    refine (List.map_congr_left fun name _ ↦ ?_).trans (List.map_id names)
    show Alternatives.text (.single name) = name
    exact String.intercalate_singleton
  rw [Signature.slots, signature, List.map_append, List.map_map, List.map_map, List.map_map]
  exact congrArg₂ _ (hsingle pattern.fixed) rfl

/-- A pattern is written like its signature. -/
@[simp] theorem key_signature (pattern : Pattern) : pattern.signature.key = pattern.key := by
  rw [Signature.key, slotTexts_signature, key, slotTexts]
  cases pattern.rest with
  | none => rfl
  | some alternatives => exact intercalate_concat_append "," alternatives.text _ pattern.fixed

@[simp]
theorem choices_map_single (names : List String) : choices (names.map .single) = [names] := by
  induction names with
  | nil => rfl
  | cons name names ih =>
    rw [List.map_cons, choices, Alternatives.names_single, List.flatMap_singleton, ih,
      List.map_singleton]

/-- A pattern is the only one of its signature. -/
@[simp]
theorem patterns_signature (pattern : Pattern) : pattern.signature.patterns = [pattern] := by
  rw [Signature.patterns, signature, choices_map_single, List.map_singleton]

/-! ### Normal patterns -/

@[simp] theorem isNormal_single_iff (name : String) :
    Alternatives.IsNormal (.single name) ↔ TypeName.IsPlain name :=
  ⟨fun hnormal ↦ hnormal.plain name (List.mem_singleton_self name), fun hplain ↦
    ⟨List.nodup_singleton name, by simpa using hplain⟩⟩

/-- A pattern is normal if its signature is. -/
@[simp] theorem isNormal_signature_iff (pattern : Pattern) :
    pattern.signature.IsNormal ↔ pattern.IsNormal := by
  simp only [Signature.isNormal_iff, signature, List.forall_mem_append, List.forall_mem_map,
    isNormal_single_iff, Option.mem_toList]
  exact ⟨fun hnormal ↦ ⟨hnormal.1, hnormal.2⟩, fun hnormal ↦ ⟨hnormal.fixed, hnormal.rest⟩⟩

/-- The patterns of a normal signature are normal. -/
theorem isNormal_of_mem_patterns {given : Signature} (hnormal : given.IsNormal) {pattern : Pattern}
    (hpattern : pattern ∈ given.patterns) : pattern.IsNormal := by
  obtain ⟨names, hnames, rfl⟩ := List.mem_map.mp hpattern
  refine ⟨fun name hname ↦ ?_, fun _ hrest ↦ hnormal.of_mem_rest hrest⟩
  obtain ⟨alternatives, hslot, hmem⟩ := exists_of_mem_choices hnames hname
  exact (hnormal.of_mem_fixed hslot).plain name hmem

/-! ### What keys tell -/

/-- The key of a normal pattern is read as the signature of the pattern. -/
theorem parse_key {pattern : Pattern} (hnormal : pattern.IsNormal) :
    Signature.parse pattern.key = .ok pattern.signature := by
  rw [← key_signature]
  exact Signature.parse_key ((isNormal_signature_iff pattern).mpr hnormal)

/-- The key of a normal pattern is in normal form. -/
theorem normalForm_key {pattern : Pattern} (hnormal : pattern.IsNormal) :
    Signature.normalForm pattern.key = .ok pattern.key :=
  Signature.normalForm_eq_ok_iff.mpr ⟨_, parse_key hnormal, key_signature pattern⟩

/-- Normal patterns with one key are one. -/
theorem eq_of_key_eq {first second : Pattern} (hfirst : first.IsNormal) (hsecond : second.IsNormal)
    (hkey : first.key = second.key) : first = second := by
  have hread := parse_key hfirst
  rw [hkey, parse_key hsecond] at hread
  exact signature_injective (Except.ok.inj hread).symm

/-- Normal patterns have one key exactly if their written slots are the same and their last slots
are both repeated or both not. -/
theorem key_eq_key_iff {first second : Pattern} (hfirst : first.IsNormal)
    (hsecond : second.IsNormal) :
    first.key = second.key ↔
      first.slotTexts = second.slotTexts ∧ first.rest.isSome = second.rest.isSome := by
  constructor
  · intro hkey
    rw [eq_of_key_eq hfirst hsecond hkey]
    exact ⟨rfl, rfl⟩
  · rintro ⟨htexts, hrepeated⟩
    rw [key, key, htexts, hrepeated]

/-- A pattern is written in as many slots as its arity says. -/
@[simp] theorem length_slotTexts (pattern : Pattern) :
    pattern.slotTexts.length = pattern.arity.slotCount := by
  obtain ⟨fixed, rest⟩ := pattern
  cases rest with
  | none => exact congrArg List.length (List.append_nil fixed)
  | some alternatives => exact List.length_append

theorem slotCount_arity (pattern : Pattern) :
    pattern.arity.slotCount = pattern.fixed.length + pattern.rest.isSome.toNat := by
  obtain ⟨fixed, rest⟩ := pattern
  cases rest <;> rfl

end Pattern

/-- Different normal alternatives are written differently. -/
theorem Alternatives.eq_of_text_eq {first second : Alternatives} (hfirst : first.IsNormal)
    (hsecond : second.IsNormal) (htext : first.text = second.text) : first = second := by
  have hpieces := (Signature.joined_of_isNormal hfirst).2.2.2
  rw [htext, (Signature.joined_of_isNormal hsecond).2.2.2] at hpieces
  have htoList : Function.Injective String.toList := fun _ _ ↦ String.toList_inj.mp
  exact Alternatives.ext (htoList.list_map hpieces).symm

/-! ### Clauses of texts -/

theorem clauseKeys_eq_map (clauses : List Clause) :
    clauseKeys clauses = (clauses.map Clause.pattern).map Pattern.key := by
  rw [clauseKeys, List.map_map]
  rfl

/-- Clauses with normal patterns have different keys exactly if they have different patterns. -/
theorem nodup_clauseKeys_iff {clauses : List Clause}
    (hclauses : ∀ clause ∈ clauses, clause.pattern.IsNormal) :
    (clauseKeys clauses).Nodup ↔ (clauses.map Clause.pattern).Nodup := by
  rw [clauseKeys_eq_map]
  refine ⟨List.Nodup.of_map Pattern.key, List.Nodup.map_on ?_⟩
  rw [List.forall_mem_map]
  intro first hfirst
  rw [List.forall_mem_map]
  exact fun second hsecond ↦ Pattern.eq_of_key_eq (hclauses first hfirst) (hclauses second hsecond)

/-- The clause is one of those of a text that can be read. -/
def Clause.FromText (clause : Clause) : Prop :=
  ∃ text method, Method.parse text clause.implementation = .ok method ∧ clause ∈ method.clauses

@[simp] theorem Method.mem_clauses_iff (method : Method) (clause : Clause) :
    clause ∈ method.clauses ↔
      clause.pattern ∈ method.signature.patterns ∧
        clause.implementation = method.implementation := by
  rw [Method.clauses, List.mem_map]
  constructor
  · rintro ⟨pattern, hpattern, rfl⟩
    exact ⟨hpattern, rfl⟩
  · rintro ⟨hpattern, himplementation⟩
    exact ⟨clause.pattern, hpattern, by rw [← himplementation]⟩

/-- A text of a clause with a normal pattern is its key, and the clause is the only one of it. -/
theorem Method.parse_clause_key {clause : Clause} (hnormal : clause.pattern.IsNormal) :
    Method.parse clause.pattern.key clause.implementation =
      .ok ⟨clause.pattern.signature, clause.implementation⟩ := by
  rw [Method.parse, Pattern.parse_key hnormal]
  rfl

/-- The clauses of texts are those with normal patterns. -/
theorem Clause.fromText_iff (clause : Clause) : clause.FromText ↔ clause.pattern.IsNormal := by
  constructor
  · rintro ⟨text, method, hparse, hclause⟩
    obtain ⟨signature, hsignature, rfl⟩ := map_eq_ok_iff.mp hparse
    exact Pattern.isNormal_of_mem_patterns (Signature.isNormal_of_parse hsignature)
      ((Method.mem_clauses_iff _ clause).mp hclause).1
  · intro hnormal
    refine ⟨_, _, Method.parse_clause_key hnormal, (Method.mem_clauses_iff _ clause).mpr ⟨?_, rfl⟩⟩
    rw [Pattern.patterns_signature]
    exact List.mem_singleton_self _

end Multimethod
