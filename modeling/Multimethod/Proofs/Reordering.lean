import Multimethod.Proofs.Fallback
import Multimethod.Proofs.Pieces

/-!
# Duplicates among written alternatives

Two implementations clash when a pattern belongs to the signatures of both (`Offer.Clashes`). An
engine that ignores no type refuses entries as duplicates exactly if two of them clash
(`Engine.exists_build_eq_duplicate_iff`), and this does not depend on how the entries are written
(`Engine.build_normalized`). In normal form there are two ways to clash: offers for one key have
different implementations (`NormalOffers.clashes_iff_of_eq`), or offers for different keys have
clauses with a common key (`NormalOffers.clashes_iff_of_ne`).

Signatures share a pattern if each two slots of single arguments share a type and the repeated slots
are the same (`Signature.overlaps_iff`). So the order of alternatives does not matter in the slots
of single arguments, which are taken apart, but it does in a repeated slot, which stays whole.
-/

set_option autoImplicit false
set_option relaxedAutoImplicit false

namespace Multimethod

/-! ### Signatures with a common pattern -/

namespace Signature

/-- Each two slots of single arguments share a type, and the repeated slots are the same. -/
def Overlaps (first second : Signature) : Prop :=
  List.Forall₂ (fun slot other : Alternatives ↦ ∃ name ∈ slot.names, name ∈ other.names)
    first.fixed second.fixed ∧ first.rest = second.rest

/-- Signatures overlap exactly if they have a pattern in common. -/
theorem overlaps_iff (first second : Signature) :
    first.Overlaps second ↔ ∃ pattern, pattern ∈ first.patterns ∧ pattern ∈ second.patterns := by
  rw [Overlaps, ← exists_forall₂_iff]
  simp only [← mem_choices_iff]
  constructor
  · rintro ⟨⟨names, hfirst, hsecond⟩, hrest⟩
    refine ⟨⟨names, first.rest⟩, List.mem_map_of_mem hfirst, ?_⟩
    rw [hrest]
    exact List.mem_map_of_mem hsecond
  · rintro ⟨pattern, hfirst, hsecond⟩
    obtain ⟨names, hnames, rfl⟩ := List.mem_map.mp hfirst
    obtain ⟨others, hothers, hsame⟩ := List.mem_map.mp hsecond
    obtain ⟨rfl, hrest⟩ := Pattern.mk.inj hsame
    exact ⟨⟨others, hnames, hothers⟩, hrest.symm⟩

/-- A signature overlaps itself, because every slot allows a type. -/
@[simp] theorem overlaps_self (signature : Signature) : signature.Overlaps signature := by
  refine ⟨List.forall₂_same.mpr fun slot _ ↦ ?_, rfl⟩
  obtain ⟨name, hname⟩ := List.exists_mem_of_ne_nil _ slot.nonempty
  exact ⟨name, hname, hname⟩

/-- Signatures have the same slots, up to the order of the alternatives in each. -/
def Reorders (first second : Signature) : Prop :=
  List.Forall₂ (fun slot other : Alternatives ↦ ∀ name, name ∈ slot.names ↔ name ∈ other.names)
      first.fixed second.fixed ∧
    Option.Rel (fun slot other : Alternatives ↦ ∀ name, name ∈ slot.names ↔ name ∈ other.names)
      first.rest second.rest

/-- Reordered signatures overlap exactly if their repeated slots, if there are any, list the
alternatives in one order. -/
theorem Reorders.overlaps_iff_rest_eq {first second : Signature}
    (hreorders : first.Reorders second) : first.Overlaps second ↔ first.rest = second.rest := by
  refine ⟨And.right, fun hrest ↦ ⟨hreorders.1.imp fun slot other hnames ↦ ?_, hrest⟩⟩
  obtain ⟨name, hname⟩ := List.exists_mem_of_ne_nil _ slot.nonempty
  exact ⟨name, hname, (hnames name).mp hname⟩

end Signature

/-! ### Entries in normal form -/

/-- Offers that can be read are collected like their normal forms. -/
theorem foldlM_addEntry_normalized {offers : List Offer} (hread : Readable offers)
    (table : MethodTable) :
    (offers.filterMap Offer.normalized?).foldlM Source.addEntry table =
      offers.foldlM Source.addEntry table := by
  induction offers generalizing table with
  | nil => rfl
  | cons offer offers ih =>
    obtain ⟨⟨key, hkey⟩, hlater⟩ := List.forall_mem_cons.mp hread
    rw [List.filterMap_cons_some (Offer.normalized?_of_ok hkey), List.foldlM_cons, List.foldlM_cons,
      addEntry_of_ok table hkey, addEntry_of_ok table (Signature.normalForm_key hkey)]
    congr 1
    funext changed
    exact ih hlater changed

/-- What is built from entries does not depend on how their signatures are written. -/
theorem Engine.build_normalized (engine : Engine) (name : Option String) {offers : List Offer}
    (hread : Readable offers) :
    engine.build name [.entries (offers.filterMap Offer.normalized?)] =
      engine.build name [.entries offers] := by
  have hcollect : [Source.entries (offers.filterMap Offer.normalized?)].foldlM Source.addTo .empty =
      [Source.entries offers].foldlM Source.addTo .empty := by
    rw [List.foldlM_cons, List.foldlM_cons, Source.addTo, Source.addTo,
      foldlM_addEntry_normalized hread]
  rw [build, build, hcollect]
  rfl

/-! ### Entries that clash -/

/-- A pattern belongs to the signatures of both offers, and they do not offer one implementation for
one signature. -/
def Offer.Clashes (first second : Offer) : Prop :=
  ∃ signature other, Signature.parse first.1 = .ok signature ∧
    Signature.parse second.1 = .ok other ∧ signature.Overlaps other ∧
      (signature = other → first.2.identity ≠ second.2.identity)

/-- Whether offers clash can be seen from their signatures. -/
theorem Offer.clashes_iff {first second : Offer} {signature other : Signature}
    (hfirst : Signature.parse first.1 = .ok signature)
    (hsecond : Signature.parse second.1 = .ok other) :
    first.Clashes second ↔
      signature.Overlaps other ∧ (signature = other → first.2.identity ≠ second.2.identity) := by
  constructor
  · rintro ⟨found, last, hfound, hlast, hclash⟩
    rwa [Except.ok.inj (hfirst.symm.trans hfound), Except.ok.inj (hsecond.symm.trans hlast)]
  · intro hclash
    exact ⟨signature, other, hfirst, hsecond, hclash⟩

/-- Offers have no key in common exactly if their signatures do not overlap. -/
theorem disjoint_clauseKeys_iff {first second : Offer} {signature other : Signature}
    (hfirst : Signature.parse first.1 = .ok signature)
    (hsecond : Signature.parse second.1 = .ok other) :
    List.Disjoint (clauseKeys first.clauses) (clauseKeys second.clauses) ↔
      ¬ signature.Overlaps other := by
  rw [Offer.clauseKeys_clauses hfirst, Offer.clauseKeys_clauses hsecond, Signature.overlaps_iff]
  constructor
  · rintro hdisjoint ⟨pattern, hpattern, hother⟩
    exact hdisjoint (List.mem_map_of_mem hpattern) (List.mem_map_of_mem hother)
  · intro hnone key hkey hotherKey
    obtain ⟨pattern, hpattern, rfl⟩ := List.mem_map.mp hkey
    obtain ⟨found, hfound, hsame⟩ := List.mem_map.mp hotherKey
    have hnormal := Pattern.isNormal_of_mem_patterns (Signature.isNormal_of_parse hfirst) hpattern
    have hfoundNormal :=
      Pattern.isNormal_of_mem_patterns (Signature.isNormal_of_parse hsecond) hfound
    rw [Pattern.eq_of_key_eq hfoundNormal hnormal hsame] at hfound
    exact hnone ⟨pattern, hpattern, hfound⟩

namespace NormalOffers

variable {offers : List Offer} (hnormal : NormalOffers offers) {first second : Offer}
include hnormal

theorem exists_parse {offer : Offer} (hmem : offer ∈ offers) :
    ∃ signature, Signature.parse offer.1 = .ok signature ∧ signature.key = offer.1 :=
  Signature.normalForm_eq_ok_iff.mp (hnormal offer hmem)

/-- Offers for one key clash exactly if they have different implementations. -/
theorem clashes_iff_of_eq (hfirst : first ∈ offers) (hkey : first.1 = second.1) :
    first.Clashes second ↔ first.2.identity ≠ second.2.identity := by
  obtain ⟨signature, hparse, -⟩ := hnormal.exists_parse hfirst
  rw [Offer.clashes_iff hparse (hkey ▸ hparse)]
  exact ⟨fun ⟨_, hdiffer⟩ ↦ hdiffer rfl, fun hdiffer ↦ ⟨signature.overlaps_self, fun _ ↦ hdiffer⟩⟩

/-- Offers for different keys clash exactly if their clauses have a key in common. -/
theorem clashes_iff_of_ne (hfirst : first ∈ offers) (hsecond : second ∈ offers)
    (hne : first.1 ≠ second.1) :
    first.Clashes second ↔
      ¬ List.Disjoint (clauseKeys first.clauses) (clauseKeys second.clauses) := by
  obtain ⟨signature, hparse, hkey⟩ := hnormal.exists_parse hfirst
  obtain ⟨other, hother, hotherKey⟩ := hnormal.exists_parse hsecond
  rw [Offer.clashes_iff hparse hother, disjoint_clauseKeys_iff hparse hother, not_not,
    and_iff_left]
  intro hsame
  refine absurd ?_ hne
  rw [← hkey, ← hotherKey, hsame]

/-- What is kept for the key of an offer has the keys of the offer. -/
theorem exists_collected_clauseKeys (hfirst : first ∈ offers) :
    ∃ kept ∈ collected offers, kept.1 = first.1 ∧
      clauseKeys kept.clauses = clauseKeys first.clauses := by
  obtain ⟨signature, hparse, -⟩ := hnormal.exists_parse hfirst
  obtain ⟨kept, hkept, hkey⟩ := exists_collected_of_mem hnormal hfirst
  refine ⟨kept, hkept, hkey, ?_⟩
  rw [Offer.clauseKeys_clauses hparse, Offer.clauseKeys_clauses (hkey ▸ hparse)]

/-- The clauses of what is kept have different keys exactly if offers for different keys have no key
in common. -/
theorem nodup_clauseKeys_collected_iff :
    (clauseKeys ((collected offers).flatMap Offer.clauses)).Nodup ↔
      ∀ first ∈ offers, ∀ second ∈ offers, first.1 ≠ second.1 →
        List.Disjoint (clauseKeys first.clauses) (clauseKeys second.clauses) := by
  have hkeys : clauseKeys ((collected offers).flatMap Offer.clauses) =
      (collected offers).flatMap fun offer ↦ clauseKeys offer.clauses := by
    rw [clauseKeys, List.map_flatMap]
    rfl
  rw [hkeys, List.nodup_flatMap]
  constructor
  · rintro ⟨-, hdisjoint⟩ first hfirst second hsecond hne
    obtain ⟨kept, hkept, hkeptKey, hkeptKeys⟩ := hnormal.exists_collected_clauseKeys hfirst
    obtain ⟨last, hlast, hlastKey, hlastKeys⟩ := hnormal.exists_collected_clauseKeys hsecond
    have hsymm : Std.Symm (Function.onFun List.Disjoint fun offer : Offer ↦
        clauseKeys offer.clauses) :=
      ⟨fun _ _ hdisjoint _ hsecond hfirst ↦ hdisjoint hfirst hsecond⟩
    rw [← hkeptKeys, ← hlastKeys]
    apply hdisjoint.forall hkept hlast
    rintro rfl
    exact hne (hkeptKey.symm.trans hlastKey)
  · intro hdisjoint
    constructor
    · intro offer hmem
      obtain ⟨signature, hparse, -⟩ := hnormal.exists_parse (mem_of_mem_collected hnormal hmem)
      rw [Offer.clauses, Method.parse, hparse]
      exact Method.nodup_clauseKeys (Signature.isNormal_of_parse hparse)
    · refine (List.pairwise_map.mp (nodup_offerKeys_collected offers)).imp_of_mem ?_
      intro first second hfirst hsecond hne
      exact hdisjoint first (mem_of_mem_collected hnormal hfirst) second
        (mem_of_mem_collected hnormal hsecond) hne

/-- No offers clash exactly if all offers for one key have one implementation and the clauses of
what is kept have different keys. -/
theorem forall_not_clashes_iff :
    (∀ first ∈ offers, ∀ second ∈ offers, ¬ first.Clashes second) ↔
      Agree offers ∧ (clauseKeys ((collected offers).flatMap Offer.clauses)).Nodup := by
  rw [hnormal.nodup_clauseKeys_collected_iff]
  constructor
  · intro hnone
    constructor
    · intro first hfirst second hsecond hkey
      by_contra hdiffer
      exact hnone first hfirst second hsecond ((hnormal.clashes_iff_of_eq hfirst hkey).mpr hdiffer)
    · intro first hfirst second hsecond hne
      by_contra hshared
      exact hnone first hfirst second hsecond
        ((hnormal.clashes_iff_of_ne hfirst hsecond hne).mpr hshared)
  · rintro ⟨hagree, hdisjoint⟩ first hfirst second hsecond hclashes
    by_cases hkey : first.1 = second.1
    · exact (hnormal.clashes_iff_of_eq hfirst hkey).mp hclashes
        (hagree first hfirst second hsecond hkey)
    · exact (hnormal.clashes_iff_of_ne hfirst hsecond hkey).mp hclashes
        (hdisjoint first hfirst second hsecond hkey)

end NormalOffers

/-- Whether offers clash does not depend on how their signatures are written. -/
theorem Offer.clashes_normalized_iff {first second normal other : Offer}
    (hfirst : normalized? first = some normal) (hsecond : normalized? second = some other) :
    normal.Clashes other ↔ first.Clashes second := by
  have hsame : ∀ {offer written : Offer}, normalized? offer = some written →
      Signature.parse written.1 = Signature.parse offer.1 ∧ written.2 = offer.2 := by
    intro offer written hwritten
    refine ⟨Signature.parse_eq_of_normalForm (normalForm_of_normalized? hwritten), ?_⟩
    obtain ⟨key, -, rfl⟩ := Option.map_eq_some_iff.mp hwritten
    rfl
  rw [Clashes, Clashes, (hsame hfirst).1, (hsame hfirst).2, (hsame hsecond).1, (hsame hsecond).2]

/-- Offers that can be read clash exactly if their normal forms do. -/
theorem exists_clashes_normalized_iff {offers : List Offer} (hread : Readable offers) :
    (∃ first ∈ offers.filterMap Offer.normalized?, ∃ second ∈ offers.filterMap Offer.normalized?,
        first.Clashes second) ↔
      ∃ first ∈ offers, ∃ second ∈ offers, first.Clashes second := by
  have hsome : ∀ offer ∈ offers, ∃ normal, Offer.normalized? offer = some normal := by
    intro offer hmem
    obtain ⟨key, hkey⟩ := hread offer hmem
    exact ⟨_, Offer.normalized?_of_ok hkey⟩
  simp only [List.mem_filterMap]
  constructor
  · rintro ⟨normal, ⟨first, hfirst, hnormal⟩, other, ⟨second, hsecond, hother⟩, hclash⟩
    exact ⟨first, hfirst, second, hsecond, (Offer.clashes_normalized_iff hnormal hother).mp hclash⟩
  · rintro ⟨first, hfirst, second, hsecond, hclash⟩
    obtain ⟨normal, hnormal⟩ := hsome first hfirst
    obtain ⟨other, hother⟩ := hsome second hsecond
    exact ⟨normal, ⟨first, hfirst, hnormal⟩, other, ⟨second, hsecond, hother⟩,
      (Offer.clashes_normalized_iff hnormal hother).mpr hclash⟩

namespace Engine

variable {engine : Engine}

/-- Entries in normal form that offer different implementations for one key are refused as
duplicates. -/
theorem exists_build_eq_duplicate_of_not_agree (hengine : engine.Reachable) (name : Option String)
    {offers : List Offer} (hnormal : NormalOffers offers) (hdisagree : ¬ Agree offers) :
    ∃ key, engine.build name [.entries offers] = .error (.duplicateSignature key) := by
  have hoffers : [Source.entries offers].flatMap Source.offers = offers :=
    List.flatMap_singleton _ _
  have hrefused : ¬ ∀ failure, ¬ FirstRefusal offers failure := by
    rwa [← acceptable_iff, acceptable_iff_agree hnormal]
  push Not at hrefused
  obtain ⟨failure, hrefusal⟩ := hrefused
  have hbuild := build_of_firstRefusal hengine (normalSources_entries offers)
    (allEqual_givenNames_nil name) (hoffers.symm ▸ hrefusal)
  -- The first refused offer can be read, so its key is taken.
  obtain ⟨before, offer, after, rfl, -, hrefuses⟩ := hrefusal
  cases hrefuses with
  | malformed hform =>
    have hnormalForm := hnormal offer (List.mem_append_right _ List.mem_cons_self)
    cases hnormalForm.symm.trans hform
  | taken _ _ _ => exact ⟨_, hbuild⟩

/-- Entries in normal form are refused as duplicates exactly if two of them clash. -/
theorem exists_build_eq_duplicate_of_normal (hengine : engine.Reachable)
    (hignored : engine.ignored = []) (name : Option String) {offers : List Offer}
    (hnormal : NormalOffers offers) :
    (∃ key, engine.build name [.entries offers] = .error (.duplicateSignature key)) ↔
      ∃ first ∈ offers, ∃ second ∈ offers, first.Clashes second := by
  have hoffers : [Source.entries offers].flatMap Source.offers = offers :=
    List.flatMap_singleton _ _
  have hkeys : engine.keysLeft [.entries offers] =
      clauseKeys ((collected offers).flatMap Offer.clauses) := by
    rw [keysLeft, hignored, collect, hoffers, expansion_nil, MethodTable.methods_ofOffers]
  have hclash := not_congr hnormal.forall_not_clashes_iff
  push Not at hclash
  rw [hclash]
  by_cases hagree : Agree offers
  · have haccept : Acceptable ([Source.entries offers].flatMap Source.offers) := by
      rw [hoffers]
      exact (acceptable_iff_agree hnormal).mpr hagree
    rw [exists_build_eq_duplicateSignature_iff hengine (normalSources_entries offers)
      (allEqual_givenNames_nil name) haccept, hkeys]
    exact ⟨fun hrepeats _ ↦ hrepeats, fun hrepeats ↦ hrepeats hagree⟩
  · refine iff_of_true ?_ fun htrue ↦ absurd htrue hagree
    exact exists_build_eq_duplicate_of_not_agree hengine name hnormal hagree

/-- Entries that can be read are refused as duplicates exactly if two of them clash. -/
theorem exists_build_eq_duplicate_iff (hengine : engine.Reachable)
    (hignored : engine.ignored = []) (name : Option String) {offers : List Offer}
    (hread : Readable offers) :
    (∃ key, engine.build name [.entries offers] = .error (.duplicateSignature key)) ↔
      ∃ first ∈ offers, ∃ second ∈ offers, first.Clashes second := by
  rw [← build_normalized engine name hread, exists_build_eq_duplicate_of_normal hengine hignored
    name (Offer.normalOffers_normalized offers), exists_clashes_normalized_iff hread]

end Engine

/-! ### Reordered alternatives -/

/-- Entries that can be read are refused as duplicates exactly if two of them clash. Entries whose
signatures differ only in the order of alternatives, with different implementations, clash exactly
if their repeated slots list the alternatives in one order, so they are refused if they have no
repeated slots. -/
theorem duplicates_up_to_order (engine : Engine) (hengine : engine.Reachable)
    (hignored : engine.ignored = []) (name : Option String)
    (entries : List (String × Implementation))
    (hread : ∀ entry ∈ entries, ∃ signature, Signature.parse entry.1 = .ok signature) :
    ((∃ key, engine.build name [.entries entries] = .error (.duplicateSignature key)) ↔
      ∃ first ∈ entries, ∃ second ∈ entries, Offer.Clashes first second) ∧
    ∀ first ∈ entries, ∀ second ∈ entries, ∀ signature other,
      Signature.parse first.1 = .ok signature → Signature.parse second.1 = .ok other →
      signature.Reorders other → first.2.identity ≠ second.2.identity →
        (Offer.Clashes first second ↔ signature.rest = other.rest) ∧
        (signature.rest = other.rest →
          ∃ key, engine.build name [.entries entries] = .error (.duplicateSignature key)) := by
  have hreadable : Readable entries := by
    intro entry hmem
    obtain ⟨signature, hparse⟩ := hread entry hmem
    exact ⟨_, Signature.normalForm_eq_ok_iff.mpr ⟨signature, hparse, rfl⟩⟩
  have hduplicate := engine.exists_build_eq_duplicate_iff hengine hignored name hreadable
  refine ⟨hduplicate, fun first hfirst second hsecond signature other hparse hother hreorders
    hdiffer ↦ ?_⟩
  have hclashes : Offer.Clashes first second ↔ signature.rest = other.rest := by
    rw [Offer.clashes_iff hparse hother, hreorders.overlaps_iff_rest_eq, and_iff_left]
    exact fun _ ↦ hdiffer
  exact ⟨hclashes, fun hrest ↦
    hduplicate.mpr ⟨first, hfirst, second, hsecond, hclashes.mpr hrest⟩⟩

/-- Two entries for the same types, whose first slots list them in different orders. -/
def reorderedSingle : List (String × Implementation) :=
  [("number|string,boolean...", labelled 0 "first"),
    ("string|number,boolean...", labelled 1 "second")]

/-- The entries are refused, because the slots in question are those of single arguments. -/
theorem duplicates_up_to_order_single :
    ∃ key, Engine.standard.build none [.entries reorderedSingle] =
      .error (.duplicateSignature key) := by
  have hfirst : Signature.parse "number|string,boolean..." =
      .ok ⟨[.mk ["number", "string"]], some (.single "boolean")⟩ := rfl
  have hsecond : Signature.parse "string|number,boolean..." =
      .ok ⟨[.mk ["string", "number"]], some (.single "boolean")⟩ := rfl
  have hread : ∀ entry ∈ reorderedSingle, ∃ signature, Signature.parse entry.1 = .ok signature := by
    simp only [reorderedSingle, List.forall_mem_cons]
    exact ⟨⟨_, hfirst⟩, ⟨_, hsecond⟩, List.forall_mem_nil _⟩
  have hreorders : Signature.Reorders ⟨[.mk ["number", "string"]], some (.single "boolean")⟩
      ⟨[.mk ["string", "number"]], some (.single "boolean")⟩ :=
    ⟨.cons (fun name ↦ (List.Perm.swap _ _ _).mem_iff) .nil, .some fun _ ↦ Iff.rfl⟩
  exact ((duplicates_up_to_order .standard .standard rfl none reorderedSingle hread).2 _
    List.mem_cons_self _ (List.mem_cons_of_mem _ List.mem_cons_self) _ _ hfirst hsecond hreorders
    (by decide)).2 rfl

/-- Two entries for values of the same types, whose repeated slots list them in different orders. -/
def reorderedRepeated : List (String × Implementation) :=
  [("number|string...", labelled 0 "first"), ("string|number...", labelled 1 "second")]

/-- The repeated slots of these entries, with their clauses. -/
def reorderedSlots : List (Alternatives × Clause) :=
  [(.mk ["number", "string"], ⟨⟨[], some (.mk ["number", "string"])⟩, labelled 0 "first"⟩),
    (.mk ["string", "number"], ⟨⟨[], some (.mk ["string", "number"])⟩, labelled 1 "second"⟩)]

/-- Without conversions it does not matter in which order two alternatives are listed. -/
theorem take?_swap (types : TypeTable) (first second : String) :
    Alternatives.take? types [] (.mk [first, second]) =
      Alternatives.take? types [] (.mk [second, first]) := by
  funext value
  simp only [Alternatives.take?, List.any_cons, List.any_nil, Bool.or_comm]
  rfl

theorem exists_build_reorderedRepeated :
    ∃ routine, Routine.ofTree .standard .empty ⟨[(.atLeast 1, .remainder reorderedSlots)]⟩ =
        .ok routine ∧
      ∃ methods, Engine.standard.build none [.entries reorderedRepeated] =
        .ok ⟨none, methods, routine, none⟩ := by
  have hclauses : reorderedRepeated.flatMap Offer.clauses = reorderedSlots.map Prod.snd := rfl
  have hread : Readable reorderedRepeated := by
    simp only [Readable, reorderedRepeated, List.forall_mem_cons]
    exact ⟨⟨_, rfl⟩, ⟨_, rfl⟩, List.forall_mem_nil _⟩
  have hdistinct : (clauseKeys (reorderedRepeated.flatMap Offer.clauses)).Nodup := by
    rw [hclauses]
    decide
  have htree : Tree.ofClauses (reorderedSlots.map Prod.snd) =
      .ok ⟨[(.atLeast 1, .remainder reorderedSlots)]⟩ := rfl
  obtain ⟨routine, hroutine⟩ : ∃ routine, Routine.ofTree .standard .empty
      ⟨[(.atLeast 1, .remainder reorderedSlots)]⟩ = .ok routine := ⟨_, rfl⟩
  rw [← hclauses] at htree
  exact ⟨routine, hroutine, _, (@Engine.build_entries_eq_ok_iff .standard rfl none _
    (nodup_normalForms hread hdistinct) _).mpr
      ⟨allEqual_givenNames_nil none, hread, hdistinct, _, routine, htree, hroutine, rfl⟩⟩

/-- The first of the two slots takes every argument that the second one takes, and comes first. -/
theorem implementation_of_reorderedSlots {arguments : List Value} {route : Selection}
    (hroute : (Tree.routes .standard .empty ⟨[(.atLeast 1, .remainder reorderedSlots)]⟩
      arguments).head? = some route) :
    route.clause.implementation = labelled 0 "first" := by
  cases arguments with
  | nil => cases hroute
  | cons value values =>
    have hroutes : Tree.routes .standard .empty ⟨[(.atLeast 1, .remainder reorderedSlots)]⟩
        (value :: values) = reorderedSlots.filterMap fun slot ↦
          ((value :: values).mapM (Alternatives.take? .standard [] slot.1)).map
            fun items ↦ ⟨slot.2, [.array items]⟩ := by
      have haccepts : (Arity.atLeast 1).accepts (value :: values).length = true := by
        simp [Arity.accepts]
      simp only [Tree.routes, List.filter_cons, haccepts, if_true, List.filter_nil,
        List.flatMap_singleton, Node.routes]
      rfl
    rw [hroutes, reorderedSlots, List.filterMap_cons, List.filterMap_cons, List.filterMap_nil,
      take?_swap .standard "string" "number"] at hroute
    cases hitems : (value :: values).mapM
        (Alternatives.take? .standard [] (.mk ["number", "string"])) with
    | none =>
      rw [hitems] at hroute
      cases hroute
    | some items =>
      rw [hitems] at hroute
      rw [← Option.some.inj hroute]

/-- The entries differ only in the order of the alternatives of their slots, but they are accepted,
and no call is ever answered by the second. -/
theorem accepts_reordered_repeated :
    (∃ signature other, Signature.parse "number|string..." = .ok signature ∧
      Signature.parse "string|number..." = .ok other ∧ signature.Reorders other) ∧
    ∃ dispatcher, Engine.standard.build none [.entries reorderedRepeated] = .ok dispatcher ∧
      ∀ arguments passed,
        dispatcher.call arguments ≠ .ok (.array (.string "second" :: passed)) := by
  refine ⟨⟨⟨[], some (.mk ["number", "string"])⟩, ⟨[], some (.mk ["string", "number"])⟩, rfl, rfl,
    .nil, .some fun name ↦ (List.Perm.swap _ _ _).mem_iff⟩, ?_⟩
  obtain ⟨routine, hroutine, methods, hbuild⟩ := exists_build_reorderedRepeated
  refine ⟨_, hbuild, fun arguments passed hcall ↦ ?_⟩
  rw [Dispatcher.call, run_eq_head?_routes hroutine] at hcall
  cases hroute : (Tree.routes .standard .empty ⟨[(.atLeast 1, .remainder reorderedSlots)]⟩
      arguments).head? with
  | none =>
    rw [hroute] at hcall
    cases hcall
  | some route =>
    rw [hroute] at hcall
    change route.clause.implementation.run route.arguments = _ at hcall
    rw [implementation_of_reorderedSlots hroute] at hcall
    have hlabel := Value.array.inj (Except.ok.inj hcall)
    exact absurd (Value.string.inj (List.cons.inj hlabel).1) (by decide)

end Multimethod
