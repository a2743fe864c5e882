import Multimethod.Proofs.Collecting

/-!
# Offers under normal forms

A multimethod that is merged offers its methods under their keys, which are normal forms already. Of
such offers the first one for each key is kept as it is. So collecting twice is collecting once
(`collected_collected`), and offers that were collected group by group are collected as if there
were no groups (`collected_flatMap_collected`).

No offer under a normal form is malformed, and one is refused exactly if another implementation was
offered for its key. Which of the two came first does not matter: offers are acceptable exactly if
all offers for one key have one implementation (`acceptable_iff_agree`).
-/

set_option autoImplicit false
set_option relaxedAutoImplicit false

namespace Multimethod

/-- Every offer is made under a normal form. -/
def NormalOffers (offers : List Offer) : Prop :=
  ∀ offer ∈ offers, Signature.normalForm offer.1 = .ok offer.1

/-- All offers for one key have one implementation. -/
def Agree (offers : List Offer) : Prop :=
  ∀ first ∈ offers, ∀ second ∈ offers, first.1 = second.1 →
    first.2.identity = second.2.identity

@[simp] theorem normalOffers_append_iff (before after : List Offer) :
    NormalOffers (before ++ after) ↔ NormalOffers before ∧ NormalOffers after :=
  List.forall_mem_append

theorem normalOffers_flatMap {α : Type} {parts : List α} {offers : α → List Offer}
    (hnormal : ∀ part ∈ parts, NormalOffers (offers part)) :
    NormalOffers (parts.flatMap offers) := by
  intro offer hmem
  obtain ⟨part, hpart, hoffer⟩ := List.mem_flatMap.mp hmem
  exact hnormal part hpart offer hoffer

@[simp] theorem normalOffers_collected (offers : List Offer) : NormalOffers (collected offers) :=
  isNormal_collected offers

theorem Agree.mono {offers more : List Offer} (hagree : Agree more)
    (hsubset : ∀ offer ∈ offers, offer ∈ more) : Agree offers := by
  intro first hfirst second hsecond
  exact hagree first (hsubset first hfirst) second (hsubset second hsecond)

/-! ### The keys that are kept -/

/-- One more offer under a normal form is kept if its key is new. -/
theorem collected_concat {before : List Offer} {offer : Offer}
    (hoffer : Signature.normalForm offer.1 = .ok offer.1) :
    collected (before ++ [offer]) =
      if offer.1 ∈ offerKeys (collected before) then collected before
      else collected before ++ [offer] := by
  rw [collected_concat_of_ok hoffer]
  cases hlookup : (collected before).lookup offer.1 with
  | none =>
    have hnew : offer.1 ∉ offerKeys (collected before) := lookup_eq_none_iff_not_mem.mp hlookup
    rw [if_neg hnew]
  | some known =>
    have hmem : offer.1 ∈ offerKeys (collected before) := by
      by_contra hnot
      exact nomatch hlookup.symm.trans (lookup_eq_none_iff_not_mem.mpr hnot)
    rw [if_pos hmem]

theorem mem_offerKeys_collected_iff {offers : List Offer} (hnormal : NormalOffers offers)
    (key : String) : key ∈ offerKeys (collected offers) ↔ key ∈ offerKeys offers := by
  induction offers using List.reverseRecOn with
  | nil => rfl
  | append_singleton before offer ih =>
    obtain ⟨hbefore, hoffer⟩ := (normalOffers_append_iff before [offer]).mp hnormal
    have hkeys : key ∈ offerKeys (before ++ [offer]) ↔
        key ∈ offerKeys before ∨ key = offer.1 := by
      simp [offerKeys]
    rw [collected_concat (hoffer offer (List.mem_singleton_self offer)), hkeys, ← ih hbefore]
    split_ifs with htaken
    · constructor
      · exact Or.inl
      · rintro (hold | rfl)
        · exact hold
        · exact htaken
    · simp [offerKeys]

/-- Offers under normal forms are kept as they are if no key is offered twice. -/
theorem collected_eq_self {offers : List Offer} (hnormal : NormalOffers offers)
    (hnodup : (offerKeys offers).Nodup) : collected offers = offers := by
  induction offers using List.reverseRecOn with
  | nil => rfl
  | append_singleton before offer ih =>
    obtain ⟨hbefore, hoffer⟩ := (normalOffers_append_iff before [offer]).mp hnormal
    obtain ⟨hnodup, hnew⟩ := nodup_map_concat_iff.mp hnodup
    have hkept : offer.1 ∉ offerKeys (collected before) := by
      rw [mem_offerKeys_collected_iff hbefore]
      exact hnew
    rw [collected_concat (hoffer offer (List.mem_singleton_self offer)), if_neg hkept,
      ih hbefore hnodup]

/-- What was collected is collected as it is. -/
@[simp] theorem collected_collected (offers : List Offer) :
    collected (collected offers) = collected offers :=
  collected_eq_self (normalOffers_collected offers) (nodup_offerKeys_collected offers)

theorem mem_of_mem_collected {offers : List Offer} (hnormal : NormalOffers offers) {offer : Offer}
    (hmem : offer ∈ collected offers) : offer ∈ offers := by
  obtain ⟨found, hfound, hform, himplementation⟩ := exists_offer_of_mem_collected hmem
  have hkey : found.1 = offer.1 := Except.ok.inj ((hnormal found hfound).symm.trans hform)
  rw [← Prod.ext hkey himplementation]
  exact hfound

theorem mem_of_lookup_collected {offers : List Offer} (hnormal : NormalOffers offers) {key : String}
    {known : Implementation} (hlookup : (collected offers).lookup key = some known) :
    (key, known) ∈ offers := by
  obtain ⟨start, rest, hsplit, -⟩ := List.lookup_eq_some_iff.mp hlookup
  refine mem_of_mem_collected hnormal ?_
  rw [hsplit]
  exact List.mem_append_right _ List.mem_cons_self

theorem exists_collected_of_mem {offers : List Offer} (hnormal : NormalOffers offers)
    {offer : Offer} (hmem : offer ∈ offers) : ∃ kept ∈ collected offers, kept.1 = offer.1 := by
  have hkey : offer.1 ∈ offerKeys (collected offers) :=
    (mem_offerKeys_collected_iff hnormal offer.1).mpr (List.mem_map_of_mem hmem)
  obtain ⟨kept, hkept, heq⟩ := List.mem_map.mp hkey
  exact ⟨kept, hkept, heq⟩

/-! ### Collecting in groups -/

/-- Offers for keys that were offered before change nothing. -/
theorem collected_append_of_subset {before after : List Offer}
    (hnormal : NormalOffers (before ++ after))
    (hsubset : ∀ key ∈ offerKeys after, key ∈ offerKeys before) :
    collected (before ++ after) = collected before := by
  induction after using List.reverseRecOn with
  | nil => rw [List.append_nil]
  | append_singleton middle offer ih =>
    rw [← List.append_assoc] at hnormal ⊢
    obtain ⟨hearlier, hoffer⟩ := (normalOffers_append_iff _ _).mp hnormal
    rw [offerKeys, List.map_append, List.forall_mem_append] at hsubset
    have hkept : offer.1 ∈ offerKeys (collected (before ++ middle)) := by
      rw [mem_offerKeys_collected_iff hearlier, offerKeys, List.map_append]
      exact List.mem_append_left _ (hsubset.2 offer.1 (List.mem_singleton_self _))
    rw [collected_concat (hoffer offer (List.mem_singleton_self offer)), if_pos hkept]
    exact ih hearlier hsubset.1

/-- Offers that come last may be collected before. -/
theorem collected_append_collected {before after : List Offer}
    (hnormal : NormalOffers (before ++ after)) :
    collected (before ++ collected after) = collected (before ++ after) := by
  induction after using List.reverseRecOn with
  | nil => rfl
  | append_singleton middle offer ih =>
    rw [← List.append_assoc] at hnormal
    obtain ⟨hearlier, hoffer⟩ := (normalOffers_append_iff _ _).mp hnormal
    have hform := hoffer offer (List.mem_singleton_self offer)
    have hmiddle := ((normalOffers_append_iff before middle).mp hearlier).2
    rw [collected_concat hform, ← List.append_assoc]
    split_ifs with htaken
    · -- The key was offered in the middle, so the offer is dropped from the whole row as well.
      rw [collected_append_of_subset hnormal, ih hearlier]
      rw [mem_offerKeys_collected_iff hmiddle] at htaken
      rintro key hkey
      rw [List.mem_singleton.mp hkey, offerKeys, List.map_append]
      exact List.mem_append_right _ htaken
    · rw [← List.append_assoc, collected_concat hform, collected_concat hform, ih hearlier]

/-- Offers that come first may be collected before. -/
theorem collected_collected_append {before after : List Offer} (hnormal : NormalOffers after) :
    collected (collected before ++ after) = collected (before ++ after) := by
  induction after using List.reverseRecOn with
  | nil => rw [List.append_nil, List.append_nil, collected_collected]
  | append_singleton middle offer ih =>
    obtain ⟨hmiddle, hoffer⟩ := (normalOffers_append_iff _ _).mp hnormal
    have hform := hoffer offer (List.mem_singleton_self offer)
    rw [← List.append_assoc, ← List.append_assoc, collected_concat hform, collected_concat hform,
      ih hmiddle]

/-- Groups of offers may be collected one by one before they are collected together. -/
theorem collected_flatMap_collected {α : Type} {parts : List α} {offers : α → List Offer}
    (hnormal : ∀ part ∈ parts, NormalOffers (offers part)) :
    collected (parts.flatMap fun part ↦ collected (offers part)) =
      collected (parts.flatMap offers) := by
  induction parts with
  | nil => rfl
  | cons part parts ih =>
    obtain ⟨hpart, hparts⟩ := List.forall_mem_cons.mp hnormal
    have hlater := normalOffers_flatMap hparts
    have hlaterCollected : NormalOffers (parts.flatMap fun part ↦ collected (offers part)) :=
      normalOffers_flatMap fun other _ ↦ normalOffers_collected (offers other)
    rw [List.flatMap_cons, List.flatMap_cons, collected_collected_append hlaterCollected,
      ← collected_append_collected ((normalOffers_append_iff _ _).mpr ⟨hpart, hlaterCollected⟩),
      ih hparts,
      collected_append_collected ((normalOffers_append_iff _ _).mpr ⟨hpart, hlater⟩)]

/-! ### Acceptable offers -/

/-- After offers that agree, an offer under a normal form is refused exactly if another
implementation was offered for its key. -/
theorem forall_not_refuses_iff {before : List Offer} {offer : Offer}
    (hbefore : NormalOffers before) (hagree : Agree before)
    (hoffer : Signature.normalForm offer.1 = .ok offer.1) :
    (∀ failure, ¬ Refuses before offer failure) ↔
      ∀ earlier ∈ before, earlier.1 = offer.1 → earlier.2.identity = offer.2.identity := by
  constructor
  · intro hnone earlier hmem hkey
    by_contra hother
    obtain ⟨kept, hkept, hkeptKey⟩ := exists_collected_of_mem hbefore hmem
    cases hlookup : (collected before).lookup offer.1 with
    | none =>
      have hkeys : offer.1 ∈ offerKeys (collected before) :=
        List.mem_map.mpr ⟨kept, hkept, hkeptKey.trans hkey⟩
      exact lookup_eq_none_iff_not_mem.mp hlookup hkeys
    | some known =>
      -- The implementation that is kept is the earlier one, because the offers before agree.
      have hsame : known.identity = earlier.2.identity :=
        hagree _ (mem_of_lookup_collected hbefore hlookup) _ hmem hkey.symm
      exact hnone _ (.taken hoffer hlookup fun heq ↦ hother (hsame.symm.trans heq))
  · intro hsame failure hrefuses
    cases hrefuses with
    | malformed hform => exact nomatch hoffer.symm.trans hform
    | @taken key known hform hlookup hother =>
      have hkey : offer.1 = key := Except.ok.inj (hoffer.symm.trans hform)
      exact hother (hsame _ (mem_of_lookup_collected hbefore hlookup) hkey.symm)

/-- One more offer agrees with others if it agrees with each of them. -/
theorem agree_concat_iff (before : List Offer) (offer : Offer) :
    Agree (before ++ [offer]) ↔ Agree before ∧
      ∀ earlier ∈ before, earlier.1 = offer.1 → earlier.2.identity = offer.2.identity := by
  constructor
  · intro hagree
    refine ⟨hagree.mono fun _ ↦ List.mem_append_left _, fun earlier hmem ↦ ?_⟩
    exact hagree earlier (List.mem_append_left _ hmem) offer
      (List.mem_append_right _ (List.mem_singleton_self offer))
  · rintro ⟨hbefore, hoffer⟩ first hfirst second hsecond hkey
    rw [List.mem_append, List.mem_singleton] at hfirst hsecond
    rcases hfirst with hfirst | rfl <;> rcases hsecond with hsecond | rfl
    · exact hbefore first hfirst second hsecond hkey
    · exact hoffer first hfirst hkey
    · exact (hoffer second hsecond hkey.symm).symm
    · rfl

/-- Offers under normal forms are acceptable exactly if all offers for one key have one
implementation. -/
theorem acceptable_iff_agree {offers : List Offer} (hnormal : NormalOffers offers) :
    Acceptable offers ↔ Agree offers := by
  induction offers using List.reverseRecOn with
  | nil =>
    refine iff_of_true (fun before offer after hsplit ↦ ?_) nofun
    exact absurd hsplit (by simp)
  | append_singleton before offer ih =>
    obtain ⟨hbefore, hoffer⟩ := (normalOffers_append_iff _ _).mp hnormal
    rw [acceptable_concat_iff, agree_concat_iff, ih hbefore]
    exact and_congr_right fun hagree ↦
      forall_not_refuses_iff hbefore hagree (hoffer offer (List.mem_singleton_self offer))

/-- What is kept agrees, because no key is kept twice. -/
@[simp] theorem agree_collected (offers : List Offer) : Agree (collected offers) := by
  intro first hfirst second hsecond hkey
  have hsame : first = second :=
    List.inj_on_of_nodup_map (nodup_offerKeys_collected offers) hfirst hsecond hkey
  rw [hsame]

/-- Groups of offers that agree in themselves agree with each other exactly if what is kept of them
does. -/
theorem agree_flatMap_collected_iff {α : Type} {parts : List α} {offers : α → List Offer}
    (hnormal : ∀ part ∈ parts, NormalOffers (offers part))
    (hagree : ∀ part ∈ parts, Agree (offers part)) :
    Agree (parts.flatMap fun part ↦ collected (offers part)) ↔ Agree (parts.flatMap offers) := by
  constructor
  · intro hkept first hfirst second hsecond hkey
    -- Each offer is represented by the one that its group keeps for the key.
    have hrepresented : ∀ offer ∈ parts.flatMap offers,
        ∃ kept ∈ parts.flatMap fun part ↦ collected (offers part),
          kept.1 = offer.1 ∧ kept.2.identity = offer.2.identity := by
      intro offer hmem
      obtain ⟨part, hpart, hoffer⟩ := List.mem_flatMap.mp hmem
      obtain ⟨kept, hin, heq⟩ := exists_collected_of_mem (hnormal part hpart) hoffer
      refine ⟨kept, List.mem_flatMap.mpr ⟨part, hpart, hin⟩, heq, ?_⟩
      exact hagree part hpart _ (mem_of_mem_collected (hnormal part hpart) hin) _ hoffer heq
    obtain ⟨one, hone, hkeyOne, hidOne⟩ := hrepresented first hfirst
    obtain ⟨two, htwo, hkeyTwo, hidTwo⟩ := hrepresented second hsecond
    have hsame := hkept one hone two htwo (hkeyOne.trans (hkey.trans hkeyTwo.symm))
    exact hidOne.symm.trans (hsame.trans hidTwo)
  · intro hall
    refine hall.mono fun offer hmem ↦ ?_
    obtain ⟨part, hpart, hoffer⟩ := List.mem_flatMap.mp hmem
    exact List.mem_flatMap.mpr ⟨part, hpart, mem_of_mem_collected (hnormal part hpart) hoffer⟩

end Multimethod
