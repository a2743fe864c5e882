import Multimethod.Engine.IndexedMethods
import Multimethod.Proofs.IndexInStep
import Multimethod.Proofs.Reordering

/-!
# What a multimethod finds

Methods with an index are in step with it by their type: no key is there twice, and the place of
each key is the one that a scan of the list finds. Inserting a method does to the list what it does
to a table (`follows_insert`), and so do entries and merged multimethods, one after the other
(`Follows.foldlM`): what sources leave is what they leave in the list alone
(`map_table_ofSources`).

A multimethod keeps, for each normal form, the first implementation that was offered for it
(`lookup_collected`), and its keys are the normal forms without repetitions
(`offerKeys_collected`). So it finds exactly what was offered (`Dispatcher.Finds`): spelling, types
that were ignored and the clauses into which methods were expanded make no difference
(`finds_what_was_offered`).
-/

set_option autoImplicit false
set_option relaxedAutoImplicit false

namespace Multimethod

namespace IndexedMethods

/-! ### Lookups -/

@[simp] theorem contains_eq (indexed : IndexedMethods) (key : String) :
    indexed.contains key = indexed.table.contains key := by
  rw [contains, MethodTable.contains, Bool.eq_iff_iff, List.contains_iff_mem]
  exact indexed.inStep.isSome_place?_iff key

theorem findSignature_eq {indexed : IndexedMethods} {dispatcher : Dispatcher}
    (htable : indexed.table = dispatcher.methods) (signature : String) :
    indexed.findSignature dispatcher.name signature = dispatcher.find signature := by
  have hfind : indexed.find? = dispatcher.methods.find? :=
    funext fun key ↦ htable ▸ indexed.find?_eq key
  unfold findSignature
  exact hfind ▸ rfl

/-! ### Methods one after the other -/

/-- A change of methods with an index does to the list what the change of a table does. -/
def Follows {α : Type} (change : IndexedMethods → α → Except Failure IndexedMethods)
    (plain : MethodTable → α → Except Failure MethodTable) : Prop :=
  ∀ indexed entry, (change indexed entry).map table = plain indexed.table entry

/-- Changes one after the other follow those of a table if each of them does. -/
theorem Follows.foldlM {α : Type} {change : IndexedMethods → α → Except Failure IndexedMethods}
    {plain : MethodTable → α → Except Failure MethodTable} (hfollows : Follows change plain) :
    Follows (fun indexed entries ↦ List.foldlM change indexed entries)
      (fun table entries ↦ List.foldlM plain table entries) := by
  intro indexed entries
  change (List.foldlM change indexed entries).map table = List.foldlM plain indexed.table entries
  induction entries generalizing indexed with
  | nil => rfl
  | cons entry entries ih =>
    rw [List.foldlM_cons, List.foldlM_cons, ← hfollows indexed entry]
    cases change indexed entry with
    | error failure => rfl
    | ok changed => exact ih changed

theorem follows_insert : Follows insert MethodTable.insert := by
  intro indexed method
  unfold insert
  split
  · next hfind =>
    rw [find?_eq] at hfind
    rw [MethodTable.insert_of_none hfind]
    rfl
  · next known hfind =>
    rw [find?_eq] at hfind
    rw [MethodTable.insert_of_some hfind]
    split <;> rfl

theorem follows_addEntry : Follows addEntry Source.addEntry := by
  intro indexed entry
  rw [addEntry, Source.addEntry]
  cases Signature.normalForm entry.1 with
  | error failure => rfl
  | ok key => exact follows_insert indexed (key, entry.2)

theorem follows_addSource : Follows addSource Source.addTo := by
  intro indexed source
  cases source with
  | entries list => exact follows_addEntry.foldlM indexed list
  | dispatcher merged => exact follows_insert.foldlM indexed merged.methods.methods

/-- Sources leave what they leave in a table, or fail as they do there. -/
@[simp] theorem map_table_ofSources (sources : List Source) :
    (ofSources sources).map table = sources.foldlM Source.addTo MethodTable.empty :=
  follows_addSource.foldlM empty sources

end IndexedMethods

/-! ### What is kept of offers -/

/-- The first offer whose text has a normal form. -/
def firstOffer? (offers : List Offer) (key : String) : Option Offer :=
  offers.find? fun offer ↦ Signature.normalForm offer.1 = .ok key

theorem firstOffer?_concat (before : List Offer) (offer : Offer) (key : String) :
    firstOffer? (before ++ [offer]) key =
      (firstOffer? before key).or
        (if Signature.normalForm offer.1 = .ok key then some offer else none) := by
  rw [firstOffer?, List.find?_append, List.find?_singleton]
  simp only [decide_eq_true_eq]
  rfl

/-- For each normal form the first implementation that was offered for it is kept. -/
theorem lookup_collected (offers : List Offer) (key : String) :
    (collected offers).lookup key = (firstOffer? offers key).map Prod.snd := by
  induction offers using List.reverseRecOn with
  | nil => rfl
  | append_singleton before offer ih =>
    rw [firstOffer?_concat, Option.map_or, ← ih]
    cases hform : Signature.normalForm offer.1 with
    | error failure =>
      rw [collected_concat_of_error hform, if_neg nofun, Option.map_none, Option.or_none]
    | ok found =>
      rw [collected_concat_of_ok hform]
      by_cases hkey : found = key
      · subst hkey
        rw [if_pos rfl]
        cases hlookup : (collected before).lookup found with
        | some known => exact hlookup
        | none => simp [List.lookup_append, hlookup]
      · rw [if_neg fun hsame ↦ hkey (Except.ok.inj hsame), Option.map_none, Option.or_none]
        have hother : (key == found) = false := beq_false_of_ne (Ne.symm hkey)
        cases (collected before).lookup found with
        | some known => rfl
        | none => simp [List.lookup_append, List.lookup_cons, hother]

/-- Offers that are not refused are not refused under their normal forms. -/
theorem acceptable_normalized {offers : List Offer} (haccept : Acceptable offers) :
    Acceptable (offers.filterMap Offer.normalized?) := by
  have hcollect := (collect_eq_ok_iff offers _).mpr ⟨haccept, rfl⟩
  rw [← foldlM_addEntry_normalized (readable_of_acceptable haccept)] at hcollect
  exact ((collect_eq_ok_iff _ _).mp hcollect).1

/-- Offers with one normal form have one implementation, unless one of them is refused. -/
theorem Acceptable.identity_eq {offers : List Offer} (haccept : Acceptable offers)
    {first second : Offer} (hfirst : first ∈ offers) (hsecond : second ∈ offers) {key : String}
    (hform : Signature.normalForm first.1 = .ok key)
    (hother : Signature.normalForm second.1 = .ok key) :
    first.2.identity = second.2.identity := by
  have hagree := (acceptable_iff_agree (Offer.normalOffers_normalized offers)).mp
    (acceptable_normalized haccept)
  exact hagree (key, first.2)
    (List.mem_filterMap.mpr ⟨first, hfirst, Offer.normalized?_of_ok hform⟩) (key, second.2)
    (List.mem_filterMap.mpr ⟨second, hsecond, Offer.normalized?_of_ok hother⟩) rfl

/-! ### What is found -/

namespace Dispatcher

/-- A multimethod finds what was offered. A text that can be read is found exactly if its normal
form is that of some offer; all offers with this normal form have one implementation, and the first
of them is found. The keys are the normal forms in the order in which they were first offered. -/
structure Finds (dispatcher : Dispatcher) (offers : List Offer) : Prop where
  malformed : ∀ text failure, Signature.parse text = .error failure →
    dispatcher.find text = .error failure ∧
      ∃ fault : Signature.Fault, failure = .malformedSignature text fault.message
  unique : ∀ first ∈ offers, ∀ second ∈ offers, ∀ key,
    Signature.normalForm first.1 = .ok key → Signature.normalForm second.1 = .ok key →
      first.2.identity = second.2.identity
  found : ∀ text key, Signature.normalForm text = .ok key →
    ∀ offer ∈ offers, Signature.normalForm offer.1 = .ok key →
      ∃ implementation, dispatcher.find text = .ok implementation ∧
        implementation.identity = offer.2.identity
  first : ∀ text key, Signature.normalForm text = .ok key →
    ∀ implementation, dispatcher.find text = .ok implementation ↔
      ∃ before offer after, offers = before ++ offer :: after ∧
        Signature.normalForm offer.1 = .ok key ∧ offer.2 = implementation ∧
        ∀ earlier ∈ before, Signature.normalForm earlier.1 ≠ .ok key
  missing : ∀ text key, Signature.normalForm text = .ok key →
    (∀ offer ∈ offers, Signature.normalForm offer.1 ≠ .ok key) →
      dispatcher.find text = .error (.signatureNotFound dispatcher.name key)
  respelled : ∀ text other key, Signature.normalForm text = .ok key →
    Signature.normalForm other = .ok key → dispatcher.find other = dispatcher.find text
  /-- A part of a signature that has several is not offered with the whole, and is not found if it
  was not offered by itself. -/
  pieces : ∀ offer ∈ offers, ∀ signature, Signature.parse offer.1 = .ok signature →
    ∀ pattern ∈ signature.patterns,
      (signature.patterns ≠ [pattern] → Signature.normalForm offer.1 ≠ .ok pattern.key) ∧
      ((∀ other ∈ offers, Signature.normalForm other.1 ≠ .ok pattern.key) →
        dispatcher.find pattern.key = .error (.signatureNotFound dispatcher.name pattern.key))
  keys : ∃ forms : List String,
    offers.map (fun offer ↦ Signature.normalForm offer.1) = forms.map .ok ∧
      dispatcher.methods.keys = forms.eraseDups

variable {dispatcher : Dispatcher} {offers : List Offer}

theorem find_of_error {text : String} {failure : Failure}
    (hparse : Signature.parse text = .error failure) : dispatcher.find text = .error failure := by
  rw [find, Signature.normalForm, hparse]
  rfl

theorem find_of_none {text key : String} (hform : Signature.normalForm text = .ok key)
    (hnone : dispatcher.methods.find? key = none) :
    dispatcher.find text = .error (.signatureNotFound dispatcher.name key) := by
  rw [find, bind_eq_error_iff]
  refine Or.inr ⟨key, hform, ?_⟩
  rw [hnone]
  rfl

theorem find_eq_ok_iff {text key : String} (hform : Signature.normalForm text = .ok key)
    (implementation : Implementation) :
    dispatcher.find text = .ok implementation ↔
      dispatcher.methods.find? key = some implementation := by
  cases hfind : dispatcher.methods.find? key with
  | none =>
    rw [find_of_none hform hfind]
    exact iff_of_false nofun nofun
  | some known =>
    have hknown : dispatcher.find text = .ok known := by
      rw [find, bind_eq_ok_iff]
      refine ⟨key, hform, ?_⟩
      rw [hfind]
      rfl
    rw [hknown, Except.ok.injEq, Option.some.injEq]

variable (hmethods : dispatcher.methods = .ofOffers offers)

include hmethods

theorem find?_methods (key : String) :
    dispatcher.methods.find? key = (firstOffer? offers key).map Prod.snd := by
  rw [hmethods, MethodTable.find?_ofOffers, lookup_collected]

/-- A multimethod with collected methods finds the first offer with a normal form. -/
theorem find_eq_ok_iff_first {text key : String} (hform : Signature.normalForm text = .ok key)
    (implementation : Implementation) :
    dispatcher.find text = .ok implementation ↔
      ∃ before offer after, offers = before ++ offer :: after ∧
        Signature.normalForm offer.1 = .ok key ∧ offer.2 = implementation ∧
        ∀ earlier ∈ before, Signature.normalForm earlier.1 ≠ .ok key := by
  simp only [find_eq_ok_iff hform, find?_methods hmethods, Option.map_eq_some_iff, firstOffer?,
    List.find?_eq_some_iff_append, decide_eq_true_eq, Bool.not_eq_true', decide_eq_false_iff_not]
  constructor
  · rintro ⟨offer, ⟨hoffer, before, after, hsplit, hbefore⟩, himplementation⟩
    exact ⟨before, offer, after, hsplit, hoffer, himplementation, hbefore⟩
  · rintro ⟨before, offer, after, hsplit, hoffer, himplementation, hbefore⟩
    exact ⟨offer, ⟨hoffer, before, after, hsplit, hbefore⟩, himplementation⟩

theorem find_eq_signatureNotFound {text key : String}
    (hform : Signature.normalForm text = .ok key)
    (hnone : ∀ offer ∈ offers, Signature.normalForm offer.1 ≠ .ok key) :
    dispatcher.find text = .error (.signatureNotFound dispatcher.name key) := by
  refine find_of_none hform ?_
  rw [find?_methods hmethods, Option.map_eq_none_iff, firstOffer?, List.find?_eq_none]
  simpa using hnone

end Dispatcher

/-- A pattern of a signature with others has another key than the signature. -/
theorem Signature.normalForm_ne_key {text : String} {signature : Signature}
    (hparse : Signature.parse text = .ok signature) {pattern : Pattern}
    (hpattern : pattern ∈ signature.patterns) (hseveral : signature.patterns ≠ [pattern]) :
    Signature.normalForm text ≠ .ok pattern.key := by
  intro hform
  have hnormal := Pattern.isNormal_of_mem_patterns (isNormal_of_parse hparse) hpattern
  have hread := parse_eq_of_normalForm hform
  rw [Pattern.parse_key hnormal, hparse] at hread
  exact hseveral (Except.ok.inj hread ▸ Pattern.patterns_signature pattern)

/-- Collected methods that were not refused are found as they were offered. -/
theorem Acceptable.finds {offers : List Offer} (haccept : Acceptable offers)
    {dispatcher : Dispatcher} (hmethods : dispatcher.methods = .ofOffers offers) :
    dispatcher.Finds offers where
  malformed text failure hparse :=
    ⟨Dispatcher.find_of_error hparse, Signature.parse_eq_error hparse⟩
  unique first hfirst second hsecond key := haccept.identity_eq hfirst hsecond
  found text key hform offer hmem hoffer := by
    cases hfirst : firstOffer? offers key with
    | none => exact absurd hoffer (by simpa using List.find?_eq_none.mp hfirst offer hmem)
    | some first =>
      refine ⟨first.2, (Dispatcher.find_eq_ok_iff hform _).mpr ?_, ?_⟩
      · rw [Dispatcher.find?_methods hmethods, hfirst]
        rfl
      have hkey : Signature.normalForm first.1 = .ok key := by
        simpa using List.find?_some hfirst
      exact haccept.identity_eq (List.mem_of_find?_eq_some hfirst) hmem hkey hoffer
  first text key hform := Dispatcher.find_eq_ok_iff_first hmethods hform
  missing text key hform := Dispatcher.find_eq_signatureNotFound hmethods hform
  respelled text other key hform hother := by
    rw [Dispatcher.find, Dispatcher.find, hform, hother]
  pieces offer _ signature hparse pattern hpattern := by
    have hnormal := Pattern.isNormal_of_mem_patterns (Signature.isNormal_of_parse hparse) hpattern
    exact ⟨Signature.normalForm_ne_key hparse hpattern,
      Dispatcher.find_eq_signatureNotFound hmethods (Pattern.normalForm_key hnormal)⟩
  keys := ⟨_, map_normalForm_eq (readable_of_acceptable haccept), by
    rw [hmethods]
    exact offerKeys_collected offers⟩

/-- Whatever the engine is, a multimethod that it builds finds what its sources offer. What another
engine builds from the same sources, with other types or other ignored types, has the same methods
and finds the same. The methods can be kept with an index, which stays in step with the list and
through which the same is found. -/
theorem finds_what_was_offered (engine : Engine) (name : Option String) (sources : List Source)
    (hmerged : ∀ merged, Source.dispatcher merged ∈ sources → merged.Built)
    (dispatcher : Dispatcher) (hbuild : engine.build name sources = .ok dispatcher) :
    dispatcher.Finds (sources.flatMap Source.offers) ∧
      (∀ (other : Engine) result, other.build name sources = .ok result →
        result.methods = dispatcher.methods ∧ ∀ text, result.find text = dispatcher.find text) ∧
      ∃ indexed, IndexedMethods.ofSources sources = .ok indexed ∧ indexed.table.keys.Nodup ∧
        (∀ key, indexed.place? key = indexed.methods.findIdx? (·.1 == key)) ∧
        indexed.table = dispatcher.methods ∧
        (∀ key, indexed.contains key = dispatcher.methods.contains key) ∧
        ∀ text, indexed.findSignature dispatcher.name text = dispatcher.find text := by
  have hnormal : NormalSources sources := fun merged hmem ↦ (hmerged merged hmem).isNormal
  have hbuilt : ∀ {other : Engine} {result}, other.build name sources = .ok result →
      result.name = (givenNames name sources).head? ∧ result.methods = Engine.collect sources :=
    fun hother ↦ Engine.eq_of_assemble ((Engine.build_eq_ok_iff hnormal).mp hother).2.2
  obtain ⟨hname, hmethods⟩ := hbuilt hbuild
  have haccept := ((Engine.build_eq_ok_iff hnormal).mp hbuild).2.1
  refine ⟨haccept.finds hmethods, fun other result hother ↦ ?_, ?_⟩
  · obtain ⟨hotherName, hotherMethods⟩ := hbuilt hother
    refine ⟨hotherMethods.trans hmethods.symm, fun text ↦ ?_⟩
    rw [Dispatcher.find, Dispatcher.find, hotherName, hname, hotherMethods, hmethods]
  · have hfold : sources.foldlM Source.addTo MethodTable.empty = .ok dispatcher.methods := by
      rw [foldlM_addTo_eq hnormal]
      exact (collect_eq_ok_iff _ _).mpr ⟨haccept, hmethods⟩
    rw [← IndexedMethods.map_table_ofSources] at hfold
    obtain ⟨indexed, hindexed, htable⟩ := map_eq_ok_iff.mp hfold
    exact ⟨indexed, hindexed, indexed.table.nodup, indexed.inStep, htable,
      htable ▸ indexed.contains_eq, IndexedMethods.findSignature_eq htable⟩

/-- A merged multimethod, and an entry whose union names a type which need not exist. -/
def mergedWithUnion (merged : Dispatcher) : List Source :=
  [.dispatcher merged, .entries [(" string | Missing", several)]]

/-- A union is found however it is written. What is left of it without the ignored type is not. -/
theorem finds_what_was_offered_union :
    ∃ merged engine dispatcher,
      Engine.standard.build (some "area") [.entries [("number", single)]] = .ok merged ∧
      Engine.ofSetup { ignored := ["Missing"] } = .ok engine ∧
      engine.build none (mergedWithUnion merged) = .ok dispatcher ∧
      dispatcher.find "string|Missing " = .ok several ∧
      dispatcher.find "string" = .error (.signatureNotFound (some "area") "string") := by
  obtain ⟨⟨name, methods, routine, rescue⟩, hmerged, rfl, rfl⟩ := exists_build_area
  have hbuilt : ∀ other, Source.dispatcher other ∈
      mergedWithUnion ⟨some "area", .mk [("number", single)], routine, rescue⟩ → other.Built := by
    intro other hmem
    have hother : other = ⟨some "area", .mk [("number", single)], routine, rescue⟩ := by
      simpa [mergedWithUnion] using hmem
    exact hother ▸ .build .standard (by simp) hmerged
  have hsetup : Engine.ofSetup { ignored := ["Missing"] } =
      .ok ⟨.standard, .empty, ["Missing"], none⟩ := rfl
  have hoffers : Acceptable [("number", single), (" string | Missing", several)] :=
    ((collect_eq_ok_iff _ (.mk [("number", single), ("string|Missing", several)])).mp rfl).1
  have hleft : remaining ["Missing"] (Engine.collect (mergedWithUnion
      ⟨some "area", .mk [("number", single)], routine, rescue⟩)).methods =
        [⟨⟨[.single "number"], none⟩, single⟩, ⟨⟨[.single "string"], none⟩, several⟩] := rfl
  obtain ⟨hkeys, hknown⟩ :=
    @Engine.passed_of_left ⟨.standard, .empty, ["Missing"], none⟩ _ _ hleft (by decide) (by decide)
  have hnames : AllEqual (givenNames none (mergedWithUnion
      ⟨some "area", .mk [("number", single)], routine, rescue⟩)) := allEqual_singleton "area"
  obtain ⟨-, routine, -, -, hbuild⟩ := Engine.build_of_passed (.ofSetup hsetup)
    (fun other hmem ↦ (hbuilt other hmem).isNormal) hnames hoffers hkeys hknown
  have hfinds : Dispatcher.Finds _ [("number", single), (" string | Missing", several)] :=
    (finds_what_was_offered _ none _ hbuilt _ hbuild).1
  have hnumber : Signature.normalForm "number" = .ok "number" := rfl
  have hunion : Signature.normalForm " string | Missing" = .ok "string|Missing" := rfl
  refine ⟨_, _, _, hmerged, hsetup, hbuild, ?_, ?_⟩
  · refine (hfinds.first _ "string|Missing" rfl _).mpr
      ⟨[("number", single)], _, [], rfl, hunion, rfl, ?_⟩
    simp [hnumber]
  · refine hfinds.missing _ "string" rfl ?_
    simp [hnumber, hunion]

end Multimethod
