import Multimethod.Proofs.ReachableEngines
import Multimethod.Proofs.ReadBack

/-!
# Collecting methods

A multimethod is built from what its sources offer: texts of signatures with implementations, and
the methods of other multimethods under their keys. `collected` says what is kept of the offers,
namely the first one for each normal form, without speaking of tables or failures. `Refuses` says
which offers are refused after others, and `FirstRefusal` which refusal comes first.

When the merged multimethods were built themselves, their keys are in normal form
(`Dispatcher.Built.isNormal`). Collecting then keeps exactly the collected offers if none is refused
(`collect_eq_ok_iff`), and fails with the first refusal if there is one (`collect_eq_error_iff`).
-/

set_option autoImplicit false
set_option relaxedAutoImplicit false

namespace Multimethod

/-! ### Offers -/

/-- The text of a signature with an implementation. -/
abbrev Offer := String × Implementation

/-- What a source offers, in order. -/
def Source.offers : Source → List Offer
  | .entries list => list
  | .dispatcher merged => merged.methods.methods

/-- An offer with the normal form of its text, if the text can be read. -/
def Offer.normalized? (offer : Offer) : Option Offer :=
  (Signature.normalForm offer.1).toOption.map fun key ↦ (key, offer.2)

/-- The offers that are kept, under their normal forms: for each of these the first. -/
def collected (offers : List Offer) : List Offer :=
  (offers.filterMap Offer.normalized?).eraseDupsBy fun later earlier ↦ later.1 == earlier.1

/-- The keys of offers, in order. -/
def offerKeys (offers : List Offer) : List String :=
  offers.map Prod.fst

/-- The keys of what is kept are the normal forms of the offers without repetitions. -/
theorem offerKeys_collected (offers : List Offer) :
    offerKeys (collected offers) = (offerKeys (offers.filterMap Offer.normalized?)).eraseDups :=
  map_eraseDupsBy Prod.fst _

/-- No key is kept twice. -/
@[simp]
theorem nodup_offerKeys_collected (offers : List Offer) : (offerKeys (collected offers)).Nodup := by
  rw [offerKeys_collected]
  exact nodup_eraseDups _

/-- The table of the offers that are kept. -/
def MethodTable.ofOffers (offers : List Offer) : MethodTable :=
  ⟨collected offers, nodup_offerKeys_collected offers⟩

@[simp] theorem MethodTable.methods_ofOffers (offers : List Offer) :
    (ofOffers offers).methods = collected offers :=
  rfl

@[simp] theorem MethodTable.find?_ofOffers (offers : List Offer) (key : String) :
    (ofOffers offers).find? key = (collected offers).lookup key :=
  rfl

theorem MethodTable.ofOffers_congr {offers other : List Offer}
    (hsame : collected offers = collected other) : ofOffers offers = ofOffers other :=
  MethodTable.ext hsame

/-- An offer is refused after others: its text cannot be read, or another implementation has its
normal form already. -/
inductive Refuses (before : List Offer) : Offer → Failure → Prop
  | malformed {offer : Offer} {fault : Signature.Fault}
      (hform : Signature.normalForm offer.1 =
        .error (.malformedSignature offer.1 fault.message)) :
      Refuses before offer (.malformedSignature offer.1 fault.message)
  | taken {offer : Offer} {key : String} {known : Implementation}
      (hform : Signature.normalForm offer.1 = .ok key)
      (hknown : (collected before).lookup key = some known)
      (hother : known.identity ≠ offer.2.identity) :
      Refuses before offer (.duplicateSignature key)

/-- No offer is refused after those before it. -/
def Acceptable (offers : List Offer) : Prop :=
  ∀ before offer after, offers = before ++ offer :: after →
    ∀ failure, ¬ Refuses before offer failure

/-- The first offer that is refused is refused for this reason. -/
def FirstRefusal (offers : List Offer) (failure : Failure) : Prop :=
  ∃ before offer after, offers = before ++ offer :: after ∧ Acceptable before ∧
    Refuses before offer failure

theorem Offer.normalized?_of_ok {offer : Offer} {key : String}
    (hform : Signature.normalForm offer.1 = .ok key) : normalized? offer = some (key, offer.2) := by
  rw [normalized?, hform]
  rfl

theorem Offer.normalized?_of_error {offer : Offer} {failure : Failure}
    (hform : Signature.normalForm offer.1 = .error failure) : normalized? offer = none := by
  rw [normalized?, hform]
  rfl

/-! ### One more offer -/

theorem collected_concat_of_error {before : List Offer} {offer : Offer} {failure : Failure}
    (hform : Signature.normalForm offer.1 = .error failure) :
    collected (before ++ [offer]) = collected before := by
  rw [collected, List.filterMap_append, List.filterMap_cons, Offer.normalized?_of_error hform,
    List.filterMap_nil, List.append_nil, collected]

/-- An offer that can be read is kept if its normal form is new. -/
theorem collected_concat_of_ok {before : List Offer} {offer : Offer} {key : String}
    (hform : Signature.normalForm offer.1 = .ok key) :
    collected (before ++ [offer]) =
      match (collected before).lookup key with
      | some _ => collected before
      | none => collected before ++ [(key, offer.2)] := by
  have hconcat : collected (before ++ [offer]) =
      if (collected before).any (fun earlier ↦ key == earlier.1) then collected before
      else collected before ++ [(key, offer.2)] := by
    rw [collected, List.filterMap_append, List.filterMap_cons, Offer.normalized?_of_ok hform,
      List.filterMap_nil, eraseDupsBy_concat, collected]
  rw [hconcat]
  cases hlookup : (collected before).lookup key with
  | none =>
    have hnew : (collected before).any (fun earlier ↦ key == earlier.1) = false := by
      rw [List.any_eq_false]
      intro earlier hmem
      simpa using List.lookup_eq_none_iff.mp hlookup earlier hmem
    rw [hnew]
    rfl
  | some known =>
    have htaken : (collected before).any (fun earlier ↦ key == earlier.1) = true := by
      obtain ⟨earlier, hmem, hkey⟩ :=
        List.lookup_isSome_iff.mp (Option.isSome_iff_exists.mpr ⟨known, hlookup⟩)
      exact List.any_eq_true.mpr ⟨earlier, hmem, hkey⟩
    rw [htaken]
    rfl

/-- What is kept was offered under a text with this normal form. -/
theorem exists_offer_of_mem_collected {offers : List Offer} {method : Offer}
    (hmem : method ∈ collected offers) :
    ∃ offer ∈ offers, Signature.normalForm offer.1 = .ok method.1 ∧ offer.2 = method.2 := by
  induction offers using List.reverseRecOn with
  | nil => exact absurd hmem List.not_mem_nil
  | append_singleton before offer ih =>
    have hbefore : method ∈ collected before → ∃ found ∈ before ++ [offer],
        Signature.normalForm found.1 = .ok method.1 ∧ found.2 = method.2 := by
      intro hold
      obtain ⟨found, hfound, hform⟩ := ih hold
      exact ⟨found, List.mem_append_left _ hfound, hform⟩
    cases hform : Signature.normalForm offer.1 with
    | error failure =>
      rw [collected_concat_of_error hform] at hmem
      exact hbefore hmem
    | ok key =>
      rw [collected_concat_of_ok hform] at hmem
      cases hlookup : (collected before).lookup key with
      | some known =>
        rw [hlookup] at hmem
        exact hbefore hmem
      | none =>
        rw [hlookup] at hmem
        rcases List.mem_append.mp hmem with hold | hnew
        · exact hbefore hold
        · rw [List.mem_singleton.mp hnew]
          exact ⟨offer, List.mem_append_right _ (List.mem_singleton_self _), hform, rfl⟩

theorem addEntry_of_ok {offer : Offer} {key : String} (table : MethodTable)
    (hform : Signature.normalForm offer.1 = .ok key) :
    Source.addEntry table offer = table.insert (key, offer.2) := by
  rw [Source.addEntry, hform]
  rfl

theorem addEntry_of_error {offer : Offer} {failure : Failure} (table : MethodTable)
    (hform : Signature.normalForm offer.1 = .error failure) :
    Source.addEntry table offer = .error failure := by
  rw [Source.addEntry, hform]
  rfl

/-- An offer after the collected ones is refused with the failure of the refusal. -/
@[simp] theorem addEntry_eq_error_iff (before : List Offer) (offer : Offer) (failure : Failure) :
    Source.addEntry (.ofOffers before) offer = .error failure ↔ Refuses before offer failure := by
  cases hform : Signature.normalForm offer.1 with
  | error found =>
    obtain ⟨fault, rfl⟩ := Signature.normalForm_eq_error hform
    rw [addEntry_of_error _ hform]
    constructor
    · intro herror
      rw [← Except.error.inj herror]
      exact .malformed hform
    · intro hrefuses
      cases hrefuses with
      | malformed hother => exact congrArg _ (Except.error.inj (hform.symm.trans hother))
      | taken hother _ _ => exact nomatch hform.symm.trans hother
  | ok key =>
    rw [addEntry_of_ok _ hform, MethodTable.insert_eq_error_iff]
    constructor
    · rintro ⟨⟨known, hknown, hother⟩, rfl⟩
      exact .taken hform hknown hother
    · intro hrefuses
      cases hrefuses with
      | malformed hother => exact nomatch hform.symm.trans hother
      | @taken found known hfound hknown hother =>
        rw [← Except.ok.inj (hform.symm.trans hfound)] at hknown ⊢
        exact ⟨⟨known, hknown, hother⟩, rfl⟩

theorem eq_collected_of_addEntry {before : List Offer} {offer : Offer} {changed : MethodTable}
    (hadd : Source.addEntry (.ofOffers before) offer = .ok changed) :
    changed = .ofOffers (before ++ [offer]) := by
  cases hform : Signature.normalForm offer.1 with
  | error failure =>
    rw [addEntry_of_error _ hform] at hadd
    exact nomatch hadd
  | ok key =>
    rw [addEntry_of_ok _ hform] at hadd
    refine MethodTable.ext ?_
    rw [MethodTable.methods_of_insert hadd, MethodTable.find?_ofOffers,
      MethodTable.methods_ofOffers, MethodTable.methods_ofOffers, collected_concat_of_ok hform]
    cases (collected before).lookup key <;> rfl

/-- An offer after the collected ones is collected with them if it is not refused. -/
@[simp] theorem addEntry_eq_ok_iff (before : List Offer) (offer : Offer) (changed : MethodTable) :
    Source.addEntry (.ofOffers before) offer = .ok changed ↔
      (∀ failure, ¬ Refuses before offer failure) ∧
        changed = .ofOffers (before ++ [offer]) := by
  constructor
  · intro hadd
    refine ⟨fun failure hrefuses ↦ ?_, eq_collected_of_addEntry hadd⟩
    rw [(addEntry_eq_error_iff before offer failure).mpr hrefuses] at hadd
    exact nomatch hadd
  · rintro ⟨haccepts, rfl⟩
    cases hadd : Source.addEntry (.ofOffers before) offer with
    | ok result => rw [eq_collected_of_addEntry hadd]
    | error failure =>
      exact absurd ((addEntry_eq_error_iff before offer failure).mp hadd) (haccepts failure)

/-! ### All offers -/

theorem acceptable_concat_iff (before : List Offer) (offer : Offer) :
    Acceptable (before ++ [offer]) ↔
      Acceptable before ∧ ∀ failure, ¬ Refuses before offer failure := by
  constructor
  · intro haccept
    refine ⟨fun start next rest hsplit ↦ haccept start next (rest ++ [offer]) ?_,
      haccept before offer [] rfl⟩
    rw [hsplit, List.append_assoc, List.cons_append]
  · -- A split of the longer list is at the new offer or at one before it.
    rintro ⟨hbefore, hoffer⟩ start next rest hsplit
    rcases List.eq_nil_or_concat rest with rfl | ⟨others, last, rfl⟩
    · obtain ⟨rfl, hlast⟩ := List.append_inj' hsplit rfl
      rw [← List.singleton_inj.mp hlast]
      exact hoffer
    · rw [List.concat_eq_append, ← List.cons_append, ← List.append_assoc] at hsplit
      exact hbefore start next others (List.append_inj' hsplit rfl).1

/-- Offers are collected exactly if none is refused. -/
@[simp] theorem collect_eq_ok_iff (offers : List Offer) (table : MethodTable) :
    offers.foldlM Source.addEntry MethodTable.empty = .ok table ↔
      Acceptable offers ∧ table = .ofOffers offers := by
  induction offers using List.reverseRecOn generalizing table with
  | nil =>
    have hnone : Acceptable [] := by
      rintro before offer after hsplit
      exact absurd hsplit (by simp)
    exact ⟨fun hempty ↦ ⟨hnone, (Except.ok.inj hempty).symm⟩, fun h ↦ congrArg _ h.2.symm⟩
  | append_singleton before offer ih =>
    rw [List.foldlM_append, bind_eq_ok_iff, acceptable_concat_iff, and_assoc]
    simp only [List.foldlM_cons, List.foldlM_nil, bind_pure, ih]
    constructor
    · rintro ⟨now, ⟨haccept, rfl⟩, hoffer⟩
      exact ⟨haccept, (addEntry_eq_ok_iff before offer table).mp hoffer⟩
    · rintro ⟨haccept, hoffer⟩
      exact ⟨_, ⟨haccept, rfl⟩, (addEntry_eq_ok_iff before offer table).mpr hoffer⟩

/-- Collecting offers fails exactly with the first refusal. -/
theorem collect_eq_error_iff (offers : List Offer) (failure : Failure) :
    offers.foldlM Source.addEntry MethodTable.empty = .error failure ↔
      FirstRefusal offers failure := by
  rw [foldlM_eq_error_iff]
  simp only [collect_eq_ok_iff]
  constructor
  · rintro ⟨before, offer, after, now, hsplit, ⟨haccept, rfl⟩, herror⟩
    exact ⟨before, offer, after, hsplit, haccept, (addEntry_eq_error_iff _ _ _).mp herror⟩
  · rintro ⟨before, offer, after, hsplit, haccept, hrefuses⟩
    exact ⟨before, offer, after, _, hsplit, ⟨haccept, rfl⟩,
      (addEntry_eq_error_iff _ _ _).mpr hrefuses⟩

theorem acceptable_iff (offers : List Offer) :
    Acceptable offers ↔ ∀ failure, ¬ FirstRefusal offers failure := by
  cases hcollect : offers.foldlM Source.addEntry MethodTable.empty with
  | ok table =>
    have hnone : ∀ failure, ¬ FirstRefusal offers failure := fun failure hrefusal ↦
      nomatch hcollect.symm.trans ((collect_eq_error_iff offers failure).mpr hrefusal)
    exact ⟨fun _ ↦ hnone, fun _ ↦ ((collect_eq_ok_iff offers table).mp hcollect).1⟩
  | error failure =>
    have hrefusal := (collect_eq_error_iff offers failure).mp hcollect
    refine ⟨fun haccept ↦ ?_, fun hnone ↦ absurd hrefusal (hnone failure)⟩
    have hkept := (collect_eq_ok_iff offers _).mpr ⟨haccept, rfl⟩
    exact nomatch hcollect.symm.trans hkept

theorem FirstRefusal.unique {offers : List Offer} {failure other : Failure}
    (hrefusal : FirstRefusal offers failure) (hother : FirstRefusal offers other) :
    failure = other := by
  rw [← collect_eq_error_iff] at hrefusal hother
  exact Except.error.inj (hrefusal.symm.trans hother)

theorem not_firstRefusal_nameConflict (offers : List Offer) (first other : String) :
    ¬ FirstRefusal offers (.nameConflict first other) := by
  rintro ⟨before, offer, after, -, -, hrefuses⟩
  exact nomatch hrefuses

/-! ### Sources -/

/-- Every key is in normal form. -/
def MethodTable.IsNormal (table : MethodTable) : Prop :=
  ∀ method ∈ table.methods, Signature.normalForm method.1 = .ok method.1

/-- The merged multimethods among some sources have keys in normal form. -/
def NormalSources (sources : List Source) : Prop :=
  ∀ merged, Source.dispatcher merged ∈ sources → merged.methods.IsNormal

theorem insertAll_eq_foldlM {table : MethodTable} {methods : List (String × Implementation)}
    (hnormal : ∀ method ∈ methods, Signature.normalForm method.1 = .ok method.1) :
    table.insertAll methods = methods.foldlM Source.addEntry table := by
  unfold MethodTable.insertAll
  induction methods generalizing table with
  | nil => rfl
  | cons method methods ih =>
    rw [List.foldlM_cons, List.foldlM_cons,
      addEntry_of_ok table (hnormal method List.mem_cons_self)]
    congr 1
    funext changed
    exact ih fun other hmem ↦ hnormal other (List.mem_cons_of_mem _ hmem)

/-- Adding sources one after the other adds their offers one after the other. -/
theorem foldlM_addTo_eq {sources : List Source} (hsources : NormalSources sources)
    (table : MethodTable) :
    sources.foldlM Source.addTo table =
      (sources.flatMap Source.offers).foldlM Source.addEntry table := by
  induction sources generalizing table with
  | nil => rfl
  | cons source sources ih =>
    have hsource : Source.addTo table source = source.offers.foldlM Source.addEntry table := by
      cases source with
      | entries list => rfl
      | dispatcher merged => exact insertAll_eq_foldlM (hsources merged List.mem_cons_self)
    rw [List.foldlM_cons, List.flatMap_cons, List.foldlM_append, hsource]
    congr 1
    funext changed
    exact ih (fun merged hmem ↦ hsources merged (List.mem_cons_of_mem _ hmem)) changed

/-! ### Built multimethods -/

/-- The multimethods that reachable engines build, from entries and from multimethods that were
built before. -/
inductive Dispatcher.Built : Dispatcher → Prop
  | build {engine : Engine} {name : Option String} {sources : List Source}
      {dispatcher : Dispatcher} (hengine : engine.Reachable)
      (hmerged : ∀ merged, Source.dispatcher merged ∈ sources → Built merged)
      (hbuild : engine.build name sources = .ok dispatcher) : Built dispatcher

@[simp] theorem isNormal_collected (offers : List Offer) :
    (MethodTable.ofOffers offers).IsNormal := by
  intro method hmem
  obtain ⟨offer, -, hform, -⟩ := exists_offer_of_mem_collected hmem
  exact Signature.normalForm_key hform

/-- The steps of a build that succeeds. -/
theorem Engine.build_eq_ok_iff_exists {engine : Engine} {name : Option String}
    {sources : List Source} {dispatcher : Dispatcher} :
    engine.build name sources = .ok dispatcher ↔
      ∃ agreed, agreedName (name.toList ++ sources.filterMap Source.name?) = .ok agreed ∧
        ∃ methods, sources.foldlM Source.addTo MethodTable.empty = .ok methods ∧
          ∃ clauses, methods.clauses engine.ignored = .ok clauses ∧
            ∃ tree, Tree.ofClauses clauses = .ok tree ∧
              ∃ routine, Routine.ofTree engine.types engine.conversions tree = .ok routine ∧
                dispatcher = ⟨agreed, methods, routine, engine.rescue⟩ := by
  simp only [build, bind_eq_ok_iff, pure, Except.pure, Except.ok.injEq, eq_comm (a := dispatcher)]

/-- The methods of a multimethod are the collected offers of its sources. -/
theorem methods_of_build {engine : Engine} {name : Option String} {sources : List Source}
    {dispatcher : Dispatcher} (hsources : NormalSources sources)
    (hbuild : engine.build name sources = .ok dispatcher) :
    dispatcher.methods = .ofOffers (sources.flatMap Source.offers) := by
  obtain ⟨agreed, -, methods, hmethods, clauses, -, tree, -, routine, -, rfl⟩ :=
    Engine.build_eq_ok_iff_exists.mp hbuild
  rw [foldlM_addTo_eq hsources, collect_eq_ok_iff] at hmethods
  exact hmethods.2

/-- The keys of every multimethod that was built are in normal form. -/
theorem Dispatcher.Built.isNormal {dispatcher : Dispatcher} (hbuilt : dispatcher.Built) :
    dispatcher.methods.IsNormal := by
  induction hbuilt with
  | build _ _ hbuild ih =>
    rw [methods_of_build ih hbuild]
    exact isNormal_collected _

end Multimethod
