import Multimethod.Proofs.Choices
import Multimethod.Proofs.Merging

/-!
# Methods in pieces

The clauses of a method stand on their own: the key of each is a text of which it is the only
clause. So a method can be replaced by its pieces, which are the keys of its clauses with its
implementation, and nothing changes in how a multimethod answers (`clauses_stand_alone`).

An engine that ignores no type expands entries into the clauses of the entries one by one
(`expansion_nil`), when no two entries have one normal form (`collected_eq`). This need not be
assumed of the pieces: entries whose clauses have different keys have different normal forms
(`nodup_normalForms`).
-/

set_option autoImplicit false
set_option relaxedAutoImplicit false

namespace Multimethod

/-! ### Nothing ignored -/

@[simp] theorem Alternatives.keep?_true (alternatives : Alternatives) :
    alternatives.keep? (fun _ ↦ true) = some alternatives :=
  keep?_eq_some_iff.mpr (List.filter_true alternatives.names)

/-- A signature is kept whole if no type is dropped. -/
@[simp] theorem Signature.restrict_true (signature : Signature) :
    signature.restrict (fun _ ↦ true) = some signature := by
  have hfixed : signature.fixed.mapM (Alternatives.keep? fun _ ↦ true) = some signature.fixed := by
    rw [mapM_eq_some_iff, List.forall₂_same]
    exact fun alternatives _ ↦ alternatives.keep?_true
  rw [restrict, hfixed]
  obtain ⟨fixed, rest⟩ := signature
  cases rest with
  | none => rfl
  | some alternatives =>
    show (alternatives.keep? fun _ ↦ true).map (fun kept ↦ Signature.mk fixed (some kept)) = _
    rw [Alternatives.keep?_true]
    rfl

@[simp] theorem Method.without_nil (method : Method) : method.without [] = some method := by
  have hkeep : (fun name ↦ !([] : List String).contains name) = fun _ ↦ true := rfl
  rw [without, hkeep, Signature.restrict_true]
  rfl

/-! ### The clauses of entries -/

namespace Offer

/-- The clauses of an offer, if its text can be read. -/
def clauses (offer : Offer) : List Clause :=
  match Method.parse offer.1 offer.2 with
  | .ok method => method.clauses
  | .error _ => []

theorem clauses_of_ok {text : String} {implementation : Implementation} {method : Method}
    (hparse : Method.parse text implementation = .ok method) :
    clauses (text, implementation) = method.clauses := by
  rw [clauses, hparse]

/-- The keys of an offer are those of the patterns of its signature. -/
theorem clauseKeys_clauses {offer : Offer} {signature : Signature}
    (hparse : Signature.parse offer.1 = .ok signature) :
    clauseKeys (clauses offer) = signature.patterns.map Pattern.key := by
  rw [clauses, Method.parse, hparse]
  show clauseKeys (Method.clauses ⟨signature, offer.2⟩) = _
  rw [clauseKeys, Method.clauses, List.map_map]
  rfl

/-- What is left of an offer when nothing is ignored has the clauses of the offer. -/
theorem flatMap_without_nil (offer : Offer) :
    ((Method.parse offer.1 offer.2).toOption.bind (Method.without [])).toList.flatMap
      Method.clauses = clauses offer := by
  obtain ⟨text, implementation⟩ := offer
  cases hparse : Method.parse text implementation with
  | error failure =>
    rw [clauses, hparse]
    rfl
  | ok method =>
    rw [clauses_of_ok hparse, Except.toOption, Option.bind_some, Method.without_nil]
    exact List.flatMap_singleton _ _

theorem normalForm_of_normalized? {offer normal : Offer}
    (hnormal : normalized? offer = some normal) :
    Signature.normalForm offer.1 = .ok normal.1 := by
  unfold normalized? at hnormal
  cases hform : Signature.normalForm offer.1 with
  | error failure =>
    rw [hform] at hnormal
    exact nomatch hnormal
  | ok key =>
    rw [hform] at hnormal
    rw [← Option.some.inj hnormal]

@[simp] theorem normalOffers_normalized (offers : List Offer) :
    NormalOffers (offers.filterMap normalized?) := by
  intro offer hmem
  obtain ⟨found, -, hfound⟩ := List.mem_filterMap.mp hmem
  exact Signature.normalForm_key (normalForm_of_normalized? hfound)

/-- An offer under its normal form has the same clauses. -/
theorem flatMap_normalized? (offer : Offer) :
    (normalized? offer).toList.flatMap clauses = clauses offer := by
  cases hform : Signature.normalForm offer.1 with
  | error failure =>
    have hparse : Signature.parse offer.1 = .error failure := map_eq_error_iff.mp hform
    rw [normalized?_of_error hform, clauses, Method.parse, hparse]
    rfl
  | ok key =>
    have hsame : clauses (key, offer.2) = clauses offer := by
      rw [clauses, clauses, Method.parse, Method.parse, Signature.parse_eq_of_normalForm hform]
    rw [normalized?_of_ok hform, ← hsame]
    exact List.flatMap_singleton _ _

end Offer

/-- A table without ignored types is expanded into the clauses of its methods. -/
theorem expansion_nil (table : MethodTable) :
    table.expansion [] = table.methods.flatMap Offer.clauses := by
  rw [MethodTable.expansion, remaining, List.filterMap_eq_flatMap_toList, List.flatMap_assoc]
  exact List.flatMap_congr fun offer _ ↦ Offer.flatMap_without_nil offer

/-! ### Entries with different normal forms -/

/-- The text of every offer can be read. -/
def Readable (offers : List Offer) : Prop :=
  ∀ offer ∈ offers, ∃ key, Signature.normalForm offer.1 = .ok key

/-- No two offers have one normal form. -/
def DifferentForms (offers : List Offer) : Prop :=
  (offers.map fun offer ↦ Signature.normalForm offer.1).Nodup

theorem readable_of_acceptable {offers : List Offer} (haccept : Acceptable offers) :
    Readable offers := by
  intro offer hmem
  cases hform : Signature.normalForm offer.1 with
  | ok key => exact ⟨key, rfl⟩
  | error failure =>
    obtain ⟨before, after, hsplit⟩ := List.append_of_mem hmem
    obtain ⟨fault, rfl⟩ := Signature.normalForm_eq_error hform
    exact absurd (.malformed hform) (haccept before offer after hsplit _)

/-- Offers with different normal forms are not refused. -/
theorem acceptable_of_differentForms {offers : List Offer} (hread : Readable offers)
    (hdifferent : DifferentForms offers) : Acceptable offers := by
  rintro before offer after rfl failure hrefuses
  cases hrefuses with
  | malformed hform =>
    obtain ⟨key, hkey⟩ := hread offer (List.mem_append_right _ List.mem_cons_self)
    exact nomatch hkey.symm.trans hform
  | taken hform hknown _ =>
    obtain ⟨start, rest, hsplit, -⟩ := List.lookup_eq_some_iff.mp hknown
    obtain ⟨earlier, hearlier, hsame, -⟩ := exists_offer_of_mem_collected
      (hsplit ▸ List.mem_append_right start List.mem_cons_self)
    rw [DifferentForms, List.map_append, List.map_cons, List.nodup_append] at hdifferent
    exact hdifferent.2.2 _ (List.mem_map_of_mem hearlier) _ List.mem_cons_self
      (hsame.trans hform.symm)

theorem map_normalForm_eq {offers : List Offer} (hread : Readable offers) :
    offers.map (fun offer ↦ Signature.normalForm offer.1) =
      (offerKeys (offers.filterMap Offer.normalized?)).map .ok := by
  induction offers with
  | nil => rfl
  | cons offer offers ih =>
    obtain ⟨⟨key, hkey⟩, hlater⟩ := List.forall_mem_cons.mp hread
    rw [List.map_cons, ih hlater, hkey, List.filterMap_cons_some (Offer.normalized?_of_ok hkey)]
    rfl

/-- Offers with different normal forms are all kept, under these. -/
theorem collected_eq {offers : List Offer} (hread : Readable offers)
    (hdifferent : DifferentForms offers) :
    collected offers = offers.filterMap Offer.normalized? := by
  have hnormal := Offer.normalOffers_normalized offers
  have hsame : (offers.filterMap Offer.normalized?).filterMap Offer.normalized? =
      offers.filterMap Offer.normalized? := by
    refine (List.filterMap_congr fun offer hmem ↦ ?_).trans List.filterMap_some
    exact Offer.normalized?_of_ok (hnormal offer hmem)
  rw [DifferentForms, map_normalForm_eq hread] at hdifferent
  have hkept := collected_eq_self hnormal hdifferent.of_map
  rw [collected, hsame] at hkept
  exact hkept

theorem expansion_collected {offers : List Offer} (hread : Readable offers)
    (hdifferent : DifferentForms offers) :
    (MethodTable.ofOffers offers).expansion [] = offers.flatMap Offer.clauses := by
  rw [expansion_nil, MethodTable.methods_ofOffers, collected_eq hread hdifferent,
    List.filterMap_eq_flatMap_toList, List.flatMap_assoc]
  exact List.flatMap_congr fun offer _ ↦ Offer.flatMap_normalized? offer

/-- Offers have different normal forms if their clauses have different keys, because an offer
without clauses cannot be read. -/
theorem nodup_normalForms {offers : List Offer} (hread : Readable offers)
    (hkeys : (clauseKeys (offers.flatMap Offer.clauses)).Nodup) : DifferentForms offers := by
  rw [clauseKeys, List.map_flatMap, List.nodup_flatMap] at hkeys
  refine List.pairwise_map.mpr (hkeys.2.imp_of_mem fun {first second} hfirst _ hdisjoint hsame ↦ ?_)
  obtain ⟨key, hkey⟩ := hread first hfirst
  obtain ⟨signature, hparse, -⟩ := Signature.normalForm_eq_ok_iff.mp hkey
  have hother : Signature.parse second.1 = .ok signature := by
    rw [← Signature.parse_eq_of_normalForm (hsame.symm.trans hkey),
      Signature.parse_eq_of_normalForm hkey, hparse]
  obtain ⟨names, hnames⟩ := exists_mem_choices signature.fixed
  have hshared : Pattern.key ⟨names, signature.rest⟩ ∈ signature.patterns.map Pattern.key :=
    List.mem_map_of_mem (List.mem_map_of_mem hnames)
  have hfirstKey := Offer.clauseKeys_clauses hparse ▸ hshared
  have hsecondKey := Offer.clauseKeys_clauses hother ▸ hshared
  exact hdisjoint hfirstKey hsecondKey

/-! ### Building from entries -/

@[simp] theorem normalSources_entries (offers : List Offer) : NormalSources [.entries offers] := by
  simp [NormalSources]

/-- An engine that ignores no type builds a multimethod from entries with different normal forms
exactly if the entries can be read, their clauses have different keys, and the routine of these can
be made. -/
theorem Engine.build_entries_eq_ok_iff {engine : Engine} (hignored : engine.ignored = [])
    {name : Option String} {offers : List Offer} (hdifferent : DifferentForms offers)
    (result : Dispatcher) :
    engine.build name [.entries offers] = .ok result ↔
      AllEqual (givenNames name []) ∧ Readable offers ∧
        (clauseKeys (offers.flatMap Offer.clauses)).Nodup ∧
        ∃ tree routine, Tree.ofClauses (offers.flatMap Offer.clauses) = .ok tree ∧
          Routine.ofTree engine.types engine.conversions tree = .ok routine ∧
          result = ⟨(givenNames name []).head?, .ofOffers offers, routine, engine.rescue⟩ := by
  have hnames : givenNames name [.entries offers] = givenNames name [] := rfl
  have hoffers : [Source.entries offers].flatMap Source.offers = offers :=
    List.flatMap_singleton _ _
  rw [build_eq_ok_iff (normalSources_entries offers), hnames, collect, hoffers]
  have hassemble : Readable offers →
      (engine.assemble (givenNames name []).head? (.ofOffers offers) = .ok result ↔
        (clauseKeys (offers.flatMap Offer.clauses)).Nodup ∧
        ∃ tree routine, Tree.ofClauses (offers.flatMap Offer.clauses) = .ok tree ∧
          Routine.ofTree engine.types engine.conversions tree = .ok routine ∧
          result = ⟨(givenNames name []).head?, .ofOffers offers, routine, engine.rescue⟩) := by
    intro hread
    rw [assemble_eq_ok_iff, hignored]
    simp only [MethodTable.clauses_eq_ok_iff (isNormal_collected offers),
      expansion_collected hread hdifferent]
    constructor
    · rintro ⟨clauses, ⟨hkeys, rfl⟩, tree, htree, routine, hroutine, hresult⟩
      exact ⟨hkeys, tree, routine, htree, hroutine, hresult⟩
    · rintro ⟨hkeys, tree, routine, htree, hroutine, hresult⟩
      exact ⟨_, ⟨hkeys, rfl⟩, tree, htree, routine, hroutine, hresult⟩
  constructor
  · rintro ⟨hequal, haccept, hresult⟩
    have hread := readable_of_acceptable haccept
    exact ⟨hequal, hread, (hassemble hread).mp hresult⟩
  · rintro ⟨hequal, hread, hresult⟩
    exact ⟨hequal, acceptable_of_differentForms hread hdifferent, (hassemble hread).mpr hresult⟩

/-! ### Pieces -/

namespace Method

/-- The clauses of a method as entries. -/
def pieces (method : Method) : List Offer :=
  method.clauses.map fun clause ↦ (clause.pattern.key, clause.implementation)

/-- The key of a clause is a text of which the clause is the only one. -/
theorem clauses_of_key {clause : Clause} (hnormal : clause.pattern.IsNormal) :
    ∃ single, parse clause.pattern.key clause.implementation = .ok single ∧
      single.clauses = [clause] := by
  refine ⟨_, parse_clause_key hnormal, ?_⟩
  rw [clauses, Pattern.patterns_signature]
  rfl

/-- The pieces of a method have its clauses. -/
theorem flatMap_pieces {method : Method} (hnormal : method.signature.IsNormal) :
    method.pieces.flatMap Offer.clauses = method.clauses := by
  have hone : ∀ clause ∈ method.clauses,
      Offer.clauses (clause.pattern.key, clause.implementation) = [clause] := by
    intro clause hclause
    obtain ⟨single, hparse, hsingle⟩ := clauses_of_key (isNormal_of_mem_clauses hnormal hclause)
    rw [Offer.clauses_of_ok hparse, hsingle]
  rw [pieces, List.flatMap_map]
  exact (List.flatMap_congr hone).trans (List.flatMap_singleton' _)

theorem readable_pieces {method : Method} (hnormal : method.signature.IsNormal) :
    Readable method.pieces := by
  intro offer hmem
  obtain ⟨clause, hclause, rfl⟩ := List.mem_map.mp hmem
  exact ⟨_, Pattern.normalForm_key (isNormal_of_mem_clauses hnormal hclause)⟩

end Method

/-- An entry can be replaced by its pieces: what is built answers every call alike. -/
theorem Engine.exists_build_of_pieces {engine : Engine} (hignored : engine.ignored = [])
    {name : Option String} {before after : List Offer} {text : String}
    {implementation : Implementation} {method : Method}
    (hparse : Method.parse text implementation = .ok method)
    (hdifferent : DifferentForms (before ++ (text, implementation) :: after))
    {dispatcher : Dispatcher}
    (hbuild : engine.build name [.entries (before ++ (text, implementation) :: after)] =
      .ok dispatcher) :
    ∃ other, engine.build name [.entries (before ++ method.pieces ++ after)] = .ok other ∧
      ∀ arguments, other.call arguments = dispatcher.call arguments := by
  obtain ⟨signature, hsignature, hmethod⟩ := map_eq_ok_iff.mp hparse
  have hnormal : method.signature.IsNormal := by
    rw [← hmethod]
    exact Signature.isNormal_of_parse hsignature
  have hclauses : (before ++ method.pieces ++ after).flatMap Offer.clauses =
      (before ++ (text, implementation) :: after).flatMap Offer.clauses := by
    rw [List.flatMap_append, List.flatMap_append, List.flatMap_append, List.flatMap_cons,
      Method.flatMap_pieces hnormal, Offer.clauses_of_ok hparse, List.append_assoc]
  obtain ⟨hnames, hread, hkeys, tree, routine, htree, hroutine, rfl⟩ :=
    (build_entries_eq_ok_iff hignored hdifferent dispatcher).mp hbuild
  have hreadable : Readable (before ++ method.pieces ++ after) := by
    have hsplit := List.forall_mem_append.mp hread
    exact List.forall_mem_append.mpr
      ⟨List.forall_mem_append.mpr ⟨hsplit.1, Method.readable_pieces hnormal⟩,
        (List.forall_mem_cons.mp hsplit.2).2⟩
  rw [← hclauses] at hkeys htree
  exact ⟨_, (build_entries_eq_ok_iff hignored (nodup_normalForms hreadable hkeys) _).mpr
    ⟨hnames, hreadable, hkeys, tree, routine, htree, hroutine, rfl⟩, fun _ ↦ rfl⟩

/-- The clauses of a text are the ordered product of its slots: they come in the lexicographic order
of the ways to choose one alternative for every single argument, each way once and none of them
twice, and the repeated slot stays whole. Each of them stands on its own: its key is a text of which
it is the only clause, and an entry can be replaced by the keys of its clauses. -/
theorem clauses_stand_alone (text : String) (implementation : Implementation) (method : Method)
    (hparse : Method.parse text implementation = .ok method) :
    (∃ ways : List (List Nat), ways.Pairwise (· < ·) ∧
      (∀ way, way ∈ ways ↔ List.Forall₂ (fun position alternatives ↦
        position < alternatives.names.length) way method.signature.fixed) ∧
      List.Forall₂ (fun way clause ↦
        clause.pattern.fixed.map some = namesAt method.signature.fixed way) ways method.clauses) ∧
    method.clauses.length = method.signature.choiceCount ∧
    (clauseKeys method.clauses).Nodup ∧
    (∀ clause ∈ method.clauses, clause.implementation = implementation ∧
      clause.pattern.rest = method.signature.rest ∧
      clause.pattern.slotTexts = clause.pattern.fixed ++
        method.signature.rest.toList.map (fun alternatives ↦ "|".intercalate alternatives.names) ∧
      ∃ single, Method.parse clause.pattern.key clause.implementation = .ok single ∧
        single.clauses = [clause]) ∧
    ∀ (engine : Engine) (name : Option String) (before after : List Offer)
      (dispatcher : Dispatcher), engine.ignored = [] →
      ((before ++ (text, implementation) :: after).map
        fun entry ↦ Signature.normalForm entry.1).Nodup →
      engine.build name [.entries (before ++ (text, implementation) :: after)] = .ok dispatcher →
      ∃ other, engine.build name [.entries (before ++ method.clauses.map (fun clause ↦
          (clause.pattern.key, clause.implementation)) ++ after)] = .ok other ∧
        ∀ arguments, other.call arguments = dispatcher.call arguments := by
  obtain ⟨signature, hsignature, rfl⟩ := map_eq_ok_iff.mp hparse
  have hnormal := Signature.isNormal_of_parse hsignature
  refine ⟨⟨_, pairwise_places _, fun way ↦ ?_, Method.forall₂_places_clauses _⟩,
    Method.length_clauses _, Method.nodup_clauseKeys hnormal, fun clause hclause ↦ ?_,
    fun engine name before after dispatcher hignored hdifferent hbuild ↦
      Engine.exists_build_of_pieces hignored hparse hdifferent hbuild⟩
  · rw [mem_places_iff, List.forall₂_map_right_iff]
  · obtain ⟨hpattern, himplementation⟩ := (Method.mem_clauses_iff _ clause).mp hclause
    obtain ⟨names, -, hpattern⟩ := List.mem_map.mp hpattern
    have hrest : clause.pattern.rest = signature.rest := by rw [← hpattern]
    refine ⟨himplementation, hrest, ?_,
      Method.clauses_of_key (Method.isNormal_of_mem_clauses hnormal hclause)⟩
    rw [Pattern.slotTexts, hrest]
    rfl

/-- Two entries, one of which has two alternatives for its first argument. -/
def withUnion : List Offer :=
  [("Array", single), ("number | string, boolean ...", several)]

/-- The entry with two alternatives can be replaced by two entries, whose texts have no blanks. -/
theorem clauses_stand_alone_union :
    ∃ method dispatcher other,
      Method.parse "number | string, boolean ..." several = .ok method ∧
      clauseKeys method.clauses = ["number,boolean...", "string,boolean..."] ∧
      Engine.standard.build (some "area") [.entries withUnion] = .ok dispatcher ∧
      Engine.standard.build (some "area") [.entries [("Array", single),
        ("number,boolean...", several), ("string,boolean...", several)]] = .ok other ∧
      ∀ arguments, other.call arguments = dispatcher.call arguments := by
  obtain ⟨method, hparse, hkeys, hpieces⟩ : ∃ method,
      Method.parse "number | string, boolean ..." several = .ok method ∧
      clauseKeys method.clauses = ["number,boolean...", "string,boolean..."] ∧
      method.clauses.map (fun clause ↦ (clause.pattern.key, clause.implementation)) =
        [("number,boolean...", several), ("string,boolean...", several)] :=
    ⟨_, rfl, rfl, rfl⟩
  have hclauses : withUnion.flatMap Offer.clauses =
      [⟨⟨["Array"], none⟩, single⟩, ⟨⟨["number"], some (.single "boolean")⟩, several⟩,
        ⟨⟨["string"], some (.single "boolean")⟩, several⟩] := rfl
  have hread : Readable withUnion := by
    simp only [Readable, withUnion, List.forall_mem_cons]
    exact ⟨⟨_, rfl⟩, ⟨_, rfl⟩, nofun⟩
  have hdistinct : (clauseKeys (withUnion.flatMap Offer.clauses)).Nodup := by
    rw [hclauses]
    decide
  have hdifferent := nodup_normalForms hread hdistinct
  obtain ⟨tree, htree, routine, hroutine⟩ : ∃ tree, Tree.ofClauses
      [⟨⟨["Array"], none⟩, single⟩, ⟨⟨["number"], some (.single "boolean")⟩, several⟩,
        ⟨⟨["string"], some (.single "boolean")⟩, several⟩] = .ok tree ∧
      ∃ routine, Routine.ofTree .standard .empty tree = .ok routine :=
    ⟨_, rfl, _, rfl⟩
  rw [← hclauses] at htree
  have hbuild := (@Engine.build_entries_eq_ok_iff .standard rfl (some "area") _ hdifferent _).mpr
    ⟨allEqual_singleton "area", hread, hdistinct, tree, routine, htree, hroutine, rfl⟩
  obtain ⟨other, hother, hcall⟩ :=
    (clauses_stand_alone "number | string, boolean ..." several method hparse).2.2.2.2
      .standard (some "area") [("Array", single)] [] _ rfl hdifferent hbuild
  rw [hpieces] at hother
  exact ⟨method, _, other, hparse, hkeys, hbuild, hother, hcall⟩

end Multimethod
