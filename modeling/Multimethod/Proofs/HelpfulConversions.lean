import Multimethod.Proofs.LookedUp

/-!
# The conversions that help

`ConversionTable.toward` goes through the conversions once and compares each of them with the
targets and with what it has selected so far. `Conversion.HelpsAfter` says which conversions it
selects without that growing result: those that lead from outside the targets into them, and are the
first to do so from their source.

A source is selected exactly if it is not among the targets and some conversion leads from it into
them (`mem_sources_toward_iff`). So one more conversion is put at the end or left out, and which of
the two depends on the registered conversions alone (`toward_concat`). From this follows the rule
for the whole table (`toward_eq_filter_places`).
-/

set_option autoImplicit false
set_option relaxedAutoImplicit false

namespace Multimethod

/-- After the conversions before it, a conversion helps where one of the targets is expected: it
leads from outside the targets into them, and no earlier one does so from its source. -/
def Conversion.HelpsAfter (targets : List String) (before : List Conversion)
    (conversion : Conversion) : Prop :=
  conversion.target ∈ targets ∧ conversion.source ∉ targets ∧
    ∀ earlier ∈ before, earlier.source = conversion.source → earlier.target ∉ targets

instance (targets : List String) (before : List Conversion) (conversion : Conversion) :
    Decidable (conversion.HelpsAfter targets before) :=
  inferInstanceAs (Decidable (_ ∧ _ ∧ ∀ earlier ∈ before, _ → _))

namespace ConversionTable

/-! ### One more conversion -/

theorem extend_eq_ite (targets : List String) (wired : List Conversion) (conversion : Conversion) :
    extend targets wired conversion =
      if conversion.target ∈ targets ∧ conversion.source ∉ targets ∧
          conversion.source ∉ wired.map Conversion.source then wired ++ [conversion]
      else wired := by
  have hsource : wired.any (·.source == conversion.source) = true ↔
      conversion.source ∈ wired.map Conversion.source := by
    simp
  unfold extend
  simp only [Bool.and_eq_true, Bool.not_eq_true', ← Bool.not_eq_true, List.contains_iff_mem,
    hsource, and_assoc]

/-- A conversion that leads from outside the targets into them has its source selected, be it by an
earlier one. -/
theorem mem_sources_extend_iff {targets : List String} {wired : List Conversion}
    {conversion : Conversion} {name : String} :
    name ∈ (extend targets wired conversion).map Conversion.source ↔
      name ∈ wired.map Conversion.source ∨
        name ∉ targets ∧ conversion.source = name ∧ conversion.target ∈ targets := by
  rw [extend_eq_ite]
  split_ifs with hhelps
  · obtain ⟨htarget, hsource, -⟩ := hhelps
    rw [List.map_append, List.mem_append, List.map_singleton, List.mem_singleton]
    refine or_congr_right ⟨?_, fun hname ↦ hname.2.1.symm⟩
    rintro rfl
    exact ⟨hsource, rfl, htarget⟩
  · refine (or_iff_left_of_imp ?_).symm
    rintro ⟨hsource, rfl, htarget⟩
    by_contra hnew
    exact hhelps ⟨htarget, hsource, hnew⟩

/-- The selected sources are those outside the targets from which a conversion leads into them. -/
theorem mem_sources_toward_iff (table : ConversionTable) (targets : List String) (name : String) :
    name ∈ (table.toward targets).map Conversion.source ↔
      name ∉ targets ∧ ∃ conversion ∈ table.conversions,
        conversion.source = name ∧ conversion.target ∈ targets := by
  obtain ⟨conversions⟩ := table
  unfold toward
  induction conversions using List.reverseRecOn with
  | nil => simp
  | append_singleton before conversion ih =>
    rw [List.foldl_append, List.foldl_cons, List.foldl_nil, mem_sources_extend_iff, ih,
      ← and_or_left]
    simp only [List.mem_append, List.mem_singleton, or_and_right, exists_or, exists_eq_left]

/-- A conversion helps exactly if it leads from outside the targets into them and its source was not
selected before. -/
theorem helpsAfter_iff {targets : List String} {before : List Conversion}
    {conversion : Conversion} :
    conversion.HelpsAfter targets before ↔
      conversion.target ∈ targets ∧ conversion.source ∉ targets ∧
        conversion.source ∉ (toward ⟨before⟩ targets).map Conversion.source := by
  refine and_congr_right fun _ ↦ and_congr_right fun hsource ↦ ?_
  rw [mem_sources_toward_iff]
  simp [hsource]

/-- One more conversion is put after those that helped before, or nothing changes. -/
theorem toward_concat (before : List Conversion) (conversion : Conversion)
    (targets : List String) :
    toward ⟨before ++ [conversion]⟩ targets =
      toward ⟨before⟩ targets ++
        if conversion.HelpsAfter targets before then [conversion] else [] := by
  have hextend : toward ⟨before ++ [conversion]⟩ targets =
      extend targets (toward ⟨before⟩ targets) conversion := List.foldl_append
  simp only [hextend, extend_eq_ite, helpsAfter_iff]
  split_ifs
  · rfl
  · exact (List.append_nil _).symm

/-! ### The whole table -/

/-- The conversions that help are those at the places where one helps after all before it. -/
theorem toward_eq_filter_places (table : ConversionTable) (targets : List String) :
    table.toward targets =
      (table.conversions.zipIdx.filter fun entry ↦
        entry.1.HelpsAfter targets (table.conversions.take entry.2)).map Prod.fst := by
  obtain ⟨conversions⟩ := table
  induction conversions using List.reverseRecOn with
  | nil => rfl
  | append_singleton before conversion ih =>
    -- The conversions before keep their places, and none of them comes after the new one.
    have hbefore : ∀ entry ∈ before.zipIdx,
        (before ++ [conversion]).take entry.2 = before.take entry.2 := fun _ hentry ↦
      List.take_append_of_le_length (Nat.le_of_lt (List.snd_lt_of_mem_zipIdx hentry))
    have hkept : (before.zipIdx.filter fun entry ↦
          entry.1.HelpsAfter targets ((before ++ [conversion]).take entry.2)) =
        before.zipIdx.filter fun entry ↦ entry.1.HelpsAfter targets (before.take entry.2) :=
      List.filter_congr fun entry hentry ↦ by rw [hbefore entry hentry]
    have hlast : (before ++ [conversion]).take before.length = before := List.take_left
    rw [toward_concat, ih, List.zipIdx_append, List.filter_append, List.map_append, hkept,
      List.zipIdx_singleton, Nat.zero_add]
    by_cases hhelps : conversion.HelpsAfter targets before <;> simp [hlast, hhelps]

/-- No two conversions that help start from one type. -/
theorem nodup_sources_toward (table : ConversionTable) (targets : List String) :
    ((table.toward targets).map Conversion.source).Nodup := by
  obtain ⟨conversions⟩ := table
  induction conversions using List.reverseRecOn with
  | nil => exact List.nodup_nil
  | append_singleton before conversion ih =>
    rw [toward_concat]
    split_ifs with hhelps
    · exact nodup_map_concat_iff.mpr ⟨ih, (helpsAfter_iff.mp hhelps).2.2⟩
    · rw [List.append_nil]
      exact ih

/-- The conversions that help where some types are expected are, in order of registration, those
that lead from outside these types into them without an earlier one that does so from the same
source. Therefore no two of them start from one type, only the set of the types counts, and a
conversion that is registered after others comes last or does not help. -/
theorem toward_selects_first_of_source (table : ConversionTable) (targets : List String) :
    table.toward targets =
        (table.conversions.zipIdx.filter fun entry ↦
          entry.1.HelpsAfter targets (table.conversions.take entry.2)).map Prod.fst ∧
      ((table.toward targets).map Conversion.source).Nodup ∧
      (∀ others : List String, (∀ name, name ∈ targets ↔ name ∈ others) →
        table.toward targets = table.toward others) ∧
      (∀ conversion : Conversion, toward ⟨table.conversions ++ [conversion]⟩ targets =
        table.toward targets ++
          if conversion.HelpsAfter targets table.conversions then [conversion] else []) ∧
      ∀ (types : TypeTable) (conversion : Conversion) (changed : ConversionTable),
        table.add types conversion = .ok changed →
          changed = ⟨table.conversions ++ [conversion]⟩ := by
  refine ⟨table.toward_eq_filter_places targets, table.nodup_sources_toward targets,
    fun _ ↦ table.toward_congr, fun conversion ↦ toward_concat table.conversions conversion targets,
    fun types conversion changed hadd ↦ ?_⟩
  obtain ⟨-, -, hchanged⟩ := add_eq_ok hadd
  exact congrArg mk hchanged

/-- Two conversions from one source, one between the types that are going to be expected, and one
that leads elsewhere. -/
def crowded : ConversionTable :=
  ⟨[⟨"null", "string", id⟩, ⟨"null", "number", id⟩, ⟨"string", "number", id⟩,
    ⟨"boolean", "Array", id⟩]⟩

/-- Of the two from one source the earlier one helps, in whatever way the expected types are listed,
and a conversion from another source comes after it. -/
theorem toward_selects_first_of_source_crowded :
    crowded.toward ["number", "string"] = [⟨"null", "string", id⟩] ∧
    crowded.toward ["number", "string"] = crowded.toward ["string", "number", "string"] ∧
    ∃ changed, crowded.add .standard ⟨"boolean", "string", id⟩ = .ok changed ∧
      changed.toward ["number", "string"] =
        [⟨"null", "string", id⟩, ⟨"boolean", "string", id⟩] := by
  obtain ⟨hselected, -, hset, hmore, hadd⟩ :=
    toward_selects_first_of_source crowded ["number", "string"]
  have hadded : crowded.add .standard ⟨"boolean", "string", id⟩ =
      .ok ⟨crowded.conversions ++ [⟨"boolean", "string", id⟩]⟩ := rfl
  refine ⟨hselected, hset _ fun name ↦ ?_, _, hadded, ?_⟩
  · simp only [List.mem_cons, List.not_mem_nil, or_false]
    tauto
  · rw [hadd _ _ _ hadded, hmore]
    exact congrArg (· ++ _) hselected

end ConversionTable

end Multimethod
