import Multimethod.Proofs.Fallback
import Multimethod.Proofs.HelpfulConversions
import Multimethod.Proofs.Truthful

/-!
# More conversions

The conversions that help are selected branch by branch, and a conversion can be kept out by an
earlier one with its source. A conversion that is registered after others is never in their way:
where some conversions helped, the same ones still help, in the same order, and the new one comes
after them (`toward_prefix`).

So every way on stays a way on (`exits_subset`), and whatever takes an argument still takes it, if
not always by the same conversion (`take?_eq_none_of_subset`). What was reached is reached, what had
a route has one, and a call that is not matched gets at least as far (`run_with_added_conversion`).
-/

set_option autoImplicit false
set_option relaxedAutoImplicit false

namespace Multimethod

/-! ### Conversions that help -/

namespace ConversionTable

/-- Conversions that help still help when more are registered after them. -/
theorem toward_prefix {conversions more : ConversionTable}
    (hmore : conversions.conversions <+: more.conversions) (targets : List String) :
    conversions.toward targets <+: more.toward targets := by
  obtain ⟨conversions⟩ := conversions
  obtain ⟨more⟩ := more
  obtain ⟨added, rfl⟩ := hmore
  induction added using List.reverseRecOn with
  | nil => simp
  | append_singleton added conversion ih =>
    rw [← List.append_assoc, toward_concat]
    exact ih.trans (List.prefix_append _ _)

end ConversionTable

variable {types : TypeTable} {conversions more : ConversionTable}

/-! ### Ways that stay -/

/-- Alternatives that refuse an argument refuse it when fewer conversions are wired. -/
theorem take?_eq_none_of_subset {wired further : List Conversion} (hwired : wired ⊆ further)
    {alternatives : Alternatives} {argument : Value}
    (hnone : alternatives.take? types further argument = none) :
    alternatives.take? types wired argument = none := by
  obtain ⟨hrefused, happlies⟩ := take?_eq_none_iff.mp hnone
  refine take?_eq_none_iff.mpr ⟨hrefused, fun conversion hconversion ↦ happlies conversion ?_⟩
  obtain ⟨name, hname, hmem⟩ := List.mem_flatMap.mp hconversion
  obtain ⟨hmem, htarget⟩ := List.mem_filter.mp hmem
  exact List.mem_flatMap.mpr ⟨name, hname, List.mem_filter.mpr ⟨hwired hmem, htarget⟩⟩

/-- A way on from a branch stays a way on when more conversions are registered. -/
theorem exits_subset (hmore : conversions.conversions <+: more.conversions)
    (children : List (String × Node)) (value : Value) :
    Node.exits types conversions children value ⊆ Node.exits types more children value := by
  intro exit hexit
  rcases List.mem_append.mp hexit with hdirect | hconverted
  · exact List.mem_append_left _ hdirect
  · obtain ⟨conversion, hconversion, hsome⟩ := List.mem_filterMap.mp hconverted
    have hwired := (ConversionTable.toward_prefix hmore _).subset hconversion
    exact List.mem_append_right _ (List.mem_filterMap.mpr ⟨conversion, hwired, hsome⟩)

/-- What is reached stays reached when more conversions are registered. -/
theorem Node.Reaches.mono (hmore : conversions.conversions <+: more.conversions) {node : Node}
    {values : List Value} {route : PartialRoute}
    (hreaches : node.Reaches types conversions values route) :
    node.Reaches types more values route := by
  induction hreaches with
  | here node values => exact .here node values
  | beyond hexit _ ih => exact .beyond (exits_subset hmore _ _ hexit) ih

/-- Arguments that a slot does not take with more conversions it does not take with fewer. -/
theorem mapM_take?_eq_none_of_subset {wired further : List Conversion} (hwired : wired ⊆ further)
    {alternatives : Alternatives} {values : List Value}
    (hnone : values.mapM (alternatives.take? types further) = none) :
    values.mapM (alternatives.take? types wired) = none := by
  obtain ⟨argument, hargument, hrefused⟩ := mapM_eq_none_iff.mp hnone
  cases hsome : values.mapM (alternatives.take? types wired) with
  | none => rfl
  | some items =>
    obtain ⟨item, -, hitem⟩ := exists_rel_of_mem_left (mapM_eq_some_iff.mp hsome) hargument
    exact nomatch (take?_eq_none_of_subset hwired hrefused).symm.trans hitem

/-- A node without routes for some arguments has none with fewer conversions. -/
theorem Node.routes_eq_nil_of_prefix (hmore : conversions.conversions <+: more.conversions)
    {node : Node} {values : List Value} (hnone : node.routes types more values = []) :
    node.routes types conversions values = [] := by
  induction values generalizing node with
  | nil =>
    cases node with
    | leaf clause => exact nomatch hnone
    | branch _ | remainder _ => rfl
  | cons value values ih =>
    cases node with
    | leaf clause => exact nomatch hnone
    | branch children =>
      rw [routes_branch, List.flatMap_eq_nil_iff] at hnone ⊢
      intro exit hexit
      have hbelow := hnone exit (exits_subset hmore children value hexit)
      rw [List.map_eq_nil_iff] at hbelow ⊢
      exact ih hbelow
    | remainder slots =>
      rw [routes, List.filterMap_eq_nil_iff] at hnone ⊢
      intro slot hslot
      have hrefused := hnone slot hslot
      rw [Option.map_eq_none_iff] at hrefused ⊢
      exact mapM_take?_eq_none_of_subset (ConversionTable.toward_prefix hmore _).subset hrefused

/-- A tree without routes for some arguments has none with fewer conversions. -/
theorem Tree.routes_eq_nil_of_prefix (hmore : conversions.conversions <+: more.conversions)
    {tree : Tree} {arguments : List Value} (hnone : tree.routes types more arguments = []) :
    tree.routes types conversions arguments = [] := by
  rw [Tree.routes, List.flatMap_eq_nil_iff] at hnone ⊢
  exact fun group hgroup ↦ Node.routes_eq_nil_of_prefix hmore (hnone group hgroup)

/-! ### Stops that move on -/

/-- Alternatives that refuse an argument with more conversions stop no earlier than with fewer. -/
theorem stop?_position_le {wired further : List Conversion} (hwired : wired ⊆ further)
    {alternatives : Alternatives} {position : Nat} {left : List Value} {stop later : WiredStop}
    (hstop : alternatives.stop? types wired position left = some stop)
    (hlater : alternatives.stop? types further position left = some later) :
    stop.position ≤ later.position := by
  obtain ⟨offset, hoffset, rfl⟩ := Option.map_eq_some_iff.mp hstop
  obtain ⟨beyond, hbeyond, rfl⟩ := Option.map_eq_some_iff.mp hlater
  obtain ⟨_, -, htaken⟩ := List.findIdx?_eq_some_iff_getElem.mp hoffset
  obtain ⟨hlt, hrefused, -⟩ := List.findIdx?_eq_some_iff_getElem.mp hbeyond
  -- What is refused with more conversions is refused with fewer, so it does not come earlier.
  have hnone := take?_eq_none_of_subset hwired (Option.isNone_iff_eq_none.mp hrefused)
  refine Nat.add_le_add_left (Nat.le_of_not_lt fun hearlier ↦ ?_) position
  exact htaken beyond hearlier (Option.isNone_iff_eq_none.mpr hnone)

/-- A part that has no route with more conversions has a stop there which is no nearer than any with
fewer conversions. -/
theorem PartialRoute.exists_further_stop (hmore : conversions.conversions <+: more.conversions)
    {route : PartialRoute} {stop : WiredStop} (hstop : stop ∈ route.stops types conversions)
    (hnone : route.part.routes types more route.left = []) :
    ∃ further ∈ route.stops types more, stop.position ≤ further.position := by
  rcases mem_stops_iff.mp hstop with ⟨children, value, values, hpart, hleft, rfl⟩ |
    ⟨slots, hpart, slot, hmem, hslot⟩
  · exact ⟨_, mem_stops_iff.mpr (Or.inl ⟨children, value, values, hpart, hleft, rfl⟩),
      Nat.le_refl _⟩
  · obtain ⟨taken, part, left⟩ := route
    cases left with
    | nil => exact nomatch hslot
    | cons value values =>
      obtain rfl : part = .remainder slots := hpart
      have hrefused := Option.map_eq_none_iff.mp (List.filterMap_eq_nil_iff.mp hnone slot
        ((types.mem_armsInOrder_iff slots slot).mpr hmem))
      obtain ⟨further, hfurther⟩ := exists_stop?_of_mapM_none hrefused taken.length
      exact ⟨further, mem_stops_iff.mpr (Or.inr ⟨slots, rfl, slot, hmem, hfurther⟩),
        stop?_position_le (ConversionTable.toward_prefix hmore _).subset hslot hfurther⟩

/-- A call that has no route with more conversions stops no nearer than with fewer. -/
theorem Tree.exists_further_stop (hmore : conversions.conversions <+: more.conversions)
    {tree : Tree} {arguments : List Value} (hnone : tree.routes types more arguments = [])
    {stop : WiredStop} (hstop : stop ∈ tree.stops types conversions arguments) :
    ∃ further ∈ tree.stops types more arguments, stop.position ≤ further.position := by
  obtain ⟨group, hgroup, haccepts, route, hreaches, hroute⟩ := Tree.mem_stops_iff.mp hstop
  have hgroupNone :=
    List.flatMap_eq_nil_iff.mp hnone group (List.mem_filter.mpr ⟨hgroup, haccepts⟩)
  have hreached := hreaches.mono hmore
  obtain ⟨further, hfurther, hle⟩ :=
    PartialRoute.exists_further_stop hmore hroute (hreached.routes_eq_nil hgroupNone)
  exact ⟨further, Tree.mem_stops_iff.mpr ⟨group, hgroup, haccepts, route, hreached, hfurther⟩, hle⟩

/-! ### Calls -/

/-- One more conversion leaves every matched call matched, by whichever route, and a call that is
reported for a wrong type of argument in both cases is reported no nearer to its start. -/
theorem run_with_added_conversion (types : TypeTable) (conversions more : ConversionTable)
    (conversion : Conversion) (hadd : conversions.add types conversion = .ok more)
    (clauses : List Clause) (tree : Tree) (routine other : Routine)
    (htree : Tree.ofClauses clauses = .ok tree)
    (hroutine : Routine.ofTree types conversions tree = .ok routine)
    (hother : Routine.ofTree types more tree = .ok other) (function : Option String)
    (arguments : List Value) :
    ((∃ outcome, routine.run function arguments = .ok outcome) →
      ∃ outcome, other.run function arguments = .ok outcome) ∧
    ∀ name named index position actual found expected others,
      routine.run function arguments = .error (.argumentType name index actual expected) →
      other.run function arguments = .error (.argumentType named position found others) →
        index ≤ position := by
  have hmore : conversions.conversions <+: more.conversions := by
    rw [(ConversionTable.add_eq_ok hadd).2.2]
    exact List.prefix_append _ _
  constructor
  · rw [exists_run_eq_ok_iff, exists_run_eq_ok_iff, ← Option.isSome_iff_exists,
      ← Option.isSome_iff_exists, select_eq_head?_tree_routes hroutine,
      select_eq_head?_tree_routes hother, List.isSome_head?, List.isSome_head?]
    exact mt (Tree.routes_eq_nil_of_prefix hmore)
  · intro name named index position actual found expected others hrun hagain
    obtain ⟨-, ⟨⟨stop, hstop, rfl⟩, -⟩, -⟩ := report_of_run htree hroutine hrun
    obtain ⟨hnone, ⟨-, hgreatest⟩, -⟩ := report_of_run htree hother hagain
    obtain ⟨further, hfurther, hle⟩ := Tree.exists_further_stop hmore hnone hstop
    exact hle.trans (hgreatest ⟨further, hfurther, rfl⟩)

/-- One clause for a boolean and any number of arrays after it. -/
def arraysAfter : List Clause :=
  [⟨⟨["boolean"], some (.single "Array")⟩, labelled 0 "list"⟩]

/-- A conversion that wraps a text. -/
def wrappingText : Conversion :=
  ⟨"string", "Array", fun value ↦ .array [value]⟩

/-- When texts are wrapped as well as absent values, a call with an absent value is still matched,
and a call with an object behind a text gets past the text. -/
theorem run_with_added_conversion_text :
    ∃ more tree routine other, wrapping.add .standard wrappingText = .ok more ∧
      Tree.ofClauses arraysAfter = .ok tree ∧
      Routine.ofTree .standard wrapping tree = .ok routine ∧
      Routine.ofTree .standard more tree = .ok other ∧
      (∃ outcome, routine.run none [.boolean true, .null] = .ok outcome) ∧
      (∃ outcome, other.run none [.boolean true, .null] = .ok outcome) ∧
      ∃ index position, index ≤ position ∧
        routine.run none [.boolean true, .null, .string "a", .object []] =
          .error (.argumentType none index "string" ["Array"]) ∧
        other.run none [.boolean true, .null, .string "a", .object []] =
          .error (.argumentType none position "Object" ["Array"]) := by
  obtain ⟨more, hadd, tree, htree, routine, hroutine, other, hother, hmatched, hrun, hagain⟩ :
      ∃ more, wrapping.add .standard wrappingText = .ok more ∧
        ∃ tree, Tree.ofClauses arraysAfter = .ok tree ∧
          ∃ routine, Routine.ofTree .standard wrapping tree = .ok routine ∧
            ∃ other, Routine.ofTree .standard more tree = .ok other ∧
              (∃ outcome, routine.run none [.boolean true, .null] = .ok outcome) ∧
              routine.run none [.boolean true, .null, .string "a", .object []] =
                .error (.argumentType none 2 "string" ["Array"]) ∧
              other.run none [.boolean true, .null, .string "a", .object []] =
                .error (.argumentType none 3 "Object" ["Array"]) :=
    ⟨_, rfl, _, rfl, _, rfl, _, rfl, ⟨_, rfl⟩, rfl, rfl⟩
  have hcall := run_with_added_conversion .standard wrapping more wrappingText hadd arraysAfter
    tree routine other htree hroutine hother none
  exact ⟨more, tree, routine, other, hadd, htree, hroutine, hother, hmatched,
    (hcall _).1 hmatched, 2, 3, (hcall _).2 _ _ _ _ _ _ _ _ hrun hagain, hrun, hagain⟩

end Multimethod
