import Multimethod.Proofs.Furthest
import Multimethod.Proofs.LookedUp

/-!
# Reports are truthful

The walk that makes a report notes the types of a branch before it tries any of them. So it has to
be shown that none of the reported types accepts the reported argument: had one of them accepted it,
or had a conversion that is wired there applied to it, some partial route would have gone on, and
would have stopped further away (`refuses_of_reaches`).

`run_reports_truthfully` says this of a call together with what the report says of the argument: the
actual type is the first registered one that accepts it. So the actual type is never among the
expected ones, unless no type accepts the argument at all.
-/

set_option autoImplicit false
set_option relaxedAutoImplicit false

namespace Multimethod

variable {types : TypeTable} {conversions : ConversionTable}

/-! ### Refused arguments -/

theorem take?_eq_none_iff {wired : List Conversion} {alternatives : Alternatives}
    {argument : Value} :
    alternatives.take? types wired argument = none ↔
      (∀ name ∈ alternatives.names, types.accepts name argument = false) ∧
      ∀ conversion ∈ alternatives.names.flatMap fun name ↦ wired.filter (·.target == name),
        conversion.output? types argument = none := by
  rw [Alternatives.take?]
  by_cases haccepts : alternatives.names.any (fun name ↦ types.accepts name argument) = true
  · rw [if_pos haccepts]
    obtain ⟨name, hname, haccepts⟩ := List.any_eq_true.mp haccepts
    simp only [reduceCtorEq, false_iff, not_and]
    intro hrefused
    rw [hrefused name hname] at haccepts
    cases haccepts
  · rw [if_neg haccepts, List.findSome?_eq_none_iff]
    rw [Bool.not_eq_true, List.any_eq_false] at haccepts
    simp only [Bool.not_eq_true] at haccepts
    exact (and_iff_right haccepts).symm

/-- An argument is neither one of the types that are expected at a stop nor converted to one. -/
def WiredStop.Refuses (types : TypeTable) (stop : WiredStop) (argument : Value) : Prop :=
  (∀ name ∈ stop.expected, types.accepts name argument = false) ∧
    ∀ conversion ∈ stop.wired, conversion.output? types argument = none

/-- A part of a tree without routes refuses the argument at each of its stops beyond which nothing
stops. -/
theorem refuses_of_reaches {node : Node} {arguments : List Value} {route : PartialRoute}
    {stop : WiredStop} (hawaits : node.Awaits arguments)
    (hnone : node.routes types conversions arguments = [])
    (hreaches : node.Reaches types conversions arguments route)
    (hstop : stop ∈ route.stops types conversions)
    (hfurthest : ∀ further, node.Reaches types conversions arguments further →
      ∀ other ∈ further.stops types conversions, other.position ≤ stop.position) :
    ∃ argument, arguments[stop.position]? = some argument ∧ stop.Refuses types argument := by
  rcases PartialRoute.mem_stops_iff.mp hstop with ⟨children, value, values, hpart, hleft, rfl⟩ |
    ⟨slots, hpart, slot, -, hslot⟩
  · have hvalue : arguments[route.taken.length]? = some value := by
      have hhead : route.left[0]? = some value := by rw [hleft]; rfl
      rw [hreaches.left_eq_drop, List.getElem?_drop] at hhead
      exact hhead
    refine ⟨value, hvalue, ?_⟩
    -- With a way on, the part behind it would stop further away.
    have hexits : Node.exits types conversions children value = [] := by
      rw [List.eq_nil_iff_forall_not_mem]
      intro exit hexit
      have hbeyond :
          route.part.Reaches types conversions route.left ⟨[exit.1], exit.2, values⟩ := by
        rw [hpart, hleft]
        exact .beyond hexit (.here exit.2 values)
      have hnext := hreaches.trans hbeyond
      obtain ⟨further, hfurther⟩ := PartialRoute.exists_mem_stops (hnext.awaits hawaits)
        (hnext.routes_eq_nil hnone)
      have hle := hfurthest _ hnext further hfurther
      obtain ⟨offset, -, hposition, -⟩ := PartialRoute.exists_left_of_mem_stops hfurther
      rw [hposition] at hle
      simp only [PartialRoute.after, List.length_append, List.length_singleton] at hle
      omega
    obtain ⟨hrefused, happlies⟩ := (exits_eq_nil_iff children value).mp hexits
    refine ⟨fun name hname ↦ ?_, happlies⟩
    obtain ⟨child, hchild, rfl⟩ := List.mem_map.mp hname
    exact hrefused child (by simpa using hchild)
  · obtain ⟨offset, argument, hargument, hrefused, rfl⟩ := exists_refused_of_stop? hslot
    rw [hreaches.left_eq_drop, List.getElem?_drop] at hargument
    exact ⟨argument, hargument, take?_eq_none_iff.mp hrefused⟩

/-! ### Registered names -/

/-- What a part looks up is looked up by every node that leads to the part. -/
theorem Node.Reaches.looksUp {node : Node} {values : List Value} {route : PartialRoute}
    {name : String} (hreaches : node.Reaches types conversions values route)
    (hlooks : route.part.LooksUp conversions name) : node.LooksUp conversions name := by
  induction hreaches with
  | here _ _ => exact hlooks
  | beyond hexit _ ih =>
    obtain ⟨child, hchild, hpart, -⟩ := exists_child_of_mem_exits hexit
    exact .under hchild (hpart ▸ ih hlooks)

theorem PartialRoute.looksUp_of_expected {route : PartialRoute} {stop : WiredStop}
    (hstop : stop ∈ route.stops types conversions) {name : String} (hname : name ∈ stop.expected) :
    route.part.LooksUp conversions name := by
  obtain ⟨taken, part, left⟩ := route
  rcases mem_stops_iff.mp hstop with ⟨children, value, values, rfl, -, rfl⟩ |
    ⟨slots, rfl, slot, hslotMem, hslot⟩
  · obtain ⟨child, hchild, rfl⟩ := List.mem_map.mp hname
    exact .child (by simpa using hchild)
  · obtain ⟨offset, argument, -, -, rfl⟩ := exists_refused_of_stop? hslot
    exact .alternative hslotMem hname

namespace TypeTable

/-- The type of a value is the first one that accepts it. -/
theorem classify_cases (types : TypeTable) (value : Value) :
    (∃ before type after, types.types = before ++ type :: after ∧
      (∀ earlier ∈ before, earlier.accepts value = false) ∧ type.accepts value = true ∧
        types.classify value = type.name) ∨
    (∀ type ∈ types.types, type.accepts value = false) ∧ types.classify value = "unknown" := by
  unfold classify
  cases hfind : types.types.find? (·.accepts value) with
  | none =>
    exact Or.inr ⟨fun type hmem ↦ Bool.not_eq_true _ ▸ List.find?_eq_none.mp hfind type hmem, rfl⟩
  | some type =>
    obtain ⟨haccepts, before, after, hsplit, hbefore⟩ := List.find?_eq_some_iff_append.mp hfind
    refine Or.inl ⟨before, type, after, hsplit, fun earlier hmem ↦ ?_, haccepts, rfl⟩
    simpa using hbefore earlier hmem

/-- The name of a registered type stands for this type. -/
theorem accepts_of_mem {types : TypeTable} {type : ValueType} (hmem : type ∈ types.types)
    {value : Value} (haccepts : type.accepts value = true) :
    types.accepts type.name value = true := by
  obtain ⟨found, hfound⟩ := Option.isSome_iff_exists.mp
    ((types.isSome_find?_iff type.name).mpr (List.mem_map_of_mem hmem))
  have hname : found.name = type.name := by simpa using List.find?_some hfound
  have hsame := List.inj_on_of_nodup_map types.nodup (List.mem_of_find?_eq_some hfound) hmem hname
  rw [accepts, hfound, hsame, Option.any_some, haccepts, Bool.or_true]

end TypeTable

/-! ### The report of a call -/

/-- A call that is not matched stops only where the argument is refused, at the greatest position at
which it stops at all. -/
theorem Tree.Represents.refuses {tree : Tree} {clauses : List Clause}
    (hrepresents : tree.Represents clauses) {arguments : List Value} {index : Nat}
    (hnone : tree.routes types conversions arguments = [])
    (hgreatest : IsGreatest {position | ∃ stop ∈ tree.stops types conversions arguments,
      stop.position = position} index) {stop : WiredStop}
    (hstop : stop ∈ tree.stops types conversions arguments) (hindex : stop.position = index) :
    ∃ argument, arguments[index]? = some argument ∧ stop.Refuses types argument := by
  obtain ⟨group, hgroup, haccepts, route, hreaches, hroute⟩ := Tree.mem_stops_iff.mp hstop
  have hgroupNone :=
    List.flatMap_eq_nil_iff.mp hnone group (List.mem_filter.mpr ⟨hgroup, haccepts⟩)
  rw [← hindex]
  refine refuses_of_reaches (hrepresents.awaits hgroup haccepts) hgroupNone hreaches hroute
    fun further hfurther other hother ↦ ?_
  rw [hindex]
  exact hgreatest.2 ⟨other,
    Tree.mem_stops_iff.mpr ⟨group, hgroup, haccepts, further, hfurther, hother⟩, rfl⟩

/-- The report of a call that is not matched is true of the reported argument. Every expected type
is a registered one that does not accept it, and no conversion applies to it that is wired where one
of these types was expected. The actual type is the first registered one that accepts it, or it is
reported as unknown if there is none; only in this case can it be among the expected types. -/
theorem run_reports_truthfully (types : TypeTable) (conversions : ConversionTable)
    (clauses : List Clause) (tree : Tree) (routine : Routine)
    (htree : Tree.ofClauses clauses = .ok tree)
    (hroutine : Routine.ofTree types conversions tree = .ok routine) (function : Option String)
    (arguments : List Value) (name : Option String) (index : Nat) (actual : String)
    (expected : List String)
    (hrun : routine.run function arguments = .error (.argumentType name index actual expected)) :
    ∃ argument, arguments[index]? = some argument ∧
      (∀ type ∈ expected,
        type ≠ wildcard ∧ type ∈ types.names ∧ types.accepts type argument = false) ∧
      (∀ stop ∈ tree.stops types conversions arguments, stop.position = index →
        (∀ type ∈ stop.expected, type ∈ expected) ∧
          ∀ conversion ∈ stop.wired, conversion.output? types argument = none) ∧
      ((∃ before type after, types.types = before ++ type :: after ∧
          (∀ earlier ∈ before, earlier.accepts argument = false) ∧
            type.accepts argument = true ∧ actual = type.name) ∨
        (∀ type ∈ types.types, type.accepts argument = false) ∧ actual = "unknown") ∧
      (actual ∈ expected →
        (∀ type ∈ types.types, type.accepts argument = false) ∧ actual = "unknown") := by
  obtain ⟨hnone, hgreatest, hexpected⟩ := report_of_run htree hroutine hrun
  have hrepresents := Tree.represents_ofClauses htree
  obtain ⟨furthest, hfurthest, hposition⟩ := hgreatest.1
  obtain ⟨argument, hargument, -⟩ := hrepresents.refuses hnone hgreatest hfurthest hposition
  have hrefuses : ∀ stop ∈ tree.stops types conversions arguments, stop.position = index →
      stop.Refuses types argument := by
    intro stop hstop hindex
    obtain ⟨found, hfound, hrefuses⟩ := hrepresents.refuses hnone hgreatest hstop hindex
    rw [hargument] at hfound
    exact Option.some.inj hfound ▸ hrefuses
  have hmem : ∀ type, type ∈ expected ↔
      ∃ stop ∈ tree.stops types conversions arguments, stop.position = index ∧
        type ∈ stop.expected := by
    intro type
    simp [hexpected, and_assoc]
  have hnames : ∀ type ∈ expected,
      type ≠ wildcard ∧ type ∈ types.names ∧ types.accepts type argument = false := by
    intro type htype
    obtain ⟨stop, hstop, hindex, htype⟩ := (hmem type).mp htype
    have hrefused := (hrefuses stop hstop hindex).1 type htype
    have hordinary : type ≠ wildcard := by
      rintro rfl
      simp [TypeTable.accepts] at hrefused
    obtain ⟨group, hgroup, -, route, hreaches, hroute⟩ := Tree.mem_stops_iff.mp hstop
    have hknown := Routine.exists_ofTree_iff.mp ⟨routine, hroutine⟩ type
      ⟨group, hgroup, hreaches.looksUp (PartialRoute.looksUp_of_expected hroute htype)⟩
    exact ⟨hordinary, ((types.contains_eq_true_iff type).mp hknown).resolve_left hordinary,
      hrefused⟩
  obtain ⟨-, -, -, -, hreported, -⟩ := mismatch_of_run hrun
  have hactual : actual = types.classify argument := by
    rw [hreported, Routine.actualType, hargument, (ofTree_eq_ok hroutine).2]
  have hclassify := types.classify_cases argument
  rw [← hactual] at hclassify
  refine ⟨argument, hargument, hnames, fun stop hstop hindex ↦
    ⟨fun type htype ↦ (hmem type).mpr ⟨stop, hstop, hindex, htype⟩,
      (hrefuses stop hstop hindex).2⟩, hclassify, fun hamong ↦ ?_⟩
  rcases hclassify with ⟨before, type, after, hsplit, -, haccepts, rfl⟩ | hunknown
  · have htype : type ∈ types.types := by
      rw [hsplit]
      exact List.mem_append_right _ List.mem_cons_self
    have hrefused := (hnames type.name hamong).2.2
    rw [TypeTable.accepts_of_mem htype haccepts] at hrefused
    cases hrefused
  · exact hunknown

/-- An object is neither a text nor an array, which are expected for it in both groups, and the
conversion that wraps an absent value is wired there and does not apply. -/
theorem run_reports_truthfully_overlapping :
    ∃ tree routine, Tree.ofClauses overlapping = .ok tree ∧
      Routine.ofTree .standard wrapping tree = .ok routine ∧
      routine.run none [.boolean true, .object []] =
        .error (.argumentType none 1 "Object" ["string", "Array"]) ∧
      (∀ type ∈ ["string", "Array"], type ≠ wildcard ∧ type ∈ TypeTable.standard.names ∧
        TypeTable.standard.accepts type (.object []) = false) ∧
      ∃ stop ∈ tree.stops .standard wrapping [.boolean true, .object []], stop.position = 1 ∧
        stop.wired ≠ [] ∧
          ∀ conversion ∈ stop.wired, conversion.output? .standard (.object []) = none := by
  obtain ⟨tree, htree, routine, hroutine, hrun, stop, hstop, hposition, hwired⟩ :
      ∃ tree, Tree.ofClauses overlapping = .ok tree ∧
        ∃ routine, Routine.ofTree .standard wrapping tree = .ok routine ∧
          routine.run none [.boolean true, .object []] =
            .error (.argumentType none 1 "Object" ["string", "Array"]) ∧
          ∃ stop ∈ tree.stops .standard wrapping [.boolean true, .object []],
            stop.position = 1 ∧ stop.wired ≠ [] :=
    ⟨_, rfl, _, rfl, rfl, _, .tail _ (.tail _ (.head _)), rfl, List.cons_ne_nil _ _⟩
  obtain ⟨argument, hargument, hnames, hrefused, -, -⟩ := run_reports_truthfully .standard wrapping
    overlapping tree routine htree hroutine none _ none 1 _ _ hrun
  cases hargument
  exact ⟨tree, routine, htree, hroutine, hrun, hnames, stop, hstop, hposition, hwired,
    (hrefused stop hstop hposition).2⟩

end Multimethod
