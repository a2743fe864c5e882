import Multimethod.Proofs.LookedUp
import Multimethod.Proofs.Routes
import Multimethod.Proofs.WaysDown

/-!
# The names that have to be known

Types and conversions may come from different tables, so that a conversion may name a type that the
types do not have. Making the routine of a tree needs all the names that the parts of the tree spell
out, and at each part both ends of the conversions that help there (`Node.Needs`). These are exactly
the names that planning looks up (`Node.looksUp_iff`).

So the routine can be made exactly if all these names are known (`planning_resolves_names`), and
otherwise one of the unknown ones is reported. A routine that was made never misses a name: it fails
only because no clause takes the arguments of a call.
-/

set_option autoImplicit false
set_option relaxedAutoImplicit false

namespace Multimethod

/-! ### Registered conversions -/

/-- The conversions were registered one after the other, each against some types. -/
inductive ConversionTable.Registered : ConversionTable → Prop
  | empty : Registered .empty
  | add {table changed : ConversionTable} {types : TypeTable} {conversion : Conversion}
      (htable : Registered table) (hadd : table.add types conversion = .ok changed) :
      Registered changed

/-- No registered conversion starts from or leads to the wildcard. -/
theorem ConversionTable.Registered.ne_wildcard {table : ConversionTable}
    (hregistered : table.Registered) {conversion : Conversion}
    (hmem : conversion ∈ table.conversions) :
    conversion.source ≠ wildcard ∧ conversion.target ≠ wildcard := by
  induction hregistered with
  | empty => exact absurd hmem List.not_mem_nil
  | add _ hadd ih =>
    obtain ⟨⟨hsource, -⟩, ⟨htarget, -⟩, hchanged⟩ := ConversionTable.add_eq_ok hadd
    rw [hchanged] at hmem
    rcases List.mem_append.mp hmem with hold | hnew
    · exact ih hold
    · rw [List.mem_singleton.mp hnew]
      exact ⟨hsource, htarget⟩

/-! ### The names of a part -/

namespace Node

/-- The names that a part of a tree spells out: those of the parts below it, or all the alternatives
of its repeated slots. -/
def names : Node → List String
  | .leaf _ => []
  | .branch children => children.map Prod.fst
  | .remainder arms => arms.flatMap (·.1.names)

/-- A part of a tree needs a name: it spells the name out, or the name is an end of a conversion
that helps there. -/
def Needs (conversions : ConversionTable) (part : Node) (name : String) : Prop :=
  name ∈ part.names ∨ ∃ conversion ∈ conversions.toward part.names,
    name = conversion.source ∨ name = conversion.target

variable {conversions : ConversionTable} {name : String}

/-- No conversion helps where all arguments are accounted for. -/
@[simp] theorem not_needs_leaf (clause : Clause) : ¬ (leaf clause).Needs conversions name := by
  rintro (hname | ⟨conversion, hwired, -⟩)
  · exact List.not_mem_nil hname
  · exact List.not_mem_nil (ConversionTable.mem_of_mem_toward hwired).2

theorem LooksUp.of_needs {node : Node} (hneeds : node.Needs conversions name) :
    node.LooksUp conversions name := by
  cases node with
  | leaf clause => exact absurd hneeds (not_needs_leaf clause)
  | branch children =>
    rcases hneeds with hname | ⟨conversion, hwired, hend⟩
    · obtain ⟨child, hchild, rfl⟩ := List.mem_map.mp hname
      exact .child hchild
    · exact .wiredToChild hwired hend
  | remainder arms =>
    rcases hneeds with hname | ⟨conversion, hwired, hend⟩
    · obtain ⟨arm, harm, hin⟩ := List.mem_flatMap.mp hname
      exact .alternative harm hin
    · exact .wiredToSlot hwired hend

/-- What a part of a node looks up is looked up by the node. -/
theorem LooksUp.of_leads {node part : Node} {way : List String} (hleads : node.Leads way part)
    (hneeds : part.Needs conversions name) : node.LooksUp conversions name := by
  induction hleads with
  | here node => exact .of_needs hneeds
  | @down node below part slot slots hmem _ ih =>
    cases node with
    | leaf clause => exact absurd hmem List.not_mem_nil
    | branch children => exact .under hmem (ih hneeds)
    | remainder arms =>
      obtain ⟨arm, -, hpair⟩ := List.mem_map.mp hmem
      obtain ⟨-, rfl⟩ := Prod.mk.inj hpair
      exact nomatch ih hneeds

/-- Planning a node looks up the names that its parts need. -/
theorem looksUp_iff (conversions : ConversionTable) (node : Node) (name : String) :
    node.LooksUp conversions name ↔
      ∃ way part, node.Leads way part ∧ part.Needs conversions name := by
  constructor
  · intro hlooks
    induction hlooks with
    | alternative hslot hname =>
      exact ⟨[], _, .here _, Or.inl (List.mem_flatMap.mpr ⟨_, hslot, hname⟩)⟩
    | wiredToSlot hwired hend => exact ⟨[], _, .here _, Or.inr ⟨_, hwired, hend⟩⟩
    | child hchild => exact ⟨[], _, .here _, Or.inl (List.mem_map_of_mem hchild)⟩
    | wiredToChild hwired hend => exact ⟨[], _, .here _, Or.inr ⟨_, hwired, hend⟩⟩
    | under hchild _ ih =>
      obtain ⟨way, part, hleads, hneeds⟩ := ih
      exact ⟨_, part, .down hchild hleads, hneeds⟩
  · rintro ⟨way, part, hleads, hneeds⟩
    exact .of_leads hleads hneeds

end Node

/-- A node is a part of a tree: a way leads to it. -/
def Tree.HasPart (tree : Tree) (part : Node) : Prop :=
  ∃ group ∈ tree.groups, ∃ way, group.2.Leads way part

theorem Tree.looksUp_iff (tree : Tree) (conversions : ConversionTable) (name : String) :
    tree.LooksUp conversions name ↔ ∃ part, tree.HasPart part ∧ part.Needs conversions name := by
  simp only [Tree.LooksUp, Node.looksUp_iff, Tree.HasPart]
  constructor
  · rintro ⟨group, hgroup, way, part, hleads, hneeds⟩
    exact ⟨part, ⟨group, hgroup, way, hleads⟩, hneeds⟩
  · rintro ⟨part, ⟨group, hgroup, way, hleads⟩, hneeds⟩
    exact ⟨group, hgroup, way, part, hleads, hneeds⟩

/-! ### Making a routine -/

/-- All the names that a part needs are known. -/
theorem Node.forall_needs_iff {conversions : ConversionTable}
    (hregistered : conversions.Registered) (types : TypeTable) (part : Node) :
    (∀ name, part.Needs conversions name → types.contains name = true) ↔
      (∀ name ∈ part.names, name = wildcard ∨ name ∈ types.names) ∧
        ∀ conversion ∈ conversions.toward part.names,
          conversion.source ∈ types.names ∧ conversion.target ∈ types.names := by
  simp only [types.contains_eq_true_iff]
  constructor
  · intro hknown
    refine ⟨fun name hname ↦ hknown name (Or.inl hname), fun conversion hwired ↦ ?_⟩
    obtain ⟨hsource, htarget⟩ :=
      hregistered.ne_wildcard (ConversionTable.mem_of_mem_toward hwired).1
    have hends : ∀ name, name = conversion.source ∨ name = conversion.target →
        name = wildcard ∨ name ∈ types.names :=
      fun name hend ↦ hknown name (Or.inr ⟨conversion, hwired, hend⟩)
    exact ⟨(hends _ (Or.inl rfl)).resolve_left hsource, (hends _ (Or.inr rfl)).resolve_left htarget⟩
  · rintro ⟨hnames, hends⟩ name (hname | ⟨conversion, hwired, rfl | rfl⟩)
    · exact hnames name hname
    · exact Or.inr (hends conversion hwired).1
    · exact Or.inr (hends conversion hwired).2

/-- A call of a routine fails only because no clause takes so many arguments or arguments of these
types. -/
theorem Routine.mismatch_of_run {routine : Routine} {function : Option String}
    {arguments : List Value} {failure : Failure}
    (hrun : routine.run function arguments = .error failure) :
    (∃ expected, failure = .argumentCount function arguments.length expected) ∨
      ∃ position actual expected, failure = .argumentType function position actual expected := by
  have hfailure : failure = routine.mismatch function arguments := by
    rw [routine.run_eq_select] at hrun
    cases hselect : routine.select arguments with
    | none =>
      rw [hselect] at hrun
      exact (Except.error.inj hrun).symm
    | some selection =>
      rw [hselect] at hrun
      exact nomatch hrun
  rw [hfailure, mismatch]
  split_ifs
  · exact Or.inl ⟨_, rfl⟩
  · exact Or.inr ⟨_, _, _, rfl⟩

/-- The routine of a tree can be made exactly if, at every part of the tree, all names are known and
both ends of every conversion that helps there. Otherwise a name that is needed and not known is
reported, with the known name nearest to it. A routine that was made fails only because no clause
takes so many arguments or arguments of these types. -/
theorem planning_resolves_names (types : TypeTable) (conversions : ConversionTable)
    (hregistered : conversions.Registered) (tree : Tree) :
    ((∃ routine, Routine.ofTree types conversions tree = .ok routine) ↔
      ∀ part, tree.HasPart part →
        (∀ name ∈ part.names, name = wildcard ∨ name ∈ types.names) ∧
          ∀ conversion ∈ conversions.toward part.names,
            conversion.source ∈ types.names ∧ conversion.target ∈ types.names) ∧
    (∀ failure, Routine.ofTree types conversions tree = .error failure →
      ∃ part name, tree.HasPart part ∧ part.Needs conversions name ∧
        name ≠ wildcard ∧ name ∉ types.names ∧
        failure = .unknownType name (Text.nearest name types.names)) ∧
    ∀ routine, Routine.ofTree types conversions tree = .ok routine →
      ∀ function arguments failure, routine.run function arguments = .error failure →
        (∃ expected, failure = .argumentCount function arguments.length expected) ∨
          ∃ position actual expected,
            failure = .argumentType function position actual expected := by
  refine ⟨?_, fun failure herror ↦ ?_, fun routine _ function arguments failure hrun ↦ ?_⟩
  · rw [Routine.exists_ofTree_iff]
    simp only [tree.looksUp_iff, ← Node.forall_needs_iff hregistered]
    constructor
    · intro hknown part hpart name hneeds
      exact hknown name ⟨part, hpart, hneeds⟩
    · rintro hknown name ⟨part, hpart, hneeds⟩
      exact hknown part hpart name hneeds
  · obtain ⟨name, hlooks, hunknown, hfailure⟩ := Routine.ofTree_eq_error herror
    obtain ⟨part, hpart, hneeds⟩ := (tree.looksUp_iff conversions name).mp hlooks
    obtain ⟨hwildcard, hname⟩ := (types.contains_eq_false_iff name).mp hunknown
    exact ⟨part, name, hpart, hneeds, hwildcard, hname, hfailure⟩
  · exact Routine.mismatch_of_run hrun

/-- Types among which there is none for an absent value. -/
def withoutNull : TypeTable where
  types := [.ofKind .boolean false, .ofKind .string false, .ofKind .array false]

/-- The conversion was registered against the standard types. Against types without its source, the
routine cannot be made, although the tree names known types only: the conversion helps at a part. -/
theorem planning_resolves_names_wrapping :
    wrapping.Registered ∧ ∃ tree routine, Tree.ofClauses overlapping = .ok tree ∧
      Routine.ofTree .standard wrapping tree = .ok routine ∧
      routine.run none [.null] = .error (.argumentCount none 1 "2 or 2 or more") ∧
      Routine.ofTree withoutNull wrapping tree = .error (.unknownType "null" none) ∧
      ¬ ∀ part, tree.HasPart part →
        (∀ name ∈ part.names, name = wildcard ∨ name ∈ withoutNull.names) ∧
          ∀ conversion ∈ wrapping.toward part.names,
            conversion.source ∈ withoutNull.names ∧ conversion.target ∈ withoutNull.names := by
  have hadd : ConversionTable.empty.add .standard ⟨"null", "Array", fun value ↦ .array [value]⟩ =
      .ok wrapping := rfl
  have hregistered : wrapping.Registered := .add .empty hadd
  obtain ⟨tree, htree, routine, hroutine, hrun, herror⟩ : ∃ tree,
      Tree.ofClauses overlapping = .ok tree ∧
      ∃ routine, Routine.ofTree .standard wrapping tree = .ok routine ∧
        routine.run none [.null] = .error (.argumentCount none 1 "2 or 2 or more") ∧
        Routine.ofTree withoutNull wrapping tree = .error (.unknownType "null" none) :=
    ⟨_, rfl, _, rfl, rfl, rfl⟩
  refine ⟨hregistered, tree, routine, htree, hroutine, hrun, herror, fun hknown ↦ ?_⟩
  obtain ⟨other, hother⟩ :=
    (planning_resolves_names withoutNull wrapping hregistered tree).1.mpr hknown
  exact nomatch herror.symm.trans hother

end Multimethod
