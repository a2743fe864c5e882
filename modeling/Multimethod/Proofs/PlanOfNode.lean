import Multimethod.Proofs.Results
import Multimethod.Plan

/-!
# The plan of a node

A plan is made from a node by looking every name up. When all names are known the plan has one shape
only, which this module describes without any failing step: the test of a name is `accepts`, the
bridge of a conversion is `bridgeOf`, a repeated slot becomes `armOf`, and a branch has a direct
step for every child by rank, followed by the wired conversions (`ofNode_branch_eq_ok`,
`ofNode_remainder_eq_ok`).
-/

set_option autoImplicit false
set_option relaxedAutoImplicit false

namespace Multimethod

/-! ### Tests of names -/

namespace TypeTable

/-- Whether a value has the type of a name. Every value has the wildcard type, and none has the type
of an unknown name. -/
def accepts (types : TypeTable) (name : String) (value : Value) : Bool :=
  name == wildcard || (types.find? name).any (·.accepts value)

@[simp] theorem test_eq_ok_iff (types : TypeTable) (name : String) (test : Test) :
    types.test name = .ok test ↔ types.contains name = true ∧ test = types.accepts name := by
  unfold TypeTable.test contains
  by_cases hname : name = wildcard
  · have haccepts : types.accepts name = fun _ ↦ true := by
      funext value
      simp [accepts, hname]
    rw [if_pos hname, haccepts]
    simp [hname, eq_comm]
  · rw [if_neg hname]
    cases hfind : types.find? name with
    | none => simp [hname]
    | some type =>
      have haccepts : types.accepts name = type.accepts := by
        funext value
        simp [accepts, hname, hfind]
      rw [haccepts]
      simp [eq_comm]

/-- Looking a name up fails only if the name is unknown, and the failure says which name. -/
@[simp] theorem test_eq_error_iff (types : TypeTable) (name : String) (failure : Failure) :
    types.test name = .error failure ↔
      types.contains name = false ∧ failure = types.unknown name := by
  unfold TypeTable.test contains
  by_cases hname : name = wildcard
  · simp [hname]
  · rw [if_neg hname]
    cases types.find? name with
    | none => simpa [hname] using eq_comm
    | some type => simp

/-- The bridge of a conversion between known types. -/
def bridgeOf (types : TypeTable) (conversion : Conversion) : Bridge :=
  ⟨conversion.target, types.accepts conversion.source, conversion.convert,
    types.accepts conversion.target⟩

/-- One alternative of a repeated slot, with the bridges to it among some wired conversions. -/
def choiceOf (types : TypeTable) (wired : List Conversion) (name : String) : Choice :=
  ⟨name, types.accepts name, (wired.map types.bridgeOf).filter (·.target == name)⟩

/-- The arm of a repeated slot, with the bridges to its alternatives among some wired
conversions. -/
def armOf (types : TypeTable) (wired : List Conversion) (slot : Alternatives × Clause) : Arm :=
  ⟨slot.1.names.map (types.choiceOf wired), slot.2⟩

/-- The children of a branch in the order in which they are tried. -/
def inOrder {α : Type} (types : TypeTable) (children : List (String × α)) : List (String × α) :=
  Rank.sort (fun child ↦ types.rank child.1) children

/-- The repeated slots after the same types in the order in which they are tried. -/
def armsInOrder (types : TypeTable) (slots : List (Alternatives × Clause)) :
    List (Alternatives × Clause) :=
  Rank.sort (fun slot ↦ types.rankOfAny slot.1) slots

@[simp] theorem mem_inOrder_iff {α : Type} (types : TypeTable) (children : List (String × α))
    (child : String × α) : child ∈ types.inOrder children ↔ child ∈ children :=
  Rank.mem_sort_iff _ children child

@[simp] theorem mem_armsInOrder_iff (types : TypeTable) (slots : List (Alternatives × Clause))
    (slot : Alternatives × Clause) : slot ∈ types.armsInOrder slots ↔ slot ∈ slots :=
  Rank.mem_sort_iff _ slots slot

end TypeTable

/-- Sorting commutes with a change that keeps ranks. -/
theorem Rank.sort_map {α β : Type} (rank : β → Rank) (change : α → β) (entries : List α) :
    Rank.sort rank (entries.map change) =
      (Rank.sort (fun entry ↦ rank (change entry)) entries).map change := by
  simp only [Rank.sort, List.filter_map, List.map_append]
  rfl

/-! ### Successful steps of making a plan -/

namespace Plan

variable {types : TypeTable} {conversions : ConversionTable}

@[simp] theorem bridge_eq_ok_iff {conversion : Conversion} {made : Bridge} :
    bridge types conversion = .ok made ↔
      (types.contains conversion.source = true ∧ types.contains conversion.target = true) ∧
        made = types.bridgeOf conversion := by
  simp [bridge, TypeTable.bridgeOf, pure, Except.pure, and_assoc, eq_comm (a := made)]

@[simp] theorem bridges_eq_ok_iff {targets : List String} {made : List Bridge} :
    bridges types conversions targets = .ok made ↔
      (∀ conversion ∈ conversions.toward targets,
        types.contains conversion.source = true ∧ types.contains conversion.target = true) ∧
      made = (conversions.toward targets).map types.bridgeOf :=
  mapM_eq_ok_iff_eq_map fun _ _ ↦ bridge_eq_ok_iff

@[simp] theorem choice_eq_ok_iff {wired : List Conversion} {name : String} {made : Choice} :
    choice types (wired.map types.bridgeOf) name = .ok made ↔
      types.contains name = true ∧ made = types.choiceOf wired name := by
  simp [choice, TypeTable.choiceOf, pure, Except.pure, eq_comm (a := made)]

@[simp] theorem arm_eq_ok_iff {wired : List Conversion} {slot : Alternatives × Clause}
    {made : Arm} :
    arm types (wired.map types.bridgeOf) slot = .ok made ↔
      (∀ name ∈ slot.1.names, types.contains name = true) ∧ made = types.armOf wired slot := by
  have hchoices : ∀ choices : List Choice,
      slot.1.names.mapM (choice types (wired.map types.bridgeOf)) = .ok choices ↔
        (∀ name ∈ slot.1.names, types.contains name = true) ∧
          choices = slot.1.names.map (types.choiceOf wired) :=
    fun _ ↦ mapM_eq_ok_iff_eq_map fun _ _ ↦ choice_eq_ok_iff
  simp only [arm, bind_eq_ok_iff, hchoices]
  simp [TypeTable.armOf, pure, Except.pure, eq_comm (a := made)]

/-- The plan of a remainder has an arm for every slot, in the order in which they are tried. -/
theorem ofNode_remainder_eq_ok {slots : List (Alternatives × Clause)} {plan : Plan}
    (hplan : ofNode types conversions (.remainder slots) = .ok plan) :
    plan = .collect ((types.armsInOrder slots).map
      (types.armOf (conversions.toward ((types.armsInOrder slots).flatMap (·.1.names))))) := by
  obtain ⟨made, hmade, hrest⟩ := bind_eq_ok_iff.mp hplan
  obtain ⟨arms, harms, hpure⟩ := bind_eq_ok_iff.mp hrest
  rw [(bridges_eq_ok_iff.mp hmade).2] at harms
  rw [((mapM_eq_ok_iff_eq_map fun _ _ ↦ arm_eq_ok_iff).mp harms).2] at hpure
  exact (Except.ok.inj hpure).symm

theorem plansOf_eq_map (children : List (String × Node)) :
    plansOf types conversions children =
      children.map fun child ↦ (child.1, ofNode types conversions child.2) := by
  induction children with
  | nil => rfl
  | cons child children ih => rw [plansOf, ih, List.map_cons]

/-- A step is the direct one to a child, and goes on with the plan of the child. -/
def LeadsTo (types : TypeTable) (conversions : ConversionTable) (child : String × Node)
    (step : Step × Plan) : Prop :=
  step.1 = .direct child.1 (types.accepts child.1) ∧
    ofNode types conversions child.2 = .ok step.2

/-- The plan of a branch has a direct step for every child, in the order in which they are tried,
and then a step for every conversion that helps at the branch. -/
theorem ofNode_branch_eq_ok {children : List (String × Node)} {plan : Plan}
    (hplan : ofNode types conversions (.branch children) = .ok plan) :
    ∃ direct, List.Forall₂ (LeadsTo types conversions) (types.inOrder children) direct ∧
      plan = .branch (direct ++
        ((conversions.toward ((types.inOrder children).map Prod.fst)).map types.bridgeOf).filterMap
          (convertedStep direct)) := by
  have hchildren : Rank.sort (fun child ↦ types.rank child.1) (plansOf types conversions children) =
      (types.inOrder children).map fun child ↦ (child.1, ofNode types conversions child.2) := by
    rw [plansOf_eq_map, Rank.sort_map]
    rfl
  rw [ofNode, ofChildren, hchildren] at hplan
  obtain ⟨direct, hdirect, hrest⟩ := bind_eq_ok_iff.mp hplan
  obtain ⟨made, hmade, hpure⟩ := bind_eq_ok_iff.mp hrest
  refine ⟨direct, ?_, ?_⟩
  · refine (List.forall₂_map_left_iff.mp (mapM_eq_ok_iff.mp hdirect)).imp fun child step hstep ↦ ?_
    obtain ⟨test, htest, hbelow⟩ := bind_eq_ok_iff.mp hstep
    obtain ⟨below, hplanBelow, hstepEq⟩ := bind_eq_ok_iff.mp hbelow
    rw [((types.test_eq_ok_iff _ _).mp htest).2] at hstepEq
    rw [← Except.ok.inj hstepEq]
    exact ⟨rfl, hplanBelow⟩
  · rw [(bridges_eq_ok_iff.mp hmade).2, List.map_map] at hpure
    exact (Except.ok.inj hpure).symm

end Plan

end Multimethod
