import Multimethod.Proofs.Building

/-!
# Conversions that cause no failures

Planning looks both ends of every wired conversion up, and converting a value looks up where the
conversions to the target start. When the conversions are between registered types, these look-ups
succeed. So planning fails exactly as it does with any other conversions between registered types
(`Plan.sameFailure_ofNode`), building fails exactly as it does without conversions
(`Engine.build_eq_error_iff_withoutConversions`), and converting fails only because the target is
unknown or nothing helps (`Engine.convert_eq_error`).

`SameFailure` is kept by every step of planning: the same names are looked up in the same order, and
the wired conversions only decide what is made of them.
-/

set_option autoImplicit false
set_option relaxedAutoImplicit false

namespace Multimethod

/-! ### Computations with the same failure -/

section SameFailure

variable {ε α β γ δ : Type}

/-- Two computations fail together and with one failure. -/
def SameFailure (first : Except ε α) (second : Except ε β) : Prop :=
  ∀ failure, first = .error failure ↔ second = .error failure

namespace SameFailure

theorem refl (computation : Except ε α) : SameFailure computation computation :=
  fun _ ↦ Iff.rfl

theorem of_ok {first : α} {second : β} :
    SameFailure (.ok first : Except ε α) (.ok second : Except ε β) :=
  fun _ ↦ ⟨nofun, nofun⟩

theorem of_error (failure : ε) :
    SameFailure (.error failure : Except ε α) (.error failure : Except ε β) :=
  fun _ ↦ ⟨fun h ↦ congrArg _ (Except.error.inj h), fun h ↦ congrArg _ (Except.error.inj h)⟩

/-- Computations that go on alike after alike beginnings have the same failure. -/
theorem bind {first : Except ε α} {second : Except ε β} {next : α → Except ε γ}
    {other : β → Except ε δ} (hsame : SameFailure first second)
    (hnext : ∀ a b, SameFailure (next a) (other b)) :
    SameFailure (first >>= next) (second >>= other) := by
  cases first with
  | error failure =>
    rw [(hsame failure).mp rfl]
    exact of_error failure
  | ok a =>
    cases second with
    | error failure => exact nomatch (hsame failure).mpr rfl
    | ok b => exact hnext a b

/-- Computations that go on alike after one beginning have the same failure. -/
theorem after (beginning : Except ε α) {next : α → Except ε γ} {other : α → Except ε δ}
    (hnext : ∀ a, SameFailure (next a) (other a)) :
    SameFailure (beginning >>= next) (beginning >>= other) := by
  cases beginning with
  | error failure => exact of_error failure
  | ok a => exact hnext a

theorem map {first : Except ε α} {second : Except ε β} (hsame : SameFailure first second)
    (change : α → γ) (otherChange : β → δ) :
    SameFailure (first.map change) (second.map otherChange) :=
  fun failure ↦ by rw [map_eq_error_iff, map_eq_error_iff, hsame failure]

/-- Traversals of related lists have the same failure if they have at related entries. -/
theorem mapM {f : α → Except ε γ} {g : β → Except ε δ} {first : List α} {second : List β}
    (hsame : List.Forall₂ (fun a b ↦ SameFailure (f a) (g b)) first second) :
    SameFailure (first.mapM f) (second.mapM g) := by
  induction hsame with
  | nil => exact of_ok
  | cons hentry _ ih =>
    rw [List.mapM_cons, List.mapM_cons]
    exact hentry.bind fun _ _ ↦ ih.bind fun _ _ ↦ of_ok

end SameFailure

end SameFailure

/-! ### Planning -/

/-- The conversions that help can be planned if they are between registered types. -/
theorem ConversionTable.Within.exists_bridges {conversions : ConversionTable} {types : TypeTable}
    (hwithin : conversions.Within types) (targets : List String) :
    ∃ made, Plan.bridges types conversions targets = .ok made := by
  cases hmade : Plan.bridges types conversions targets with
  | ok made => exact ⟨made, rfl⟩
  | error failure =>
    obtain ⟨conversion, hwired, name, hend, hunknown, -⟩ := Plan.bridges_eq_error hmade
    have hknown := hwithin.contains (mem_of_mem_toward hwired).1 hend
    exact absurd hknown (ne_true_of_eq_false hunknown)

namespace Plan

variable {types : TypeTable} {first second : ConversionTable}

theorem sameFailure_bridges (hfirst : first.Within types) (hsecond : second.Within types)
    (targets others : List String) :
    SameFailure (bridges types first targets) (bridges types second others) := by
  obtain ⟨made, hmade⟩ := hfirst.exists_bridges targets
  obtain ⟨other, hother⟩ := hsecond.exists_bridges others
  rw [hmade, hother]
  exact .of_ok

/-- The bridges do not decide whether the alternatives of a slot are known. -/
theorem sameFailure_arm (made other : List Bridge) (slot : Alternatives × Clause) :
    SameFailure (arm types made slot) (arm types other slot) := by
  refine .bind (.mapM (List.forall₂_same.mpr fun name _ ↦ ?_)) fun _ _ ↦ .of_ok
  exact .bind (.refl (types.test name)) fun _ _ ↦ .of_ok

/-- Whether a node can be planned, and why not, does not depend on conversions between registered
types. -/
theorem sameFailure_ofNode (hfirst : first.Within types) (hsecond : second.Within types)
    (node : Node) : SameFailure (ofNode types first node) (ofNode types second node) := by
  induction node using Node.induction with
  | hleaf clause => exact .of_ok
  | hremainder slots =>
    refine .bind (sameFailure_bridges hfirst hsecond _ _) fun made other ↦ ?_
    refine .bind (.mapM (List.forall₂_same.mpr fun slot _ ↦ ?_)) fun _ _ ↦ .of_ok
    exact sameFailure_arm made other slot
  | hbranch children ih =>
    have hchildren : ∀ conversions, types.inOrder (plansOf types conversions children) =
        (types.inOrder children).map fun child ↦ (child.1, ofNode types conversions child.2) := by
      intro conversions
      rw [plansOf_eq_map, TypeTable.inOrder, Rank.sort_map]
      rfl
    rw [ofNode, ofNode, ofChildren, ofChildren]
    change SameFailure ((types.inOrder (plansOf types first children)).mapM _ >>= _)
      ((types.inOrder (plansOf types second children)).mapM _ >>= _)
    rw [hchildren, hchildren]
    refine .bind (.mapM ?_) fun _ _ ↦
      .bind (sameFailure_bridges hfirst hsecond _ _) fun _ _ ↦ .of_ok
    rw [List.forall₂_map_left_iff, List.forall₂_map_right_iff, List.forall₂_same]
    intro child hchild
    have hmem : child ∈ children := by simpa using hchild
    exact .bind (.refl (types.test child.1)) fun _ _ ↦ (ih child hmem).bind fun _ _ ↦ .of_ok

end Plan

theorem Routine.sameFailure_ofTree {types : TypeTable} {first second : ConversionTable}
    (hfirst : first.Within types) (hsecond : second.Within types) (tree : Tree) :
    SameFailure (ofTree types first tree) (ofTree types second tree) :=
  .bind (.mapM (List.forall₂_same.mpr fun group _ ↦
    (Plan.sameFailure_ofNode hfirst hsecond group.2).map _ _)) fun _ _ ↦ .of_ok

/-! ### Building -/

theorem not_firstRefusal_unknownType (offers : List Offer) (unknown : String)
    (nearest : Option String) : ¬ FirstRefusal offers (.unknownType unknown nearest) := by
  rintro ⟨before, offer, after, -, -, hrefuses⟩
  exact nomatch hrefuses

namespace Engine

/-- A build whose conversions are between registered types fails exactly as it does without
them. -/
theorem build_eq_error_iff_withoutConversions {engine : Engine} (hsound : engine.IsSound)
    (name : Option String) (sources : List Source) (failure : Failure) :
    engine.build name sources = .error failure ↔
      engine.withoutConversions.build name sources = .error failure := by
  have hplain : ConversionTable.empty.Within engine.types := ConversionTable.within_empty _
  -- The tree is made without conversions, so only the routine has to be compared.
  refine SameFailure.after _ (fun agreed ↦ .after _ fun methods ↦ .after _ fun clauses ↦
    .after _ fun tree ↦ ?_) failure
  exact (Routine.sameFailure_ofTree hsound hplain tree).bind fun _ _ ↦ .of_ok

/-- An unknown type that a build reports is named in a signature that is left. -/
theorem lacks_of_unknownType {engine : Engine} (hengine : engine.Reachable) {name : Option String}
    {sources : List Source} (hsources : NormalSources sources) {unknown : String}
    {nearest : Option String}
    (hbuild : engine.build name sources = .error (.unknownType unknown nearest)) :
    engine.Lacks sources unknown := by
  cases buildFault_of_build hengine hsources hbuild with
  | offers _ hrefusal => exact absurd hrefusal (not_firstRefusal_unknownType _ _ _)
  | types _ _ _ hlacks => exact hlacks

/-! ### Converting -/

/-- Trying conversions from known types gives what the first usable one gives. -/
theorem convertBy_eq_ok {types : TypeTable} (test : Test) (value : Value)
    {conversions : List Conversion}
    (hknown : ∀ conversion ∈ conversions, types.contains conversion.source = true) :
    convertBy types test value conversions =
      .ok (conversions.findSome? fun conversion ↦
        if types.accepts conversion.source value && test (conversion.convert value) then
          some (conversion.convert value)
        else none) := by
  induction conversions with
  | nil => rfl
  | cons conversion conversions ih =>
    have hsource := (types.test_eq_ok_iff _ _).mpr ⟨hknown conversion List.mem_cons_self, rfl⟩
    refine bind_eq_ok_iff.mpr ⟨_, hsource, ?_⟩
    rw [List.findSome?_cons]
    by_cases happlies :
        types.accepts conversion.source value && test (conversion.convert value)
    · rw [if_pos happlies, if_pos happlies]
      rfl
    · rw [if_neg happlies, if_neg happlies]
      exact ih fun other hother ↦ hknown other (List.mem_cons_of_mem _ hother)

/-- Converting a value fails because the target is unknown, or because no conversion helps. -/
theorem convert_eq_error {engine : Engine} (hsound : engine.IsSound) {value : Value}
    {target : String} {failure : Failure} (hfails : engine.convert value target = .error failure) :
    (engine.types.contains target = false ∧ failure = engine.types.unknown target) ∨
      failure = .inconvertible (engine.types.classify value) target := by
  rcases bind_eq_error_iff.mp hfails with htest | ⟨test, -, hrest⟩
  · exact Or.inl ((engine.types.test_eq_error_iff _ _).mp htest)
  · have hknown : ∀ conversion ∈ engine.conversions.into target,
        engine.types.contains conversion.source = true :=
      fun conversion hmem ↦ hsound.contains (List.mem_filter.mp hmem).1 (Or.inl rfl)
    refine Or.inr ?_
    rw [convertBy_eq_ok test value hknown] at hrest
    generalize List.findSome? _ _ = found at hrest
    cases htest : test value with
    | true =>
      rw [if_pos htest] at hrest
      exact nomatch hrest
    | false =>
      rw [if_neg (ne_true_of_eq_false htest)] at hrest
      cases found with
      | some converted => exact nomatch hrest
      | none => exact (Except.error.inj hrest).symm

/-- An unknown type that a conversion reports is its target. -/
theorem eq_target_of_unknownType {engine : Engine} (hsound : engine.IsSound) {value : Value}
    {target unknown : String} {nearest : Option String}
    (hfails : engine.convert value target = .error (.unknownType unknown nearest)) :
    unknown = target ∧ target ≠ wildcard ∧ target ∉ engine.types.names := by
  rcases convert_eq_error hsound hfails with ⟨hunknown, hfailure⟩ | hother
  · obtain ⟨hname, -⟩ := Failure.unknownType.inj hfailure
    exact ⟨hname, (engine.types.contains_eq_false_iff target).mp hunknown⟩
  · exact nomatch hother

end Engine

end Multimethod
