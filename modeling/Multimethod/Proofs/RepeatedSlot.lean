import Multimethod.Proofs.Fallback
import Multimethod.Proofs.OneSignature

/-!
# A repeated slot for one argument

A repeated slot that gets one argument takes the arguments that a slot of a single argument takes
(`take?_eq_none_iff_pass?`), and hands an argument on alike as long as no conversion is needed. When
several conversions apply, the two slots differ: the single slot takes the first one in the order of
registration, and the repeated slot takes the first one for the first alternative to which any of
them leads (`run_collects_by_alternative`). They agree when all that apply lead to one alternative
(`take?_eq_pass?`). `run_repeated_like_single` compares the calls of the two signatures.
-/

set_option autoImplicit false
set_option relaxedAutoImplicit false

namespace Multimethod

variable {types : TypeTable} {conversions : ConversionTable}

/-! ### One argument -/

/-- If all conversions that apply lead to one alternative, it does not matter in which order the
alternatives are tried. -/
theorem findSome?_flatMap_filter {wired : List Conversion} {find : Conversion → Option Value}
    {target : String} (honly : ∀ conversion ∈ wired, (find conversion).isSome = true →
      conversion.target = target) {names : List String} (htarget : target ∈ names) :
    (names.flatMap fun name ↦ wired.filter (·.target == name)).findSome? find =
      wired.findSome? find := by
  induction names with
  | nil => exact absurd htarget List.not_mem_nil
  | cons name names ih =>
    rw [List.flatMap_cons, List.findSome?_append]
    by_cases hname : target = name
    · have hblock : (wired.filter (·.target == name)).findSome? find = wired.findSome? find :=
        findSome?_filter_of_forall fun conversion hmem hsome ↦
          beq_iff_eq.mpr ((honly conversion hmem hsome).trans hname)
      rw [hblock]
      cases hfirst : wired.findSome? find with
      | some found => rfl
      | none =>
        rw [Option.none_or, List.findSome?_eq_none_iff]
        intro conversion hmem
        obtain ⟨other, -, hother⟩ := List.mem_flatMap.mp hmem
        exact List.findSome?_eq_none_iff.mp hfirst conversion (List.mem_filter.mp hother).1
    · have hblock : (wired.filter (·.target == name)).findSome? find = none := by
        rw [List.findSome?_eq_none_iff]
        intro conversion hmem
        obtain ⟨hconversion, hsame⟩ := List.mem_filter.mp hmem
        rw [← Option.not_isSome_iff_eq_none]
        exact fun hsome ↦
          hname ((honly conversion hconversion hsome).symm.trans (beq_iff_eq.mp hsame))
      rw [hblock, Option.none_or]
      exact ih ((List.mem_cons.mp htarget).resolve_left hname)

/-- The conversions that apply to an argument where alternatives are expected. -/
def Alternatives.Applicable (types : TypeTable) (conversions : ConversionTable)
    (alternatives : Alternatives) (argument : Value) (conversion : Conversion) : Prop :=
  conversion ∈ conversions.toward alternatives.names ∧
    (conversion.output? types argument).isSome = true

/-- A repeated slot refuses the arguments that a slot of a single argument refuses. -/
theorem take?_eq_none_iff_pass? {alternatives : Alternatives} {argument : Value} :
    alternatives.take? types (conversions.toward alternatives.names) argument = none ↔
      alternatives.pass? types conversions argument = none := by
  unfold Alternatives.take? Alternatives.pass?
  split_ifs
  · exact Iff.rfl
  · simp only [List.findSome?_eq_none_iff, List.mem_flatMap, List.mem_filter, beq_iff_eq]
    constructor
    · intro hnone conversion hmem
      exact hnone conversion
        ⟨conversion.target, (ConversionTable.mem_of_mem_toward hmem).2, hmem, rfl⟩
    · rintro hnone conversion ⟨name, -, hmem, -⟩
      exact hnone conversion hmem

/-- Both slots hand an argument on alike if it needs no conversion, or if all the conversions that
apply lead to one alternative. -/
theorem take?_eq_pass? {alternatives : Alternatives} {argument : Value}
    (hagree : (∃ name ∈ alternatives.names, types.accepts name argument = true) ∨
      ∀ first second, alternatives.Applicable types conversions argument first →
        alternatives.Applicable types conversions argument second → first.target = second.target) :
    alternatives.take? types (conversions.toward alternatives.names) argument =
      alternatives.pass? types conversions argument := by
  unfold Alternatives.take? Alternatives.pass?
  split_ifs with haccepts
  · rfl
  · have htargets := hagree.resolve_left fun ⟨name, hname, haccept⟩ ↦
      haccepts (List.any_eq_true.mpr ⟨name, hname, haccept⟩)
    by_cases hsome : ∃ conversion, alternatives.Applicable types conversions argument conversion
    · obtain ⟨chosen, hchosen⟩ := hsome
      exact findSome?_flatMap_filter
        (fun conversion hmem happlies ↦ htargets conversion chosen ⟨hmem, happlies⟩ hchosen)
        (ConversionTable.mem_of_mem_toward hchosen.1).2
    · have hnone : ∀ conversion ∈ conversions.toward alternatives.names,
          conversion.output? types argument = none := fun conversion hmem ↦
        Option.not_isSome_iff_eq_none.mp fun happlies ↦ hsome ⟨conversion, hmem, happlies⟩
      rw [List.findSome?_eq_none_iff.mpr hnone, List.findSome?_eq_none_iff]
      intro conversion hmem
      obtain ⟨name, -, hconversion⟩ := List.mem_flatMap.mp hmem
      exact hnone conversion (List.mem_filter.mp hconversion).1

/-! ### All arguments -/

/-- Slots in a row hand arguments on one part after the other. -/
theorem passSlots?_append {slots : List Alternatives} {arguments : List Value}
    (hlength : arguments.length = slots.length) (later : List Alternatives)
    (rest : Option Alternatives) (more : List Value) :
    passSlots? types conversions (slots ++ later) rest (arguments ++ more) =
      (passSlots? types conversions slots none arguments).bind fun taken ↦
        (passSlots? types conversions later rest more).map (taken ++ ·) := by
  induction slots generalizing arguments with
  | nil =>
    rw [List.length_eq_zero_iff.mp hlength, passSlots?, Option.bind_some]
    exact Option.map_id'.symm
  | cons slot slots ih =>
    cases arguments with
    | nil => exact absurd hlength (Nat.succ_ne_zero _).symm
    | cons argument arguments =>
      rw [List.cons_append, List.cons_append, passSlots?, passSlots?, ih (Nat.succ.inj hlength)]
      cases slot.pass? types conversions argument <;>
        cases passSlots? types conversions slots none arguments <;>
          cases passSlots? types conversions later rest more <;> rfl

/-- What single slots hand on is what each of them hands on. -/
theorem zipWith_pass?_of_passSlots? {slots : List Alternatives} {arguments taken : List Value}
    (hpass : passSlots? types conversions slots none arguments = some taken) :
    List.zipWith (fun slot argument ↦ Alternatives.pass? types conversions slot argument) slots
      arguments = taken.map some := by
  induction slots generalizing arguments taken with
  | nil =>
    rw [passSlots?, Option.some.injEq] at hpass
    rw [← hpass]
    rfl
  | cons slot slots ih =>
    cases arguments with
    | nil => exact absurd hpass (Option.some_ne_none taken).symm
    | cons argument arguments =>
      obtain ⟨value, hvalue, hlater⟩ := Option.bind_eq_some_iff.mp hpass
      obtain ⟨later, hpassed, rfl⟩ := Option.map_eq_some_iff.mp hlater
      rw [List.zipWith_cons_cons, hvalue, ih hpassed, List.map_cons]

/-- A last slot of a single argument adds what it hands on. -/
theorem passSlots?_single {fixed : List Alternatives} {arguments : List Value}
    (hlength : arguments.length = fixed.length) (union : Alternatives) (argument : Value) :
    passSlots? types conversions (fixed ++ [union]) none (arguments ++ [argument]) =
      (passSlots? types conversions fixed none arguments).bind fun taken ↦
        (union.pass? types conversions argument).map fun value ↦ taken ++ [value] := by
  rw [passSlots?_append hlength, passSlots?, passSlots?]
  cases union.pass? types conversions argument <;> rfl

/-- A repeated slot adds an array of what it takes. -/
theorem passSlots?_repeated {fixed : List Alternatives} {arguments : List Value}
    (hlength : arguments.length = fixed.length) (union : Alternatives) (argument : Value) :
    passSlots? types conversions fixed (some union) (arguments ++ [argument]) =
      (passSlots? types conversions fixed none arguments).bind fun taken ↦
        (union.take? types (conversions.toward union.names) argument).map fun item ↦
          taken ++ [.array [item]] := by
  conv_lhs => rw [← List.append_nil fixed]
  rw [passSlots?_append hlength, passSlots?, List.mapM_cons, List.mapM_nil]
  cases union.take? types (conversions.toward union.names) argument <;> rfl

/-! ### The two signatures -/

/-- A signature that ends in a repeated slot, given one argument for it, takes the calls that the
signature with a single slot in its place takes. The implementation gets the same values, the last
one in an array, except that the two slots choose differently between conversions that lead to
different alternatives: the single slot by registration, the repeated one by alternative. -/
theorem run_repeated_like_single (types : TypeTable) (conversions : ConversionTable)
    (fixed : List Alternatives) (union : Alternatives) (implementation : Implementation)
    (hnormal : Signature.IsNormal ⟨fixed, some union⟩) :
    ∃ single repeated,
      Tree.ofClauses (Method.clauses ⟨⟨fixed ++ [union], none⟩, implementation⟩) = .ok single ∧
      Tree.ofClauses (Method.clauses ⟨⟨fixed, some union⟩, implementation⟩) = .ok repeated ∧
      ((∃ routine, Routine.ofTree types conversions single = .ok routine) ↔
        ∃ routine, Routine.ofTree types conversions repeated = .ok routine) ∧
      ∀ routine other, Routine.ofTree types conversions single = .ok routine →
        Routine.ofTree types conversions repeated = .ok other →
        ∀ (function : Option String) (arguments : List Value) (argument : Value),
          arguments.length = fixed.length →
          (routine.run function (arguments ++ [argument]) =
              .error (routine.mismatch function (arguments ++ [argument])) ∧
            other.run function (arguments ++ [argument]) =
              .error (other.mismatch function (arguments ++ [argument]))) ∨
          ∃ taken value item,
            List.zipWith (fun slot given ↦ Alternatives.pass? types conversions slot given) fixed
              arguments = taken.map some ∧
            union.pass? types conversions argument = some value ∧
            union.take? types (conversions.toward union.names) argument = some item ∧
            routine.run function (arguments ++ [argument]) =
              .ok (implementation.run (taken ++ [value])) ∧
            other.run function (arguments ++ [argument]) =
              .ok (implementation.run (taken ++ [.array [item]])) ∧
            ((∃ name ∈ union.names, types.accepts name argument = true) ∨
              (∀ first second, union.Applicable types conversions argument first →
                union.Applicable types conversions argument second →
                  first.target = second.target) → item = value) := by
  have hsingle : Signature.IsNormal ⟨fixed ++ [union], none⟩ := by
    rw [Signature.isNormal_iff] at hnormal ⊢
    simpa using hnormal
  obtain ⟨_, htree, -⟩ :=
    exists_spans_ofClauses ⟨⟨fixed ++ [union], none⟩, implementation⟩ hsingle
  obtain ⟨_, hother, -⟩ :=
    exists_spans_ofClauses ⟨⟨fixed, some union⟩, implementation⟩ hnormal
  refine ⟨_, _, htree, hother, ?_, ?_⟩
  · rw [exists_ofTree_of_method hsingle htree, exists_ofTree_of_method hnormal hother]
    simp
  intro routine other hroutine hrepeated function arguments argument hlength
  have hrun : routine.run function (arguments ++ [argument]) = _ :=
    run_of_method hsingle htree hroutine function
      (by simp [Signature.arity, Arity.accepts, hlength])
  have hrunOther : other.run function (arguments ++ [argument]) = _ :=
    run_of_method hnormal hother hrepeated function
      (by simp [Signature.arity, Arity.accepts, hlength])
  dsimp only at hrun hrunOther
  rw [passSlots?_single hlength] at hrun
  rw [passSlots?_repeated hlength] at hrunOther
  cases htaken : passSlots? types conversions fixed none arguments with
  | none =>
    rw [htaken] at hrun hrunOther
    exact Or.inl ⟨hrun, hrunOther⟩
  | some taken =>
    rw [htaken] at hrun hrunOther
    cases hvalue : union.pass? types conversions argument with
    | none =>
      rw [hvalue] at hrun
      rw [take?_eq_none_iff_pass?.mpr hvalue] at hrunOther
      exact Or.inl ⟨hrun, hrunOther⟩
    | some value =>
      obtain ⟨item, hitem⟩ : ∃ item,
          union.take? types (conversions.toward union.names) argument = some item := by
        rw [← Option.ne_none_iff_exists', ne_eq, take?_eq_none_iff_pass?, hvalue]
        exact Option.some_ne_none value
      rw [hvalue] at hrun
      rw [hitem] at hrunOther
      refine Or.inr ⟨taken, value, item, zipWith_pass?_of_passSlots? htaken, rfl, hitem, hrun,
        hrunOther, fun hagree ↦ ?_⟩
      rw [take?_eq_pass? hagree, hvalue] at hitem
      exact (Option.some.inj hitem).symm

/-- An absent value is wrapped for the alternative of arrays, in a repeated slot as in a single
one. -/
theorem run_repeated_like_single_wrapping :
    Signature.IsNormal ⟨[.single "boolean"], some (.mk ["string", "Array"])⟩ ∧
    ∃ single repeated routine other,
      Tree.ofClauses (Method.clauses ⟨⟨[.single "boolean", .mk ["string", "Array"]], none⟩,
        labelled 0 "given"⟩) = .ok single ∧
      Tree.ofClauses (Method.clauses ⟨⟨[.single "boolean"], some (.mk ["string", "Array"])⟩,
        labelled 0 "given"⟩) = .ok repeated ∧
      Routine.ofTree .standard wrapping single = .ok routine ∧
      Routine.ofTree .standard wrapping repeated = .ok other ∧
      routine.run none [.boolean true, .null] =
        .ok (.ok (.array [.string "given", .boolean true, .array [.null]])) ∧
      other.run none [.boolean true, .null] =
        .ok (.ok (.array [.string "given", .boolean true, .array [.array [.null]]])) := by
  have hparse : Signature.parse "boolean,string|Array..." =
      .ok ⟨[.single "boolean"], some (.mk ["string", "Array"])⟩ := rfl
  have hnormal := Signature.isNormal_of_parse hparse
  obtain ⟨single, repeated, hsingle, hrepeated, -, hruns⟩ :=
    run_repeated_like_single .standard wrapping [.single "boolean"] (.mk ["string", "Array"])
      (labelled 0 "given") hnormal
  obtain ⟨tree, htree, routine, hroutine, hrun⟩ : ∃ tree,
      Tree.ofClauses (Method.clauses ⟨⟨[.single "boolean", .mk ["string", "Array"]], none⟩,
        labelled 0 "given"⟩) = .ok tree ∧
      ∃ routine, Routine.ofTree .standard wrapping tree = .ok routine ∧
        routine.run none [.boolean true, .null] =
          .ok (.ok (.array [.string "given", .boolean true, .array [.null]])) :=
    ⟨_, rfl, _, rfl, rfl⟩
  obtain ⟨collecting, hcollecting, other, hother⟩ : ∃ tree,
      Tree.ofClauses (Method.clauses ⟨⟨[.single "boolean"], some (.mk ["string", "Array"])⟩,
        labelled 0 "given"⟩) = .ok tree ∧
      ∃ routine, Routine.ofTree .standard wrapping tree = .ok routine :=
    ⟨_, rfl, _, rfl⟩
  obtain rfl := Except.ok.inj (hsingle.symm.trans htree)
  obtain rfl := Except.ok.inj (hrepeated.symm.trans hcollecting)
  refine ⟨hnormal, single, repeated, routine, other, hsingle, hrepeated, hroutine, hother, hrun, ?_⟩
  rcases hruns routine other hroutine hother none [.boolean true] .null rfl with
    ⟨hmismatch, -⟩ | ⟨taken, value, item, htaken, hvalue, -, -, hcollected, hsame⟩
  · exact nomatch hrun.symm.trans hmismatch
  · have hpassed : [some (Value.boolean true)] = taken.map some := htaken
    have hwrapped : some (Value.array [.null]) = some value := hvalue
    obtain rfl : [Value.boolean true] = taken := (Option.some_injective _).list_map hpassed
    have hone : ∀ conversion, Alternatives.Applicable .standard wrapping
        (.mk ["string", "Array"]) .null conversion → conversion.target = "Array" := by
      rintro conversion ⟨hwired, -⟩
      have hmem := (ConversionTable.mem_of_mem_toward hwired).1
      rw [List.mem_singleton.mp hmem]
    rw [← Option.some.inj hwrapped] at hsame
    rw [hsame (Or.inr fun first second hfirst hsecond ↦
      (hone first hfirst).trans (hone second hsecond).symm)] at hcollected
    exact hcollected

/-- The types of all values, and one more that the absent value has. -/
def withAbsent : TypeTable where
  types := TypeTable.standard.types ++ [⟨"absent", fun value ↦ value.kind == .null, false⟩]

/-- Two conversions that apply to the absent value, to a text and then to a boolean. -/
def fromAbsent : ConversionTable :=
  ⟨[⟨"null", "string", fun _ ↦ .string "null"⟩, ⟨"absent", "boolean", fun _ ↦ .boolean false⟩]⟩

/-- The conversion to a text is registered first, and a single slot takes it. A repeated slot takes
the conversion to the alternative that is named first. -/
theorem run_collects_by_alternative :
    ∃ single repeated routine other,
      Tree.ofClauses (Method.clauses ⟨⟨[.mk ["boolean", "string"]], none⟩, labelled 0 "given"⟩) =
        .ok single ∧
      Tree.ofClauses (Method.clauses ⟨⟨[], some (.mk ["boolean", "string"])⟩, labelled 0 "given"⟩) =
        .ok repeated ∧
      Routine.ofTree withAbsent fromAbsent single = .ok routine ∧
      Routine.ofTree withAbsent fromAbsent repeated = .ok other ∧
      routine.run none [.null] = .ok (.ok (.array [.string "given", .string "null"])) ∧
      other.run none [.null] = .ok (.ok (.array [.string "given", .array [.boolean false]])) :=
  ⟨_, _, _, _, rfl, rfl, rfl, rfl, rfl, rfl⟩

end Multimethod
