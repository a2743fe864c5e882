import Multimethod.Proofs.PatternKeys

/-!
# Ways down a tree

`Node.Leads` says which part of a node is at the end of a way of written slots, without looking
anything up, and `Node.descend?` finds it by looking the slots up one after the other
(`descend?_eq_some_iff`). A way that leads to a leaf is a pattern that leads to its clause
(`leads_leaf_iff`), and all leaves are equally deep (`leads_length`).

`Node.InOrder` is the order of the parts below a node: `slotsAfter` lists how some ways go on after
a beginning, each slot where it comes first, and the slots below a part are those that come after
the way to it. Inserting a clause adds its way to the ways and keeps the order (`inOrder_insert`).
-/

set_option autoImplicit false
set_option relaxedAutoImplicit false

namespace Multimethod

namespace Node

/-! ### Parts at the end of a way -/

/-- The slots that lead to the parts below a node, in order. -/
def keys (node : Node) : List String :=
  node.children.map Prod.fst

@[simp] theorem keys_branch (children : List (String × Node)) :
    (branch children).keys = children.map Prod.fst :=
  rfl

@[simp] theorem keys_remainder (arms : List (Alternatives × Clause)) :
    (remainder arms).keys = arms.map fun arm ↦ arm.1.text :=
  List.map_map

/-- The part of a node at the end of a way. -/
def descend? : List String → Node → Option Node
  | [], node => some node
  | slot :: slots, node => (node.child? slot).bind (descend? slots)

/-- A part of a node is at the end of a way. -/
inductive Leads : Node → List String → Node → Prop
  | here (node : Node) : Leads node [] node
  | down {node below part : Node} {slot : String} {slots : List String}
      (hmem : (slot, below) ∈ node.children) (hbelow : Leads below slots part) :
      Leads node (slot :: slots) part

@[simp] theorem leads_nil_iff (node part : Node) : node.Leads [] part ↔ part = node := by
  constructor
  · rintro ⟨⟩
    rfl
  · rintro rfl
    exact .here part

@[simp] theorem leads_cons_iff (node part : Node) (slot : String) (slots : List String) :
    node.Leads (slot :: slots) part ↔
      ∃ below, (slot, below) ∈ node.children ∧ below.Leads slots part := by
  constructor
  · rintro ⟨⟩
    exact ⟨_, ‹_›, ‹_›⟩
  · rintro ⟨below, hmem, hbelow⟩
    exact .down hmem hbelow

theorem leads_of_leaf {clause : Clause} {slots : List String} {part : Node}
    (hleads : (leaf clause).Leads slots part) : slots = [] ∧ part = leaf clause := by
  cases hleads with
  | here => exact ⟨rfl, rfl⟩
  | down hmem _ => exact absurd hmem List.not_mem_nil

/-- Looking up the slots of a way finds the part at its end, if no slot leads to two parts. -/
theorem descend?_eq_some_iff {node : Node}
    (hkeys : ∀ beginning part, node.Leads beginning part → part.keys.Nodup) (slots : List String)
    (part : Node) : node.descend? slots = some part ↔ node.Leads slots part := by
  induction slots generalizing node with
  | nil => simp [descend?, eq_comm]
  | cons slot slots ih =>
    rw [descend?, Option.bind_eq_some_iff, leads_cons_iff]
    refine exists_congr fun below ↦ ?_
    rw [child?, lookup_eq_some_iff_mem (hkeys [] node (.here node))]
    exact and_congr_right fun hmem ↦
      ih fun beginning found hfound ↦ hkeys (slot :: beginning) found (.down hmem hfound)

/-! ### Leaves -/

/-- A way to a leaf is a pattern for the clause of the leaf. -/
theorem leads_leaf_iff (node : Node) (slots : List String) (clause : Clause) :
    node.Leads slots (leaf clause) ↔
      ∃ pattern, node.Holds pattern clause ∧ pattern.slotTexts = slots := by
  constructor
  · intro hleads
    generalize htarget : leaf clause = part at hleads
    induction hleads with
    | here node =>
      rw [← htarget]
      exact ⟨⟨[], none⟩, .leaf clause, rfl⟩
    | @down node below part slot slots hmem _ ih =>
      obtain ⟨⟨names, rest⟩, hholds, htexts⟩ := ih htarget
      cases node with
      | leaf _ => exact absurd hmem List.not_mem_nil
      | branch children =>
        exact ⟨⟨slot :: names, rest⟩, .child hmem hholds, congrArg (slot :: ·) htexts⟩
      | remainder arms =>
        obtain ⟨⟨alternatives, found⟩, harm, hpair⟩ := List.mem_map.mp hmem
        obtain ⟨rfl, rfl⟩ := Prod.mk.inj hpair
        obtain ⟨hpattern, rfl⟩ := (holds_leaf_iff _ _ _).mp hholds
        cases hpattern
        exact ⟨⟨[], some alternatives⟩, .arm harm, congrArg (alternatives.text :: ·) htexts⟩
  · rintro ⟨pattern, hholds, rfl⟩
    induction hholds with
    | leaf clause => exact .here (leaf clause)
    | @arm arms alternatives clause hmem =>
      exact .down (List.mem_map.mpr ⟨(alternatives, clause), hmem, rfl⟩) (.here (leaf clause))
    | child hmem _ ih => exact .down hmem ih

/-- A part either takes what is left of the arguments after the way to it, or it is a leaf behind
the alternatives of a repeated slot. -/
theorem fits_of_leads {node part : Node} {isOpen : Bool} {count : Nat} {beginning : List String}
    (hfits : node.Fits isOpen count) (hleads : node.Leads beginning part) :
    (∃ left, count = beginning.length + left ∧ part.Fits isOpen left) ∨
      isOpen = true ∧ beginning.length = count + 1 ∧ ∃ clause, part = leaf clause := by
  induction hleads generalizing count with
  | here node => exact Or.inl ⟨count, (Nat.zero_add count).symm, hfits⟩
  | @down node below part slot slots hmem hbelow ih =>
    cases node with
    | leaf _ => exact absurd hmem List.not_mem_nil
    | branch children =>
      cases count with
      | zero => exact hfits.elim
      | succ count =>
        rcases ih (hfits _ hmem) with ⟨left, hcount, hpart⟩ | ⟨hopen, hlength, hleaf⟩
        · exact Or.inl ⟨left, by rw [hcount, List.length_cons]; omega, hpart⟩
        · exact Or.inr ⟨hopen, by rw [List.length_cons, hlength], hleaf⟩
    | remainder arms =>
      cases count with
      | succ count => exact hfits.elim
      | zero =>
        obtain ⟨arm, -, hpair⟩ := List.mem_map.mp hmem
        obtain ⟨rfl, rfl⟩ := Prod.mk.inj hpair
        obtain ⟨rfl, rfl⟩ := leads_of_leaf hbelow
        exact Or.inr ⟨hfits, rfl, arm.2, rfl⟩

@[simp] theorem fits_leaf_iff (clause : Clause) (isOpen : Bool) (count : Nat) :
    (leaf clause).Fits isOpen count ↔ isOpen = false ∧ count = 0 := by
  cases count with
  | zero => exact ⟨fun hfits ↦ ⟨hfits, rfl⟩, And.left⟩
  | succ count => exact ⟨False.elim, fun hcount ↦ nomatch hcount.2⟩

theorem exists_leaf_of_fits {node : Node} (hfits : node.Fits false 0) :
    ∃ clause, node = leaf clause := by
  cases node with
  | leaf clause => exact ⟨clause, rfl⟩
  | branch children => exact hfits.elim
  | remainder arms => exact nomatch hfits

/-- No way goes deeper than the leaves, and only the ways to leaves go as deep. -/
theorem leads_length {node part : Node} {isOpen : Bool} {count : Nat} {beginning : List String}
    (hfits : node.Fits isOpen count) (hleads : node.Leads beginning part) :
    beginning.length ≤ count + isOpen.toNat ∧
      (beginning.length = count + isOpen.toNat ↔ ∃ clause, part = leaf clause) := by
  rcases fits_of_leads hfits hleads with ⟨left, rfl, hpart⟩ | ⟨rfl, hlength, hleaf⟩
  · refine ⟨by omega, fun hdeep ↦ ?_, ?_⟩
    · cases isOpen with
      | true => simp only [Bool.toNat_true] at hdeep; omega
      | false =>
        obtain rfl : left = 0 := by simp only [Bool.toNat_false] at hdeep; omega
        exact exists_leaf_of_fits hpart
    · rintro ⟨clause, rfl⟩
      obtain ⟨rfl, rfl⟩ := (fits_leaf_iff _ _ _).mp hpart
      rfl
  · exact ⟨Nat.le_of_eq hlength, fun _ ↦ hleaf, fun _ ↦ hlength⟩

/-- Where only the repeated slot is left, a part consists of the arms for it. -/
theorem exists_remainder_of_leads {node part : Node} {count : Nat} {beginning : List String}
    (hfits : node.Fits true count) (hleads : node.Leads beginning part)
    (hlength : beginning.length = count) : ∃ arms, part = remainder arms := by
  rcases fits_of_leads hfits hleads with ⟨left, hcount, hpart⟩ | ⟨-, hdeeper, -⟩
  · obtain rfl : left = 0 := by omega
    cases part with
    | leaf _ => exact nomatch hpart
    | branch _ => exact hpart.elim
    | remainder arms => exact ⟨arms, rfl⟩
  · omega

/-! ### Sizes -/

@[simp] theorem totalSize_append (before after : List (String × Node)) :
    totalSize (before ++ after) = totalSize before + totalSize after := by
  induction before with
  | nil => exact (Nat.zero_add _).symm
  | cons child before ih =>
    obtain ⟨name, below⟩ := child
    rw [List.cons_append, totalSize, totalSize, ih, Nat.add_assoc]

@[simp] theorem size_way (clause : Clause) (names : List String) : (way clause names).size = 1 := by
  induction names with
  | nil =>
    rw [way, tip]
    cases clause.pattern.rest <;> rfl
  | cons name names ih => rw [way, size, totalSize, totalSize, ih]

/-- Inserting a clause makes a node larger by one. -/
theorem size_insert {clause : Clause} {names : List String} {node changed : Node}
    (hinsert : insert clause names node = some changed) : changed.size = node.size + 1 := by
  induction names generalizing node changed with
  | nil =>
    obtain ⟨arms, alternatives, rfl, -, -, rfl⟩ := insertHere_eq_some hinsert
    exact List.length_append
  | cons name names ih =>
    rcases insert_cons_eq_some hinsert with
      ⟨before, child, after, now, rfl, -, hnow, rfl⟩ | ⟨children, rfl, -, rfl⟩
    · simp only [size, totalSize_append, totalSize, ih hnow]
      omega
    · simp [size, totalSize]

end Node

/-! ### How ways go on -/

/-- The slots in which some ways go on after a beginning, each where it comes first. -/
def slotsAfter (beginning : List String) (ways : List (List String)) : List String :=
  (ways.filterMap fun way ↦ (beginning.isPrefixOf? way).bind List.head?).eraseDups

/-- What is left of the ways that begin with a slot. -/
def behind (slot : String) (ways : List (List String)) : List (List String) :=
  ways.filterMap [slot].isPrefixOf?

@[simp] theorem slotsAfter_cons (slot : String) (slots : List String) (ways : List (List String)) :
    slotsAfter (slot :: slots) ways = slotsAfter slots (behind slot ways) := by
  unfold slotsAfter behind
  rw [List.filterMap_filterMap]
  congr 2
  funext way
  rw [isPrefixOf?_cons, Option.bind_assoc]

@[simp] theorem nodup_slotsAfter (beginning : List String) (ways : List (List String)) :
    (slotsAfter beginning ways).Nodup :=
  nodup_eraseDups _

@[simp]
theorem mem_slotsAfter_iff (beginning : List String) (ways : List (List String)) (slot : String) :
    slot ∈ slotsAfter beginning ways ↔ ∃ others, beginning ++ slot :: others ∈ ways := by
  rw [slotsAfter, List.mem_eraseDups, List.mem_filterMap]
  simp only [Option.bind_eq_some_iff, List.isPrefixOf?_eq_some_iff_append_eq,
    List.head?_eq_some_iff]
  constructor
  · rintro ⟨way, hway, left, rfl, others, rfl⟩
    exact ⟨others, hway⟩
  · rintro ⟨others, hway⟩
    exact ⟨_, hway, _, rfl, others, rfl⟩

/-- One more way adds its first slot, if it is new. -/
theorem slotsAfter_nil_concat (ways : List (List String)) (slot : String) (slots : List String) :
    slotsAfter [] (ways ++ [slot :: slots]) = addName (slotsAfter [] ways) slot := by
  unfold slotsAfter
  rw [List.filterMap_append, ← addNames_eraseDups]
  rfl

@[simp] theorem behind_singleton (slot : String) (slots : List String) :
    behind slot [slot :: slots] = [slots] := by
  have hwhole : [slot].isPrefixOf? (slot :: slots) = some slots :=
    List.isPrefixOf?_eq_some_iff_append_eq.mpr rfl
  rw [behind, List.filterMap_cons, hwhole]
  rfl

@[simp]
theorem behind_concat_self (ways : List (List String)) (slot : String) (slots : List String) :
    behind slot (ways ++ [slot :: slots]) = behind slot ways ++ [slots] := by
  rw [behind, List.filterMap_append]
  exact congrArg (behind slot ways ++ ·) (behind_singleton slot slots)

theorem behind_concat_of_ne {slot other : String} (hne : other ≠ slot)
    (ways : List (List String)) (slots : List String) :
    behind other (ways ++ [slot :: slots]) = behind other ways := by
  have hlast : [other].isPrefixOf? (slot :: slots) = none := by
    simp [List.isPrefixOf?, hne]
  rw [behind, List.filterMap_append, List.filterMap_cons, hlast, List.filterMap_nil,
    List.append_nil, behind]

theorem behind_eq_nil {slot : String} {ways : List (List String)}
    (hnew : slot ∉ slotsAfter [] ways) : behind slot ways = [] := by
  rw [behind, List.filterMap_eq_nil_iff]
  intro way hway
  by_contra hsome
  obtain ⟨others, hothers⟩ := Option.ne_none_iff_exists'.mp hsome
  rw [← List.isPrefixOf?_eq_some_iff_append_eq.mp hothers] at hway
  exact hnew ((mem_slotsAfter_iff [] ways slot).mpr ⟨others, hway⟩)

/-- Ways do not go on after a beginning as long as they are. -/
theorem slotsAfter_eq_nil {beginning : List String} {ways : List (List String)}
    (hlength : ∀ way ∈ ways, way.length = beginning.length) : slotsAfter beginning ways = [] := by
  refine List.eq_nil_iff_forall_not_mem.mpr fun slot hslot ↦ ?_
  obtain ⟨others, hway⟩ := (mem_slotsAfter_iff beginning ways slot).mp hslot
  have hdeep := hlength _ hway
  rw [List.length_append, List.length_cons] at hdeep
  omega

namespace Node

/-! ### The order of parts -/

/-- The slots below every part that is not a leaf are those that come after the way to it in some
ways, in the order in which they come first. -/
inductive InOrder : List (List String) → Node → Prop
  | leaf (ways : List (List String)) (clause : Clause) : InOrder ways (.leaf clause)
  | remainder {ways : List (List String)} {arms : List (Alternatives × Clause)}
      (hkeys : (remainder arms).keys = slotsAfter [] ways) : InOrder ways (.remainder arms)
  | branch {ways : List (List String)} {children : List (String × Node)}
      (hkeys : (branch children).keys = slotsAfter [] ways)
      (hbelow : ∀ child ∈ children, InOrder (behind child.1 ways) child.2) :
      InOrder ways (.branch children)

/-- The slots below a part come in the order in which they first come after the way to it. -/
theorem InOrder.keys_eq {ways : List (List String)} {node part : Node} {beginning : List String}
    (horder : node.InOrder ways) (hleads : node.Leads beginning part) :
    part.keys = slotsAfter beginning ways ∨ ∃ clause, part = .leaf clause := by
  induction hleads generalizing ways with
  | here node =>
    cases horder with
    | leaf _ clause => exact Or.inr ⟨clause, rfl⟩
    | remainder hkeys => exact Or.inl hkeys
    | branch hkeys _ => exact Or.inl hkeys
  | down hmem hbelow ih =>
    cases horder with
    | leaf _ _ => exact absurd hmem List.not_mem_nil
    | remainder _ =>
      obtain ⟨arm, -, hpair⟩ := List.mem_map.mp hmem
      obtain ⟨rfl, rfl⟩ := Prod.mk.inj hpair
      exact Or.inr ⟨arm.2, (leads_of_leaf hbelow).2⟩
    | branch _ hparts =>
      rw [slotsAfter_cons]
      exact ih (hparts _ hmem)

@[simp] theorem inOrder_way (clause : Clause) (names : List String) :
    (way clause names).InOrder [(⟨names, clause.pattern.rest⟩ : Pattern).slotTexts] := by
  induction names with
  | nil =>
    rw [way, tip]
    cases clause.pattern.rest with
    | none => exact .leaf _ clause
    | some alternatives => exact .remainder rfl
  | cons name names ih =>
    refine .branch rfl fun child hmem ↦ ?_
    rw [List.mem_singleton.mp hmem, Pattern.slotTexts_cons, behind_singleton]
    exact ih

/-- A way to another child changes no order below a child. -/
theorem inOrder_of_not_mem {ways : List (List String)} {children : List (String × Node)}
    {name : String} (hother : name ∉ children.map Prod.fst)
    (hbelow : ∀ child ∈ children, child.2.InOrder (behind child.1 ways)) (slots : List String) :
    ∀ child ∈ children, child.2.InOrder (behind child.1 (ways ++ [name :: slots])) := by
  intro child hmem
  have hne : child.1 ≠ name := fun hsame ↦ hother (hsame ▸ List.mem_map_of_mem hmem)
  rw [behind_concat_of_ne hne]
  exact hbelow child hmem

/-- A slot with a new text may be put after the others. -/
theorem inOrder_remainder_concat {ways : List (List String)} {arms : List (Alternatives × Clause)}
    {alternatives : Alternatives} (clause : Clause)
    (hnew : alternatives.text ∉ (remainder arms).keys) (horder : (remainder arms).InOrder ways) :
    (remainder (arms ++ [(alternatives, clause)])).InOrder (ways ++ [[alternatives.text]]) := by
  cases horder with
  | remainder hkeys =>
    refine .remainder ?_
    rw [slotsAfter_nil_concat, ← hkeys, addName, if_neg hnew, keys_remainder, keys_remainder,
      List.map_append, List.map_singleton]

/-- A child may be put after the others. -/
theorem inOrder_branch_concat {ways : List (List String)} {children : List (String × Node)}
    {name : String} {fresh : Node} {slots : List String} (hnew : name ∉ children.map Prod.fst)
    (hfresh : fresh.InOrder [slots]) (horder : (branch children).InOrder ways) :
    (branch (children ++ [(name, fresh)])).InOrder (ways ++ [name :: slots]) := by
  cases horder with
  | branch hkeys hbelow =>
    rw [keys_branch] at hkeys
    have hnone : name ∉ slotsAfter [] ways := hkeys ▸ hnew
    refine .branch ?_ ?_
    · rw [slotsAfter_nil_concat, addName, if_neg hnone, ← hkeys, keys_branch, List.map_append,
        List.map_singleton]
    · rw [List.forall_mem_append, List.forall_mem_singleton]
      refine ⟨inOrder_of_not_mem hnew hbelow _, ?_⟩
      rw [behind_concat_self, behind_eq_nil hnone]
      exact hfresh

/-- A child may get one more way. -/
theorem inOrder_branch_replace {ways : List (List String)} {before after : List (String × Node)}
    {name : String} {below now : Node} {slots : List String} (hbefore : name ∉ before.map Prod.fst)
    (hnow : below.InOrder (behind name ways) → now.InOrder (behind name ways ++ [slots]))
    (horder : (branch (before ++ (name, below) :: after)).InOrder ways) :
    (branch (before ++ (name, now) :: after)).InOrder (ways ++ [name :: slots]) := by
  cases horder with
  | branch hkeys hbelow =>
    rw [keys_branch] at hkeys
    have hchild : (name, below) ∈ before ++ (name, below) :: after :=
      List.mem_append_right _ List.mem_cons_self
    have hafter : name ∉ after.map Prod.fst := by
      have hnodup := nodup_slotsAfter [] ways
      rw [← hkeys, List.map_append, List.map_cons, List.nodup_append, List.nodup_cons] at hnodup
      exact hnodup.2.1.1
    refine .branch ?_ ?_
    · rw [slotsAfter_nil_concat, ← hkeys, addName, if_pos (List.mem_map_of_mem hchild),
        keys_branch, List.map_append, List.map_append, List.map_cons, List.map_cons]
    · rw [List.forall_mem_append, List.forall_mem_cons] at hbelow ⊢
      refine ⟨inOrder_of_not_mem hbefore hbelow.1 _, ?_, inOrder_of_not_mem hafter hbelow.2.2 _⟩
      rw [behind_concat_self]
      exact hnow hbelow.2.1

/-- Inserting a clause adds its way to the ways that give the order. The patterns have to be normal,
because alternatives are told apart by what is written. -/
theorem inOrder_insert {ways : List (List String)} {clause : Clause} {names : List String}
    {node changed : Node} (hinsert : insert clause names node = some changed)
    (hclause : ∀ alternatives ∈ clause.pattern.rest, alternatives.IsNormal)
    (hnode : ∀ held rest other, node.Holds ⟨held, rest⟩ other →
      ∀ alternatives ∈ rest, alternatives.IsNormal)
    (horder : node.InOrder ways) :
    changed.InOrder (ways ++ [(⟨names, clause.pattern.rest⟩ : Pattern).slotTexts]) := by
  induction names generalizing ways node changed with
  | nil =>
    obtain ⟨arms, alternatives, rfl, hrest, hnew, rfl⟩ := insertHere_eq_some hinsert
    rw [hrest]
    refine inOrder_remainder_concat clause ?_ horder
    rw [keys_remainder, List.mem_map]
    rintro ⟨arm, harm, htext⟩
    have hsame := Alternatives.eq_of_text_eq (hnode _ _ _ (.arm harm) arm.1 rfl)
      (hclause alternatives hrest) htext
    exact hnew (List.mem_map.mpr ⟨arm, harm, hsame⟩)
  | cons name names ih =>
    rw [Pattern.slotTexts_cons]
    rcases insert_cons_eq_some hinsert with
      ⟨before, child, after, now, rfl, hbefore, hnow, rfl⟩ | ⟨children, rfl, hnew, rfl⟩
    · refine inOrder_branch_replace hbefore (ih hnow fun held rest other hholds ↦ ?_) horder
      exact hnode _ rest other
        (.child (List.mem_append_right before List.mem_cons_self) hholds)
    · exact inOrder_branch_concat hnew (inOrder_way clause names) horder

end Node

end Multimethod
