/-!
# Indexes

An index keeps the places of keys in a list, so that an entry is found without a scan. It is in step
with the list if it gives each key the place that a scan finds (`Index.InStep`). Entering the place
of a new key at the end keeps an index in step (`InStep.enter`), and an index that is made from a
list without repeated keys is in step with that list (`inStep_ofEntries`).
-/

set_option autoImplicit false
set_option relaxedAutoImplicit false

namespace Multimethod

variable {α : Type}

/-! ### Entries with keys -/

theorem findIdx?_eq_none_iff_not_mem (key : α → String) (entries : List α) (name : String) :
    entries.findIdx? (key · == name) = none ↔ name ∉ entries.map key := by
  simp [List.findIdx?_eq_none_iff]

/-- An entry with a new key, wherever it is put, leaves the keys different. -/
theorem nodup_keys_of_perm_cons {key : α → String} {entries changed : List α} {entry : α}
    (hperm : changed.Perm (entry :: entries)) (hnew : key entry ∉ entries.map key)
    (hnodup : (entries.map key).Nodup) : (changed.map key).Nodup := by
  rw [(hperm.map key).nodup_iff, List.map_cons, List.nodup_cons]
  exact ⟨hnew, hnodup⟩

theorem lookup_eq_none_iff_not_mem {entries : List (String × α)} {key : String} :
    entries.lookup key = none ↔ key ∉ entries.map Prod.fst := by
  rw [List.lookup_eq_none_iff, List.mem_map]
  simp only [bne_iff_ne, ne_eq, not_exists, not_and]
  exact forall_congr' fun _ ↦ forall_congr' fun _ ↦ not_congr eq_comm

/-- A lookup gives what the first entry with the key has. -/
theorem lookup_eq_map_find? (entries : List (String × α)) (key : String) :
    entries.lookup key = (entries.find? (·.1 == key)).map Prod.snd := by
  induction entries with
  | nil => rfl
  | cons entry entries ih =>
    rw [List.lookup_cons, List.find?_cons, BEq.comm]
    cases entry.1 == key with
    | true => rfl
    | false => exact ih

/-! ### Places -/

/-- Keys with places. Of two entries with one key the earlier one counts, which is the one that was
entered later. -/
abbrev Index := List (String × Nat)

namespace Index

/-- The place of a key. -/
def place? (index : Index) (key : String) : Option Nat :=
  index.lookup key

/-- The index with the place of one more key. -/
def enter (index : Index) (key : String) (place : Nat) : Index :=
  (key, place) :: index

/-- The index that is made from a list, entry by entry. -/
def ofEntries (key : α → String) (entries : List α) : Index :=
  entries.zipIdx.foldl (fun index entry ↦ index.enter (key entry.1) entry.2) []

/-- The index gives each key the place at which a scan of the list finds it. -/
def InStep (index : Index) (key : α → String) (entries : List α) : Prop :=
  ∀ name, index.place? name = entries.findIdx? (key · == name)

@[simp] theorem inStep_nil (key : α → String) : InStep [] key [] :=
  fun _ ↦ rfl

/-- The place of a new key at the end is the number of the other entries. -/
theorem InStep.enter {index : Index} {key : α → String} {entries : List α}
    (hstep : index.InStep key entries) {entry : α} (hnew : key entry ∉ entries.map key) :
    (index.enter (key entry) entries.length).InStep key (entries ++ [entry]) := by
  intro name
  rw [place?, Index.enter, List.lookup_cons, List.findIdx?_append, ← place?, hstep name, BEq.comm]
  cases hname : key entry == name with
  | true =>
    cases beq_iff_eq.mp hname
    rw [(findIdx?_eq_none_iff_not_mem key entries _).mpr hnew]
    simp
  | false => simp [hname]

/-- Entering the places of entries that start at some place gives each key its place, unless an
earlier entry has it. -/
theorem place?_foldl_zipIdx {key : α → String} {entries : List α}
    (hnodup : (entries.map key).Nodup) (start : Nat) (index : Index) (name : String) :
    ((entries.zipIdx start).foldl (fun index entry ↦ index.enter (key entry.1) entry.2)
        index).place? name =
      ((entries.findIdx? (key · == name)).map (· + start)).or (index.place? name) := by
  induction entries generalizing start index with
  | nil => rfl
  | cons entry entries ih =>
    rw [List.map_cons, List.nodup_cons] at hnodup
    rw [List.zipIdx_cons, List.foldl_cons, ih hnodup.2, place?, Index.enter, List.lookup_cons,
      List.findIdx?_cons, BEq.comm]
    cases hname : key entry == name with
    | true =>
      cases beq_iff_eq.mp hname
      rw [(findIdx?_eq_none_iff_not_mem key entries _).mpr hnodup.1]
      simp
    | false =>
      cases entries.findIdx? (key · == name) with
      | none => rfl
      | some place => simp [Nat.add_right_comm, Nat.add_assoc]

/-- An index that is made from a list without repeated keys is in step with it. -/
theorem inStep_ofEntries {key : α → String} {entries : List α} (hnodup : (entries.map key).Nodup) :
    (ofEntries key entries).InStep key entries := by
  intro name
  rw [ofEntries, place?_foldl_zipIdx hnodup]
  simp [place?]

/-! ### Lookups -/

namespace InStep

variable {index : Index} {key : α → String} {entries : List α} (hstep : index.InStep key entries)

include hstep

theorem isSome_place?_iff (name : String) :
    (index.place? name).isSome = true ↔ name ∈ entries.map key := by
  rw [hstep name, Option.isSome_iff_ne_none, ne_eq, findIdx?_eq_none_iff_not_mem,
    Decidable.not_not]

/-- The entry at the place of a key is the first one that a scan finds. -/
theorem bind_place? (name : String) :
    (index.place? name).bind (entries[·]?) = entries.find? (key · == name) := by
  rw [hstep name, List.find?_eq_bind_findIdx?_getElem?]

end InStep

end Index

end Multimethod
