import Multimethod.Proofs.Lists

/-!
# Successful and failing sequences

Facts on sequences of computations that may fail. A traversal succeeds exactly if it succeeds at
every entry (`mapM_eq_ok_iff`) and fails with the failure of one of them
(`exists_mem_of_mapM_error`). A fold that succeeds keeps what each of its steps keeps
(`foldlM_ok_induction`), and one that fails has a first step that fails (`foldlM_eq_error_iff`).
-/

set_option autoImplicit false
set_option relaxedAutoImplicit false

namespace Multimethod

variable {ε α β γ : Type}

@[simp] theorem bind_eq_ok_iff {first : Except ε α} {next : α → Except ε β} {result : β} :
    (first >>= next) = .ok result ↔ ∃ value, first = .ok value ∧ next value = .ok result := by
  cases first <;> simp [bind, Except.bind]

@[simp] theorem bind_eq_error_iff {first : Except ε α} {next : α → Except ε β} {failure : ε} :
    (first >>= next) = .error failure ↔
      first = .error failure ∨ ∃ value, first = .ok value ∧ next value = .error failure := by
  cases first <;> simp [bind, Except.bind]

@[simp] theorem map_eq_ok_iff {first : Except ε α} {change : α → β} {result : β} :
    first.map change = .ok result ↔ ∃ value, first = .ok value ∧ change value = result := by
  cases first <;> simp [Except.map]

@[simp] theorem map_eq_error_iff {first : Except ε α} {change : α → β} {failure : ε} :
    first.map change = .error failure ↔ first = .error failure := by
  cases first <;> simp [Except.map]

/-! ### Traversals -/

/-- A traversal succeeds exactly if it succeeds at every entry. -/
@[simp] theorem mapM_eq_ok_iff {f : α → Except ε β} {entries : List α} {results : List β} :
    entries.mapM f = .ok results ↔
      List.Forall₂ (fun entry result ↦ f entry = .ok result) entries results := by
  induction entries generalizing results with
  | nil =>
    rw [List.mapM_nil, List.forall₂_nil_left_iff]
    exact ⟨fun h ↦ (Except.ok.inj h).symm, fun h ↦ h ▸ rfl⟩
  | cons entry entries ih =>
    rw [List.mapM_cons, bind_eq_ok_iff, List.forall₂_cons_left_iff]
    refine exists_congr fun result ↦ ?_
    rw [bind_eq_ok_iff]
    constructor
    · rintro ⟨hentry, others, hothers, hresults⟩
      exact ⟨others, hentry, ih.mp hothers, (Except.ok.inj hresults).symm⟩
    · rintro ⟨others, hentry, hothers, rfl⟩
      exact ⟨hentry, others, ih.mpr hothers, rfl⟩

theorem exists_mem_of_mem_mapM {f : α → Except ε β} {entries : List α} {results : List β}
    {result : β} (hmap : entries.mapM f = .ok results) (hmem : result ∈ results) :
    ∃ entry ∈ entries, f entry = .ok result := by
  obtain ⟨entry, hentry, hresult⟩ := exists_rel_of_mem_right (mapM_eq_ok_iff.mp hmap) hmem
  exact ⟨entry, hentry, hresult⟩

theorem exists_ok_of_mem_mapM {f : α → Except ε β} {entries : List α} {results : List β} {entry : α}
    (hmap : entries.mapM f = .ok results) (hmem : entry ∈ entries) :
    ∃ result, f entry = .ok result := by
  obtain ⟨result, -, hresult⟩ := exists_rel_of_mem_left (mapM_eq_ok_iff.mp hmap) hmem
  exact ⟨result, hresult⟩

/-- A traversal that may find nothing finds something exactly if it does at every entry. -/
@[simp] theorem mapM_eq_some_iff {f : α → Option β} {entries : List α} {results : List β} :
    entries.mapM f = some results ↔
      List.Forall₂ (fun entry result ↦ f entry = some result) entries results := by
  induction entries generalizing results with
  | nil =>
    rw [List.mapM_nil, List.forall₂_nil_left_iff]
    exact ⟨fun h ↦ (Option.some.inj h).symm, fun h ↦ h ▸ rfl⟩
  | cons entry entries ih =>
    rw [List.mapM_cons, List.forall₂_cons_left_iff]
    simp only [Option.bind_eq_bind, Option.bind_eq_some_iff, ih, Option.pure_def, Option.some.injEq]
    constructor
    · rintro ⟨result, hentry, others, hothers, rfl⟩
      exact ⟨result, others, hentry, hothers, rfl⟩
    · rintro ⟨result, others, hentry, hothers, rfl⟩
      exact ⟨result, hentry, others, hothers, rfl⟩

/-- A traversal finds nothing exactly if it finds nothing at one of the entries. -/
@[simp] theorem mapM_eq_none_iff {f : α → Option β} {entries : List α} :
    entries.mapM f = none ↔ ∃ entry ∈ entries, f entry = none := by
  induction entries with
  | nil => simp
  | cons entry entries ih =>
    rw [List.mapM_cons, List.exists_mem_cons_iff, ← ih]
    cases f entry with
    | none => simp
    | some result => cases entries.mapM f <;> simp

/-- A traversal whose steps succeed under a condition, and then with the value of a function,
succeeds if all entries meet the condition, and then with all these values. -/
theorem mapM_eq_ok_iff_eq_map {f : α → Except ε β} {p : α → Prop} {value : α → β}
    (hstep : ∀ entry result, f entry = .ok result ↔ p entry ∧ result = value entry)
    {entries : List α} {results : List β} :
    entries.mapM f = .ok results ↔ (∀ entry ∈ entries, p entry) ∧ results = entries.map value := by
  simp only [mapM_eq_ok_iff, hstep]
  induction entries generalizing results with
  | nil => simp
  | cons entry entries ih =>
    rw [List.forall₂_cons_left_iff, List.forall_mem_cons, List.map_cons]
    constructor
    · rintro ⟨_, others, ⟨hentry, rfl⟩, hothers, rfl⟩
      obtain ⟨hall, rfl⟩ := ih.mp hothers
      exact ⟨⟨hentry, hall⟩, rfl⟩
    · rintro ⟨⟨hentry, hall⟩, rfl⟩
      exact ⟨_, _, ⟨hentry, rfl⟩, ih.mpr ⟨hall, rfl⟩, rfl⟩

theorem exists_mem_of_mapM_error {f : α → Except ε β} {entries : List α} {failure : ε}
    (herror : entries.mapM f = .error failure) : ∃ entry ∈ entries, f entry = .error failure := by
  induction entries with
  | nil => cases herror
  | cons entry entries ih =>
    rw [List.mapM_cons, bind_eq_error_iff] at herror
    rcases herror with hentry | ⟨result, -, hrest⟩
    · exact ⟨entry, List.mem_cons_self, hentry⟩
    · rcases bind_eq_error_iff.mp hrest with hothers | ⟨others, -, hpure⟩
      · obtain ⟨other, hmem, hother⟩ := ih hothers
        exact ⟨other, List.mem_cons_of_mem _ hmem, hother⟩
      · cases hpure

/-! ### Folds -/

/-- What every step of a fold keeps holds at the end. The property may speak of the entries that
were used. -/
theorem foldlM_ok_induction {f : β → α → Except ε β} {start result : β} {entries : List α}
    {motive : List α → β → Prop} (hstart : motive [] start)
    (hstep : ∀ before entry now next, motive before now → f now entry = .ok next →
      motive (before ++ [entry]) next)
    (hfold : entries.foldlM f start = .ok result) : motive entries result := by
  induction entries using List.reverseRecOn generalizing result with
  | nil => exact Except.ok.inj hfold ▸ hstart
  | append_singleton before entry ih =>
    rw [List.foldlM_append, bind_eq_ok_iff] at hfold
    obtain ⟨now, hnow, hlast⟩ := hfold
    rw [List.foldlM_cons, bind_eq_ok_iff] at hlast
    obtain ⟨next, hnext, hend⟩ := hlast
    exact Except.ok.inj hend ▸ hstep before entry now next (ih hnow) hnext

/-- Every entry of a fold that succeeds was used in a step that succeeded. -/
theorem exists_ok_of_mem_foldlM {f : β → α → Except ε β} {start result : β} {entries : List α}
    (hfold : entries.foldlM f start = .ok result) {entry : α} (hmem : entry ∈ entries) :
    ∃ now next, f now entry = .ok next := by
  obtain ⟨before, after, rfl⟩ := List.append_of_mem hmem
  rw [List.foldlM_append, bind_eq_ok_iff] at hfold
  obtain ⟨now, -, hrest⟩ := hfold
  rw [List.foldlM_cons, bind_eq_ok_iff] at hrest
  obtain ⟨next, hnext, -⟩ := hrest
  exact ⟨now, next, hnext⟩

/-- A fold fails exactly if one of its steps fails after all the steps before it succeeded. -/
theorem foldlM_eq_error_iff {f : β → α → Except ε β} {start : β} {entries : List α}
    {failure : ε} :
    entries.foldlM f start = .error failure ↔
      ∃ before entry after now, entries = before ++ entry :: after ∧
        before.foldlM f start = .ok now ∧ f now entry = .error failure := by
  constructor
  · intro herror
    induction entries generalizing start with
    | nil => cases herror
    | cons entry entries ih =>
      rw [List.foldlM_cons, bind_eq_error_iff] at herror
      rcases herror with hentry | ⟨next, hnext, hrest⟩
      · exact ⟨[], entry, entries, start, rfl, rfl, hentry⟩
      · obtain ⟨before, other, after, now, hsplit, hbefore, hother⟩ := ih hrest
        refine ⟨entry :: before, other, after, now, by rw [hsplit, List.cons_append], ?_, hother⟩
        rw [List.foldlM_cons, bind_eq_ok_iff]
        exact ⟨next, hnext, hbefore⟩
  · rintro ⟨before, entry, after, now, rfl, hbefore, hentry⟩
    rw [List.foldlM_append, bind_eq_error_iff]
    refine Or.inr ⟨now, hbefore, ?_⟩
    rw [List.foldlM_cons, bind_eq_error_iff]
    exact Or.inl hentry

end Multimethod
