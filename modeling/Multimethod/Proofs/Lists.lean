import Mathlib.Data.List.Forall2
import Mathlib.Data.List.Induction
import Mathlib.Data.List.Nodup
import Mathlib.Data.List.Pairwise

/-!
# Lists

Facts on lists of any entries: searches and joined results of lists that are related entry by entry
(`findSome?_eq_of_forall₂`, `flatMap_eq_of_forall₂`), lookups by keys that are used once
(`lookup_eq_some_iff_mem`), lists without the repetitions of their entries (`eraseDupsBy_concat`),
and texts that are split at a character or joined with one (`not_mem_of_mem_splitOn`).
-/

set_option autoImplicit false
set_option relaxedAutoImplicit false

namespace Multimethod

variable {α β γ : Type}

/-! ### Entries -/

/-- Among entries with one more in their midst, one has a property if another one has it or the new
one. -/
theorem exists_mem_append_cons_iff {before after : List α} {entry : α}
    {p : α → Prop} :
    (∃ found ∈ before ++ entry :: after, p found) ↔
      (∃ found ∈ before ++ after, p found) ∨ p entry := by
  simp only [List.perm_middle.mem_iff]
  rw [List.exists_mem_cons_iff, or_comm]

/-- An entry that is put before the first one with a property follows those without it. -/
theorem insertIdx_findIdx (p : α → Bool) (entry : α) (entries : List α) :
    entries.insertIdx (entries.findIdx p) entry =
      entries.takeWhile (!p ·) ++ entry :: entries.dropWhile (!p ·) := by
  induction entries with
  | nil => rfl
  | cons first entries ih =>
    rw [List.findIdx_cons]
    cases hfirst : p first with
    | true => simp [hfirst]
    | false => simp [hfirst, ih]

/-- A longer beginning is taken off entry by entry. -/
theorem isPrefixOf?_cons [BEq α] (first : α) (later entries : List α) :
    (first :: later).isPrefixOf? entries =
      ([first].isPrefixOf? entries).bind later.isPrefixOf? := by
  cases entries with
  | nil => rfl
  | cons entry entries =>
    simp only [List.isPrefixOf?]
    split_ifs <;> rfl

/-- Of lists without a common entry, the first two entries are different, and the others have no
common one. -/
theorem disjoint_cons_cons [BEq α] [LawfulBEq α] {first first' : α} {others others' : List α}
    (hapart : (first :: others).Disjoint (first' :: others')) :
    (first == first') = false ∧ others.Disjoint others' := by
  obtain ⟨hfirst, hothers⟩ := List.disjoint_cons_left.mp hapart
  refine ⟨beq_false_of_ne ?_, (List.disjoint_cons_right.mp hothers).2⟩
  rintro rfl
  exact hfirst List.mem_cons_self

/-- The largest of some numbers is within a bound exactly if all of them are. -/
@[simp] theorem foldr_max_le_iff (counts : List Nat) (bound : Nat) :
    counts.foldr max 0 ≤ bound ↔ ∀ count ∈ counts, count ≤ bound := by
  induction counts with
  | nil => simp
  | cons count counts ih => rw [List.foldr_cons, Nat.max_le, ih, List.forall_mem_cons]

theorem foldr_max_map_le (measure : α → Nat) {entries more : List α}
    (hsubset : ∀ entry ∈ entries, entry ∈ more) :
    (entries.map measure).foldr max 0 ≤ (more.map measure).foldr max 0 := by
  rw [foldr_max_le_iff, List.forall_mem_map]
  intro entry hmem
  exact (foldr_max_le_iff _ _).mp (Nat.le_refl _) _ (List.mem_map_of_mem (hsubset entry hmem))

/-! ### Lists that are related entry by entry -/

/-- Of related lists, each entry of one is related to an entry of the other. -/
theorem exists_rel_of_mem_right {related : α → β → Prop} {entries : List α} {results : List β}
    {result : β} (hall : List.Forall₂ related entries results) (hmem : result ∈ results) :
    ∃ entry ∈ entries, related entry result := by
  induction hall with
  | nil => exact absurd hmem List.not_mem_nil
  | @cons entry first entries others hentry hothers ih =>
    rcases List.mem_cons.mp hmem with rfl | hlater
    · exact ⟨entry, List.mem_cons_self, hentry⟩
    · obtain ⟨found, hfound, hresult⟩ := ih hlater
      exact ⟨found, List.mem_cons_of_mem _ hfound, hresult⟩

theorem exists_rel_of_mem_left {related : α → β → Prop} {entries : List α} {results : List β}
    {entry : α} (hall : List.Forall₂ related entries results) (hmem : entry ∈ entries) :
    ∃ result ∈ results, related entry result :=
  exists_rel_of_mem_right hall.flip hmem

/-- Lists whose entries have the same images are related if entries with one image are. -/
theorem forall₂_of_map_eq {related : α → β → Prop} {f : α → γ} {g : β → γ}
    {first : List α} {second : List β} (hsame : first.map f = second.map g)
    (hrelated : ∀ a ∈ first, ∀ b ∈ second, f a = g b → related a b) :
    List.Forall₂ related first second := by
  induction first generalizing second with
  | nil =>
    rw [List.map_eq_nil_iff.mp hsame.symm]
    exact .nil
  | cons a first ih =>
    obtain ⟨b, second, rfl, himage, hothers⟩ := List.map_eq_cons_iff.mp hsame.symm
    refine .cons (hrelated a List.mem_cons_self b List.mem_cons_self himage.symm)
      (ih hothers.symm fun x hx y hy ↦ ?_)
    exact hrelated x (List.mem_cons_of_mem _ hx) y (List.mem_cons_of_mem _ hy)

/-- A relation between the entries of lists is transitive if it is on the entries that are there. -/
theorem forall₂_trans {related : α → α → Prop} {first second third : List α}
    (htrans : ∀ a ∈ first, ∀ b ∈ second, ∀ c ∈ third, related a b → related b c → related a c)
    (hfirst : List.Forall₂ related first second) (hsecond : List.Forall₂ related second third) :
    List.Forall₂ related first third := by
  induction hfirst generalizing third with
  | nil => exact hsecond
  | cons hab _ ih =>
    cases hsecond with
    | cons hbc hrest =>
      refine .cons (htrans _ List.mem_cons_self _ List.mem_cons_self _ List.mem_cons_self hab hbc)
        (ih ?_ hrest)
      intro a ha b hb c hc
      exact htrans a (List.mem_cons_of_mem _ ha) b (List.mem_cons_of_mem _ hb) c
        (List.mem_cons_of_mem _ hc)

/-- Two lists are related to a common third one exactly if their entries are, one by one. -/
theorem exists_forall₂_iff {left : α → β → Prop} {right : α → γ → Prop} {first : List β}
    {second : List γ} :
    (∃ common, List.Forall₂ left common first ∧ List.Forall₂ right common second) ↔
      List.Forall₂ (fun b c ↦ ∃ a, left a b ∧ right a c) first second := by
  constructor
  · rintro ⟨common, hfirst, hsecond⟩
    induction hfirst generalizing second with
    | nil =>
      rw [List.forall₂_nil_left_iff.mp hsecond]
      exact .nil
    | cons hleft _ ih =>
      obtain ⟨c, others, hright, hothers, rfl⟩ := List.forall₂_cons_left_iff.mp hsecond
      exact .cons ⟨_, hleft, hright⟩ (ih hothers)
  · intro hshared
    induction hshared with
    | nil => exact ⟨[], .nil, .nil⟩
    | cons hentry _ ih =>
      obtain ⟨a, hleft, hright⟩ := hentry
      obtain ⟨common, hfirst, hsecond⟩ := ih
      exact ⟨a :: common, .cons hleft hfirst, .cons hright hsecond⟩

theorem forall₂_range_getElem? (entries : List α) :
    List.Forall₂ (fun position entry ↦ entries[position]? = some entry)
      (List.range entries.length) entries := by
  rw [List.forall₂_iff_get]
  refine ⟨List.length_range, fun position hleft hright ↦ ?_⟩
  rw [List.get_eq_getElem, List.get_eq_getElem, List.getElem_range]
  exact List.getElem?_eq_getElem hright

/-! ### Searches -/

/-- Related lists have the same first result if related entries have the same result. -/
theorem findSome?_eq_of_forall₂ {related : α → β → Prop} {f : α → Option γ}
    {g : β → Option γ} {first : List α} {second : List β}
    (hrelated : List.Forall₂ related first second) (hsame : ∀ a b, related a b → f a = g b) :
    first.findSome? f = second.findSome? g := by
  induction hrelated with
  | nil => rfl
  | cons hentry _ ih => rw [List.findSome?_cons, List.findSome?_cons, hsame _ _ hentry, ih]

/-- Related lists have related first entries with a property if related entries agree on it. -/
theorem find?_rel_of_forall₂ {related : α → β → Prop} {p : α → Bool} {q : β → Bool}
    {first : List α} {second : List β} (hrelated : List.Forall₂ related first second)
    (hsame : ∀ a b, related a b → p a = q b) :
    Option.Rel related (first.find? p) (second.find? q) := by
  induction hrelated with
  | nil => exact .none
  | @cons a b _ _ hentry _ ih =>
    rw [List.find?_cons, List.find?_cons, ← hsame a b hentry]
    cases p a with
    | true => exact .some hentry
    | false => exact ih

/-- Where all entries go on alike, the first of them is taken if there is a way on. -/
theorem findSome?_eq_bind_head? {entries : List α} {find : α → Option γ}
    {below : Option β} {join : α → β → γ}
    (hfind : ∀ entry ∈ entries, find entry = below.map (join entry)) :
    entries.findSome? find = entries.head?.bind fun entry ↦ below.map (join entry) := by
  cases entries with
  | nil => rfl
  | cons entry entries =>
    cases below with
    | none =>
      rw [List.findSome?_eq_none_iff.mpr hfind]
      rfl
    | some later => rw [List.findSome?_cons, hfind entry List.mem_cons_self]; rfl

/-- Entries without a result can be left out of a search. -/
theorem findSome?_filter_of_forall {entries : List α} {keep : α → Bool}
    {find : α → Option β}
    (hkeep : ∀ entry ∈ entries, (find entry).isSome = true → keep entry = true) :
    (entries.filter keep).findSome? find = entries.findSome? find := by
  induction entries with
  | nil => rfl
  | cons entry entries ih =>
    obtain ⟨hfirst, hlater⟩ := List.forall_mem_cons.mp hkeep
    rw [List.findSome?_cons]
    cases hentry : find entry with
    | none =>
      cases hkept : keep entry with
      | false => rw [List.filter_cons_of_neg (by simp [hkept]), ih hlater]
      | true => rw [List.filter_cons_of_pos hkept, List.findSome?_cons, hentry, ih hlater]
    | some found =>
      rw [List.filter_cons_of_pos (hfirst (by rw [hentry]; rfl)), List.findSome?_cons, hentry]

/-! ### Joined results -/

theorem flatMap_eq_of_forall₂ {related : α → β → Prop} {f : α → List γ}
    {g : β → List γ} {first : List α} {second : List β}
    (hrelated : List.Forall₂ related first second) (hsame : ∀ a b, related a b → f a = g b) :
    first.flatMap f = second.flatMap g := by
  induction hrelated with
  | nil => rfl
  | cons hentry _ ih => rw [List.flatMap_cons, List.flatMap_cons, hsame _ _ hentry, ih]

theorem flatMap_filter (keep : α → Bool) (entries : List α) (results : α → List β) :
    (entries.filter keep).flatMap results =
      entries.flatMap fun entry ↦ if keep entry then results entry else [] := by
  induction entries with
  | nil => rfl
  | cons entry entries ih =>
    rw [List.flatMap_cons, List.filter_cons, ← ih]
    split_ifs
    · exact List.flatMap_cons
    · exact (List.nil_append _).symm

theorem flatMap_filterMap (pick : α → Option β) (f : β → List γ)
    (entries : List α) :
    (entries.filterMap pick).flatMap f = entries.flatMap fun entry ↦ (pick entry).elim [] f := by
  induction entries with
  | nil => rfl
  | cons entry entries ih =>
    rw [List.filterMap_cons, List.flatMap_cons, ← ih]
    cases pick entry <;> rfl

/-- Fewer entries, none of them twice, give different results if all entries do. -/
theorem nodup_flatMap_of_subset {entries more : List α} {results : α → List β}
    (hnodup : entries.Nodup) (hsubset : ∀ entry ∈ entries, entry ∈ more)
    (hmore : (more.flatMap results).Nodup) : (entries.flatMap results).Nodup := by
  rw [List.nodup_flatMap] at hmore ⊢
  obtain ⟨heach, hdisjoint⟩ := hmore
  have hsymm : Std.Symm (Function.onFun List.Disjoint results) := ⟨fun _ _ ↦ List.disjoint_symm⟩
  refine ⟨fun entry hmem ↦ heach entry (hsubset entry hmem), ?_⟩
  exact hnodup.pairwise_of_forall_ne fun first hfirst second hsecond hne ↦
    hdisjoint.forall (hsubset first hfirst) (hsubset second hsecond) hne

theorem head?_flatMap_head? (entries : List α) (results : α → List β) :
    (entries.flatMap fun entry ↦ (results entry).head?.toList).head? =
      (entries.flatMap results).head? := by
  rw [List.head?_flatMap, List.head?_flatMap]
  congr 1
  funext entry
  cases results entry <;> rfl

/-! ### Keys -/

/-- One more entry leaves the keys different exactly if its key is new. -/
theorem nodup_map_concat_iff {key : α → β} {entries : List α} {entry : α} :
    ((entries ++ [entry]).map key).Nodup ↔
      (entries.map key).Nodup ∧ key entry ∉ entries.map key := by
  rw [List.map_append, List.map_singleton, ← List.concat_eq_append, List.nodup_concat, and_comm]

/-- Looking a key up that is used once finds what stands under it. -/
theorem lookup_eq_some_iff_mem [BEq α] [LawfulBEq α] {entries : List (α × β)}
    (hkeys : (entries.map Prod.fst).Nodup) (key : α) (value : β) :
    entries.lookup key = some value ↔ (key, value) ∈ entries := by
  rw [List.lookup_eq_some_iff]
  constructor
  · rintro ⟨before, after, hsplit, -⟩
    rw [hsplit]
    exact List.mem_append_right _ List.mem_cons_self
  · intro hmem
    obtain ⟨before, after, hsplit⟩ := List.append_of_mem hmem
    refine ⟨before, after, hsplit, fun entry hentry ↦ bne_iff_ne.mpr ?_⟩
    rw [hsplit, List.map_append, List.nodup_append] at hkeys
    exact (hkeys.2.2 entry.1 (List.mem_map_of_mem hentry) key List.mem_cons_self).symm

/-- Entries with different keys, all of which have one key, are a single one. -/
theorem eq_singleton_of_nodup {entries : List (α × β)}
    (hkeys : (entries.map Prod.fst).Nodup) {entry : α × β} (hmem : entry ∈ entries)
    (honly : ∀ other ∈ entries, other.1 = entry.1) : entries = [entry] := by
  cases entries with
  | nil => exact absurd hmem List.not_mem_nil
  | cons first others =>
    cases others with
    | nil => rw [List.mem_singleton.mp hmem]
    | cons second others =>
      obtain ⟨hfirst, hlater⟩ := List.forall_mem_cons.mp honly
      rw [List.map_cons, List.map_cons, hfirst, (List.forall_mem_cons.mp hlater).1] at hkeys
      exact absurd List.mem_cons_self (List.nodup_cons.mp hkeys).1

/-! ### Repetitions -/

/-- Erasing duplicates of a longer list erases its last entry or keeps it at the end. -/
theorem eraseDupsBy_concat (same : α → α → Bool) (entries : List α) (last : α) :
    (entries ++ [last]).eraseDupsBy same =
      if (entries.eraseDupsBy same).any (same last) then entries.eraseDupsBy same
      else entries.eraseDupsBy same ++ [last] := by
  have hloop : ∀ kept, List.eraseDupsBy.loop same (entries ++ [last]) kept =
      if (List.eraseDupsBy.loop same entries kept).any (same last) then
        List.eraseDupsBy.loop same entries kept
      else List.eraseDupsBy.loop same entries kept ++ [last] := by
    induction entries with
    | nil =>
      intro kept
      simp only [List.nil_append, List.eraseDupsBy.loop, List.any_reverse]
      by_cases hkept : kept.any (same last) = true
      · simp [hkept]
      · simp [hkept]
    | cons entry entries ih =>
      intro kept
      rw [List.cons_append, List.eraseDupsBy.loop, List.eraseDupsBy.loop]
      cases kept.any (same entry) with
      | true => exact ih kept
      | false => exact ih (entry :: kept)
  exact hloop []

/-- The keys of entries whose repeated keys are dropped are the keys without repetitions. -/
theorem map_eraseDupsBy [BEq β] (key : α → β) (entries : List α) :
    (entries.eraseDupsBy fun later earlier ↦ key later == key earlier).map key =
      (entries.map key).eraseDups := by
  induction entries using List.reverseRecOn with
  | nil => rfl
  | append_singleton entries last ih =>
    rw [eraseDupsBy_concat, apply_ite (List.map key), List.map_append, List.map_append,
      List.map_singleton, List.eraseDups, eraseDupsBy_concat]
    change _ = if (entries.map key).eraseDups.any (key last == ·) then (entries.map key).eraseDups
      else (entries.map key).eraseDups ++ [key last]
    rw [← ih, List.any_map]
    rfl

theorem nodup_eraseDups [BEq α] [LawfulBEq α] (entries : List α) : entries.eraseDups.Nodup := by
  induction entries using List.reverseRecOn with
  | nil => exact List.nodup_nil
  | append_singleton entries last ih =>
    rw [List.eraseDups, eraseDupsBy_concat]
    split
    · exact ih
    · next hnew =>
      rw [← List.concat_eq_append]
      exact ih.concat fun hmem ↦ hnew (List.any_eq_true.mpr ⟨last, hmem, beq_self_eq_true last⟩)

/-! ### Split and joined texts -/

/-- No piece holds the character at which a text was split. -/
theorem not_mem_of_mem_splitOn {separator : Char} {text piece : List Char}
    (hmem : piece ∈ text.splitOn separator) : separator ∉ piece := by
  induction text generalizing piece with
  | nil =>
    rw [List.splitOn_nil, List.mem_singleton] at hmem
    rw [hmem]
    exact List.not_mem_nil
  | cons c text ih =>
    rw [List.splitOn_cons_eq_if_modifyHead] at hmem
    by_cases hc : (c == separator) = true
    · rw [if_pos hc] at hmem
      rcases List.mem_cons.mp hmem with hnil | hlater
      · rw [hnil]
        exact List.not_mem_nil
      · exact ih hlater
    · rw [if_neg hc] at hmem
      cases hpieces : text.splitOn separator with
      | nil => exact absurd hpieces (List.splitOn_ne_nil separator text)
      | cons first others =>
        rw [hpieces, List.modifyHead_cons] at hmem
        rw [hpieces] at ih
        rcases List.mem_cons.mp hmem with hfirst | hlater
        · rw [hfirst, List.mem_cons, not_or]
          exact ⟨fun heq ↦ hc (beq_iff_eq.mpr heq.symm), ih List.mem_cons_self⟩
        · exact ih (List.mem_cons_of_mem _ hlater)

theorem eq_or_exists_of_mem_intercalate {separator c : Char} {pieces : List (List Char)}
    (hmem : c ∈ [separator].intercalate pieces) : c = separator ∨ ∃ piece ∈ pieces, c ∈ piece := by
  induction pieces with
  | nil => exact absurd hmem List.not_mem_nil
  | cons piece pieces ih =>
    by_cases hlast : pieces = []
    · rw [hlast, List.intercalate_singleton] at hmem
      exact Or.inr ⟨piece, List.mem_cons_self, hmem⟩
    · rw [List.intercalate_cons_of_ne_nil hlast, List.mem_append, List.mem_append] at hmem
      rcases hmem with (hfirst | hseparator) | hlater
      · exact Or.inr ⟨piece, List.mem_cons_self, hfirst⟩
      · exact Or.inl (List.mem_singleton.mp hseparator)
      · rcases ih hlater with heq | ⟨found, hfound, hc⟩
        · exact Or.inl heq
        · exact Or.inr ⟨found, List.mem_cons_of_mem _ hfound, hc⟩

theorem intercalate_ne_nil {separator : Char} {pieces : List (List Char)} (hpieces : pieces ≠ [])
    (hnonempty : ∀ piece ∈ pieces, piece ≠ []) : [separator].intercalate pieces ≠ [] := by
  cases pieces with
  | nil => exact absurd rfl hpieces
  | cons piece pieces =>
    have hpiece := hnonempty piece List.mem_cons_self
    by_cases hlast : pieces = []
    · rw [hlast, List.intercalate_singleton]
      exact hpiece
    · rw [List.intercalate_cons_of_ne_nil hlast]
      simp [hpiece]

/-- What is written after the last of some pieces is written after all of them. -/
theorem intercalate_concat_append (separator last after : String) (pieces : List String) :
    separator.intercalate (pieces ++ [last ++ after]) =
      separator.intercalate (pieces ++ [last]) ++ after := by
  by_cases hpieces : pieces = []
  · rw [hpieces, List.nil_append, List.nil_append, String.intercalate_singleton,
      String.intercalate_singleton]
  · rw [String.intercalate_append_of_ne_nil hpieces (List.cons_ne_nil _ _),
      String.intercalate_append_of_ne_nil hpieces (List.cons_ne_nil _ _),
      String.intercalate_singleton, String.intercalate_singleton, String.append_assoc,
      String.append_assoc, String.append_assoc]

end Multimethod
