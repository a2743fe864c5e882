/-!
# Ranks

Types that are tried for one argument are tried by rank: ordinary types first, then catch-all types,
then the wildcard. `Rank.sort` puts a list in this order and leaves entries of one rank in the order
in which they came; it only moves entries (`perm_sort`), and puts them in ascending rank
(`pairwise_sort`).
-/

set_option autoImplicit false
set_option relaxedAutoImplicit false

namespace Multimethod

/-- How permissive a type is. -/
inductive Rank where
  | ordinary
  | catchAll
  | wildcard
  deriving DecidableEq, Repr

namespace Rank

/-- The position of a rank in the order in which types are tried. -/
def level : Rank → Nat
  | .ordinary => 0
  | .catchAll => 1
  | .wildcard => 2

/-- The more permissive of two ranks. -/
def max (a b : Rank) : Rank :=
  if a.level < b.level then b else a

/-- The entries by ascending rank, those of one rank in their order. -/
def sort {α : Type} (rank : α → Rank) (entries : List α) : List α :=
  entries.filter (rank · == .ordinary) ++
    (entries.filter (rank · == .catchAll) ++ entries.filter (rank · == .wildcard))

/-- Sorting only moves entries. -/
@[simp] theorem perm_sort {α : Type} (rank : α → Rank) (entries : List α) :
    (sort rank entries).Perm entries := by
  induction entries with
  | nil => exact .nil
  | cons x xs ih =>
    cases hx : rank x <;> simp only [sort, List.filter_cons, hx] at ih ⊢
    · exact ih.cons x
    · exact (List.perm_middle).trans (ih.cons x)
    · simp only [← List.append_assoc] at ih ⊢
      exact (List.perm_middle).trans (ih.cons x)

@[simp] theorem mem_sort_iff {α : Type} (rank : α → Rank) (entries : List α) (entry : α) :
    entry ∈ sort rank entries ↔ entry ∈ entries :=
  (perm_sort rank entries).mem_iff

theorem rank_of_mem_filter {α : Type} {rank : α → Rank} {entries : List α} {kind : Rank}
    {entry : α} (hmem : entry ∈ entries.filter (rank · == kind)) : rank entry = kind := by
  simpa using (List.mem_filter.mp hmem).2

/-- Sorting puts entries in ascending rank. -/
theorem pairwise_sort {α : Type} (rank : α → Rank) (entries : List α) :
    (sort rank entries).Pairwise fun first second ↦ (rank first).level ≤ (rank second).level := by
  have hsame : ∀ kind, (entries.filter (rank · == kind)).Pairwise
      fun first second ↦ (rank first).level ≤ (rank second).level := by
    intro kind
    refine List.pairwise_of_forall_mem_list ?_
    intro first hfirst second hsecond
    exact Nat.le_of_eq (by rw [rank_of_mem_filter hfirst, rank_of_mem_filter hsecond])
  unfold sort
  rw [List.pairwise_append, List.pairwise_append]
  refine ⟨hsame _, ⟨hsame _, hsame _, fun first hfirst second hsecond ↦ ?_⟩,
    fun first hfirst second _ ↦ ?_⟩
  · rw [rank_of_mem_filter hfirst, rank_of_mem_filter hsecond]
    decide
  · rw [rank_of_mem_filter hfirst]
    exact Nat.zero_le _

/-- What comes after an entry in ascending rank has no lower rank. -/
theorem level_le_of_sort_eq {α : Type} (rank : α → Rank) {entries before after : List α}
    {first other : α} (hsort : sort rank entries = before ++ first :: after)
    (hother : other ∈ first :: after) : (rank first).level ≤ (rank other).level := by
  have hsorted := pairwise_sort rank entries
  rw [hsort, List.pairwise_append, List.pairwise_cons] at hsorted
  rcases List.mem_cons.mp hother with rfl | hafter
  · exact Nat.le_refl _
  · exact hsorted.2.1.1 other hafter

end Rank

end Multimethod
