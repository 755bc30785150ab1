import RelQuery.Proofs.Join.JoinSet

/-!
# What a join set keeps of added paths

Only leaves are kept, so an addition drops what it goes on from and is refused where it is implied. No leaf then begins
with another, and yet nothing is lost: the joined paths are those that some added path begins with, in whatever order
and how often it was added.
-/

namespace RelQuery

/-- Neither path begins with the other. -/
def Path.Apart (p q : Path) : Prop := ¬ p.segments <+: q.segments ∧ ¬ q.segments <+: p.segments

namespace JoinSet

variable {j : JoinSet} {p q : Path}

structure Collapsed (j : JoinSet) : Prop where
  nonempty : ∀ leaf ∈ j.leaves, leaf ≠ .root
  apart : j.leaves.Pairwise Path.Apart

theorem accepts_iff : j.accepts p = true ↔ p ≠ .root ∧ j.contains p = false := by
  unfold accepts
  rw [Bool.and_eq_true, Bool.not_eq_true', Bool.not_eq_true', ← Bool.not_eq_true, Path.isRoot_iff]

theorem Collapsed.add (h : j.Collapsed) (p : Path) : (j.add p).Collapsed := by
  unfold JoinSet.add
  split
  case isFalse => exact h
  case isTrue haccepted =>
    obtain ⟨hne, hnew⟩ := accepts_iff.mp haccepted
    constructor
    · intro leaf hleaf
      rcases List.mem_append.mp hleaf with hleaf | hleaf
      · exact h.nonempty leaf (List.mem_of_mem_filter hleaf)
      · exact List.mem_singleton.mp hleaf ▸ hne
    · refine List.pairwise_append.mpr ⟨h.apart.filter _, List.pairwise_singleton _ _, ?_⟩
      -- what stays does not begin the new leaf, and nothing that was there goes on from it
      intro leaf hleaf other hother
      obtain rfl := List.mem_singleton.mp hother
      obtain ⟨hold, hstays⟩ := List.mem_filter.mp hleaf
      constructor
      · intro hpre
        simp [Path.isPrefixOf_iff.mpr hpre] at hstays
      · intro hpre
        rw [contains_iff.mpr ⟨leaf, hold, hpre⟩] at hnew
        cases hnew

theorem collapsed_foldl_add (added : List Path) (h : j.Collapsed) : (added.foldl add j).Collapsed := by
  induction added generalizing j with
  | nil => exact h
  | cons p rest ih => exact ih (h.add p)

theorem collapsed_empty : empty.Collapsed := ⟨by simp [empty], by simp [empty]⟩

theorem add_of_accepts_eq_false (h : j.accepts p = false) : j.add p = j := by
  simp [add, h]

/-- An accepted path is joined afterwards, and was not before. -/
theorem add_ne_self (h : j.accepts p = true) : j.add p ≠ j := by
  intro hsame
  obtain ⟨hne, hnew⟩ := accepts_iff.mp h
  have hjoined := contains_add_self j hne
  rw [hsame, hnew] at hjoined
  cases hjoined

theorem accepts_eq_false_iff : j.accepts p = false ↔ p = .root ∨ j.contains p = true := by
  rw [← Bool.not_eq_true, accepts_iff, not_and_or, not_not, Bool.not_eq_false]

theorem add_eq_self_iff : j.add p = j ↔ p = .root ∨ j.contains p = true := by
  rw [← accepts_eq_false_iff]
  constructor
  · intro hsame
    exact Bool.eq_false_iff.mpr fun haccepted => add_ne_self haccepted hsame
  · exact add_of_accepts_eq_false

theorem contains_foldl_add_iff {added : List Path} (hne : p ≠ .root) :
    (added.foldl add empty).contains p = true ↔ ∃ q ∈ added, p.segments <+: q.segments := by
  rw [← goThrough_iff, ← mem_expanded_iff hne, mem_expanded]
  exact (and_iff_right hne).symm

/-- What a joined path goes on from comes before it: it is joined, and shorter. -/
theorem mem_before_of_prefix {before after : List Path} (h : j.expanded = before ++ p :: after) (hne : q ≠ .root)
    (hpre : q.segments <+: p.segments) (hqp : q ≠ p) : q ∈ before := by
  have hp : p ∈ j.expanded := by simp [h]
  have hq := mem_expanded_of_prefix hp hne hpre
  rw [h] at hq
  rcases List.mem_append.mp hq with hq | hq
  · exact hq
  · have hlater : q ∈ after := (List.mem_cons.mp hq).resolve_left hqp
    have hsorted : j.expanded.Pairwise fun p q => p.length ≤ q.length := pairwise_byLength _
    rw [h] at hsorted
    have hle := (List.pairwise_cons.mp (List.pairwise_append.mp hsorted).2.1).1 q hlater
    exact absurd (congrArg Path.mk (hpre.eq_of_length_le hle)) hqp

/-- What a join set tells of the paths that were added to it. -/
structure Joins (j : JoinSet) (added : List Path) : Prop where
  nonempty : ∀ leaf ∈ j.leaves, leaf ≠ .root
  apart : j.leaves.Pairwise Path.Apart
  contains : ∀ p ≠ .root, (j.contains p = true ↔ ∃ q ∈ added, p.segments <+: q.segments)
  refused : ∀ p, (j.accepts p = false ↔ p = .root ∨ j.contains p = true)
  unchanged : ∀ p, (j.add p = j ↔ p = .root ∨ j.contains p = true)
  nodup : j.expanded.Nodup
  closed : ∀ p ∈ j.expanded, ∀ q ≠ .root, q.segments <+: p.segments → q ∈ j.expanded
  prefixesFirst : ∀ before p after, j.expanded = before ++ p :: after →
    ∀ q ≠ .root, q.segments <+: p.segments → q ≠ p → q ∈ before
  levels : (j.expanded.map Path.length).Pairwise (· ≤ ·)
  members : ∀ p, p ∈ j.expanded ↔ p ≠ .root ∧ ∃ q ∈ added, p.segments <+: q.segments
  /-- Paths added in another order, or more often, make no difference. -/
  orderFree : ∀ added' : List Path, (∀ p, p ∈ added' ↔ p ∈ added) →
    ∀ p, p ∈ (added'.foldl add empty).expanded ↔ p ∈ j.expanded

theorem mem_expanded_foldl_add_iff {added : List Path} :
    p ∈ (added.foldl add empty).expanded ↔ p ≠ .root ∧ ∃ q ∈ added, p.segments <+: q.segments := by
  rw [mem_expanded]
  exact and_congr_right contains_foldl_add_iff

theorem joins_foldl_add (added : List Path) : (added.foldl add empty).Joins added where
  nonempty := (collapsed_foldl_add added collapsed_empty).nonempty
  apart := (collapsed_foldl_add added collapsed_empty).apart
  contains _ := contains_foldl_add_iff
  refused _ := accepts_eq_false_iff
  unchanged _ := add_eq_self_iff
  nodup := nodup_expanded _
  closed _ hp _ := mem_expanded_of_prefix hp
  prefixesFirst _ _ _ h _ := mem_before_of_prefix h
  levels := List.pairwise_map.mpr (pairwise_byLength _)
  members _ := mem_expanded_foldl_add_iff
  orderFree added' hsame p := by
    simp only [mem_expanded_foldl_add_iff, hsame]

-- the longer path replaces the first leaf, and the first path is refused when it comes again
example : ([⟨["author"]⟩, ⟨["author", "city"]⟩, ⟨["tags"]⟩, ⟨["author"]⟩].foldl add empty).expanded =
    [⟨["author"]⟩, ⟨["tags"]⟩, ⟨["author", "city"]⟩] := by decide

end JoinSet

end RelQuery
