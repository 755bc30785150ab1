import Mathlib.Data.List.Nodup
import RelQuery.Join.JoinSet

/-!
# Which paths are joined

A join set keeps the longest paths only, and joins all the paths that they begin with. So the joined paths are closed
under taking prefixes, and every path that was added is among them.
-/

namespace RelQuery

theorem le_foldl_max {α : Type} (f : α → Nat) (l : List α) (n : Nat) :
    n ≤ l.foldl (fun n a => max n (f a)) n ∧ ∀ a ∈ l, f a ≤ l.foldl (fun n a => max n (f a)) n := by
  induction l generalizing n with
  | nil => simp
  | cons a rest ih =>
    obtain ⟨hn, hrest⟩ := ih (max n (f a))
    rw [List.foldl_cons]
    refine ⟨by omega, fun b hb => ?_⟩
    rcases List.mem_cons.mp hb with rfl | hb
    · omega
    · exact hrest b hb

theorem mem_byLength {paths : List Path} {p : Path} : p ∈ byLength paths ↔ p ∈ paths := by
  have hle := (le_foldl_max Path.length paths 0).2
  unfold byLength
  simp only [List.mem_flatMap, List.mem_range, List.mem_filter, beq_iff_eq]
  constructor
  · rintro ⟨n, -, hp, -⟩
    exact hp
  · intro hp
    exact ⟨p.length, Nat.lt_succ_of_le (hle p hp), hp, rfl⟩

theorem nodup_byLength {paths : List Path} (h : paths.Nodup) : (byLength paths).Nodup := by
  unfold byLength
  refine List.nodup_flatMap.mpr ⟨fun n _ => h.filter _, ?_⟩
  refine List.nodup_range.imp fun {n m} hne => ?_
  refine List.disjoint_left.mpr fun p hn hm => ?_
  simp only [List.mem_filter, beq_iff_eq] at hn hm
  omega

theorem pairwise_byLength (paths : List Path) : (byLength paths).Pairwise fun p q => p.length ≤ q.length := by
  unfold byLength
  refine List.pairwise_flatMap.mpr ⟨fun n _ => ?_, ?_⟩
  · refine List.pairwise_of_forall_mem_list fun p hp q hq => ?_
    simp only [List.mem_filter, beq_iff_eq] at hp hq
    omega
  · refine List.pairwise_lt_range.imp fun {n m} hlt p hp q hq => ?_
    simp only [List.mem_filter, beq_iff_eq] at hp hq
    omega

namespace Path

theorem isPrefixOf_iff {p q : Path} : p.isPrefixOf q = true ↔ p.segments <+: q.segments :=
  List.isPrefixOf_iff_prefix

theorem isRoot_iff {p : Path} : p.isRoot = true ↔ p = .root := by
  obtain ⟨segments⟩ := p
  simp [isRoot, root]

theorem child_ne_root (p : Path) (name : String) : p.child name ≠ .root := fun he =>
  List.concat_ne_nil _ _ (congrArg segments he)

theorem ne_root_of_prefix {p q : Path} (hpre : p.segments <+: q.segments) (hne : p ≠ .root) : q ≠ .root := by
  rintro rfl
  exact hne (congrArg mk (List.prefix_nil.mp hpre))

theorem mem_prefixes {p q : Path} : q ∈ p.prefixes ↔ q ≠ .root ∧ q.segments <+: p.segments := by
  obtain ⟨segments⟩ := q
  unfold prefixes
  simp only [List.mem_map, List.mem_range, Path.mk.injEq, root, ne_eq, length]
  constructor
  · rintro ⟨n, hn, rfl⟩
    refine ⟨fun h => ?_, List.take_prefix ..⟩
    have hlen := congrArg List.length h
    rw [List.length_take, List.length_nil] at hlen
    omega
  · rintro ⟨hne, hpre⟩
    have hpos := List.length_pos_iff.mpr hne
    have hle := hpre.length_le
    refine ⟨segments.length - 1, by omega, ?_⟩
    rw [show segments.length - 1 + 1 = segments.length by omega]
    exact (List.prefix_iff_eq_take.mp hpre).symm

theorem eq_of_child_isPrefix {parent path : Path} {a b : String} (ha : (parent.child a).segments <+: path.segments)
    (hb : (parent.child b).segments <+: path.segments) : a = b := by
  have hlength : (parent.child a).segments.length ≤ (parent.child b).segments.length :=
    Nat.le_of_eq ((parent.length_child a).trans (parent.length_child b).symm)
  have hboth : parent.segments ++ [a] <+: parent.segments ++ [b] := List.prefix_of_prefix_length_le ha hb hlength
  exact (List.cons_prefix_cons.mp ((List.prefix_append_right_inj _).mp hboth)).1

/-- Paths that go on below a path by different names, and differ where the name is the same, all differ. -/
theorem nodup_flatMap_of_names {α : Type} {items : List α} {name : α → String} {paths : α → List Path} (parent : Path)
    (hnames : (items.map name).Nodup)
    (hbelow : ∀ a ∈ items, ∀ path ∈ paths a, (parent.child (name a)).segments <+: path.segments)
    (heach : ∀ a ∈ items, (paths a).Nodup) : (items.flatMap paths).Nodup := by
  refine List.nodup_flatMap.mpr ⟨heach, (List.pairwise_map.mp hnames).imp_of_mem ?_⟩
  intro a b ha hb hne
  refine List.disjoint_left.mpr fun path hpathA hpathB => hne ?_
  exact eq_of_child_isPrefix (hbelow a ha path hpathA) (hbelow b hb path hpathB)

end Path

namespace JoinSet

theorem contains_iff {j : JoinSet} {p : Path} :
    j.contains p = true ↔ ∃ leaf ∈ j.leaves, p.segments <+: leaf.segments := by
  simp [contains, Path.isPrefixOf_iff]

theorem mem_expanded {j : JoinSet} {p : Path} : p ∈ j.expanded ↔ p ≠ .root ∧ j.contains p = true := by
  unfold expanded
  simp only [mem_byLength, mem_distinct, List.mem_flatMap, Path.mem_prefixes, contains_iff]
  constructor
  · rintro ⟨leaf, hleaf, hne, hpre⟩
    exact ⟨hne, leaf, hleaf, hpre⟩
  · rintro ⟨hne, leaf, hleaf, hpre⟩
    exact ⟨leaf, hleaf, hne, hpre⟩

theorem nodup_expanded (j : JoinSet) : j.expanded.Nodup :=
  nodup_byLength (distinct_nodup _)

theorem mem_expanded_of_prefix {j : JoinSet} {p q : Path} (hp : p ∈ j.expanded) (hq : q ≠ .root)
    (hpre : q.segments <+: p.segments) : q ∈ j.expanded := by
  obtain ⟨leaf, hleaf, hle⟩ := contains_iff.mp (mem_expanded.mp hp).2
  exact mem_expanded.mpr ⟨hq, contains_iff.mpr ⟨leaf, hleaf, hpre.trans hle⟩⟩

theorem contains_add {j : JoinSet} {p q : Path} (h : j.contains q = true) : (j.add p).contains q = true := by
  unfold add
  split
  · obtain ⟨leaf, hleaf, hpre⟩ := contains_iff.mp h
    refine contains_iff.mpr ?_
    by_cases hle : leaf.isPrefixOf p = true
    · exact ⟨p, by simp, hpre.trans (Path.isPrefixOf_iff.mp hle)⟩
    · exact ⟨leaf, by simp [hleaf, hle], hpre⟩
  · exact h

theorem contains_add_self (j : JoinSet) {p : Path} (h : p ≠ .root) : (j.add p).contains p = true := by
  unfold add
  split
  · exact contains_iff.mpr ⟨p, by simp, List.prefix_rfl⟩
  · rename_i hacc
    by_contra hcon
    have hroot : p.isRoot = false := Bool.eq_false_iff.mpr fun hr => h (Path.isRoot_iff.mp hr)
    exact hacc (by simp [accepts, hroot, hcon])

theorem contains_foldl_add {j : JoinSet} {paths : List Path} {q : Path}
    (h : j.contains q = true ∨ q ∈ paths ∧ q ≠ .root) : (paths.foldl add j).contains q = true := by
  induction paths generalizing j with
  | nil => simpa using h
  | cons p rest ih =>
    rw [List.foldl_cons]
    apply ih
    rcases h with h | ⟨hq, hne⟩
    · exact .inl (contains_add h)
    · rcases List.mem_cons.mp hq with rfl | hrest
      · exact .inl (contains_add_self j hne)
      · exact .inr ⟨hrest, hne⟩

theorem mem_expanded_foldl_add {j : JoinSet} {paths : List Path} {p : Path} (hp : p ∈ paths) (hne : p ≠ .root) :
    p ∈ (paths.foldl add j).expanded :=
  mem_expanded.mpr ⟨hne, contains_foldl_add (.inr ⟨hp, hne⟩)⟩

theorem leaf_of_mem_add {j : JoinSet} {p leaf : Path} (h : leaf ∈ (j.add p).leaves) : leaf ∈ j.leaves ∨ leaf = p := by
  unfold add at h
  split at h
  · rcases List.mem_append.mp h with h | h
    · exact .inl (List.mem_filter.mp h).1
    · exact .inr (List.mem_singleton.mp h)
  · exact .inl h

theorem leaf_of_mem_foldl_add {j : JoinSet} {paths : List Path} {leaf : Path}
    (h : leaf ∈ (paths.foldl add j).leaves) : leaf ∈ j.leaves ∨ leaf ∈ paths := by
  induction paths generalizing j with
  | nil => exact .inl h
  | cons p rest ih =>
    rcases ih h with h | h
    · rcases leaf_of_mem_add h with h | rfl
      · exact .inl h
      · exact .inr (List.mem_cons_self ..)
    · exact .inr (List.mem_cons_of_mem _ h)

end JoinSet

/-- Whether some path goes through another, or ends there. -/
def goThrough (paths : List Path) (path : Path) : Bool := paths.any path.isPrefixOf

theorem goThrough_iff {paths : List Path} {path : Path} :
    goThrough paths path = true ↔ ∃ q ∈ paths, path.segments <+: q.segments := by
  unfold goThrough
  rw [List.any_eq_true]
  simp only [Path.isPrefixOf_iff]

/-- Of paths, those are joined that some of them go through. -/
theorem JoinSet.mem_expanded_iff {paths : List Path} {path : Path} (hne : path ≠ .root) :
    path ∈ (paths.foldl add .empty).expanded ↔ goThrough paths path = true := by
  rw [goThrough_iff]
  constructor
  · intro h
    obtain ⟨leaf, hleaf, hpre⟩ := contains_iff.mp (mem_expanded.mp h).2
    rcases leaf_of_mem_foldl_add hleaf with hnil | hmem
    · cases hnil
    · exact ⟨leaf, hmem, hpre⟩
  · rintro ⟨q, hq, hpre⟩
    exact mem_expanded_of_prefix (mem_expanded_foldl_add hq (Path.ne_root_of_prefix hpre hne)) hne hpre

theorem goThrough_single {name : String} {q : Path} (hne : q ≠ .root) :
    goThrough [⟨[name]⟩] q = true ↔ q = ⟨[name]⟩ := by
  rw [goThrough_iff, List.exists_mem_cons_iff]
  constructor
  · rintro (hpre | ⟨_, hmem, -⟩)
    · have hshort : q.segments <+: [] ++ [name] := hpre
      rcases List.prefix_concat_iff.mp hshort with he | hnil
      · exact congrArg Path.mk he
      · exact absurd (congrArg Path.mk (List.prefix_nil.mp hnil)) hne
    · cases hmem
  · rintro rfl
    exact .inl List.prefix_rfl

end RelQuery
