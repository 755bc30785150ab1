import Mathlib.Data.List.Nodup
import RelQuery.Distinct

/-!
# First appearances

Taking first appearances commutes with the operations on lists, so whether two lists have the same members in the same
order of first appearance (`SameFirsts`) is kept by all of them. Repeating members of a list, in whatever way, is
therefore nothing that later operations could notice.
-/

namespace RelQuery

universe u v

/-- Where a member of a list decides for all that stands in its place, the list can be filtered instead. -/
theorem filter_flatMap_of_forall {α : Type u} {β : Type v} {l : List α} {f : α → List β} {keep : β → Bool}
    {keepAll : α → Bool} (h : ∀ a ∈ l, ∀ b ∈ f a, keep b = keepAll a) :
    (l.flatMap f).filter keep = (l.filter keepAll).flatMap f := by
  induction l with
  | nil => rfl
  | cons a rest ih =>
    obtain ⟨hfirst, hrest⟩ := List.forall_mem_cons.mp h
    rw [List.flatMap_cons, List.filter_append, ih hrest]
    by_cases ha : keepAll a = true
    · rw [List.filter_cons_of_pos ha, List.flatMap_cons, List.filter_eq_self.mpr fun b hb => (hfirst b hb).trans ha]
    · rw [List.filter_cons_of_neg ha, List.filter_eq_nil_iff.mpr fun b hb => by rwa [hfirst b hb], List.nil_append]

variable {α : Type u} {β : Type v} [DecidableEq α] [DecidableEq β]

theorem distinct_cons (x : α) (l : List α) : distinct (x :: l) = x :: (distinct l).filter (· ≠ x) := rfl

theorem distinct_filter (p : α → Bool) (l : List α) : distinct (l.filter p) = (distinct l).filter p := by
  induction l with
  | nil => rfl
  | cons x rest ih =>
    rw [distinct_cons]
    by_cases hx : p x = true
    · rw [List.filter_cons_of_pos hx, distinct_cons, ih, List.filter_cons_of_pos hx, List.filter_filter,
        List.filter_filter]
      congr 1
      exact List.filter_congr fun y _ => Bool.and_comm ..
    · rw [List.filter_cons_of_neg hx, ih, List.filter_cons_of_neg hx, List.filter_filter]
      refine List.filter_congr fun y _ => ?_
      by_cases hy : y = x
      · simp [hy, hx]
      · simp [hy]

theorem distinct_eq_self {l : List α} (h : l.Nodup) : distinct l = l := by
  induction l with
  | nil => rfl
  | cons x rest ih =>
    rw [List.nodup_cons] at h
    have hall : ∀ y ∈ rest, decide (y ≠ x) = true := by
      intro y hy
      exact decide_eq_true fun e => h.1 (e ▸ hy)
    rw [distinct_cons, ih h.2, List.filter_eq_self.mpr hall]

theorem distinct_eq_eraseDups [BEq α] [LawfulBEq α] (l : List α) : distinct l = l.eraseDups := by
  have key : ∀ n (l : List α), l.length ≤ n → distinct l = l.eraseDups := by
    intro n
    induction n with
    | zero =>
      intro l hl
      rw [List.eq_nil_of_length_eq_zero (Nat.le_zero.mp hl)]
      rfl
    | succ n ih =>
      intro l hl
      cases l with
      | nil => rfl
      | cons x rest =>
        have hlen : (rest.filter (· ≠ x)).length ≤ n := by
          have h := List.length_filter_le (· ≠ x) rest
          rw [List.length_cons] at hl
          omega
        have hp : (fun y => decide (y ≠ x)) = fun y => !y == x := by
          funext y
          by_cases hy : y = x <;> simp [hy]
        rw [distinct_cons, List.eraseDups_cons, ← distinct_filter, ih _ hlen, hp]
  exact key l.length l (Nat.le_refl _)

theorem distinct_append (l m : List α) :
    distinct (l ++ m) = distinct l ++ (distinct m).filter (· ∉ l) := by
  induction l with
  | nil =>
    symm
    simp [distinct]
  | cons x rest ih =>
    rw [List.cons_append, distinct_cons, distinct_cons, ih, List.filter_append, List.filter_filter,
      List.cons_append]
    congr 2
    refine List.filter_congr fun y _ => ?_
    simp [not_or]

theorem distinct_concat (l : List α) (x : α) :
    distinct (l ++ [x]) = if x ∈ distinct l then distinct l else distinct l ++ [x] := by
  have hone : distinct [x] = [x] := rfl
  rw [distinct_append, hone]
  by_cases hin : x ∈ l
  · rw [if_pos (mem_distinct.mpr hin), List.filter_cons_of_neg (by simpa using hin), List.filter_nil, List.append_nil]
  · rw [if_neg fun h => hin (mem_distinct.mp h), List.filter_cons_of_pos (by simpa using hin), List.filter_nil]

theorem distinct_map_distinct (f : α → β) (l : List α) : distinct ((distinct l).map f) = distinct (l.map f) := by
  induction l with
  | nil => rfl
  | cons x rest ih =>
    -- images of the copies of x that the left side has dropped are dropped on the right as images of x
    have hdrop : (((distinct rest).filter (· ≠ x)).map f).filter (· ≠ f x) =
        ((distinct rest).map f).filter (· ≠ f x) := by
      rw [List.filter_map, List.filter_map, List.filter_filter]
      congr 1
      refine List.filter_congr fun y _ => ?_
      by_cases hy : y = x <;> simp [hy]
    rw [distinct_cons, List.map_cons, List.map_cons, distinct_cons, distinct_cons, ← distinct_filter, hdrop,
      distinct_filter, ih]

theorem distinct_map_of_injective {f : α → β} {l : List α} (h : ∀ a ∈ l, ∀ b ∈ l, f a = f b → a = b) :
    distinct (l.map f) = (distinct l).map f := by
  rw [← distinct_map_distinct f l, distinct_eq_self]
  refine List.Nodup.map_on (fun a ha b hb => ?_) (distinct_nodup l)
  exact h a (mem_distinct.mp ha) b (mem_distinct.mp hb)

theorem distinct_flatMap_distinct (f : α → List β) (l : List α) :
    distinct ((distinct l).flatMap f) = distinct (l.flatMap f) := by
  induction l with
  | nil => rfl
  | cons x rest ih =>
    have hdrop : (((distinct rest).filter (· ≠ x)).flatMap f).filter (· ∉ f x) =
        ((distinct rest).flatMap f).filter (· ∉ f x) := by
      induction distinct rest with
      | nil => rfl
      | cons y more ihm =>
        by_cases hy : y = x
        · rw [List.filter_cons_of_neg (by simp [hy]), ihm, List.flatMap_cons, List.filter_append, hy]
          simp
        · rw [List.filter_cons_of_pos (by simp [hy]), List.flatMap_cons, List.flatMap_cons, List.filter_append,
            List.filter_append, ihm]
    rw [distinct_cons, List.flatMap_cons, List.flatMap_cons, distinct_append, distinct_append, ← distinct_filter,
      hdrop, distinct_filter, ih]

/-- In a sorted list, something with the first of two images comes no later than anything with the second. -/
theorem pairwise_distinct_map {γ : Type u} {R : γ → γ → Prop} {f : γ → β} {l : List γ} (h : l.Pairwise R) :
    (distinct (l.map f)).Pairwise fun a b => ∃ x ∈ l, f x = a ∧ ∀ y ∈ l, f y = b → R x y := by
  induction h with
  | nil => exact .nil
  | @cons x rest hx hrest ih =>
    rw [List.map_cons, distinct_cons, List.pairwise_cons]
    constructor
    · intro b hb
      have hne := of_decide_eq_true (List.mem_filter.mp hb).2
      refine ⟨x, List.mem_cons_self .., rfl, fun y hy hyb => ?_⟩
      rcases List.mem_cons.mp hy with rfl | hy
      · exact absurd hyb.symm hne
      · exact hx y hy
    · refine (ih.filter _).imp_of_mem fun {a b} _ hb ⟨z, hz, hza, hall⟩ => ?_
      have hne := of_decide_eq_true (List.mem_filter.mp hb).2
      refine ⟨z, List.mem_cons_of_mem _ hz, hza, fun y hy hyb => ?_⟩
      rcases List.mem_cons.mp hy with rfl | hy
      · exact absurd hyb.symm hne
      · exact hall y hy hyb

/-- The two lists have the same members, in the same order of first appearance. -/
def SameFirsts (l m : List α) : Prop :=
  distinct l = distinct m

namespace SameFirsts

variable {l m : List α}

theorem refl (l : List α) : SameFirsts l l := rfl

theorem trans {k : List α} (h : SameFirsts l m) (h' : SameFirsts m k) : SameFirsts l k :=
  Eq.trans h h'

theorem mem_iff (h : SameFirsts l m) {x : α} : x ∈ l ↔ x ∈ m := by
  rw [← mem_distinct, h, mem_distinct]

theorem ne_nil (h : SameFirsts l m) (hm : m ≠ []) : l ≠ [] := by
  obtain ⟨x, hx⟩ := List.exists_mem_of_ne_nil m hm
  exact List.ne_nil_of_mem (h.mem_iff.mpr hx)

theorem map (h : SameFirsts l m) (f : α → β) : SameFirsts (l.map f) (m.map f) := by
  unfold SameFirsts at *
  rw [← distinct_map_distinct f l, h, distinct_map_distinct]

theorem filter (h : SameFirsts l m) (p : α → Bool) : SameFirsts (l.filter p) (m.filter p) := by
  unfold SameFirsts at *
  rw [distinct_filter, distinct_filter, h]

theorem flatMap (h : SameFirsts l m) (f : α → List β) : SameFirsts (l.flatMap f) (m.flatMap f) := by
  unfold SameFirsts at *
  rw [← distinct_flatMap_distinct f l, h, distinct_flatMap_distinct]

end SameFirsts

theorem sameFirsts_flatMap_const {γ : Type v} (times : List γ) (l : List α) (h : times ≠ []) :
    SameFirsts (times.flatMap fun _ => l) l := by
  unfold SameFirsts
  induction times with
  | nil => exact absurd rfl h
  | cons t rest ih =>
    have hnone : (distinct (rest.flatMap fun _ => l)).filter (· ∉ l) = [] := by
      refine List.filter_eq_nil_iff.mpr fun x hx => ?_
      have hmem := List.mem_flatMap.mp (mem_distinct.mp hx)
      simp [hmem.choose_spec.2]
    rw [List.flatMap_cons, distinct_append, hnone, List.append_nil]

theorem distinct_eq_singleton {l : List α} {x : α} (h : l ≠ []) (hx : ∀ y ∈ l, y = x) : distinct l = [x] := by
  cases l with
  | nil => exact absurd rfl h
  | cons y rest =>
    have hnone : (distinct rest).filter (· ≠ y) = [] := by
      refine List.filter_eq_nil_iff.mpr fun z hz => ?_
      have hzx := hx z (List.mem_cons_of_mem _ (mem_distinct.mp hz))
      have hyx := hx y (List.mem_cons_self ..)
      simp [hzx, hyx]
    rw [distinct_cons, hnone, hx y (List.mem_cons_self ..)]

/-- A list in place of each member of which stand copies of one thing. -/
theorem sameFirsts_flatMap_copies {γ : Type v} {l : List γ} {f : γ → List α} {g : γ → α}
    (hne : ∀ c ∈ l, f c ≠ []) (h : ∀ c ∈ l, ∀ x ∈ f c, x = g c) : SameFirsts (l.flatMap f) (l.map g) := by
  unfold SameFirsts
  induction l with
  | nil => rfl
  | cons c rest ih =>
    have hc := List.mem_cons_self (a := c) (l := rest)
    have hone := distinct_eq_singleton (hne c hc) (h c hc)
    have hmem : ∀ y, y ∈ f c ↔ y = g c := by
      intro y
      rw [← mem_distinct, hone, List.mem_singleton]
    rw [List.flatMap_cons, List.map_cons, distinct_append, hone, distinct_cons,
      ih (fun c hc => hne c (List.mem_cons_of_mem _ hc)) fun c hc => h c (List.mem_cons_of_mem _ hc)]
    simp only [hmem, List.singleton_append]

end RelQuery
