/-!
# First appearances

The members of a list, each once, in order of first appearance.
-/

namespace RelQuery

universe u

variable {α : Type u} [DecidableEq α]

/-- The members of a list in order of first appearance. -/
def distinct : List α → List α
  | [] => []
  | x :: rest => x :: (distinct rest).filter (· ≠ x)

@[simp] theorem mem_distinct {x : α} {l : List α} : x ∈ distinct l ↔ x ∈ l := by
  induction l with
  | nil => simp [distinct]
  | cons y rest ih =>
    by_cases h : x = y <;> simp [distinct, h, ih]

theorem distinct_nodup (l : List α) : (distinct l).Nodup := by
  induction l with
  | nil => simp [distinct]
  | cons y rest ih =>
    have h : ((distinct rest).filter (· ≠ y)).Nodup := ih.sublist List.filter_sublist
    simpa [distinct] using h

end RelQuery
