/-!
# Maps keyed by names

A finite map from names as its list of pairs, in ascending order of the names (by code point). Maps with the same
pairs are the same list, so equality of maps is equality of what they hold.
-/

namespace RelQuery

universe u

/-- Pairs of a name and what it stands for, in ascending order of the names. -/
abbrev NameMap (α : Type u) := List (String × α)

namespace NameMap

variable {α : Type u}

def get? : NameMap α → String → Option α
  | [], _ => none
  | (k, v) :: rest, name => if k = name then some v else get? rest name

def has (m : NameMap α) (name : String) : Bool :=
  (m.get? name).isSome

/-- Makes a name stand for a value, in place of what it stood for. -/
def put (name : String) (value : α) : NameMap α → NameMap α
  | [] => [(name, value)]
  | (k, v) :: rest =>
    if name = k then (k, value) :: rest
    else if name < k then (name, value) :: (k, v) :: rest
    else (k, v) :: put name value rest

def drop (name : String) : NameMap α → NameMap α
  | [] => []
  | (k, v) :: rest => if k = name then rest else (k, v) :: drop name rest

/-- The map of a list of pairs, a later pair replacing an earlier one of the same name. -/
def ofPairs (pairs : List (String × α)) : NameMap α :=
  pairs.foldl (fun m p => put p.1 p.2 m) []

def Ordered (m : NameMap α) : Prop :=
  (m.map (·.1)).Pairwise (· < ·)

@[simp] theorem get?_nil (name : String) : get? ([] : NameMap α) name = none := rfl

theorem get?_put_self (m : NameMap α) (name : String) (value : α) :
    (put name value m).get? name = some value := by
  induction m with
  | nil => simp [put, get?]
  | cons p rest ih =>
    obtain ⟨k, v⟩ := p
    unfold put
    split
    · simp_all [get?]
    · split
      · simp [get?]
      · have hk : ¬ k = name := fun h => by simp_all
        simp [get?, hk, ih]

theorem get?_put_of_ne (m : NameMap α) {name other : String} (value : α) (h : other ≠ name) :
    (put name value m).get? other = m.get? other := by
  have h' : ¬ name = other := fun e => h e.symm
  induction m with
  | nil => simp [put, get?, h']
  | cons p rest ih =>
    obtain ⟨k, v⟩ := p
    unfold put
    split
    · rename_i e
      subst e
      simp [get?, h']
    · split
      · simp [get?, h']
      · simp [get?, ih]

end NameMap

end RelQuery
