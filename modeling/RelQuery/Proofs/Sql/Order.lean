import RelQuery.Proofs.Sql.Semantics

/-!
# Orderings of rows

Comparing lists of values by the first difference is a total preorder, whatever a server takes for the order of values
and wherever it puts nulls. Rows that an ordering tells apart therefore come in one order only, no matter in which order
they were found.
-/

namespace RelQuery.Sql

namespace Server

variable {sv : Server}

theorem rank_swap (dir : SortDir) (a b : Value) : sv.rank dir a b = (sv.rank dir b a).swap := by
  unfold rank
  cases a.isNull <;> cases b.isNull <;> dsimp only
  · cases dir with
    | asc => exact @Std.OrientedCmp.eq_swap _ sv.compare _ a b
    | desc => exact @Std.OrientedCmp.eq_swap _ sv.compare _ b a
  · cases sv.nullsFirst dir <;> rfl
  · cases sv.nullsFirst dir <;> rfl
  · rfl

theorem rank_trans (dir : SortDir) {a b c : Value} (hab : (sv.rank dir a b).isLE = true)
    (hbc : (sv.rank dir b c).isLE = true) : (sv.rank dir a c).isLE = true := by
  unfold rank at hab hbc ⊢
  generalize a.isNull = na at hab hbc ⊢
  generalize b.isNull = nb at hab hbc ⊢
  generalize c.isNull = nc at hab hbc ⊢
  cases na <;> cases nb <;> cases nc <;> dsimp only at hab hbc ⊢
  · cases dir with
    | asc => exact @Std.TransCmp.isLE_trans _ sv.compare _ a b c hab hbc
    | desc => exact @Std.TransCmp.isLE_trans _ sv.compare _ c b a hbc hab
  -- where nulls are among the values, only the place of nulls counts
  all_goals generalize sv.nullsFirst dir = first at hab hbc ⊢
  all_goals cases first <;> first | rfl | exact absurd hab (by decide) | exact absurd hbc (by decide)

instance (dir : SortDir) : Std.TransCmp (sv.rank dir) where
  eq_swap := rank_swap dir _ _
  isLE_trans := rank_trans dir

theorem compareKeys_swap (dirs : List SortDir) (a b : List Value) :
    sv.compareKeys dirs a b = (sv.compareKeys dirs b a).swap := by
  induction dirs generalizing a b with
  | nil => rfl
  | cons dir dirs ih => rw [compareKeys, compareKeys, ih, Ordering.swap_then, ← rank_swap]

theorem compareKeys_trans (dirs : List SortDir) {a b c : List Value} (hab : (sv.compareKeys dirs a b).isLE = true)
    (hbc : (sv.compareKeys dirs b c).isLE = true) : (sv.compareKeys dirs a c).isLE = true := by
  induction dirs generalizing a b c with
  | nil => rfl
  | cons dir dirs ih =>
    rw [compareKeys, Ordering.isLE_then_iff_and] at hab hbc ⊢
    obtain ⟨hab, hab'⟩ := hab
    obtain ⟨hbc, hbc'⟩ := hbc
    refine ⟨Std.TransCmp.isLE_trans hab hbc, ?_⟩
    rcases hab' with hlt | hab'
    · exact .inl (Std.TransCmp.lt_of_lt_of_isLE hlt hbc)
    · rcases hbc' with hlt | hbc'
      · exact .inl (Std.TransCmp.lt_of_isLE_of_lt hab hlt)
      · exact .inr (ih hab' hbc')

instance (dirs : List SortDir) : Std.TransCmp (sv.compareKeys dirs) where
  eq_swap := compareKeys_swap dirs _ _
  isLE_trans := compareKeys_trans dirs

theorem compareKeys_total (dirs : List SortDir) (a b : List Value) :
    (sv.compareKeys dirs a b).isLE = true ∨ (sv.compareKeys dirs b a).isLE = true := by
  rw [compareKeys_swap dirs b a]
  cases sv.compareKeys dirs a b <;> simp

theorem compareKeys_congr {dirs : List SortDir} {a a' b b' : List Value} (ha : sv.compareKeys dirs a a' = .eq)
    (hb : sv.compareKeys dirs b b' = .eq) : sv.compareKeys dirs a b = sv.compareKeys dirs a' b' :=
  (Std.TransCmp.congr_left ha).trans (Std.TransCmp.congr_right hb)

/-- The least of values is one of them, and none comes before it. -/
theorem extreme_spec (dir : SortDir) (v : Value) (rest : List Value) :
    sv.extreme dir (v :: rest) ∈ v :: rest ∧ ∀ x ∈ v :: rest, (sv.rank dir (sv.extreme dir (v :: rest)) x).isLE = true := by
  unfold extreme
  dsimp only
  induction rest generalizing v with
  | nil => exact ⟨List.mem_cons_self .., List.forall_mem_singleton.mpr Std.ReflCmp.isLE_rfl⟩
  | cons w rest ih =>
    rw [List.foldl_cons]
    by_cases hlt : sv.rank dir w v = .lt
    · rw [if_pos hlt]
      obtain ⟨hmem, hle⟩ := ih w
      refine ⟨List.mem_cons_of_mem _ hmem, List.forall_mem_cons.mpr ⟨?_, hle⟩⟩
      exact Std.TransCmp.isLE_trans (hle w (List.mem_cons_self ..)) (by rw [hlt]; rfl)
    · rw [if_neg hlt]
      obtain ⟨hmem, hle⟩ := ih v
      have hvw : (sv.rank dir v w).isLE = true := by
        rw [rank_swap]
        cases hw : sv.rank dir w v with
        | lt => exact absurd hw hlt
        | eq => rfl
        | gt => rfl
      obtain ⟨hv, hrest⟩ := List.forall_mem_cons.mp hle
      refine ⟨?_, List.forall_mem_cons.mpr ⟨hv, List.forall_mem_cons.mpr ⟨Std.TransCmp.isLE_trans hv hvw, hrest⟩⟩⟩
      rcases List.mem_cons.mp hmem with he | hmem
      · rw [he]
        exact List.mem_cons_self ..
      · exact List.mem_cons_of_mem _ (List.mem_cons_of_mem _ hmem)

/-- In which order and how often values are found makes no difference to how the least of them ranks. -/
theorem rank_extreme_of_mem_iff {dir : SortDir} {l l' : List Value} (h : ∀ v, v ∈ l ↔ v ∈ l') :
    sv.rank dir (sv.extreme dir l) (sv.extreme dir l') = .eq := by
  cases l with
  | nil =>
    rw [List.eq_nil_iff_forall_not_mem.mpr fun v hv => List.not_mem_nil ((h v).mpr hv)]
    exact Std.ReflCmp.compare_self
  | cons v rest =>
    cases l' with
    | nil => exact absurd ((h v).mp (List.mem_cons_self ..)) List.not_mem_nil
    | cons w more =>
      obtain ⟨hmem, hle⟩ := @extreme_spec sv dir v rest
      obtain ⟨hmem', hle'⟩ := @extreme_spec sv dir w more
      exact Std.OrientedCmp.isLE_antisymm (hle _ ((h _).mpr hmem')) (hle' _ ((h _).mp hmem))

/-- Sorting groups by their keys reorders what they are the groups of by these keys. -/
theorem sortGroups_map {α : Type} (sv : Server) (dirs : List SortDir) (key : List Tuple → List Value)
    (group : α → List Tuple) (l : List α) :
    ∃ sorted : List α, sorted.Perm l ∧
      sorted.Pairwise (fun a b => (sv.compareKeys dirs (key (group a)) (key (group b))).isLE = true) ∧
      sv.sortGroups dirs ((l.map group).map fun g => (key g, g)) = sorted.map group := by
  let keyed : α → List Value × List Tuple := fun a => (key (group a), group a)
  let le : α → α → Prop := fun a b => (sv.compareKeys dirs (key (group a)) (key (group b))).isLE = true
  have htotal : Std.Total le := ⟨fun a b => compareKeys_total dirs _ _⟩
  have htrans : IsTrans α le := ⟨fun _ _ _ => compareKeys_trans dirs⟩
  refine ⟨l.insertionSort le, l.perm_insertionSort le, l.pairwise_insertionSort le, ?_⟩
  have hsort : (l.insertionSort le).map keyed =
      (l.map keyed).insertionSort fun a b => (sv.compareKeys dirs a.1 b.1).isLE = true :=
    List.map_insertionSort _ _ keyed l fun _ _ _ _ => Iff.rfl
  unfold sortGroups
  rw [List.map_map, show ((fun g => (key g, g)) ∘ group) = keyed from rfl, ← hsort, List.map_map]
  rfl

/-- Integers by size and texts by code points, each kind of value after the kinds before it. -/
def compareByKind : Value → Value → Ordering :=
  let kind : Value → Nat
    | .null => 0
    | .bool _ => 1
    | .int _ => 2
    | .float _ => 3
    | .text _ => 4
  let number : Value → Int
    | .bool b => b.toNat
    | .int n => n.toInt
    | .float bits => bits.toNat
    | _ => 0
  compareLex (compareOn kind) (compareLex (compareOn number) (compareOn fun v => (v.asText?).getD ""))

/-- A server that compares values by kind, has nulls before all other values, and answers rows in the order in which it
finds them. -/
def plain : Server where
  compare := compareByKind
  compare_trans := by
    unfold compareByKind
    infer_instance
  nullsFirst dir := dir == .asc
  lower v := v
  like _ _ _ _ := false
  arrange _ l := l
  arrange_perm _ _ := .refl _

end Server

end RelQuery.Sql
