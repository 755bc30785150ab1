import RelQuery.Proofs.Request

/-!
# What projections keep

Every selection of fields requires the primary key of the entity that it starts from, so whatever a request selects or
leaves out, the rows hold the primary key of the root. Where fields are required and nothing else is said, no field and
no relation is left out.
-/

namespace RelQuery

variable {s : Schema} {root : EntityId}

/-- The primary key is required at the root, or nothing is said of any field but that it is required. -/
def Projection.KeepsKey (s : Schema) (root : EntityId) (p : Projection) : Prop :=
  (⟨.root, .required (s.entity root).pk⟩ : PlacedMark) ∈ p.marks ∨ ∀ m ∈ p.marks, ∃ field, m.mark = .required field

theorem Projection.keepsKey_empty : Projection.empty.KeepsKey s root := .inr fun _ hm => absurd hm List.not_mem_nil

/-- Where nothing is said of the fields of the root but that they are required, all of them are included. -/
theorem Projection.isIncluded_of_required {p : Projection}
    (h : ∀ m ∈ p.marks, m.path.isRoot = true → ∃ field, m.mark = .required field) (field : String) :
    p.isIncluded field = true := by
  have hexcluded : p.hasMark (.excluded field) = false := by
    refine List.any_eq_false.mpr fun m hm he => ?_
    obtain ⟨hroot, hmark⟩ := Bool.and_eq_true_iff.mp he
    obtain ⟨required, hrequired⟩ := h m hm hroot
    rw [hrequired] at hmark
    cases eq_of_beq hmark
  have hrestricts : p.restricts = false := by
    refine List.any_eq_false.mpr fun m hm he => ?_
    split at he
    · rename_i included hincluded
      obtain ⟨required, hrequired⟩ := h m hm he
      rw [hincluded] at hrequired
      cases hrequired
    · cases he
  unfold Projection.isIncluded
  rw [hexcluded, hrestricts]
  simp

theorem Projection.KeepsKey.isIncluded {p : Projection} (h : p.KeepsKey s root) :
    p.isIncluded (s.entity root).pk = true := by
  rcases h with hkey | hnone
  · unfold Projection.isIncluded
    have hmark : p.hasMark (.required (s.entity root).pk) = true :=
      List.any_eq_true.mpr ⟨_, hkey, by simp [Path.isRoot, Path.root]⟩
    rw [hmark, Bool.true_or]
  · exact Projection.isIncluded_of_required (fun m hm _ => hnone m hm) _

theorem mem_marks_selectionMarks (mode : SelectionMode) (selection : FieldSelection) :
    (⟨.root, .required (s.entity root).pk⟩ : PlacedMark) ∈ (selectionMarks s mode root .root selection).marks := by
  cases selection <;> simp [selectionMarks, pkMark, Marking.of, Marking.andThen]

theorem keepsKey_selectAll {mode : SelectionMode} {selections : List FieldSelection} {p q : Projection}
    (hp : p.KeepsKey s root) (h : p.selectAll s root mode selections = .ok q) : q.KeepsKey s root := by
  induction selections generalizing p with
  | nil =>
    cases h
    exact hp
  | cons selection rest ih =>
    unfold Projection.selectAll at h
    split at h
    · cases h
    · rename_i next hnext
      obtain ⟨rfl, -⟩ := Prod.mk.inj hnext
      exact ih (.inl (List.mem_append_right _ (mem_marks_selectionMarks mode selection))) h

theorem keepsKey_require {p : Projection} (hp : p.KeepsKey s root) (required : List (Path × String)) :
    (required.foldl (fun p (path, field) => p.require path field) p).KeepsKey s root := by
  induction required generalizing p with
  | nil => exact hp
  | cons entry rest ih =>
    refine ih ?_
    rcases hp with hkey | hnone
    · exact .inl (List.mem_append_left _ hkey)
    · exact .inr (List.forall_mem_append.mpr ⟨hnone, List.forall_mem_singleton.mpr ⟨_, rfl⟩⟩)

/-- Whatever a request selects, the primary key of the root is selected, too. -/
theorem isIncluded_pk_of_prepare {registry registry' : AliasRegistry} {r : Request} (hr : r.projection.KeepsKey s r.root)
    {p : Prepared} (h : r.prepare s registry = (.ok p, registry')) :
    p.bound.projection.isIncluded (s.entity r.root).pk = true := by
  have hprojection := bindProjection_of_bind (bind_of_prepare h)
  unfold Request.bindProjection at hprojection
  obtain ⟨kept, hkept, hprojection⟩ := bind_eq_ok.mp hprojection
  obtain ⟨left, hleft, hprojection⟩ := bind_eq_ok.mp hprojection
  rw [← Except.ok.inj hprojection]
  exact (keepsKey_require (keepsKey_selectAll (keepsKey_selectAll hr hkept) hleft) r.required).isIncluded

namespace Projection

theorem mem_below {p : Projection} {segment : String} {m : PlacedMark} :
    m ∈ (p.below segment).marks ↔ ⟨⟨segment :: m.path.segments⟩, m.mark⟩ ∈ p.marks := by
  unfold below
  rw [List.mem_filterMap]
  constructor
  · rintro ⟨⟨⟨segments⟩, mark⟩, hplaced, hbelow⟩
    cases segments with
    | nil => cases hbelow
    | cons head rest =>
      dsimp only at hbelow
      split at hbelow
      · subst head
        cases hbelow
        exact hplaced
      · cases hbelow
  · exact fun h => ⟨_, h, if_pos rfl⟩

theorem mem_at_ {p : Projection} {path : Path} {m : PlacedMark} :
    m ∈ (p.at_ path).marks ↔ ⟨⟨path.segments ++ m.path.segments⟩, m.mark⟩ ∈ p.marks := by
  unfold at_
  generalize path.segments = segments
  induction segments generalizing p with
  | nil => rfl
  | cons segment rest ih => rw [List.foldl_cons, ih, mem_below, List.cons_append]

theorem hasMark_iff {p : Projection} {mark : Mark} : p.hasMark mark = true ↔ ⟨.root, mark⟩ ∈ p.marks := by
  unfold hasMark
  rw [List.any_eq_true]
  constructor
  · rintro ⟨⟨path, mark'⟩, hm, he⟩
    obtain ⟨hpath, hmark⟩ := Bool.and_eq_true_iff.mp he
    rwa [← Path.isRoot_iff.mp hpath, ← eq_of_beq hmark]
  · exact fun h => ⟨_, h, Bool.and_eq_true_iff.mpr ⟨rfl, beq_self_eq_true _⟩⟩

theorem restricts_iff {p : Projection} :
    p.restricts = true ↔ ∃ field, (⟨.root, .included field⟩ : PlacedMark) ∈ p.marks := by
  unfold restricts
  rw [List.any_eq_true]
  constructor
  · rintro ⟨⟨path, mark⟩, hm, he⟩
    cases mark with
    | included field =>
      obtain rfl := Path.isRoot_iff.mp he
      exact ⟨field, hm⟩
    | excluded field => cases he
    | required field => cases he
  · rintro ⟨field, hm⟩
    exact ⟨_, hm, rfl⟩

theorem root_mem_at_ {p : Projection} {path : Path} {mark : Mark} :
    (⟨.root, mark⟩ : PlacedMark) ∈ (p.at_ path).marks ↔ ⟨path, mark⟩ ∈ p.marks := by
  rw [mem_at_]
  simp [Path.root]

/-- Which fields are included at a path, by the marks that stand there. -/
theorem isIncluded_at_iff {p : Projection} {path : Path} {field : String} :
    (p.at_ path).isIncluded field = true ↔
      ⟨path, .required field⟩ ∈ p.marks ∨
        ⟨path, .excluded field⟩ ∉ p.marks ∧
          ((∀ other, ⟨path, .included other⟩ ∉ p.marks) ∨ ⟨path, .included field⟩ ∈ p.marks) := by
  simp only [isIncluded, Bool.or_eq_true, Bool.and_eq_true, Bool.not_eq_true', ← Bool.not_eq_true, hasMark_iff,
    restricts_iff, root_mem_at_, not_exists]

theorem isIncluded_of_mem {p : Projection} {path : Path} {field : String} (h : ⟨path, .required field⟩ ∈ p.marks) :
    (p.at_ path).isIncluded field = true := isIncluded_at_iff.mpr (.inl h)

/-- A path is left out where one of its segments is, as seen from the path that leads to it. -/
theorem excludesPath_iff {p : Projection} {path : Path} :
    p.excludesPath path = true ↔
      ∃ before segment after, path.segments = before ++ segment :: after ∧ ⟨⟨before⟩, .excluded segment⟩ ∈ p.marks := by
  unfold excludesPath
  generalize path.segments = segments
  induction segments generalizing p with
  | nil => simp [excludesSegments]
  | cons head rest ih =>
    rw [excludesSegments, Bool.or_eq_true, excludesRelation, hasMark_iff, ih]
    constructor
    · rintro (hm | ⟨before, segment, after, rfl, hm⟩)
      · exact ⟨[], head, rest, rfl, hm⟩
      · exact ⟨head :: before, segment, after, rfl, mem_below.mp hm⟩
    · rintro ⟨_ | ⟨first, before⟩, segment, after, hsegments, hm⟩
      · cases hsegments
        exact .inl hm
      · cases hsegments
        exact .inr ⟨before, segment, after, rfl, mem_below.mpr hm⟩

theorem excludesPath_eq_false {p : Projection} (h : ∀ m ∈ p.marks, ∀ field, m.mark ≠ .excluded field) (path : Path) :
    p.excludesPath path = false := by
  refine Bool.eq_false_iff.mpr fun hexcluded => ?_
  obtain ⟨_, segment, _, -, hm⟩ := excludesPath_iff.mp hexcluded
  exact h _ hm segment rfl

end Projection

/-- Nothing is said of any field but that it is required. -/
def Projection.OnlyRequires (p : Projection) : Prop := ∀ m ∈ p.marks, ∃ field, m.mark = .required field

namespace Projection.OnlyRequires

variable {p : Projection}

theorem empty : Projection.empty.OnlyRequires := fun _ hm => absurd hm List.not_mem_nil

theorem keepsKey (h : p.OnlyRequires) : p.KeepsKey s root := .inr h

theorem isIncluded (h : p.OnlyRequires) (field : String) : p.isIncluded field = true :=
  isIncluded_of_required (fun m hm _ => h m hm) field

theorem require (h : p.OnlyRequires) (required : List (Path × String)) :
    (required.foldl (fun p (path, field) => p.require path field) p).OnlyRequires := by
  induction required generalizing p with
  | nil => exact h
  | cons entry rest ih => exact ih (List.forall_mem_append.mpr ⟨h, List.forall_mem_singleton.mpr ⟨_, rfl⟩⟩)

theorem at_ (h : p.OnlyRequires) (path : Path) : (p.at_ path).OnlyRequires := fun m hm =>
  h ⟨⟨path.segments ++ m.path.segments⟩, m.mark⟩ (mem_at_.mp hm)

theorem excludesPath (h : p.OnlyRequires) (path : Path) : p.excludesPath path = false := by
  refine excludesPath_eq_false (fun m hm field he => ?_) path
  obtain ⟨_, hrequired⟩ := h m hm
  rw [hrequired] at he
  cases he

/-- A request that neither includes nor leaves out fields is bound to a projection that leaves nothing out. -/
theorem exists_bindProjection {r : Request} (h : r.projection.OnlyRequires) (hfields : r.fields = [])
    (hexclude : r.excludeFields = []) : ∃ projection, r.bindProjection s = .ok projection ∧ projection.OnlyRequires := by
  refine ⟨_, ?_, h.require r.required⟩
  unfold Request.bindProjection
  rw [hfields, hexclude]
  rfl

end Projection.OnlyRequires

end RelQuery
