import RelQuery.Proofs.Projection

/-!
# Keys in projections

Where a selection names a field of an entity it also requires the primary key of the entity. So whatever is included or
left out along a path, the primary keys of the entities on the way stay.
-/

namespace RelQuery

variable {s : Schema} {root : EntityId}

/-- What is required in the marks of a selection, or else named by them where all the marks require the primary key. -/
def KeysRequired (s : Schema) (root : EntityId) (mode : SelectionMode) (all marks : List PlacedMark) : Prop :=
  ∀ m ∈ marks, (∃ field, m.mark = .required field) ∨
    (∃ field, m.mark = mode.mark field) ∧
      ∃ hops target, s.walk root m.path.segments = .ok (hops, target) ∧ ⟨m.path, .required (s.entity target).pk⟩ ∈ all

section

variable {mode : SelectionMode} {all : List PlacedMark}

theorem keysRequired_nil : KeysRequired s root mode all [] := fun _ hm => absurd hm List.not_mem_nil

theorem keysRequired_pkMark (entity : EntityId) (place : Path) :
    KeysRequired s root mode all (pkMark s entity place).marks :=
  List.forall_mem_singleton.mpr (.inl ⟨_, rfl⟩)

/-- What a marking starts with is among all the marks, too, when what goes on from it is looked at. -/
theorem keysRequired_andThen {a b : Marking} (hsub : (a.andThen b).marks ⊆ all)
    (ha : a.marks ⊆ all → KeysRequired s root mode all a.marks)
    (hb : a.marks ⊆ all → b.marks ⊆ all → KeysRequired s root mode all b.marks) :
    KeysRequired s root mode all (a.andThen b).marks := by
  unfold Marking.andThen at hsub ⊢
  split at hsub
  · exact ha hsub
  · obtain ⟨hsubA, hsubB⟩ := List.append_subset.mp hsub
    exact List.forall_mem_append.mpr ⟨ha hsubA, hb hsubA hsubB⟩

theorem keysRequired_fieldMarks (raw : String) {names : List String} {entity : EntityId} {place : Path}
    {hops : List RelationId} (hplace : s.walk root place.segments = .ok (hops, entity))
    (hkey : ⟨place, .required (s.entity entity).pk⟩ ∈ all) (hsub : (fieldMarks s mode raw entity place names).marks ⊆ all) :
    KeysRequired s root mode all (fieldMarks s mode raw entity place names).marks := by
  induction names generalizing entity place hops with
  | nil => exact keysRequired_nil
  | cons head rest ih =>
    unfold fieldMarks at hsub ⊢
    split
    · split
      · exact List.forall_mem_singleton.mpr (.inr ⟨⟨_, rfl⟩, hops, entity, hplace, hkey⟩)
      · exact keysRequired_nil
    · rename_i hrest
      rw [if_neg hrest] at hsub
      split
      · exact keysRequired_nil
      · rename_i id hid
        simp only [hid] at hsub
        have hchild : s.walk root (place.child head).segments = .ok (hops ++ [id], (s.relation id).target) :=
          walk_concat.mpr ⟨hops, entity, id, hplace, hid, rfl, rfl⟩
        refine keysRequired_andThen hsub (fun _ => keysRequired_pkMark _ _) fun hpk hsub => ?_
        exact ih hchild (hpk (List.mem_singleton_self _)) hsub

theorem keysRequired_namesMarks {names : List String} {entity : EntityId} {place : Path} {hops : List RelationId}
    (hplace : s.walk root place.segments = .ok (hops, entity))
    (hkey : ⟨place, .required (s.entity entity).pk⟩ ∈ all) (hsub : (namesMarks s mode entity place names).marks ⊆ all) :
    KeysRequired s root mode all (namesMarks s mode entity place names).marks := by
  induction names with
  | nil => exact keysRequired_nil
  | cons name rest ih =>
    rw [namesMarks] at hsub ⊢
    exact keysRequired_andThen hsub (keysRequired_fieldMarks name hplace hkey) fun _ hsub => ih hsub

/-- The marks of a selection at the far side of a relation. -/
theorem keysRequired_relation (key : String) {entity : EntityId} {place : Path} {hops : List RelationId}
    (hplace : s.walk root place.segments = .ok (hops, entity)) (below : EntityId → Path → Marking)
    (hbelow : ∀ {target : EntityId} {far : Path} {hops : List RelationId},
      s.walk root far.segments = .ok (hops, target) → (below target far).marks ⊆ all →
        KeysRequired s root mode all (below target far).marks)
    {marking : Marking}
    (hmarking : marking =
      match s.findRelation? entity key with
      | none => .fail (.unknownRelation key key)
      | some id =>
        (pkMark s (s.relation id).target (place.child key)).andThen (below (s.relation id).target (place.child key)))
    (hsub : marking.marks ⊆ all) : KeysRequired s root mode all marking.marks := by
  subst hmarking
  split
  · exact keysRequired_nil
  · rename_i id hid
    simp only [hid] at hsub
    have hchild : s.walk root (place.child key).segments = .ok (hops ++ [id], (s.relation id).target) :=
      walk_concat.mpr ⟨hops, entity, id, hplace, hid, rfl, rfl⟩
    exact keysRequired_andThen hsub (fun _ => keysRequired_pkMark _ _) fun _ hsub => hbelow hchild hsub

mutual

theorem keysRequired_selectionMarks (selection : FieldSelection) {entity : EntityId} {place : Path}
    {hops : List RelationId} (hplace : s.walk root place.segments = .ok (hops, entity))
    (hsub : (selectionMarks s mode entity place selection).marks ⊆ all) :
    KeysRequired s root mode all (selectionMarks s mode entity place selection).marks := by
  cases selection with
  | all => exact keysRequired_pkMark entity place
  | names paths =>
    rw [selectionMarks] at hsub ⊢
    refine keysRequired_andThen hsub (fun _ => keysRequired_pkMark _ _) fun hpk hsub => ?_
    exact keysRequired_namesMarks hplace (hpk (List.mem_singleton_self _)) hsub
  | tree entries =>
    rw [selectionMarks] at hsub ⊢
    refine keysRequired_andThen hsub (fun _ => keysRequired_pkMark _ _) fun hpk hsub => ?_
    exact keysRequired_entriesMarks entries hplace (hpk (List.mem_singleton_self _)) hsub

theorem keysRequired_entriesMarks (entries : List (String × FieldSelection)) {entity : EntityId} {place : Path}
    {hops : List RelationId} (hplace : s.walk root place.segments = .ok (hops, entity))
    (hkey : ⟨place, .required (s.entity entity).pk⟩ ∈ all)
    (hsub : (entriesMarks s mode entity place entries).marks ⊆ all) :
    KeysRequired s root mode all (entriesMarks s mode entity place entries).marks := by
  match entries with
  | [] => exact keysRequired_nil
  | (key, .all) :: rest =>
    exact keysRequired_andThen hsub (keysRequired_fieldMarks key hplace hkey)
      fun _ hsub => keysRequired_entriesMarks rest hplace hkey hsub
  | (key, .names paths) :: rest =>
    refine keysRequired_andThen hsub (fun hsub => ?_) fun _ hsub => keysRequired_entriesMarks rest hplace hkey hsub
    exact keysRequired_relation key hplace (fun target far => selectionMarks s mode target far (.names paths))
      (fun hplace hsub => keysRequired_selectionMarks (.names paths) hplace hsub) rfl hsub
  | (key, .tree below) :: rest =>
    refine keysRequired_andThen hsub (fun hsub => ?_) fun _ hsub => keysRequired_entriesMarks rest hplace hkey hsub
    exact keysRequired_relation key hplace (fun target far => selectionMarks s mode target far (.tree below))
      (fun hplace hsub => keysRequired_selectionMarks (.tree below) hplace hsub) rfl hsub

end

theorem KeysRequired.mono {all' marks : List PlacedMark} (h : KeysRequired s root mode all marks) (hsub : all ⊆ all') :
    KeysRequired s root mode all' marks := by
  intro m hm
  rcases h m hm with hrequired | ⟨hnamed, hops, target, hwalk, hkey⟩
  · exact .inl hrequired
  · exact .inr ⟨hnamed, hops, target, hwalk, hsub hkey⟩

theorem keysRequired_selectAll {selections : List FieldSelection} {p q : Projection}
    (h : p.selectAll s root mode selections = .ok q) :
    ∃ marks, q = p.add marks ∧ KeysRequired s root mode marks marks ∧ (selections = [] → marks = []) := by
  induction selections generalizing p with
  | nil =>
    cases h
    exact ⟨[], by rw [Projection.add, List.append_nil], keysRequired_nil, fun _ => rfl⟩
  | cons selection rest ih =>
    unfold Projection.selectAll at h
    split at h
    · cases h
    · rename_i next hnext
      obtain ⟨rfl, -⟩ := Prod.mk.inj hnext
      obtain ⟨marks, rfl, hmarks, -⟩ := ih h
      have hfirst : KeysRequired s root mode (selectionMarks s mode root .root selection).marks
          (selectionMarks s mode root .root selection).marks :=
        keysRequired_selectionMarks selection rfl fun _ hm => hm
      refine ⟨(selectionMarks s mode root .root selection).marks ++ marks, ?_, ?_, fun he => by cases he⟩
      · simp only [Projection.add, List.append_assoc]
      · refine List.forall_mem_append.mpr ⟨hfirst.mono ?_, hmarks.mono ?_⟩
        · exact List.subset_append_left _ _
        · exact List.subset_append_right _ _

end

theorem foldl_require (p : Projection) (required : List (Path × String)) :
    required.foldl (fun p (path, field) => p.require path field) p =
      p.add (required.map fun entry => ⟨entry.1, .required entry.2⟩) := by
  induction required generalizing p with
  | nil => simp only [List.foldl_nil, Projection.add, List.map_nil, List.append_nil]
  | cons entry rest ih =>
    rw [List.foldl_cons, ih]
    simp only [Projection.add, Projection.require, List.map_cons, List.append_assoc, List.singleton_append]

theorem bindProjection_eq_ok {r : Request} {p : Projection} (h : r.bindProjection s = .ok p) :
    ∃ kept left, KeysRequired s r.root .keep kept kept ∧ KeysRequired s r.root .leaveOut left left ∧
      (r.excludeFields = [] → left = []) ∧
      p = ((r.projection.add kept).add left).add (r.required.map fun entry => ⟨entry.1, .required entry.2⟩) := by
  obtain ⟨q, hkept, h⟩ := bind_eq_ok.mp h
  obtain ⟨q', hleft, h⟩ := bind_eq_ok.mp h
  obtain ⟨kept, rfl, hkept, -⟩ := keysRequired_selectAll hkept
  obtain ⟨left, rfl, hleft, hnone⟩ := keysRequired_selectAll hleft
  cases h
  exact ⟨kept, left, hkept, hleft, hnone, foldl_require _ _⟩

/-- Where the projection includes or leaves out a field of an entity, it requires the primary key of the entity. -/
def Projection.KeysMarked (s : Schema) (root : EntityId) (p : Projection) : Prop :=
  ∀ m ∈ p.marks, (∃ field, m.mark = .required field) ∨
    ∃ hops target, s.walk root m.path.segments = .ok (hops, target) ∧ ⟨m.path, .required (s.entity target).pk⟩ ∈ p.marks

namespace Projection.KeysMarked

variable {p : Projection}

theorem empty : Projection.empty.KeysMarked s root := fun _ hm => absurd hm List.not_mem_nil

theorem add {mode : SelectionMode} {marks : List PlacedMark} (h : p.KeysMarked s root)
    (hmarks : KeysRequired s root mode marks marks) : (p.add marks).KeysMarked s root := by
  refine List.forall_mem_append.mpr ⟨fun m hm => ?_, fun m hm => ?_⟩
  · rcases h m hm with hrequired | ⟨hops, target, hwalk, hkey⟩
    · exact .inl hrequired
    · exact .inr ⟨hops, target, hwalk, List.mem_append_left _ hkey⟩
  · rcases hmarks m hm with hrequired | ⟨-, hops, target, hwalk, hkey⟩
    · exact .inl hrequired
    · exact .inr ⟨hops, target, hwalk, List.mem_append_right _ hkey⟩

/-- A request selects the primary keys that the projection it starts from does. -/
theorem bindProjection {r : Request} (h : r.projection.KeysMarked s r.root) (hp : r.bindProjection s = .ok p) :
    p.KeysMarked s r.root := by
  obtain ⟨kept, left, hkept, hleft, -, rfl⟩ := bindProjection_eq_ok hp
  have hrequired : KeysRequired s r.root .keep (r.required.map fun entry => ⟨entry.1, .required entry.2⟩)
      (r.required.map fun entry => ⟨entry.1, .required entry.2⟩) := by
    intro m hm
    obtain ⟨entry, -, rfl⟩ := List.mem_map.mp hm
    exact .inl ⟨_, rfl⟩
  exact ((h.add hkept).add hleft).add hrequired

theorem at_ (h : p.KeysMarked s root) {path : Path} {hops : List RelationId} {target : EntityId}
    (hpath : s.walk root path.segments = .ok (hops, target)) : (p.at_ path).KeysMarked s target := by
  intro m hm
  rcases h _ (mem_at_.mp hm) with hrequired | ⟨all, far, hwalk, hkey⟩
  · exact .inl hrequired
  · obtain ⟨before, mid, after, hbefore, hafter, -⟩ := walk_append.mp hwalk
    rw [hpath] at hbefore
    cases hbefore
    exact .inr ⟨after, far, hafter, mem_at_.mpr hkey⟩

theorem isIncluded (h : p.KeysMarked s root) : p.isIncluded (s.entity root).pk = true := by
  by_cases hall : ∀ m ∈ p.marks, m.path.isRoot = true → ∃ field, m.mark = .required field
  · exact isIncluded_of_required hall _
  · push Not at hall
    obtain ⟨m, hm, hroot, hnot⟩ := hall
    obtain ⟨field, hfield⟩ | ⟨hops, target, hwalk, hkey⟩ := h m hm
    · exact absurd hfield (hnot field)
    · rw [Path.isRoot_iff.mp hroot] at hwalk hkey
      cases hwalk
      exact isIncluded_of_mem hkey

end Projection.KeysMarked

/-- Without exclusions of its own a request leaves out the relations that the projection it starts from does. -/
theorem excludesRelation_of_bindProjection {r : Request} {p : Projection} (h : r.bindProjection s = .ok p)
    (hnone : r.excludeFields = []) (relation : String) :
    p.excludesRelation relation = r.projection.excludesRelation relation := by
  obtain ⟨kept, left, hkept, -, hleft, rfl⟩ := bindProjection_eq_ok h
  cases hleft hnone
  rw [Bool.eq_iff_iff]
  unfold Projection.excludesRelation
  rw [Projection.hasMark_iff, Projection.hasMark_iff]
  simp only [Projection.add, List.append_nil, List.mem_append]
  constructor
  · rintro ((hm | hm) | hm)
    · exact hm
    · rcases hkept _ hm with ⟨field, hfield⟩ | ⟨⟨field, hfield⟩, -⟩ <;> cases hfield
    · obtain ⟨entry, -, he⟩ := List.mem_map.mp hm
      cases congrArg PlacedMark.mark he
  · exact fun hm => .inl (.inl hm)

theorem mem_marks_of_required {r : Request} {p : Projection} (h : r.bindProjection s = .ok p) {path : Path}
    {field : String} (hrequired : (path, field) ∈ r.required) : ⟨path, .required field⟩ ∈ p.marks := by
  obtain ⟨kept, left, -, -, -, rfl⟩ := bindProjection_eq_ok h
  exact List.mem_append_right _ (List.mem_map.mpr ⟨_, hrequired, rfl⟩)

end RelQuery
