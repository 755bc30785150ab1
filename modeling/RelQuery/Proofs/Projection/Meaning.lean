import Mathlib.Data.Set.Basic
import RelQuery.Proofs.Path
import RelQuery.Proofs.Projection.Keys

/-!
# What projections mean

A selection spells names, each with the path of the entity that it names a field of. Which fields a projection includes
and which paths it leaves out depends on the names that its selections spell and on the fields that it requires, as
sets: not on how the names are spelled, and not on the order or the number of the calls that built it.
-/

namespace RelQuery

variable {s : Schema} {root : EntityId}

/-- The last segment names a field of the entity that the other ones lead to. -/
def spelledBy (segments : List String) : List (Path × String) :=
  (segments.getLast?.map fun name => (⟨segments.dropLast⟩, name)).toList

/-- A spelled name as seen from the near side of a relation. -/
def spelledUnder (key : String) (entry : Path × String) : Path × String :=
  (⟨key :: entry.1.segments⟩, entry.2)

theorem spelledBy_cons_cons (head next : String) (more : List String) :
    spelledBy (head :: next :: more) = (spelledBy (next :: more)).map (spelledUnder head) := by
  unfold spelledBy
  rw [List.getLast?_cons_cons]
  cases (next :: more).getLast? <;> rfl

mutual

/-- The names that a selection spells, with their paths from the entity that it selects from. -/
def FieldSelection.spelled : FieldSelection → List (Path × String)
  | .all => []
  | .names raws => raws.flatMap fun raw => spelledBy (segmentsOf raw)
  | .tree entries => entriesSpelled entries
termination_by structural selection => selection

/-- The names that a tree spells. An entry for everything spells its key, which is one name whatever it holds. -/
def entriesSpelled : List (String × FieldSelection) → List (Path × String)
  | [] => []
  | (key, selection) :: rest =>
    let first :=
      match selection with
      | .all => [(.root, key)]
      | _ => selection.spelled.map (spelledUnder key)
    first ++ entriesSpelled rest
termination_by structural entries => entries

end

def Entity.readName (e : Entity) (name : String) : String :=
  if name = pkAlias then e.pk else name

theorem readName_of_fieldName? {entity : EntityId} {field name : String} (h : fieldName? s entity field = some name) :
    name = (s.entity entity).readName field := by
  unfold fieldName? at h
  unfold Entity.readName
  dsimp only at h
  split at h
  · rename_i hpk
    rw [if_pos hpk]
    exact (Option.some.inj h).symm
  · rename_i hpk
    rw [if_neg hpk]
    split at h
    · exact (Option.some.inj h).symm
    · cases h

/-- The tree of one name, with a level for each segment of its path. -/
def FieldSelection.nested : List String → String → FieldSelection
  | [], name => .tree [(name, .all)]
  | key :: rest, name => .tree [(key, nested rest name)]

theorem spelled_nested (segments : List String) (name : String) :
    (FieldSelection.nested segments name).spelled = [(⟨segments⟩, name)] := by
  induction segments with
  | nil => rfl
  | cons key rest ih =>
    have hstep : (FieldSelection.nested (key :: rest) name).spelled =
        (FieldSelection.nested rest name).spelled.map (spelledUnder key) ++ [] := by
      cases rest <;> rfl
    rw [hstep, ih]
    rfl

/-- A name with separators spells what the tree does that has its segments as keys. -/
theorem spelled_flat {segments : List String} {name : String} (hnames : ∀ n ∈ segments ++ [name], SegmentName n) :
    (FieldSelection.names [joinSegments (segments ++ [name])]).spelled = (FieldSelection.nested segments name).spelled := by
  have hread : segmentsOf (joinSegments (segments ++ [name])) = segments ++ [name] :=
    segmentsOf_joinSegments (List.append_ne_nil_of_right_ne_nil _ (List.cons_ne_nil _ _)) hnames
  rw [spelled_nested, FieldSelection.spelled, List.flatMap_singleton, hread, spelledBy, List.getLast?_concat,
    List.dropLast_concat]
  rfl

example : (FieldSelection.names ["books__subtitle"]).spelled =
    (FieldSelection.tree [("books", .tree [("subtitle", .all)])]).spelled := by rfl

/-! ### Marks of spelled names -/

/-- The mark stands at the path of the name, seen from the root, and names the field that the name is read as there. -/
structure MarksName (s : Schema) (root : EntityId) (mode : SelectionMode) (place : Path) (entry : Path × String)
    (m : PlacedMark) : Prop where
  path : m.path.segments = place.segments ++ entry.1.segments
  field : ∃ hops target, s.walk root m.path.segments = .ok (hops, target) ∧
    m.mark = mode.mark ((s.entity target).readName entry.2)

def MarksKey (s : Schema) (root : EntityId) (m : PlacedMark) : Prop :=
  ∃ hops target, s.walk root m.path.segments = .ok (hops, target) ∧ m.mark = .required (s.entity target).pk

/-- Beside marks of primary keys, the marks are those of the spelled names. -/
structure MarksNames (s : Schema) (root : EntityId) (mode : SelectionMode) (place : Path) (spelled : List (Path × String))
    (marks : List PlacedMark) : Prop where
  named : ∀ m ∈ marks, MarksKey s root m ∨ ∃ entry ∈ spelled, MarksName s root mode place entry m
  marked : ∀ entry ∈ spelled, ∃ m ∈ marks, MarksName s root mode place entry m

theorem marksName_under {mode : SelectionMode} {place : Path} {key : String} {entry : Path × String} {m : PlacedMark} :
    MarksName s root mode place (spelledUnder key entry) m ↔ MarksName s root mode (place.child key) entry m := by
  have hpath : place.segments ++ (spelledUnder key entry).1.segments = (place.child key).segments ++ entry.1.segments := by
    simp [spelledUnder, Path.child]
  constructor
  · intro h
    exact ⟨h.path.trans hpath, h.field⟩
  · intro h
    exact ⟨h.path.trans hpath.symm, h.field⟩

section

variable {mode : SelectionMode} {place : Path}

theorem marksNames_nil : MarksNames s root mode place [] [] :=
  ⟨fun _ hm => absurd hm List.not_mem_nil, fun _ he => absurd he List.not_mem_nil⟩

theorem marksNames_pkMark {entity : EntityId} {hops : List RelationId}
    (hplace : s.walk root place.segments = .ok (hops, entity)) (near : Path) :
    MarksNames s root mode near [] (pkMark s entity place).marks :=
  ⟨List.forall_mem_singleton.mpr (.inl ⟨hops, entity, hplace, rfl⟩), fun _ he => absurd he List.not_mem_nil⟩

theorem marksNames_under {key : String} {spelled : List (Path × String)} {marks : List PlacedMark}
    (h : MarksNames s root mode (place.child key) spelled marks) :
    MarksNames s root mode place (spelled.map (spelledUnder key)) marks := by
  constructor
  · intro m hm
    rcases h.named m hm with hkey | ⟨entry, hentry, hmarks⟩
    · exact .inl hkey
    · exact .inr ⟨_, List.mem_map_of_mem hentry, marksName_under.mpr hmarks⟩
  · intro _ hunder
    obtain ⟨entry, hentry, rfl⟩ := List.mem_map.mp hunder
    obtain ⟨m, hm, hmarks⟩ := h.marked entry hentry
    exact ⟨m, hm, marksName_under.mpr hmarks⟩

theorem marksNames_append {spelled more : List (Path × String)} {marks others : List PlacedMark}
    (h : MarksNames s root mode place spelled marks) (h' : MarksNames s root mode place more others) :
    MarksNames s root mode place (spelled ++ more) (marks ++ others) := by
  constructor
  · intro m hm
    rcases List.mem_append.mp hm with hm | hm
    · rcases h.named m hm with hkey | ⟨entry, hentry, hmarks⟩
      · exact .inl hkey
      · exact .inr ⟨entry, List.mem_append_left _ hentry, hmarks⟩
    · rcases h'.named m hm with hkey | ⟨entry, hentry, hmarks⟩
      · exact .inl hkey
      · exact .inr ⟨entry, List.mem_append_right _ hentry, hmarks⟩
  · intro entry hentry
    rcases List.mem_append.mp hentry with hentry | hentry
    · obtain ⟨m, hm, hmarks⟩ := h.marked entry hentry
      exact ⟨m, List.mem_append_left _ hm, hmarks⟩
    · obtain ⟨m, hm, hmarks⟩ := h'.marked entry hentry
      exact ⟨m, List.mem_append_right _ hm, hmarks⟩

/-- A marking without a fault consists of two that have none. -/
theorem marksNames_andThen {a b : Marking} {spelled more : List (Path × String)} (h : (a.andThen b).fault = none)
    (ha : a.fault = none → MarksNames s root mode place spelled a.marks)
    (hb : b.fault = none → MarksNames s root mode place more b.marks) :
    MarksNames s root mode place (spelled ++ more) (a.andThen b).marks := by
  unfold Marking.andThen at h ⊢
  split at h
  · rename_i e he
    rw [he] at h
    cases h
  · rename_i hfault
    exact marksNames_append (ha hfault) (hb h)

/-- What is named at the far side of a relation. -/
theorem marksNames_relation (key : String) {entity : EntityId} {hops : List RelationId} {spelled : List (Path × String)}
    {e : QueryError} (hplace : s.walk root place.segments = .ok (hops, entity)) (below : EntityId → Path → Marking)
    (hbelow : ∀ {target : EntityId} {far : Path} {hops : List RelationId},
      s.walk root far.segments = .ok (hops, target) → (below target far).fault = none →
        MarksNames s root mode far spelled (below target far).marks)
    {marking : Marking}
    (hmarking : marking =
      match s.findRelation? entity key with
      | none => .fail e
      | some id =>
        (pkMark s (s.relation id).target (place.child key)).andThen
          (below (s.relation id).target (place.child key)))
    (h : marking.fault = none) : MarksNames s root mode place (spelled.map (spelledUnder key)) marking.marks := by
  subst hmarking
  split at h
  · cases h
  · rename_i id hid
    have hchild : s.walk root (place.child key).segments = .ok (hops ++ [id], (s.relation id).target) :=
      walk_concat.mpr ⟨hops, entity, id, hplace, hid, rfl, rfl⟩
    exact marksNames_andThen h (fun _ => marksNames_pkMark hchild place) fun h => marksNames_under (hbelow hchild h)

theorem marksNames_fieldMarks (raw : String) {names : List String} {entity : EntityId} {hops : List RelationId}
    (hplace : s.walk root place.segments = .ok (hops, entity))
    (h : (fieldMarks s mode raw entity place names).fault = none) :
    MarksNames s root mode place (spelledBy names) (fieldMarks s mode raw entity place names).marks := by
  induction names generalizing entity place hops with
  | nil => exact marksNames_nil
  | cons head rest ih =>
    cases rest with
    | nil =>
      simp only [fieldMarks, List.isEmpty_nil, if_true] at h ⊢
      split at h
      · rename_i name hname
        have hmarks : MarksName s root mode place (.root, head) ⟨place, mode.mark name⟩ :=
          ⟨(List.append_nil _).symm, hops, entity, hplace, by rw [readName_of_fieldName? hname]⟩
        exact ⟨List.forall_mem_singleton.mpr (.inr ⟨_, List.mem_singleton_self _, hmarks⟩),
          List.forall_mem_singleton.mpr ⟨_, List.mem_singleton_self _, hmarks⟩⟩
      · cases h
    | cons next more =>
      rw [spelledBy_cons_cons]
      exact marksNames_relation head hplace (fun target far => fieldMarks s mode raw target far (next :: more))
        (fun hplace h => ih hplace h) rfl h

theorem marksNames_namesMarks {names : List String} {entity : EntityId} {hops : List RelationId}
    (hplace : s.walk root place.segments = .ok (hops, entity)) (h : (namesMarks s mode entity place names).fault = none) :
    MarksNames s root mode place (names.flatMap fun raw => spelledBy (segmentsOf raw))
      (namesMarks s mode entity place names).marks := by
  induction names with
  | nil => exact marksNames_nil
  | cons name rest ih => exact marksNames_andThen h (marksNames_fieldMarks name hplace) ih

end

section

variable {mode : SelectionMode}

mutual

theorem marksNames_selectionMarks (selection : FieldSelection) {entity : EntityId} {place : Path}
    {hops : List RelationId} (hplace : s.walk root place.segments = .ok (hops, entity))
    (h : (selectionMarks s mode entity place selection).fault = none) :
    MarksNames s root mode place selection.spelled (selectionMarks s mode entity place selection).marks := by
  cases selection with
  | all => exact marksNames_pkMark hplace place
  | names paths =>
    exact marksNames_andThen h (fun _ => marksNames_pkMark hplace place) (marksNames_namesMarks hplace)
  | tree entries =>
    exact marksNames_andThen h (fun _ => marksNames_pkMark hplace place) (marksNames_entriesMarks entries hplace)

theorem marksNames_entriesMarks (entries : List (String × FieldSelection)) {entity : EntityId} {place : Path}
    {hops : List RelationId} (hplace : s.walk root place.segments = .ok (hops, entity))
    (h : (entriesMarks s mode entity place entries).fault = none) :
    MarksNames s root mode place (entriesSpelled entries) (entriesMarks s mode entity place entries).marks := by
  match entries with
  | [] => exact marksNames_nil
  | (key, .all) :: rest =>
    -- the key is marked like a name of one segment
    exact marksNames_andThen h (marksNames_fieldMarks key hplace) (marksNames_entriesMarks rest hplace)
  | (key, .names paths) :: rest =>
    refine marksNames_andThen h (fun h => ?_) (marksNames_entriesMarks rest hplace)
    exact marksNames_relation key hplace (fun target far => selectionMarks s mode target far (.names paths))
      (fun hplace h => marksNames_selectionMarks (.names paths) hplace h) rfl h
  | (key, .tree below) :: rest =>
    refine marksNames_andThen h (fun h => ?_) (marksNames_entriesMarks rest hplace)
    exact marksNames_relation key hplace (fun target far => selectionMarks s mode target far (.tree below))
      (fun hplace h => marksNames_selectionMarks (.tree below) hplace h) rfl h

end

end

/-! ### Calls -/

/-- What is told to a projection: a selection at the root, or a field that is required at a path. -/
inductive ProjectionCall where
  | select (mode : SelectionMode) (selection : FieldSelection)
  | require (path : Path) (field : String)

def ProjectionCall.marking (s : Schema) (root : EntityId) : ProjectionCall → Marking
  | select mode selection => selectionMarks s mode root .root selection
  | require path field => .of [⟨path, .required field⟩]

/-- The projection after a call, or what is wrong with its selection. -/
def Projection.call (p : Projection) (s : Schema) (root : EntityId) : ProjectionCall → Except QueryError Projection
  | .select mode selection =>
    match p.select s root mode selection with
    | (_, some e) => .error e
    | (p, none) => .ok p
  | .require path field => .ok (p.require path field)

def Projection.callAll (p : Projection) (s : Schema) (root : EntityId) (calls : List ProjectionCall) :
    Except QueryError Projection :=
  calls.foldlM (fun p call => p.call s root call) p

theorem call_eq_ok {p q : Projection} {call : ProjectionCall} :
    p.call s root call = .ok q ↔ (call.marking s root).fault = none ∧ q = p.add (call.marking s root).marks := by
  cases call with
  | select mode selection =>
    unfold Projection.call Projection.select ProjectionCall.marking
    dsimp only
    split
    · rename_i e he
      rw [(Prod.mk.inj he).2]
      simp
    · rename_i next he
      obtain ⟨rfl, hfault⟩ := Prod.mk.inj he
      rw [hfault]
      simp [eq_comm]
  | require path field =>
    simp [Projection.call, Projection.require, ProjectionCall.marking, Marking.of, eq_comm]

/-- Calls succeed if each of them does, and then add the marks of each. -/
theorem callAll_eq_ok {p q : Projection} {calls : List ProjectionCall} :
    p.callAll s root calls = .ok q ↔
      (∀ call ∈ calls, (call.marking s root).fault = none) ∧
        q = p.add (calls.flatMap fun call => (call.marking s root).marks) := by
  unfold Projection.callAll
  induction calls generalizing p with
  | nil => simp [Projection.add, Pure.pure, Except.pure, eq_comm]
  | cons call rest ih =>
    rw [List.foldlM_cons, bind_eq_ok]
    simp only [call_eq_ok, ih, List.forall_mem_cons, List.flatMap_cons, Projection.add]
    constructor
    · rintro ⟨_, ⟨hcall, rfl⟩, hrest, rfl⟩
      exact ⟨⟨hcall, hrest⟩, by simp⟩
    · rintro ⟨⟨hcall, hrest⟩, rfl⟩
      exact ⟨_, ⟨hcall, rfl⟩, hrest, by simp⟩

theorem callAll_append {p : Projection} {calls more : List ProjectionCall} :
    p.callAll s root (calls ++ more) = p.callAll s root calls >>= fun q => q.callAll s root more :=
  List.foldlM_append

/-- What requests tell a projection: what to select, what to leave out, and what they need. -/
def Request.projectionCalls (r : Request) : List ProjectionCall :=
  r.fields.map (.select .keep) ++ r.excludeFields.map (.select .leaveOut) ++
    r.required.map fun entry => .require entry.1 entry.2

theorem selectAll_eq_callAll {p : Projection} {mode : SelectionMode} {selections : List FieldSelection} :
    p.selectAll s root mode selections = p.callAll s root (selections.map (.select mode)) := by
  induction selections generalizing p with
  | nil => rfl
  | cons selection rest ih =>
    rw [Projection.selectAll, Projection.callAll, List.map_cons, List.foldlM_cons, Projection.call]
    rcases p.select s root mode selection with ⟨next, fault | e⟩
    · exact ih
    · rfl

theorem callAll_require {p : Projection} {required : List (Path × String)} :
    p.callAll s root (required.map fun entry => .require entry.1 entry.2) =
      .ok (required.foldl (fun p (path, field) => p.require path field) p) := by
  induction required generalizing p with
  | nil => rfl
  | cons entry rest ih => exact ih

theorem bindProjection_eq_callAll (r : Request) :
    r.bindProjection s = r.projection.callAll s r.root r.projectionCalls := by
  unfold Request.bindProjection Request.projectionCalls
  simp only [callAll_append, bind_assoc, callAll_require, selectAll_eq_callAll]
  rfl

/-- The fields that the selections of one mode name at a path. -/
def namedAt (s : Schema) (root : EntityId) (calls : List ProjectionCall) (mode : SelectionMode) (path : Path) :
    Set String :=
  {field | ∃ selection name t, .select mode selection ∈ calls ∧ (path, name) ∈ selection.spelled ∧
    s.resolve root path = .ok t ∧ field = (s.entity t.target).readName name}

def requiredAt (calls : List ProjectionCall) (path : Path) : Set String :=
  {field | .require path field ∈ calls}

theorem mark_inj {mode mode' : SelectionMode} {field field' : String} (h : mode.mark field = mode'.mark field') :
    mode = mode' ∧ field = field' := by
  cases mode <;> cases mode' <;> cases h <;> exact ⟨rfl, rfl⟩

theorem mark_ne_required {mode : SelectionMode} {field field' : String} : mode.mark field ≠ .required field' := by
  cases mode <;> exact Mark.noConfusion

section

variable {calls : List ProjectionCall} {p : Projection}

theorem mem_marks_callAll (h : Projection.empty.callAll s root calls = .ok p) {m : PlacedMark} :
    m ∈ p.marks ↔ ∃ call ∈ calls, m ∈ (call.marking s root).marks := by
  obtain ⟨-, rfl⟩ := callAll_eq_ok.mp h
  simp [Projection.empty, Projection.add]

theorem marksNames_of_callAll (h : Projection.empty.callAll s root calls = .ok p) {mode : SelectionMode}
    {selection : FieldSelection} (hcall : .select mode selection ∈ calls) :
    MarksNames s root mode .root selection.spelled (selectionMarks s mode root .root selection).marks :=
  marksNames_selectionMarks selection rfl ((callAll_eq_ok.mp h).1 _ hcall)

theorem mem_marks_named (h : Projection.empty.callAll s root calls = .ok p) {mode : SelectionMode} {path : Path}
    {field : String} : ⟨path, mode.mark field⟩ ∈ p.marks ↔ field ∈ namedAt s root calls mode path := by
  rw [mem_marks_callAll h]
  constructor
  · rintro ⟨call, hcall, hm⟩
    cases call with
    | select mode' selection =>
      rcases (marksNames_of_callAll h hcall).named _ hm with
        ⟨_, _, -, hkey⟩ | ⟨⟨⟨_⟩, name⟩, hentry, rfl, hops, target, hwalk, hmark⟩
      · exact absurd hkey mark_ne_required
      · obtain ⟨rfl, hfield⟩ := mark_inj hmark
        exact ⟨selection, name, ⟨path, hops, target⟩, hcall, hentry, resolve_eq_ok.mpr ⟨rfl, hwalk⟩, hfield⟩
    | require path' field' =>
      exact absurd (PlacedMark.mk.inj (List.mem_singleton.mp hm)).2 mark_ne_required
  · rintro ⟨selection, name, t, hcall, hentry, ht, rfl⟩
    obtain ⟨⟨path', mark⟩, hm, hpath, hops, target, hwalk, rfl⟩ := (marksNames_of_callAll h hcall).marked _ hentry
    obtain ⟨rfl, hresolves⟩ := resolve_eq_ok.mp ht
    obtain rfl : path' = t.path := congrArg Path.mk hpath
    rw [hresolves] at hwalk
    cases hwalk
    exact ⟨_, hcall, hm⟩

theorem mem_marks_required (h : Projection.empty.callAll s root calls = .ok p) {path : Path} {field : String}
    (hm : ⟨path, .required field⟩ ∈ p.marks) :
    field ∈ requiredAt calls path ∨
      ∃ hops target, s.walk root path.segments = .ok (hops, target) ∧ field = (s.entity target).pk := by
  obtain ⟨call, hcall, hm⟩ := (mem_marks_callAll h).mp hm
  cases call with
  | select mode selection =>
    rcases (marksNames_of_callAll h hcall).named _ hm with ⟨hops, target, hwalk, hkey⟩ | ⟨_, -, -, _, _, -, hmark⟩
    · exact .inr ⟨hops, target, hwalk, Mark.required.inj hkey⟩
    · exact absurd hmark.symm mark_ne_required
  | require path' field' =>
    obtain ⟨rfl, hfield⟩ := PlacedMark.mk.inj (List.mem_singleton.mp hm)
    cases hfield
    exact .inl hcall

theorem mem_marks_of_requiredAt (h : Projection.empty.callAll s root calls = .ok p) {path : Path} {field : String}
    (hfield : field ∈ requiredAt calls path) : ⟨path, .required field⟩ ∈ p.marks :=
  (mem_marks_callAll h).mpr ⟨_, hfield, List.mem_singleton_self _⟩

theorem keysMarked_callAll (h : Projection.empty.callAll s root calls = .ok p) : p.KeysMarked s root := by
  refine foldlM_keeps (fun call _ q q' hq hcall => ?_) .empty h
  obtain ⟨-, rfl⟩ := call_eq_ok.mp hcall
  cases call with
  | select mode selection => exact hq.add (keysRequired_selectionMarks selection rfl fun _ hm => hm)
  | require path field =>
    have hrequired : KeysRequired s root .keep [⟨path, .required field⟩] [⟨path, .required field⟩] :=
      List.forall_mem_singleton.mpr (.inl ⟨field, rfl⟩)
    exact hq.add hrequired

/-- Which fields are included at a path that leads to an entity. -/
theorem isIncluded_of_callAll (h : Projection.empty.callAll s root calls = .ok p) {path : Path} {t : ResolvedPath}
    (ht : s.resolve root path = .ok t) (field : String) :
    (p.at_ path).isIncluded field = true ↔
      field = (s.entity t.target).pk ∨ field ∈ requiredAt calls path ∨
        field ∉ namedAt s root calls .leaveOut path ∧
          (namedAt s root calls .keep path = ∅ ∨ field ∈ namedAt s root calls .keep path) := by
  obtain ⟨rfl, hwalk⟩ := resolve_eq_ok.mp ht
  have hnamed : ∀ mode other, ⟨t.path, SelectionMode.mark mode other⟩ ∈ p.marks ↔ other ∈ namedAt s root calls mode t.path :=
    fun _ _ => mem_marks_named h
  constructor
  · intro hincluded
    rw [Projection.isIncluded_at_iff] at hincluded
    rcases hincluded with hrequired | ⟨hout, hkept⟩
    · rcases mem_marks_required h hrequired with hrequired | ⟨hops, target, hwalk', rfl⟩
      · exact .inr (.inl hrequired)
      · rw [hwalk] at hwalk'
        cases hwalk'
        exact .inl rfl
    · refine .inr (.inr ⟨fun hfield => hout ((hnamed .leaveOut field).mpr hfield), ?_⟩)
      rcases hkept with hnone | hkept
      · exact .inl (Set.eq_empty_iff_forall_notMem.mpr fun other hother => hnone other ((hnamed .keep other).mpr hother))
      · exact .inr ((hnamed .keep field).mp hkept)
  · rintro (rfl | hrequired | ⟨hout, hkept⟩)
    · exact ((keysMarked_callAll h).at_ hwalk).isIncluded
    · exact Projection.isIncluded_of_mem (mem_marks_of_requiredAt h hrequired)
    · refine Projection.isIncluded_at_iff.mpr (.inr ⟨fun hm => hout ((hnamed .leaveOut field).mp hm), ?_⟩)
      rcases hkept with hnone | hkept
      · exact .inl fun other hm => Set.notMem_empty other (hnone ▸ (hnamed .keep other).mp hm)
      · exact .inr ((hnamed .keep field).mpr hkept)

theorem excludesPath_of_callAll (h : Projection.empty.callAll s root calls = .ok p) (path : Path) :
    p.excludesPath path = true ↔ ∃ before segment after, path.segments = before ++ segment :: after ∧
      segment ∈ namedAt s root calls .leaveOut ⟨before⟩ := by
  rw [Projection.excludesPath_iff]
  simp only [← mem_marks_named h]
  rfl

end

/-! ### Meaning -/

/-- The projection means what the calls name and require: the primary key is always included, a required field is, too,
leaving a field out counts more than selecting it, and where no field is selected, all are. -/
structure Projection.Means (s : Schema) (root : EntityId) (calls : List ProjectionCall) (p : Projection) : Prop where
  resolves : ∀ mode selection, .select mode selection ∈ calls → ∀ entry ∈ selection.spelled,
    ∃ t, s.resolve root entry.1 = .ok t
  included : ∀ path t, s.resolve root path = .ok t → ∀ field,
    (p.at_ path).isIncluded field = true ↔
      field = (s.entity t.target).pk ∨ field ∈ requiredAt calls path ∨
        field ∉ namedAt s root calls .leaveOut path ∧
          (namedAt s root calls .keep path = ∅ ∨ field ∈ namedAt s root calls .keep path)
  excludes : ∀ path, p.excludesPath path = true ↔
    ∃ before segment after, path.segments = before ++ segment :: after ∧
      segment ∈ namedAt s root calls .leaveOut ⟨before⟩

/-- Two projections include the same fields at every path that leads to an entity, and leave out the same paths. -/
structure Projection.Alike (s : Schema) (root : EntityId) (p q : Projection) : Prop where
  included : ∀ path t, s.resolve root path = .ok t → ∀ field, (p.at_ path).isIncluded field = (q.at_ path).isIncluded field
  excludes : ∀ path, p.excludesPath path = q.excludesPath path

theorem Projection.Means.alike {calls calls' : List ProjectionCall} {p q : Projection} (hp : p.Means s root calls)
    (hq : q.Means s root calls') (hnamed : ∀ mode path, namedAt s root calls' mode path = namedAt s root calls mode path)
    (hrequired : ∀ path, requiredAt calls' path = requiredAt calls path) : q.Alike s root p := by
  constructor
  · intro path t ht field
    rw [Bool.eq_iff_iff, hq.included path t ht, hp.included path t ht, hnamed, hnamed, hrequired]
  · intro path
    rw [Bool.eq_iff_iff, hq.excludes, hp.excludes]
    simp only [hnamed]

theorem means_of_callAll {calls : List ProjectionCall} {p : Projection}
    (h : Projection.empty.callAll s root calls = .ok p) : p.Means s root calls := by
  refine ⟨fun mode selection hcall entry hentry => ?_, fun path t ht => isIncluded_of_callAll h ht,
    excludesPath_of_callAll h⟩
  obtain ⟨m, -, hpath, hops, target, hwalk, -⟩ := (marksNames_of_callAll h hcall).marked entry hentry
  rw [hpath] at hwalk
  exact ⟨⟨entry.1, hops, target⟩, resolve_eq_ok.mpr ⟨rfl, hwalk⟩⟩

/-- The projection that a request is bound to means what the request selects, leaves out and needs. -/
theorem means_of_bindProjection {r : Request} {p : Projection} (hempty : r.projection = .empty)
    (h : r.bindProjection s = .ok p) : p.Means s r.root r.projectionCalls := by
  rw [bindProjection_eq_callAll, hempty] at h
  exact means_of_callAll h

/-- What calls that are accepted build means what they name and require. So other accepted calls that name and require
the same, in whatever spelling, build what means the same, and the calls themselves are accepted in every order and
number, with the same meaning. -/
theorem projection_meaning {calls : List ProjectionCall} {p : Projection}
    (h : Projection.empty.callAll s root calls = .ok p) :
    p.Means s root calls ∧
    (∀ calls' q, Projection.empty.callAll s root calls' = .ok q →
      (∀ mode path, namedAt s root calls' mode path = namedAt s root calls mode path) →
      (∀ path, requiredAt calls' path = requiredAt calls path) → q.Alike s root p) ∧
    ∀ calls', (∀ call, call ∈ calls' ↔ call ∈ calls) →
      ∃ q, Projection.empty.callAll s root calls' = .ok q ∧ q.Alike s root p := by
  have hmeans := means_of_callAll h
  refine ⟨hmeans, fun calls' q hq => hmeans.alike (means_of_callAll hq), fun calls' hsame => ?_⟩
  have hfaultless : ∀ call ∈ calls', (call.marking s root).fault = none := fun call hcall =>
    (callAll_eq_ok.mp h).1 call ((hsame call).mp hcall)
  obtain ⟨q, hq⟩ : ∃ q, Projection.empty.callAll s root calls' = .ok q := ⟨_, callAll_eq_ok.mpr ⟨hfaultless, rfl⟩⟩
  refine ⟨q, hq, hmeans.alike (means_of_callAll hq) (fun mode path => ?_) fun path => ?_⟩
  · simp only [namedAt, hsame]
  · simp only [requiredAt, hsame]

def bibliography : Schema :=
  ⟨[⟨"Author", "authors", "id", [⟨"id", "id", false⟩, ⟨"name", "name", false⟩, ⟨"bio", "bio", true⟩]⟩,
    ⟨"Book", "books", "id",
      [⟨"id", "id", false⟩, ⟨"title", "title", false⟩, ⟨"subtitle", "subtitle", true⟩, ⟨"author_id", "author_id", true⟩]⟩],
   [⟨"author", .foreignKey "author_id", ⟨1⟩, ⟨0⟩, true, false, some "books", ⟨1⟩⟩,
    ⟨"books", .reverseForeignKey "author_id", ⟨0⟩, ⟨1⟩, true, true, some "author", ⟨0⟩⟩]⟩

/-- Authors and their books, where the primary keys of the books are told to be left out. -/
def bibliographyCalls : List ProjectionCall :=
  [.select .keep (.names ["name", "books__title"]),
   .select .leaveOut (.tree [("bio", .all), ("books", .names ["pk", "subtitle"])]),
   .require ⟨["books"]⟩ "author_id",
   .select .keep (.tree [("books", .tree [("subtitle", .all)])])]

theorem projection_meaning_bibliography :
    ∃ p, Projection.empty.callAll bibliography ⟨0⟩ bibliographyCalls = .ok p ∧
      (p.at_ ⟨["books"]⟩).isIncluded "id" = true ∧
      ∃ q, Projection.empty.callAll bibliography ⟨0⟩ bibliographyCalls.reverse = .ok q ∧ q.Alike bibliography ⟨0⟩ p := by
  obtain ⟨p, hp⟩ : ∃ p, Projection.empty.callAll bibliography ⟨0⟩ bibliographyCalls = .ok p := ⟨_, rfl⟩
  have hbooks : bibliography.resolve ⟨0⟩ ⟨["books"]⟩ = .ok ⟨⟨["books"]⟩, [⟨1⟩], ⟨1⟩⟩ := by rfl
  obtain ⟨hmeans, -, hsame⟩ := projection_meaning hp
  exact ⟨p, hp, (hmeans.included _ _ hbooks "id").mpr (.inl rfl), hsame _ fun _ => List.mem_reverse⟩

end RelQuery
