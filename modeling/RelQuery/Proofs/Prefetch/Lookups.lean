import RelQuery.Proofs.Join.Links
import RelQuery.Proofs.Path
import RelQuery.Proofs.Plan.Faults
import RelQuery.Proofs.Prefetch.Keys

/-!
# Lookups of follow-up statements

Follow-up statements find what they load by lookups that are written for them. Where names are single segments of a
path the lookups are read as they were meant, so only what a user gives can make such a statement fail: an ordering
that leads nowhere, or a projection that hides a column.
-/

namespace RelQuery

variable {s : Schema}

/-- Names can be written into lookups, and no relation has the general name of primary keys. -/
structure Schema.WritesNames (s : Schema) : Prop where
  relations : ∀ r ∈ s.relations, SegmentName r.name ∧ r.name ≠ pkAlias
  fields : ∀ e ∈ s.entities, ∀ c ∈ e.columns, SegmentName c.name

theorem Schema.WritesNames.find_pk (h : s.WritesNames) (id : EntityId) : s.findRelation? id pkAlias = none := by
  rcases hfind : s.findRelation? id pkAlias with - | found
  · rfl
  · obtain ⟨hmem, -, hname⟩ := relation_of_findRelation? hfind
    exact absurd hname (h.relations _ hmem).2

theorem segmentName_pk : SegmentName pkAlias := by decide

theorem segmentName_in : SegmentName "in" := by decide

theorem Schema.WritesNames.segmentName (h : s.WritesNames) {id : EntityId} {field : String}
    (hfield : (s.entity id).hasField field = true) : SegmentName field := by
  have hlt := lt_of_hasField hfield
  have hmem : s.entity id ∈ s.entities := by
    rw [Schema.entity, List.getElem?_eq_getElem hlt, Option.getD_some]
    exact List.getElem_mem hlt
  obtain ⟨c, hc⟩ := Option.isSome_iff_exists.mp hfield
  rw [← name_of_column? hc]
  exact h.fields _ hmem c (List.mem_of_find?_eq_some hc)

/-! ### Reading lookups -/

theorem parse_isIn {segments : List String} (hne : segments ≠ []) (hnames : ∀ name ∈ segments, SegmentName name) :
    Lookup.parse (joinSegments (segments ++ ["in"])) = ⟨joinSegments (segments ++ ["in"]), segments, .isIn⟩ := by
  have hall : ∀ name ∈ segments ++ ["in"], SegmentName name :=
    List.forall_mem_append.mpr ⟨hnames, List.forall_mem_singleton.mpr segmentName_in⟩
  have hlong : 1 < (segments ++ ["in"]).length := by
    have hpos := List.length_pos_iff.mpr hne
    rw [List.length_append, List.length_singleton]
    omega
  have hop : Operator.parse? "in" = some .isIn := by decide
  unfold Lookup.parse
  rw [segmentsOf_joinSegments (List.append_ne_nil_of_right_ne_nil _ (List.cons_ne_nil _ _)) hall]
  simp only [List.getLast?_concat, Option.bind_some, hop, if_pos hlong, List.dropLast_concat]

theorem resolveFieldFrom_column {lookup : String} {parts walked : List String} {entity : EntityId} {field : String}
    (hnone : s.findRelation? entity field = none) {c : Column} (hc : (s.entity entity).fieldColumn? field = some c) :
    s.resolveFieldFrom lookup parts walked entity [field] = .ok ⟨⟨walked⟩, entity, .column c.name⟩ := by
  rw [Schema.resolveFieldFrom, hnone]
  dsimp only
  rw [hc]
  rfl

theorem mapM_plain (e : Entity) (raw : String) (keys : List Value) :
    (keys.map ValueRef.scalar).mapM (ValueRef.plain e s raw) = .ok keys := by
  rw [mapM_eq_ok, List.forall₂_map_left_iff]
  exact List.forall₂_same.mpr fun _ _ => rfl

theorem bindLookup_of_parse {root : EntityId} {raw : String} {parts : List String} {path : Path} {c : Column}
    {referenced : EntityId} (hread : Lookup.parse raw = ⟨raw, parts, .isIn⟩)
    (hbound : s.bindField root raw parts = .ok (path, c, referenced)) (keys : List Value) :
    s.bindLookup root raw (.list (keys.map .scalar)) = .ok ⟨raw, path, c.dbName, .isIn, .many keys⟩ := by
  refine bindLookup_eq_ok.mpr ⟨path, c, referenced, .many keys, ?_, ?_, by rw [hread]⟩
  · rw [hread]
    exact hbound
  · rw [hread]
    exact map_eq_ok.mpr ⟨keys, mapM_plain _ _ keys, rfl⟩

theorem bindLookup_isIn {root entity : EntityId} {segments : List String} (hne : segments ≠ [])
    (hnames : ∀ name ∈ segments, SegmentName name) {path : Path} {c : Column}
    (hfield : ∀ raw, s.resolveField root raw segments = .ok ⟨path, entity, .column c.name⟩)
    (hc : (s.entity entity).column? c.name = some c) (keys : List Value) :
    s.bindLookup root (joinSegments (segments ++ ["in"])) (.list (keys.map .scalar)) =
      .ok ⟨joinSegments (segments ++ ["in"]), path, c.dbName, .isIn, .many keys⟩ := by
  exact bindLookup_of_parse (parse_isIn hne hnames) (bindField_eq_ok.mpr ⟨_, hfield _, rfl, hc, rfl⟩) keys

/-- What the follow-up statement of a relation compares with the keys of the owners, as it is written. -/
def Relation.keyLookup (s : Schema) (r : Relation) : List String :=
  match r.link with
  | .foreignKey _ => [pkAlias]
  | .reverseForeignKey key => [key]
  | .manyToMany .. => [s.mirrorName r, pkAlias]

theorem keyLookup_ne_nil {r : Relation} : r.keyLookup s ≠ [] := by
  unfold Relation.keyLookup
  split <;> exact List.cons_ne_nil _ _

theorem filters_childRequest (r : Relation) (projection : Projection) (orderBy : List OrderSpec)
    (childPaths : List Path) (keys : List Value) :
    (childRequest s r projection orderBy childPaths keys).filters =
      [.lookup (joinSegments (r.keyLookup s ++ ["in"])) (.list (keys.map .scalar))] := by
  unfold childRequest Relation.keyLookup
  cases r.link with
  | foreignKey key => rfl
  | reverseForeignKey key =>
    simp only [joinSegments, List.singleton_append, String.intercalate_cons_cons, String.intercalate_singleton,
      String.append_assoc]
    rfl
  | manyToMany through ownerKey targetKey =>
    simp only [joinSegments, List.cons_append, List.nil_append, String.intercalate_cons_cons,
      String.intercalate_singleton, String.append_assoc]
    rfl

/-- Where a relation's lookup leads: from the loaded entity to the column that holds the keys of the owners. -/
structure Relation.KeyPlace (s : Schema) (r : Relation) (path : Path) (entity : EntityId) (c : Column) : Prop where
  column : (s.entity entity).column? c.name = some c
  place :
    match r.link with
    | .foreignKey _ => path = .root ∧ entity = r.target ∧ c = (s.entity r.target).pkColumn
    | .reverseForeignKey key => path = .root ∧ entity = r.target ∧ (s.entity r.target).fieldColumn? key = some c
    | .manyToMany .. => path = ⟨[s.mirrorName r]⟩ ∧ entity = r.owner ∧ c = (s.entity r.owner).pkColumn

theorem column?_pkColumn {e : Entity} (h : e.hasField e.pk = true) : e.column? e.pkColumn.name = some e.pkColumn := by
  obtain ⟨c, hc⟩ := Option.isSome_iff_exists.mp h
  rw [name_pkColumn, Entity.pkColumn, hc, Option.getD_some]

theorem column?_fieldColumn {e : Entity} (h : e.hasField e.pk = true) {field : String} {c : Column}
    (hc : e.fieldColumn? field = some c) : e.column? c.name = some c := by
  unfold Entity.fieldColumn? at hc
  split at hc
  · cases hc
    exact column?_pkColumn h
  · rw [name_of_column? hc, hc]

theorem exists_fieldColumn {e : Entity} {field : String} (h : e.hasField field = true) :
    ∃ c, e.fieldColumn? field = some c := by
  unfold Entity.fieldColumn?
  split
  · exact ⟨_, rfl⟩
  · exact Option.isSome_iff_exists.mp h

variable {r : Relation}

theorem exists_keyPlace (hs : s.WellFormed) (hlinked : s.Linked) (hnames : s.WritesNames) (hr : r ∈ s.relations) :
    ∃ path entity c, r.KeyPlace s path entity c ∧
      ∀ raw, s.resolveField r.target raw (r.keyLookup s) = .ok ⟨path, entity, .column c.name⟩ := by
  have htarget := hs.hasField_pk (hs.targets r hr)
  have howner := hs.hasField_pk (hs.owners r hr)
  have hpk : ∀ id : EntityId, (s.entity id).fieldColumn? pkAlias = some (s.entity id).pkColumn := fun id => if_pos rfl
  have hfits := hs.links r hr
  unfold Relation.keyLookup
  unfold Link.Fits at hfits
  split
  case h_1 key hlink =>
    refine ⟨.root, r.target, (s.entity r.target).pkColumn, ⟨column?_pkColumn htarget, ?_⟩, fun raw => ?_⟩
    · rw [hlink]
      exact ⟨rfl, rfl, rfl⟩
    · exact resolveFieldFrom_column (hnames.find_pk _) (hpk _)
  case h_2 key hlink =>
    rw [hlink] at hfits
    obtain ⟨c, hc⟩ := exists_fieldColumn hfits
    refine ⟨.root, r.target, c, ⟨column?_fieldColumn htarget hc, ?_⟩, fun raw => ?_⟩
    · rw [hlink]
      exact ⟨rfl, rfl, hc⟩
    · exact resolveFieldFrom_column (hlinked.findRelation?_field hfits) hc
  case h_3 through ownerKey targetKey hlink =>
    obtain ⟨hfound, hmirror, -⟩ := hlinked.find_mirror hr
    refine ⟨⟨[s.mirrorName r]⟩, r.owner, (s.entity r.owner).pkColumn, ⟨column?_pkColumn howner, ?_⟩, fun raw => ?_⟩
    · rw [hlink]
      exact ⟨rfl, rfl, rfl⟩
    · rw [Schema.resolveField, Schema.resolveFieldFrom, hfound]
      dsimp only
      rw [if_neg (by simp), hmirror.target]
      exact resolveFieldFrom_column (hnames.find_pk _) (hpk _)

theorem segmentName_mirror (hlinked : s.Linked) (hnames : s.WritesNames) (hr : r ∈ s.relations) :
    SegmentName (s.mirrorName r) := by
  obtain ⟨hfound, -, hmem⟩ := hlinked.find_mirror hr
  obtain ⟨-, -, hname⟩ := relation_of_findRelation? hfound
  rw [← hname]
  exact (hnames.relations _ hmem).1

theorem segmentName_keyLookup (hs : s.WellFormed) (hlinked : s.Linked) (hnames : s.WritesNames)
    (hr : r ∈ s.relations) : ∀ name ∈ r.keyLookup s, SegmentName name := by
  have hfits := hs.links r hr
  unfold Relation.keyLookup
  unfold Link.Fits at hfits
  split
  case h_1 => exact List.forall_mem_singleton.mpr segmentName_pk
  case h_2 key hlink =>
    rw [hlink] at hfits
    exact List.forall_mem_singleton.mpr (hnames.segmentName hfits)
  case h_3 =>
    exact List.forall_mem_cons.mpr ⟨segmentName_mirror hlinked hnames hr, List.forall_mem_singleton.mpr segmentName_pk⟩

/-- The lookup of a follow-up statement compares the column that holds the keys of the owners with these. -/
theorem bindFilters_childRequest (hs : s.WellFormed) (hlinked : s.Linked) (hnames : s.WritesNames)
    (hr : r ∈ s.relations) (projection : Projection) (orderBy : List OrderSpec) (childPaths : List Path)
    (keys : List Value) :
    ∃ raw path entity c, r.KeyPlace s path entity c ∧
      s.bindFilters r.target (childRequest s r projection orderBy childPaths keys).filters =
        .ok [.cond ⟨raw, path, c.dbName, .isIn, .many keys⟩] := by
  obtain ⟨path, entity, c, hplace, hfield⟩ := exists_keyPlace hs hlinked hnames hr
  have hbound := bindLookup_isIn keyLookup_ne_nil (segmentName_keyLookup hs hlinked hnames hr) hfield hplace.column keys
  refine ⟨joinSegments (r.keyLookup s ++ ["in"]), path, entity, c, hplace, ?_⟩
  rw [filters_childRequest, Schema.bindFilters, Schema.bindFilter, hbound]
  rfl

/-! ### The projections of follow-up statements -/

/-- The selection of the owners that a follow-up statement shows. -/
theorem selectionMarks_owners (hlinked : s.Linked) (hnames : s.WritesNames) (hr : r ∈ s.relations) :
    selectionMarks s .keep r.target .root (.names [s.mirrorName r ++ "__" ++ pkAlias]) =
      .of [⟨.root, .required (s.entity r.target).pk⟩, ⟨⟨[s.mirrorName r]⟩, .required (s.entity r.owner).pk⟩,
        ⟨⟨[s.mirrorName r]⟩, .included (s.entity r.owner).pk⟩] := by
  obtain ⟨hfound, hmirror, -⟩ := hlinked.find_mirror hr
  have hsegments : segmentsOf (s.mirrorName r ++ "__" ++ pkAlias) = [s.mirrorName r, pkAlias] := by
    have hread := segmentsOf_joinSegments (List.cons_ne_nil (s.mirrorName r) [pkAlias])
      (List.forall_mem_cons.mpr ⟨segmentName_mirror hlinked hnames hr, List.forall_mem_singleton.mpr segmentName_pk⟩)
    rwa [joinSegments, String.intercalate_cons_cons, String.intercalate_singleton] at hread
  have hkey : fieldName? s r.owner pkAlias = some (s.entity r.owner).pk := by
    unfold fieldName?
    exact if_pos rfl
  have hfield : fieldMarks s .keep (s.mirrorName r ++ "__" ++ pkAlias) r.target .root [s.mirrorName r, pkAlias] =
      .of [⟨⟨[s.mirrorName r]⟩, .required (s.entity r.owner).pk⟩,
        ⟨⟨[s.mirrorName r]⟩, .included (s.entity r.owner).pk⟩] := by
    rw [fieldMarks, if_neg (by simp), hfound]
    dsimp only
    rw [hmirror.target, fieldMarks, if_pos List.isEmpty_nil, hkey]
    rfl
  rw [selectionMarks, namesMarks, namesMarks, hsegments, hfield]
  rfl

theorem bindProjection_childRequest (hlinked : s.Linked) (hnames : s.WritesNames) (hr : r ∈ s.relations)
    (projection : Projection) (orderBy : List OrderSpec) (childPaths : List Path) (keys : List Value) :
    ∃ added, (childRequest s r projection orderBy childPaths keys).bindProjection s = .ok (projection.add added) ∧
      ∀ m ∈ added, (∃ field, m.mark = .required field) ∨
        r.isManyToMany = true ∧ m.path = ⟨[s.mirrorName r]⟩ ∧ m.mark = .included (s.entity r.owner).pk := by
  have hrequired : ∀ required : List (Path × String), ∀ m ∈ required.map fun entry => (⟨entry.1, .required entry.2⟩ :
      PlacedMark), ∃ field, m.mark = .required field := by
    intro required m hm
    obtain ⟨entry, -, rfl⟩ := List.mem_map.mp hm
    exact ⟨_, rfl⟩
  have hplain : ∀ request : Request, request.projection = projection → request.fields = [] →
      request.excludeFields = [] → request.bindProjection s =
        .ok (projection.add (request.required.map fun entry => ⟨entry.1, .required entry.2⟩)) := by
    intro request hprojection hfields hexcludes
    unfold Request.bindProjection
    rw [hprojection, hfields, hexcludes, ← foldl_require]
    rfl
  unfold childRequest Relation.isManyToMany
  cases hlink : r.link with
  | foreignKey key => exact ⟨_, hplain _ rfl rfl rfl, fun m hm => .inl (hrequired _ m hm)⟩
  | reverseForeignKey key => exact ⟨_, hplain _ rfl rfl rfl, fun m hm => .inl (hrequired _ m hm)⟩
  | manyToMany through ownerKey targetKey =>
    refine ⟨[⟨.root, .required (s.entity r.target).pk⟩, ⟨⟨[s.mirrorName r]⟩, .required (s.entity r.owner).pk⟩,
      ⟨⟨[s.mirrorName r]⟩, .included (s.entity r.owner).pk⟩] ++
        (PrefetchPlan.requiredKeys s r.target childPaths).map fun entry => ⟨entry.1, .required entry.2⟩, ?_, ?_⟩
    · unfold Request.bindProjection
      dsimp only
      rw [Projection.selectAll, Projection.select, selectionMarks_owners hlinked hnames hr]
      refine bind_eq_ok.mpr ⟨_, rfl, bind_eq_ok.mpr ⟨_, rfl, congrArg Except.ok ?_⟩⟩
      simp only [Marking.of, foldl_require, Projection.add, List.append_assoc]
    · intro m hm
      rcases List.mem_append.mp hm with hm | hm
      · simp only [List.mem_cons, List.not_mem_nil, or_false] at hm
        rcases hm with rfl | rfl | rfl
        · exact .inl ⟨_, rfl⟩
        · exact .inl ⟨_, rfl⟩
        · exact .inr ⟨rfl, rfl, rfl⟩
      · exact .inl (hrequired _ m hm)

/-- Where only required fields are added, what was included stays so. -/
theorem isIncluded_add {p : Projection} {added : List PlacedMark} {path : Path}
    (hadded : ∀ m ∈ added, m.path = path → ∃ field, m.mark = .required field) {field : String}
    (h : (p.at_ path).isIncluded field = true) : ((p.add added).at_ path).isIncluded field = true := by
  have hback : ∀ {mark : Mark}, (∀ field, mark ≠ .required field) →
      (⟨path, mark⟩ : PlacedMark) ∈ (p.add added).marks → (⟨path, mark⟩ : PlacedMark) ∈ p.marks := by
    intro mark hmark hm
    rcases List.mem_append.mp hm with hold | hnew
    · exact hold
    · obtain ⟨field, hfield⟩ := hadded _ hnew rfl
      exact absurd hfield (hmark field)
  rw [Projection.isIncluded_at_iff] at h ⊢
  rcases h with hrequired | ⟨hexcluded, hincluded⟩
  · exact .inl (List.mem_append_left _ hrequired)
  · refine .inr ⟨fun hm => hexcluded (hback (fun _ => Mark.noConfusion) hm), ?_⟩
    rcases hincluded with hall | hnamed
    · exact .inl fun other hm => hall other (hback (fun _ => Mark.noConfusion) hm)
    · exact .inr (List.mem_append_left _ hnamed)

/-- Why the statement of a node is refused: an ordering leads nowhere, the projection hides a column that the loaded
instances need, or its tables find no aliases of their own. -/
inductive PrefetchNode.Refused (s : Schema) (node : PrefetchNode) : NoResult → Prop where
  | ordering {o : OrderSpec} {err : QueryError} (given : o ∈ node.orderBy)
      (fails : s.bindOrder (s.relation node.relation).target o = .error err) : node.Refused s (.failed err)
  | hides {path : Path} {err : QueryError}
      (hidden : node.projection.Hides s (s.relation node.relation).target path err) : node.Refused s (.failed err)
  | aliases {n : NoResult} (named : n.isAliasError = true) : node.Refused s n

theorem orderBy_childRequest (s : Schema) (r : Relation) (projection : Projection) (orderBy : List OrderSpec)
    (childPaths : List Path) (keys : List Value) :
    (childRequest s r projection orderBy childPaths keys).orderBy = orderBy := by
  unfold childRequest
  split <;> rfl

theorem resolve_selectRelated (hlinked : s.Linked) (hr : r ∈ s.relations) {projection : Projection}
    {orderBy : List OrderSpec} {childPaths : List Path} {keys : List Value} :
    ∀ path ∈ (childRequest s r projection orderBy childPaths keys).selectRelated,
      ∃ t, s.resolve r.target path = .ok t := by
  obtain ⟨hfound, -, -⟩ := hlinked.find_mirror hr
  unfold childRequest
  split
  · exact fun path hpath => absurd hpath List.not_mem_nil
  · exact fun path hpath => absurd hpath List.not_mem_nil
  · refine List.forall_mem_singleton.mpr ⟨⟨_, [r.mirror], (s.relation r.mirror).target⟩, resolve_eq_ok.mpr ⟨rfl, ?_⟩⟩
    exact walk_cons.mpr ⟨r.mirror, [], hfound, rfl, rfl⟩

theorem partialPaths_childRequest (hr : r.isManyToMany = true) (projection : Projection) (orderBy : List OrderSpec)
    (childPaths : List Path) (keys : List Value) :
    (childRequest s r projection orderBy childPaths keys).partialPaths = [⟨[s.mirrorName r]⟩] := by
  obtain ⟨through, ownerKey, targetKey, hlink⟩ := link_of_isManyToMany hr
  rw [childRequest, hlink]

/-- A follow-up statement can be bound unless an ordering leads nowhere. -/
theorem ordering_of_bind_eq_error (hs : s.WellFormed) (hlinked : s.Linked) (hnames : s.WritesNames)
    {node : PrefetchNode} (hmem : s.relation node.relation ∈ s.relations) {keys : List Value} {err : QueryError}
    (h : (node.request s keys).bind s = .error err) :
    ∃ o ∈ node.orderBy, s.bindOrder (s.relation node.relation).target o = .error err := by
  obtain ⟨hroot, -, -, -⟩ := node.request_spec s keys
  rcases bind_eq_error_cases h with hfault | ⟨projection, hfault⟩ | hfault | ⟨o, ho, hfault⟩
  · obtain ⟨added, hprojection, -⟩ := bindProjection_childRequest hlinked hnames hmem node.projection node.orderBy
      (node.children.map fun c => (node.path.stripFrom? c.path).getD .root) keys
    rw [← PrefetchNode.request, hfault] at hprojection
    cases hprojection
  · rcases bind_eq_error.mp hfault with hfault | ⟨⟨⟩, -, hfault⟩
    · obtain ⟨path, hpath, hfault⟩ := exists_of_forM_eq_error hfault
      obtain ⟨t, ht⟩ := resolve_selectRelated hlinked hmem path hpath
      rw [hroot, ht] at hfault
      cases hfault
    · cases hfault
  · obtain ⟨raw, place, entity, column, -, hbound⟩ := bindFilters_childRequest hs hlinked hnames hmem node.projection
      node.orderBy (node.children.map fun c => (node.path.stripFrom? c.path).getD .root) keys
    rw [← PrefetchNode.request, ← hroot, hfault] at hbound
    cases hbound
  · rw [hroot] at hfault
    rw [PrefetchNode.request, orderBy_childRequest] at ho
    exact ⟨o, ho, hfault⟩

theorem refused_of_plan (hs : s.WellFormed) (hlinked : s.Linked) (hnames : s.WritesNames) {node : PrefetchNode}
    (hmem : s.relation node.relation ∈ s.relations) {keys : List Value} {settings : Settings}
    {registry registry' : AliasRegistry} {n : NoResult}
    (h : (node.request s keys).plan s settings registry = (.error n, registry')) : node.Refused s n := by
  obtain ⟨hroot, -, -, -⟩ := node.request_spec s keys
  have hlt : (node.request s keys).root.index < s.entities.length := by
    rw [hroot]
    exact hs.targets _ hmem
  rcases plan_eq_error_cases hs hlt (fun rel hrel => (hnames.relations rel hrel).1.toSeparable) h with
    ⟨err, hbind, rfl⟩ | halias |
      ⟨b, err, rfl, hbind, path, hplace, hops, target, hwalk, c, hc, hnullable, hpk, hhidden, rfl⟩
  · obtain ⟨o, ho, hfault⟩ := ordering_of_bind_eq_error hs hlinked hnames hmem hbind
    exact .ordering ho hfault
  · exact .aliases halias
  · obtain ⟨added, hprojection, hadded⟩ := bindProjection_childRequest hlinked hnames hmem node.projection node.orderBy
      (node.children.map fun c => (node.path.stripFrom? c.path).getD .root) keys
    rw [← PrefetchNode.request] at hprojection
    rw [Except.ok.inj ((bindProjection_of_bind hbind).symm.trans hprojection)] at hhidden
    rw [hroot] at hwalk
    -- what the statement adds to the projection of the node hides nothing, except where instances may be partial
    refine .hides ⟨hops, target, hwalk, c, hc, hnullable, hpk, Bool.eq_false_iff.mpr fun hshown => ?_, rfl⟩
    refine Bool.eq_false_iff.mp hhidden (isIncluded_add (fun m hm hpath => ?_) hshown)
    rcases hadded m hm with hrequired | ⟨hmany, hmirror, -⟩
    · exact hrequired
    · rw [← hpath, hmirror] at hplace
      rcases hplace with hplace | hplace
      · cases hplace
      · rw [PrefetchNode.request, partialPaths_childRequest hmany] at hplace
        simp at hplace

end RelQuery
