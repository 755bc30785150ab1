import RelQuery.Proofs.Engine.Recorder
import RelQuery.Proofs.Prefetch.Lookups

/-!
# What follow-up statements ask for

The request for the rows that a relation links to owners with some keys is bound to a lookup of the keys where the
relation keeps them. It joins nothing, unless the relation goes through a linking table: then it joins the owners, to
show whom each row is linked to. So its rows are fetched, whatever the keys are.
-/

namespace RelQuery

open Sql

variable {sv : Server} {db : Database} {s : Schema} {rel : Relation}

theorem isIn_keeps {raw : String} {path : Path} {column : String} {keys : List Value} {row : Joined} :
    (BoundFilter.cond ⟨raw, path, column, .isIn, .many keys⟩).keeps sv db row = true ↔
      ∃ key ∈ keys, sv.equal (row.value path column) key = true := by
  have htruth : (BoundFilter.cond ⟨raw, path, column, .isIn, .many keys⟩).truth sv db row =
      sv.isIn (row.value path column) (valuesOf sv db [] (keys.map .param)) := by
    change Sql.truth (Expr.value sv db [] (.inList (.param (row.value path column)) (keys.map .param) false)) = _
    rw [Expr.value, truth_ofTruth]
    rfl
  rw [BoundFilter.keeps, htruth, valuesOf_params, beq_iff_eq, isIn_eq_true]

/-- The keys are kept at the root, or with the owners that are joined. -/
theorem Relation.KeyPlace.path_eq {path : Path} {entity : EntityId} {c : Column} (h : rel.KeyPlace s path entity c)
    (hne : path ≠ .root) :
    rel.isManyToMany = true ∧ path = ⟨[s.mirrorName rel]⟩ ∧ c = (s.entity rel.owner).pkColumn := by
  obtain ⟨-, hplace⟩ := h
  unfold Relation.isManyToMany
  cases hlink : rel.link with
  | foreignKey key => exact absurd (hlink ▸ hplace).1 hne
  | reverseForeignKey key => exact absurd (hlink ▸ hplace).1 hne
  | manyToMany through ownerKey targetKey =>
    rw [hlink] at hplace
    exact ⟨rfl, hplace.1, hplace.2.2⟩

theorem shape_childRequest (s : Schema) (rel : Relation) (projection : Projection) (orderBy : List OrderSpec)
    (childPaths : List Path) (keys : List Value) :
    (childRequest s rel projection orderBy childPaths keys).selectRelated =
        (if rel.isManyToMany then [⟨[s.mirrorName rel]⟩] else []) ∧
      (childRequest s rel projection orderBy childPaths keys).limit = none ∧
      (childRequest s rel projection orderBy childPaths keys).offset = none ∧
      (childRequest s rel projection orderBy childPaths keys).limitRawSql = false := by
  unfold childRequest Relation.isManyToMany
  cases rel.link <;> exact ⟨rfl, rfl, rfl, rfl⟩

theorem goThrough_childRequest (s : Schema) (rel : Relation) (projection : Projection) (orderBy : List OrderSpec)
    (childPaths : List Path) (keys : List Value) {path : Path} (hne : path ≠ .root) :
    goThrough (childRequest s rel projection orderBy childPaths keys).selectRelated path = true ↔
      rel.isManyToMany = true ∧ path = ⟨[s.mirrorName rel]⟩ := by
  obtain ⟨hselect, -, -, -⟩ := shape_childRequest s rel projection orderBy childPaths keys
  rw [hselect]
  split
  case isTrue hmany => rw [goThrough_single hne, and_iff_right hmany]
  case isFalse hmany => exact iff_of_false Bool.false_ne_true fun h => hmany h.1

/-- What the request for the rows that a relation links to owners with these keys is bound to: a lookup of the keys,
which joins nothing but the owners, and these only where the relation goes through a linking table. -/
structure Relation.Asks (rel : Relation) (s : Schema) (keys : List Value) (b : BoundRequest) : Prop where
  filters : ∃ raw path entity c, rel.KeyPlace s path entity c ∧
    b.filters = [.cond ⟨raw, path, c.dbName, .isIn, .many keys⟩]
  orders : b.orders = []
  joined : ∀ path, path ≠ .root →
    ((∃ t ∈ b.resolved, t.path = path) ↔ rel.isManyToMany = true ∧ path = ⟨[s.mirrorName rel]⟩)
  included : ∀ field, b.projection.isIncluded field = true
  kept : ∀ path, b.projection.excludesPath path = false
  keysMarked : b.projection.KeysMarked s rel.target
  whole : rel.isManyToMany = false → b.projection.OnlyRequires

theorem bind_childRequest (hs : s.WellFormed) (hlinked : s.Linked) (hnames : s.WritesNames) (hrel : rel ∈ s.relations)
    {projection : Projection} (hwhole : projection.OnlyRequires) (childPaths : List Path) (keys : List Value) :
    ∃ b, (childRequest s rel projection [] childPaths keys).bind s = .ok b ∧ rel.Asks s keys b := by
  obtain ⟨raw, path, entity, c, hplace, hfilters⟩ :=
    bindFilters_childRequest hs hlinked hnames hrel projection [] childPaths keys
  obtain ⟨added, hprojection, hadded⟩ :=
    bindProjection_childRequest hlinked hnames hrel projection [] childPaths keys
  obtain ⟨hroot, hgiven, -, -⟩ := childRequest_spec s rel projection [] childPaths keys
  rw [← hroot] at hfilters
  -- only the key of the owner's end, through the mirror, may be marked beside what the projection requires
  have hmarks : ∀ m ∈ (projection.add added).marks, (∃ field, m.mark = .required field) ∨
      rel.isManyToMany = true ∧ m.path = ⟨[s.mirrorName rel]⟩ ∧ m.mark = .included (s.entity rel.owner).pk :=
    List.forall_mem_append.mpr ⟨fun m hm => .inl (hwhole m hm), hadded⟩
  have hkept : ∀ path, (projection.add added).excludesPath path = false := by
    refine Projection.excludesPath_eq_false fun m hm field he => ?_
    rcases hmarks m hm with ⟨_, hm⟩ | ⟨-, -, hm⟩ <;> rw [he] at hm <;> cases hm
  have horders : (childRequest s rel projection [] childPaths keys).orderBy.mapM
      (s.bindOrder (childRequest s rel projection [] childPaths keys).root) = .ok [] := by
    rw [orderBy_childRequest]
    rfl
  have hpaths : ∀ path ∈ (childRequest s rel projection [] childPaths keys).selectRelated,
      ∃ t, s.resolve (childRequest s rel projection [] childPaths keys).root path = .ok t := by
    rw [hroot]
    exact resolve_selectRelated hlinked hrel
  have hreads : ∀ q ∈ [BoundFilter.cond ⟨raw, path, c.dbName, .isIn, .many keys⟩].flatMap BoundFilter.paths ++
      ([] : List BoundOrder).map (·.path), q ≠ .root →
        goThrough (childRequest s rel projection [] childPaths keys).selectRelated q = true := by
    intro q hq hne
    rw [List.map_nil, List.append_nil, List.flatMap_singleton] at hq
    obtain rfl : q = path := List.mem_singleton.mp (List.mem_filter.mp (mem_distinct.mp hq)).1
    obtain ⟨hmany, hpath, -⟩ := hplace.path_eq hne
    exact (goThrough_childRequest s rel projection [] childPaths keys hne).mpr ⟨hmany, hpath⟩
  obtain ⟨resolved, hbind, hjoined⟩ := exists_bind hprojection hkept hpaths hfilters horders hreads
  refine ⟨_, hbind, ⟨raw, path, entity, c, hplace, rfl⟩, rfl, fun q hne => ?_, ?_, hkept, ?_, ?_⟩
  · exact (hjoined q hne).trans (goThrough_childRequest s rel projection [] childPaths keys hne)
  · refine Projection.isIncluded_of_required fun m hm hmroot => ?_
    rcases hmarks m hm with hrequired | ⟨-, hpath, -⟩
    · exact hrequired
    · rw [hpath] at hmroot
      cases hmroot
  · have hstart : (childRequest s rel projection [] childPaths keys).projection.KeysMarked s
        (childRequest s rel projection [] childPaths keys).root := by
      rw [hgiven]
      exact fun m hm => .inl (hwhole m hm)
    exact hroot ▸ hstart.bindProjection hprojection
  · intro hone m hm
    rcases hmarks m hm with hrequired | ⟨hmany, -, -⟩
    · exact hrequired
    · rw [hone] at hmany
      cases hmany

/-- The rows of the request are fetched. -/
theorem gives_fetch_child {settings : Settings} (hs : s.WellFormed) (hnames : s.WritesNames) (hdb : db.Sound sv s)
    (hrel : rel ∈ s.relations) {projection : Projection} (hwhole : projection.OnlyRequires) {childPaths : List Path}
    {keys : List Value} {b : BoundRequest}
    (hbind : (childRequest s rel projection [] childPaths keys).bind s = .ok b) (hasks : rel.Asks s keys b) :
    ((db.recorder sv s settings).fetch (childRequest s rel projection [] childPaths keys)).Gives
      (b.Fetched sv db s (childRequest s rel projection [] childPaths keys)) := by
  obtain ⟨hroot, hprojection, -, -⟩ := childRequest_spec s rel projection [] childPaths keys
  obtain ⟨-, -, -, hraw⟩ := shape_childRequest s rel projection [] childPaths keys
  have hplain : ∀ rel ∈ s.relations, Separable rel.name := fun rel hrel => (hnames.relations rel hrel).1.toSeparable
  have hkey : (childRequest s rel projection [] childPaths keys).projection.KeepsKey s
      (childRequest s rel projection [] childPaths keys).root := by
    rw [hprojection]
    exact hwhole.keepsKey
  refine gives_fetch_of_bind hs hplain hdb (hroot ▸ hs.targets rel hrel) hkey hraw hbind hasks.included
    (fun t ht hpartial => ?_) (by simp [hasks.orders])
  -- all that is joined may be incomplete
  obtain ⟨hmany, hpath⟩ := (hasks.joined t.path ((boundFrom_of_bind hbind).joined.ne_root t ht)).mp ⟨t, ht, rfl⟩
  rw [partialPaths_childRequest hmany, hpath] at hpartial
  simp at hpartial

end RelQuery
