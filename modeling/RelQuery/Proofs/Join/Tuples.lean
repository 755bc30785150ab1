import RelQuery.Proofs.Join.Rows
import RelQuery.Proofs.Plan.Reads

/-!
# What the tuples of a statement show

The joins of a statement compute joined rows: each tuple has a row under the name of every table, and read by paths
instead of names the tuples are the joined rows, one for one.
-/

namespace RelQuery

open Sql

variable {sv : Server} {db : Database} {s : Schema} {p : Prepared}

/-! ### Joins of tuples -/

theorem joinAll_nil (l : List Tuple) : joinAll sv db l [] = l := rfl

theorem joinAll_cons (l : List Tuple) (j : Join) (js : List Join) :
    joinAll sv db l (j :: js) = joinAll sv db (l.flatMap fun t => j.extend sv db t) js := rfl

theorem joinAll_append (l : List Tuple) (js ks : List Join) :
    joinAll sv db l (js ++ ks) = joinAll sv db (joinAll sv db l js) ks := by
  induction js generalizing l with
  | nil => rfl
  | cons j rest ih => rw [List.cons_append, joinAll_cons, joinAll_cons, ih]

theorem joinAll_eq_flatMap (l : List Tuple) (js : List Join) :
    joinAll sv db l js = l.flatMap fun t => joinAll sv db [t] js := by
  induction js generalizing l with
  | nil => simp [joinAll_nil]
  | cons j rest ih =>
    rw [joinAll_cons, ih, List.flatMap_assoc]
    refine List.flatMap_congr fun t _ => ?_
    rw [joinAll_cons, List.flatMap_singleton, ← ih]

theorem column_some (t : Tuple) (table name : String) :
    t.column (some table) name = ((NameMap.get? t table).getD []).at_ name := by
  unfold Tuple.column
  dsimp only
  cases NameMap.get? t table <;> rfl

theorem get?_append_of_ne (t : Tuple) {table label : String} (h : table ≠ label) (r : Record) :
    NameMap.get? (t ++ [(label, r)]) table = NameMap.get? t table := by
  rw [NameMap.get?_append, NameMap.get?_cons, if_neg fun he => h he.symm, NameMap.get?_nil, Option.or_none]

theorem get?_append_self {t : Tuple} {label : String} (h : label ∉ t.map (·.1)) (r : Record) :
    NameMap.get? (t ++ [(label, r)]) label = some r := by
  rw [NameMap.get?_append, NameMap.get?_eq_none_iff.mpr h, NameMap.get?_cons, if_pos rfl, Option.none_or]

/-- Rows as they are in a table, or an empty one if there is none. -/
def orEmpty (rows : List Record) : List Record := if rows.isEmpty then [[]] else rows

/-- A left outer join on equal columns. -/
theorem extend_leftJoin {t : Tuple} {table label source c d : String} (hlabel : label ∉ t.map (·.1))
    (hsource : source ≠ label) :
    (leftJoin table label (.col source c) (.col label d)).extend sv db t =
      (orEmpty ((db.rows table).filter fun r => sv.equal (t.column (some source) c) (r.at_ d))).map
        fun r => t ++ [(label, r)] := by
  have hon : ∀ r : Record, (truth ((Expr.binary .eq (.col source c) (.col label d)).value sv db [t ++ [(label, r)]]) ==
      some true) = sv.equal (t.column (some source) c) (r.at_ d) := by
    intro r
    have hleft : (t ++ [(label, r)]).column (some source) c = t.column (some source) c := by
      rw [column_some, column_some, get?_append_of_ne t hsource]
    have hright : (t ++ [(label, r)]).column (some label) d = r.at_ d := by
      rw [column_some, get?_append_self hlabel]
      rfl
    rw [Server.equal, ← hleft, ← hright]
    simp only [Expr.value, truth_ofTruth, Expr.col, columnOf, List.head?_cons, Option.map_some, Option.getD_some]
  have hentries : (TableRef.aliased table label).entries sv db = (db.rows table).map fun r => (label, r) := rfl
  unfold leftJoin
  rw [Join.extend, hentries]
  rw [List.filter_map, show ((fun entry : String × Record =>
      truth ((Expr.binary .eq (.col source c) (.col label d)).value sv db [t ++ [entry]]) == some true) ∘
        fun r => (label, r)) = fun r => sv.equal (t.column (some source) c) (r.at_ d) from funext hon,
    List.isEmpty_map, List.map_map]
  unfold orEmpty
  split
  · rfl
  · rfl

theorem record_orEmpty (id : EntityId) (value : Value) {d : String}
    (hd : d ∈ (s.entity id).columns.map (·.dbName)) :
    (orEmpty ((db.rows (s.entity id).table).filter fun r => sv.equal value (r.at_ d))).map (s.entity id).record =
      db.linked sv s id value d := by
  have hfilter : (db.of s id).filter (fun r => sv.equal value (r.at_ d)) =
      ((db.rows (s.entity id).table).filter fun r => sv.equal value (r.at_ d)).map (s.entity id).record := by
    rw [Database.of, List.filter_map]
    congr 1
    refine List.filter_congr fun r _ => ?_
    rw [Function.comp_apply, Entity.record_at hd]
  rw [Database.linked, Entity.orNulls, hfilter, List.isEmpty_map]
  unfold orEmpty
  split
  · rfl
  · rfl

/-- The name of the table that a joined path leads to. -/
def Prepared.label (p : Prepared) (r : ResolvedPath) : String := ((p.aliases.get? r.path).map (·.target.text)).getD ""

/-- The joined row that a tuple shows at the root and at the given paths. -/
def Prepared.rowOf (p : Prepared) (paths : List ResolvedPath) (t : Tuple) : Joined := fun path =>
  if path = .root then p.rootEntity.record ((NameMap.get? t p.rootTable).getD [])
  else
    match paths.find? (·.path == path) with
    | some r => (p.schema.entity r.target).record ((NameMap.get? t (p.label r)).getD [])
    | none => []

/-- The names of the tables of the root and of paths. -/
def Prepared.namesOf (p : Prepared) (paths : List ResolvedPath) : List String :=
  p.rootTable :: paths.flatMap fun r => (r.tableNames p.schema p.aliases).map (·.1)

theorem rowOf_root (paths : List ResolvedPath) (t : Tuple) :
    p.rowOf paths t .root = p.rootEntity.record ((NameMap.get? t p.rootTable).getD []) := if_pos rfl

theorem rowOf_of_mem {paths : List ResolvedPath} (hnodup : (paths.map (·.path)).Nodup) {r : ResolvedPath} (hr : r ∈ paths)
    (hne : r.path ≠ .root) (t : Tuple) :
    p.rowOf paths t r.path = (p.schema.entity r.target).record ((NameMap.get? t (p.label r)).getD []) := by
  have hfind : paths.find? (·.path == r.path) = some r := by
    rcases hf : paths.find? (·.path == r.path) with - | u
    · exact absurd (beq_self_eq_true r.path) (List.find?_eq_none.mp hf r hr)
    · have hpath : u.path = r.path := by simpa using List.find?_some hf
      rw [hf, List.inj_on_of_nodup_map hnodup (List.mem_of_find?_eq_some hf) hr hpath]
  unfold Prepared.rowOf
  rw [if_neg hne, hfind]

theorem rowOf_concat {paths : List ResolvedPath} {r : ResolvedPath} (hr : r.path ∉ paths.map (·.path))
    (hne : r.path ≠ .root) (t : Tuple) :
    p.rowOf (paths ++ [r]) t = Function.update (p.rowOf paths t) r.path
      ((p.schema.entity r.target).record ((NameMap.get? t (p.label r)).getD [])) := by
  funext path
  by_cases hpath : path = r.path
  · subst hpath
    have hnone : paths.find? (·.path == r.path) = none := by
      refine List.find?_eq_none.mpr fun u hu he => hr ?_
      rw [← beq_iff_eq.mp he]
      exact List.mem_map_of_mem hu
    have hone : [r].find? (·.path == r.path) = some r := by simp
    rw [Function.update_self, Prepared.rowOf, if_neg hne, List.find?_append, hnone, Option.none_or, hone]
  · have hne' : (r.path == path) = false := beq_eq_false_iff_ne.mpr fun he => hpath he.symm
    rw [Function.update_of_ne hpath]
    unfold Prepared.rowOf
    rw [List.find?_append, List.find?_cons, hne', List.find?_nil, Option.or_none]

theorem get?_append_of_mem {t more : Tuple} {table : String} (h : table ∈ t.map (·.1)) :
    NameMap.get? (t ++ more) table = NameMap.get? t table := by
  obtain ⟨r, hr⟩ := NameMap.exists_get?_of_mem h
  rw [NameMap.get?_append, hr, Option.some_or]

theorem Prepared.Named.label_mem (h : p.Named) {paths : List ResolvedPath} (hsub : paths ⊆ p.bound.resolved)
    {r : ResolvedPath} (hr : r ∈ paths) : p.label r ∈ p.namesOf paths := by
  obtain ⟨a, rel, hop⟩ := h.exists_hop (hsub hr)
  have hlabel : p.label r = a.target.text := by
    rw [Prepared.label, hop.aliases]
    rfl
  rw [hlabel]
  exact List.mem_cons_of_mem _ (List.mem_flatMap.mpr ⟨r, hr, List.mem_map_of_mem hop.target_mem⟩)

/-- What comes after the tables of the paths makes no difference. -/
theorem rowOf_append (h : p.Named) {paths : List ResolvedPath} (hsub : paths ⊆ p.bound.resolved) {t : Tuple}
    (ht : t.map (·.1) = p.namesOf paths) (more : Tuple) : p.rowOf paths (t ++ more) = p.rowOf paths t := by
  have hroot : p.rootTable ∈ t.map (·.1) := ht ▸ List.mem_cons_self ..
  funext path
  unfold Prepared.rowOf
  rw [get?_append_of_mem hroot]
  split
  · rfl
  · split
    · rename_i r hr
      rw [get?_append_of_mem (ht ▸ h.label_mem hsub (List.mem_of_find?_eq_some hr))]
    · rfl

/-- A column at the end of a path is read from the table that the path is named by. -/
theorem column_qualified (h : p.Named) {paths : List ResolvedPath} (hsub : paths ⊆ p.bound.resolved)
    (hnodup : (paths.map (·.path)).Nodup) {path : Path} (hpath : path ≠ .root → ∃ r ∈ paths, r.path = path)
    {column : String} (hcolumn : p.schema.HasColumnAt p.request.root path column) {table : String}
    (htable : p.aliases.qualifier path p.rootTable = .ok table) (t : Tuple) :
    t.column (some table) column = (p.rowOf paths t).value path column := by
  obtain ⟨hops, id, hwalk, hmem⟩ := hcolumn
  rw [column_some, Joined.value]
  by_cases hroot : path = .root
  · subst hroot
    cases hwalk
    cases htable
    rw [rowOf_root]
    exact (Entity.record_at hmem _).symm
  · obtain ⟨r, hr, rfl⟩ := hpath hroot
    obtain ⟨a, rel, hop⟩ := h.exists_hop (hsub hr)
    obtain rfl := (h.bound.joined.resolves r (hsub hr)).target_eq hwalk
    rw [qualifier_of_ne_root hroot hop.aliases] at htable
    cases htable
    rw [rowOf_of_mem hnodup hr hroot, Entity.record_at hmem, Prepared.label, hop.aliases]
    rfl

/-! ### Joining one path -/

theorem namesOf_concat (paths : List ResolvedPath) (r : ResolvedPath) :
    p.namesOf (paths ++ [r]) = p.namesOf paths ++ (r.tableNames p.schema p.aliases).map (·.1) := by
  unfold Prepared.namesOf
  rw [List.flatMap_append, List.flatMap_singleton, List.cons_append]

theorem Prepared.Named.nodup_namesOf (h : p.Named) {paths todo : List ResolvedPath}
    (hsplit : p.bound.resolved = paths ++ todo) : (p.namesOf paths).Nodup := by
  have hnodup := h.nodup_tableNames
  unfold Prepared.tableNames at hnodup
  rw [List.map_cons, List.map_flatMap, hsplit, List.flatMap_append, ← List.cons_append] at hnodup
  exact hnodup.of_append_left

/-- The table that a path goes on from is there, and shows the row at the path before. -/
theorem column_source (h : p.Named) {done todo : List ResolvedPath} {r : ResolvedPath}
    (hsplit : p.bound.resolved = done ++ r :: todo) {a : JoinAlias} {rel : Relation} (hop : p.Hop r a rel)
    {source : String} (hsource : p.aliases.qualifier ⟨r.path.segments.dropLast⟩ p.rootTable = .ok source) :
    source ∈ p.namesOf done ∧ ∀ t : Tuple, ∀ c ∈ (p.schema.entity rel.owner).columns.map (·.dbName),
      t.column (some source) c = (p.rowOf done t r.parent).at_ c := by
  have hsub : done ⊆ p.bound.resolved := hsplit ▸ List.subset_append_left done _
  have hjoined := h.bound.joined
  rw [hsplit] at hjoined
  have hnodup : (done.map (·.path)).Nodup := by
    have hall := hjoined.nodup
    rw [List.map_append] at hall
    exact hall.of_append_left
  have hparent : r.parent ≠ .root → ∃ u ∈ done, u.path = r.parent :=
    fun hne => hjoined.parent_mem fun he => hne (congrArg Path.mk he)
  obtain ⟨before, hwalk⟩ := hop.source
  constructor
  · by_cases hroot : r.parent = .root
    · rw [show (⟨r.path.segments.dropLast⟩ : Path) = .root from hroot] at hsource
      cases hsource
      exact List.mem_cons_self ..
    · obtain ⟨u, hu, hpath⟩ := hparent hroot
      obtain ⟨b, rel', hop'⟩ := h.exists_hop (hsub hu)
      have hlabel := h.label_mem hsub hu
      rw [show (⟨r.path.segments.dropLast⟩ : Path) = u.path from hpath.symm,
        qualifier_of_ne_root (h.bound.joined.ne_root u (hsub hu)) hop'.aliases] at hsource
      cases hsource
      rwa [Prepared.label, hop'.aliases] at hlabel
  · intro t c hc
    exact column_qualified h hsub hnodup hparent ⟨before, rel.owner, hwalk, hc⟩ hsource t

/-- A left outer join that adds the table of a path, read by paths. -/
theorem extend_rows {t : Tuple} {id : EntityId} {label source c d : String} (hlabel : label ∉ t.map (·.1))
    (hsource : source ≠ label) (hd : d ∈ (p.schema.entity id).columns.map (·.dbName)) {shows : Record → Joined}
    {rows : Tuple → Joined}
    (hrows : ∀ r, rows (t ++ [(label, r)]) = shows ((p.schema.entity id).record r)) :
    ((leftJoin (p.schema.entity id).table label (.col source c) (.col label d)).extend sv db t).map rows =
      (db.linked sv p.schema id (t.column (some source) c) d).map shows := by
  rw [extend_leftJoin hlabel hsource, List.map_map, ← record_orEmpty id _ hd, List.map_map]
  exact List.map_congr_left fun r _ => hrows r

theorem map_fst_extend {t : Tuple} {table label source c d : String} (hlabel : label ∉ t.map (·.1))
    (hsource : source ≠ label) :
    ∀ t' ∈ (leftJoin table label (.col source c) (.col label d)).extend sv db t, t'.map (·.1) = t.map (·.1) ++ [label] := by
  intro t' ht'
  rw [extend_leftJoin hlabel hsource] at ht'
  obtain ⟨r, -, rfl⟩ := List.mem_map.mp ht'
  rw [List.map_append]
  rfl

theorem not_mem_of_nodup_append {names : List String} {label : String} (h : (names ++ [label]).Nodup) :
    label ∉ names := fun hold => (List.nodup_append'.mp h).2.2 hold (List.mem_singleton_self _)

theorem not_mem_names_append {t : Tuple} {through label : String} (h : (t.map (·.1) ++ [through, label]).Nodup)
    (m : Record) : label ∉ (t ++ [(through, m)]).map (·.1) := by
  have hnames : (t.map (·.1) ++ [through] ++ [label]).Nodup := by rwa [List.append_assoc]
  have hnew := not_mem_of_nodup_append hnames
  rwa [List.map_append]

/-- One left outer join, read by paths. -/
theorem joinAll_one {t : Tuple} {id : EntityId} {label source c d : String} (hmem : source ∈ t.map (·.1))
    (hfresh : label ∉ t.map (·.1)) (hd : d ∈ (p.schema.entity id).columns.map (·.dbName)) {shows : Record → Joined}
    {rows : Tuple → Joined} (hrows : ∀ r, rows (t ++ [(label, r)]) = shows ((p.schema.entity id).record r)) :
    (joinAll sv db [t] [leftJoin (p.schema.entity id).table label (.col source c) (.col label d)]).map rows =
        (db.linked sv p.schema id (t.column (some source) c) d).map shows ∧
      ∀ t' ∈ joinAll sv db [t] [leftJoin (p.schema.entity id).table label (.col source c) (.col label d)],
        t'.map (·.1) = t.map (·.1) ++ [label] := by
  have hne : source ≠ label := fun he => hfresh (he ▸ hmem)
  rw [joinAll_cons, List.flatMap_singleton, joinAll_nil]
  exact ⟨extend_rows hfresh hne hd hrows, map_fst_extend hfresh hne⟩

/-- Two left outer joins, of a linking table and from there of another, read by paths. -/
theorem joinAll_two {t : Tuple} {middle id : EntityId} {through label source c d c' d' : String}
    (hmem : source ∈ t.map (·.1)) (hnodup : (t.map (·.1) ++ [through, label]).Nodup)
    (hd : d ∈ (p.schema.entity middle).columns.map (·.dbName))
    (hc' : c' ∈ (p.schema.entity middle).columns.map (·.dbName))
    (hd' : d' ∈ (p.schema.entity id).columns.map (·.dbName)) {shows : Record → Joined} {rows : Tuple → Joined}
    (hrows : ∀ m r, rows (t ++ [(through, m)] ++ [(label, r)]) = shows ((p.schema.entity id).record r)) :
    (joinAll sv db [t]
        [leftJoin (p.schema.entity middle).table through (.col source c) (.col through d),
         leftJoin (p.schema.entity id).table label (.col through c') (.col label d')]).map rows =
        ((db.linked sv p.schema middle (t.column (some source) c) d).flatMap fun m =>
          db.linked sv p.schema id (m.at_ c') d').map shows ∧
      ∀ t' ∈ joinAll sv db [t]
          [leftJoin (p.schema.entity middle).table through (.col source c) (.col through d),
           leftJoin (p.schema.entity id).table label (.col through c') (.col label d')],
        t'.map (·.1) = t.map (·.1) ++ [through, label] := by
  obtain ⟨-, hpair, hdisjoint⟩ := List.nodup_append'.mp hnodup
  have hfresh : through ∉ t.map (·.1) := fun hold => hdisjoint hold (List.mem_cons_self ..)
  have hne : source ≠ through := fun he => hfresh (he ▸ hmem)
  have hthrough : through ≠ label := fun he => (List.nodup_cons.mp hpair).1 (List.mem_singleton.mpr he)
  have hfresh' := not_mem_names_append hnodup
  rw [joinAll_cons, List.flatMap_singleton, joinAll_cons, joinAll_nil]
  constructor
  · rw [List.map_flatMap, List.map_flatMap, extend_leftJoin hfresh hne, ← record_orEmpty middle _ hd,
      List.flatMap_map, List.flatMap_map]
    refine List.flatMap_congr fun m _ => ?_
    have hkey : (t ++ [(through, m)]).column (some through) c' = ((p.schema.entity middle).record m).at_ c' := by
      rw [column_some, get?_append_self hfresh, Entity.record_at hc']
      rfl
    rw [← hkey]
    exact extend_rows (hfresh' m) hthrough hd' (hrows m)
  · intro t' ht'
    obtain ⟨t₁, ht₁, ht'⟩ := List.mem_flatMap.mp ht'
    have hnames := map_fst_extend hfresh hne t₁ ht₁
    rw [extend_leftJoin hfresh hne] at ht₁
    obtain ⟨m, -, rfl⟩ := List.mem_map.mp ht₁
    rw [map_fst_extend (hfresh' m) hthrough t' ht', hnames, List.append_assoc]
    rfl

/-- The joins of a relation add the rows that it leads to. -/
theorem joinAll_joins (hs : p.schema.WellFormed) {rel : Relation} (hrel : rel ∈ p.schema.relations) {t : Tuple}
    {owner : Record} {source label : String} {through : Option String} (hthrough : through.isSome = rel.isManyToMany)
    (hmem : source ∈ t.map (·.1)) (hnodup : (t.map (·.1) ++ (rel.tableNames label through).map (·.1)).Nodup)
    (hcolumn : ∀ c ∈ (p.schema.entity rel.owner).columns.map (·.dbName), t.column (some source) c = owner.at_ c)
    {shows : Record → Joined} {rows : Tuple → Joined}
    (hrows : ∀ more r, NameMap.get? (t ++ more) label = some r →
      rows (t ++ more) = shows ((p.schema.entity rel.target).record r)) :
    (joinAll sv db [t] (rel.joins p.schema source label (through.getD label))).map rows =
        (rel.follow sv db p.schema owner).map shows ∧
      ∀ t' ∈ joinAll sv db [t] (rel.joins p.schema source label (through.getD label)),
        t'.map (·.1) = t.map (·.1) ++ (rel.tableNames label through).map (·.1) := by
  have howner := hs.pk_mem (hs.owners rel hrel)
  have hfar := hs.pk_mem (hs.targets rel hrel)
  have hfits := hs.links rel hrel
  unfold Relation.isManyToMany at hthrough
  unfold Relation.tableNames at hnodup ⊢
  unfold Relation.joins Relation.follow
  rcases hlink : rel.link with key | key | ⟨middle, ownerKey, targetKey⟩ <;>
    rw [hlink] at hthrough hfits hnodup <;> dsimp only
  · have hfresh := not_mem_of_nodup_append hnodup
    rw [← hcolumn _ (dbName_mem hfits)]
    exact joinAll_one hmem hfresh hfar fun r => hrows _ r (get?_append_self hfresh r)
  · have hfresh := not_mem_of_nodup_append hnodup
    rw [Entity.key, ← hcolumn _ howner]
    exact joinAll_one hmem hfresh (dbName_mem hfits) fun r => hrows _ r (get?_append_self hfresh r)
  · obtain ⟨name, rfl⟩ := Option.isSome_iff_exists.mp hthrough
    dsimp only [Option.getD_some] at hnodup ⊢
    rw [Entity.key, ← hcolumn _ howner]
    refine joinAll_two hmem hnodup (dbName_mem hfits.1) (dbName_mem hfits.2) hfar fun m r => ?_
    have hfound := get?_append_self (not_mem_names_append hnodup m) r
    rw [List.append_assoc] at hfound ⊢
    exact hrows _ r hfound

/-- The joins of a path add the rows that its relation leads to. -/
theorem joinAll_hop (h : p.Named) {done todo : List ResolvedPath} {r : ResolvedPath}
    (hsplit : p.bound.resolved = done ++ r :: todo) {t : Tuple} (ht : t.map (·.1) = p.namesOf done) {js : List Join}
    (hjs : r.joins p.schema p.aliases p.rootTable = .ok js) :
    (joinAll sv db [t] js).map (p.rowOf (done ++ [r])) =
        ((r.relation p.schema).follow sv db p.schema (p.rowOf done t r.parent)).map
          (Function.update (p.rowOf done t) r.path) ∧
      ∀ t' ∈ joinAll sv db [t] js, t'.map (·.1) = p.namesOf (done ++ [r]) := by
  have hr : r ∈ p.bound.resolved := hsplit ▸ List.mem_append_right _ (List.mem_cons_self ..)
  have hsub : done ⊆ p.bound.resolved := hsplit ▸ List.subset_append_left done _
  obtain ⟨a, rel, hop⟩ := h.exists_hop hr
  obtain ⟨source, hsource, rfl⟩ := joins_of_hop h hr hop hjs
  obtain ⟨hmem, hcolumn⟩ := column_source h hsplit hop hsource
  have hnext : p.bound.resolved = (done ++ [r]) ++ todo := by rw [hsplit, List.append_assoc]; rfl
  have hnames := h.nodup_namesOf hnext
  have hnew : r.path ∉ done.map (·.path) := by
    have hall := h.bound.joined.nodup
    rw [hsplit, List.map_append, List.nodup_append'] at hall
    exact fun hold => hall.2.2 hold (List.mem_cons_self ..)
  have hlabel : p.label r = a.target.text := by
    rw [Prepared.label, hop.aliases]
    rfl
  have hrelation : r.relation p.schema = rel := hop.relation
  rw [namesOf_concat, hop.tableNames_eq] at hnames ⊢
  rw [hrelation]
  rw [← ht] at hnames hmem ⊢
  refine joinAll_joins h.schema hop.mem (Option.isSome_map.trans hop.through) hmem hnames (hcolumn t)
    fun more found hfound => ?_
  rw [rowOf_concat hnew (h.bound.joined.ne_root r hr), hlabel, hfound, rowOf_append h hsub ht, hop.target]
  rfl

theorem joinAll_todo (h : p.Named) {done todo : List ResolvedPath} (hsplit : p.bound.resolved = done ++ todo)
    {jss : List (List Join)}
    (hjss : List.Forall₂ (fun r js => ResolvedPath.joins r p.schema p.aliases p.rootTable = .ok js) todo jss) {t : Tuple}
    (ht : t.map (·.1) = p.namesOf done) :
    (joinAll sv db [t] jss.flatten).map (p.rowOf p.bound.resolved) =
      joinPaths sv db p.schema todo (p.rowOf done t) := by
  induction hjss generalizing done t with
  | nil =>
    rw [List.append_nil] at hsplit
    rw [hsplit]
    rfl
  | @cons r js todo jss hjs _ ih =>
    obtain ⟨hrows, hnames⟩ := @joinAll_hop sv db _ h _ _ _ hsplit _ ht _ hjs
    have hnext : p.bound.resolved = (done ++ [r]) ++ todo := by rw [hsplit, List.append_assoc]; rfl
    calc (joinAll sv db [t] (js ++ jss.flatten)).map (p.rowOf p.bound.resolved)
        = (joinAll sv db [t] js).flatMap fun t' => (joinAll sv db [t'] jss.flatten).map (p.rowOf p.bound.resolved) := by
          rw [joinAll_append, joinAll_eq_flatMap, List.map_flatMap]
      _ = (joinAll sv db [t] js).flatMap fun t' => joinPaths sv db p.schema todo (p.rowOf (done ++ [r]) t') :=
          List.flatMap_congr fun t' ht' => ih hnext (hnames t' ht')
      _ = ((joinAll sv db [t] js).map (p.rowOf (done ++ [r]))).flatMap (joinPaths sv db p.schema todo) := by
          rw [List.flatMap_map]
      _ = joinPaths sv db p.schema (r :: todo) (p.rowOf done t) := by
          rw [hrows, List.flatMap_map, joinPaths]

theorem rowOf_start (r : Record) : p.rowOf [] [(p.rootTable, r)] = .start (p.rootEntity.record r) := by
  funext path
  unfold Prepared.rowOf Joined.start
  split
  · rw [NameMap.get?_cons, if_pos rfl]
    rfl
  · rfl

/-- The joins of a statement, from any rows in place of those of the root table. -/
theorem map_rowOf_joinAll (h : p.Named) {js : List Join} (hjs : p.joins = .ok js) (records : List Record) :
    (joinAll sv db (records.map fun r => [(p.rootTable, r)]) js).map (p.rowOf p.bound.resolved) =
      records.flatMap fun r => joinPaths sv db p.schema p.bound.resolved (.start (p.rootEntity.record r)) := by
  unfold Prepared.joins at hjs
  obtain ⟨jss, hjss, rfl⟩ := map_eq_ok.mp hjs
  rw [joinAll_eq_flatMap, List.map_flatMap, List.flatMap_map]
  refine List.flatMap_congr fun r _ => ?_
  rw [joinAll_todo h (List.nil_append _).symm (mapM_eq_ok.mp hjss) rfl, rowOf_start]

theorem map_rowOf_rootTable (h : p.Named) {js : List Join} (hjs : p.joins = .ok js) :
    (joinAll sv db (tuplesOf sv db (some (.ofTable p.rootTable))) js).map (p.rowOf p.bound.resolved) =
      p.joinedRows sv db := by
  have htuples : tuplesOf sv db (some (.ofTable p.rootTable)) = (db.rows p.rootTable).map fun r => [(p.rootTable, r)] := by
    change ((db.rows p.rootTable).map fun r => (p.rootTable, r)).map (fun entry => [entry]) = _
    rw [List.map_map]
    rfl
  rw [htuples, map_rowOf_joinAll h hjs, Prepared.joinedRows, Database.of, List.flatMap_map]
  rfl

end RelQuery
