import RelQuery.Proofs.Engine.Roots
import RelQuery.Proofs.Prefetch.Asked
import RelQuery.Proofs.Prefetch.Linked

/-!
# What follow-up statements find

For some rows of the owner, the follow-up statement of a relation finds the rows that the relation links to these.
Where the relation goes through a linking table, each row comes with those owners asked for that it is linked to, each
of them once, so a link that is repeated in the table does not repeat the row.
-/

namespace RelQuery

open Sql

variable {sv : Server} {db : Database} {p : Prepared} {rel : Relation} {keys : List Value} {tree : JoinTree}

/-- A prepared request for the rows that a relation links to owners with these keys. -/
structure Prepared.AsksFor (p : Prepared) (rel : Relation) (keys : List Value) : Prop where
  named : p.Named
  linked : p.schema.Linked
  mem : rel ∈ p.schema.relations
  root : p.request.root = rel.target
  asks : rel.Asks p.schema keys p.bound

theorem Prepared.AsksFor.sorted (h : p.AsksFor rel keys) (hdb : db.Sound sv p.schema) :
    (p.rootsInOrder sv db).Pairwise fun a b =>
      (sv.compare ((p.schema.entity rel.target).key a) ((p.schema.entity rel.target).key b)).isLE = true := by
  have hsorted := pairwise_rootsInOrder h.named hdb h.asks.orders
  rwa [Prepared.rootEntity, h.root] at hsorted

theorem Prepared.AsksFor.rootsInOrder_subset (h : p.AsksFor rel keys) :
    p.rootsInOrder sv db ⊆ db.of p.schema rel.target := fun _ ht =>
  h.root ▸ matching_subset h.named ((perm_rootsInOrder p sv db).mem_iff.mp ht)

/-- The statement of a relation without a linking table finds what is linked. -/
theorem finds_of_asks (h : p.AsksFor rel keys) (hdb : db.Sound sv p.schema) {far : Record → Value}
    (hfar : rel.LinksBy sv db p.schema far) (hone : rel.isManyToMany = false) {owners : List Record}
    (howners : owners ⊆ db.of p.schema rel.owner)
    (hkeys : ∀ v, v ∈ keys ↔ v ≠ .null ∧ ∃ r ∈ owners, rel.keyOf p.schema r = v) (ht : p.tree = .ok tree) :
    ∃ rows, rel.Finds sv db p.schema owners rows (p.allInstances sv db tree) := by
  obtain ⟨raw, path, entity, c, hplace, hfilters⟩ := h.asks.filters
  obtain ⟨rfl, hcolumn⟩ := hfar.place hplace
  have hreads : p.ReadsRoot := by
    refine ⟨fun f hf => ?_, fun o ho => ?_⟩
    · rw [hfilters] at hf
      rw [List.mem_singleton.mp hf]
      rfl
    · rw [h.asks.orders] at ho
      cases ho
  have hnothing : ∀ q, q ≠ .root → ((∃ r ∈ p.bound.resolved, r.path = q) ↔ goThrough [] q = true) := by
    intro q hne
    rw [h.asks.joined q hne, hone]
    simp [goThrough]
  have hplain : p.allInstances sv db tree = (p.rootsInOrder sv db).map (p.schema.having rel.target · []) := by
    rw [allInstances_eq_loaded h.named hdb h.linked hreads (h.asks.whole hone) hnothing ht, h.root]
    exact List.map_congr_left fun t _ => loaded_of_end (fun _ => rfl) ..
  refine ⟨p.rootsInOrder sv db, ?_⟩
  rw [hplain]
  refine finds_of_linksBy h.named.schema hdb h.mem hfar hone howners (distinct_nodup _) (h.sorted hdb) hkeys fun t => ?_
  rw [(perm_rootsInOrder p sv db).mem_iff, mem_matching_of_readsRoot h.named hreads, h.root, hfilters,
    List.forall_mem_singleton, isIn_keeps]
  refine and_congr_right fun _ => ?_
  rw [show (Joined.start t).value .root c.dbName = t.at_ c.dbName from rfl, hcolumn]

/-- Without the owners that it is shown with, an instance is as if nothing had been shown with it. -/
theorem withoutOwners_having {s : Schema} (hlinked : s.Linked) (hrel : rel ∈ s.relations)
    (hmany : rel.isManyToMany = true) (t : Record) {shown : List (String × Related)}
    (hshown : ∀ name ∈ shown.map (·.1), name = s.mirrorName rel) :
    rel.withoutOwners s (s.having rel.target t shown) = s.having rel.target t [] := by
  obtain ⟨hfound, hmirror, hmem⟩ := hlinked.find_mirror hrel
  rw [Relation.withoutOwners, if_pos hmany]
  have hordered : NameMap.Ordered (s.having rel.target t shown).relations := NameMap.ordered_ofFirst _
  refine Instance.ext_related (hordered.drop _) (NameMap.ordered_ofFirst _) rfl rfl fun name => ?_
  rw [Instance.related?, Instance.dropRelated, NameMap.get?_drop hordered]
  by_cases hname : name = s.mirrorName rel
  · obtain ⟨-, -, hnamed⟩ := relation_of_findRelation? hfound
    have hnone := related?_having_of_manyToMany hlinked hmem ((isManyToMany_mirror hmirror).trans hmany) t
    rw [hmirror.owner, hnamed] at hnone
    rw [if_pos hname, hname, hnone]
  · rw [if_neg hname]
    change (s.having rel.target t shown).related? name = _
    rw [related?_having, NameMap.get?_eq_none_iff.mpr fun hmem => hname (hshown name hmem), Option.none_or]

/-- The joined rows of a root row, in the order of the statement. -/
def Prepared.sortedRowsAt (p : Prepared) (sv : Server) (db : Database) (root : Record) : List Joined :=
  (p.sortRows sv (p.keptRows sv db)).filter fun row => row .root = root

/-- The owners that a row of the target is shown with. -/
def Prepared.shownOwners (p : Prepared) (sv : Server) (db : Database) (rel : Relation) (t : Record) : List Record :=
  (distinct ((p.sortedRowsAt sv db t).map (· ⟨[p.schema.mirrorName rel]⟩))).filter
    fun owner => !((p.schema.entity rel.owner).key owner).isNull

theorem mem_sortedRowsAt {root : Record} {row : Joined} :
    row ∈ p.sortedRowsAt sv db root ↔ row ∈ p.keptRows sv db ∧ row .root = root := by
  rw [Prepared.sortedRowsAt, List.mem_filter, mem_sortRows, decide_eq_true_iff]

namespace Prepared.AsksFor

theorem exists_owners (h : p.AsksFor rel keys) (hmany : rel.isManyToMany = true) :
    ∃ t ∈ p.bound.resolved, t.path = ⟨[p.schema.mirrorName rel]⟩ :=
  (h.asks.joined _ (by simp [Path.root])).mpr ⟨hmany, rfl⟩

theorem joined_owners (h : p.AsksFor rel keys) {t : ResolvedPath} (ht : t ∈ p.bound.resolved) :
    t.path = ⟨[p.schema.mirrorName rel]⟩ ∧ t.relation p.schema = p.schema.relation rel.mirror ∧
      t.parent = .root ∧ t.target = rel.owner := by
  obtain ⟨hfound, hmirror, -⟩ := h.linked.find_mirror h.mem
  have hpath := ((h.asks.joined t.path (h.named.bound.joined.ne_root t ht)).mp ⟨t, ht, rfl⟩).2
  have hsegments : t.path.segments = [] ++ [p.schema.mirrorName rel] := congrArg Path.segments hpath
  obtain ⟨_, _, id, hbefore, hfind, hlast, htarget⟩ := (h.named.bound.joined.resolves t ht).lastHop hsegments
  cases hbefore
  rw [h.root, hfound] at hfind
  cases hfind
  refine ⟨hpath, ?_, ?_, htarget.trans hmirror.target⟩
  · rw [ResolvedPath.relation, hlast]
    rfl
  · rw [ResolvedPath.parent, hpath]
    rfl

/-- The filter keeps the rows that show an owner with one of the keys. -/
theorem keeps_iff (h : p.AsksFor rel keys) (hmany : rel.isManyToMany = true) {row : Joined} :
    p.keeps sv db row = true ↔ ∃ key ∈ keys,
      sv.equal ((p.schema.entity rel.owner).key (row ⟨[p.schema.mirrorName rel]⟩)) key = true := by
  obtain ⟨raw, path, entity, c, ⟨-, hplace⟩, hfilters⟩ := h.asks.filters
  obtain ⟨rfl, rfl⟩ : path = ⟨[p.schema.mirrorName rel]⟩ ∧ c = (p.schema.entity rel.owner).pkColumn := by
    obtain ⟨through, ownerKey, targetKey, hlink⟩ := link_of_isManyToMany hmany
    rw [hlink] at hplace
    exact ⟨hplace.1, hplace.2.2⟩
  rw [Prepared.keeps, hfilters, List.all_cons, List.all_nil, Bool.and_true, isIn_keeps]
  rfl

/-- A row of the target together with an owner, and nothing else. -/
theorem mem_joinPaths_owner (h : p.AsksFor rel keys) (hmany : rel.isManyToMany = true) (hdb : db.Sound sv p.schema)
    {t owner : Record} (hof : owner ∈ db.of p.schema rel.owner) (hlinks : rel.Links sv db p.schema owner t) :
    Function.update (Joined.start t) ⟨[p.schema.mirrorName rel]⟩ owner ∈
      joinPaths sv db p.schema p.bound.resolved (.start t) := by
  obtain ⟨-, hmirror, hmem⟩ := h.linked.find_mirror h.mem
  obtain ⟨hfollowed, -⟩ := (mem_follow_iff h.named.schema hdb hmem).mpr ((hmirror.links_iff hof hlinks.1).mpr hlinks)
  obtain ⟨joined, hjoined, hjoinedPath⟩ := h.exists_owners hmany
  refine (mem_joinPaths_iff h.named.bound.joined.parentsFirst).mpr ⟨fun r hr => ?_, fun q hq => ?_⟩
  · obtain ⟨hpath, hrelation, hparent, -⟩ := h.joined_owners hr
    rw [hpath, hrelation, hparent, Function.update_self, Function.update_of_ne (by simp [Path.root])]
    exact hfollowed
  · refine Function.update_of_ne ?_ ..
    rintro rfl
    exact hq (hjoinedPath ▸ List.mem_map_of_mem hjoined)

/-- A row of the target is shown with the owners with one of the keys that are linked to it. -/
theorem mem_shownOwners (h : p.AsksFor rel keys) (hmany : rel.isManyToMany = true) (hdb : db.Sound sv p.schema)
    {t owner : Record} :
    owner ∈ p.shownOwners sv db rel t ↔
      owner ∈ db.of p.schema rel.owner ∧ rel.Links sv db p.schema owner t ∧
        ∃ key ∈ keys, sv.equal ((p.schema.entity rel.owner).key owner) key = true := by
  obtain ⟨-, hmirror, hmem⟩ := h.linked.find_mirror h.mem
  rw [shownOwners, List.mem_filter, mem_distinct, List.mem_map, Bool.not_eq_true', ← Bool.not_eq_true,
    Value.isNull_eq_true]
  constructor
  · rintro ⟨⟨row, hrow, rfl⟩, hne⟩
    obtain ⟨hkept, rfl⟩ := mem_sortedRowsAt.mp hrow
    obtain ⟨hjoinedRow, hkeeps⟩ := List.mem_filter.mp hkept
    obtain ⟨hof, hstart⟩ := (mem_joinedRows_at h.named).mp ⟨hjoinedRow, rfl⟩
    obtain ⟨joined, hjoined, hjoinedPath⟩ := h.exists_owners hmany
    obtain ⟨-, hrelation, hparent, -⟩ := h.joined_owners hjoined
    have hfollowed := ((mem_joinPaths_iff h.named.bound.joined.parentsFirst).mp hstart).1 joined hjoined
    rw [hrelation, hparent, hjoinedPath] at hfollowed
    have hback := (mem_follow_iff h.named.schema hdb hmem).mp ⟨hfollowed, by rwa [hmirror.target]⟩
    have howner := hback.1
    rw [hmirror.target] at howner
    rw [h.root] at hof
    exact ⟨howner, (hmirror.links_iff howner hof).mp hback, (h.keeps_iff hmany).mp hkeeps⟩
  · rintro ⟨hof, hlinks, hkey⟩
    have hstart := h.mem_joinPaths_owner hmany hdb hof hlinks
    generalize hrow : Function.update (Joined.start t) ⟨[p.schema.mirrorName rel]⟩ owner = row at hstart
    have howner : row ⟨[p.schema.mirrorName rel]⟩ = owner := hrow ▸ Function.update_self ..
    obtain ⟨hjoinedRow, hroot⟩ := (mem_joinedRows_at h.named).mpr ⟨h.root ▸ hlinks.1, hstart⟩
    have hkept : row ∈ p.keptRows sv db := List.mem_filter.mpr ⟨hjoinedRow, (h.keeps_iff hmany).mpr (howner ▸ hkey)⟩
    exact ⟨⟨row, mem_sortedRowsAt.mpr ⟨hkept, hroot⟩, howner⟩, hdb.keyed _ (h.named.schema.owners rel h.mem) owner hof⟩

/-- Below the rows of the target nothing is shown but the owners. -/
theorem name_of_tree (h : p.AsksFor rel keys) (ht : p.tree = .ok tree) :
    ∀ node ∈ tree.children, node.name = p.schema.mirrorName rel := by
  obtain ⟨nodes, hnodes, rfl⟩ := map_eq_ok.mp ht
  intro node hnode
  obtain ⟨_, _, r, hr, rfl⟩ := exists_step_of_nodesBelow hnodes hnode
  have hsegments : r.path.segments = [] ++ [p.schema.mirrorName rel] := congrArg Path.segments (h.joined_owners hr).1
  exact name_of_resolves (h.named.bound.joined.resolves r hr) hsegments

/-- The node of the owners, which shows all owners that have keys. -/
theorem exists_node_owners (h : p.AsksFor rel keys) (hmany : rel.isManyToMany = true) (ht : p.tree = .ok tree) :
    ∃ node ∈ tree.children, node.name = p.schema.mirrorName rel ∧ node.path = ⟨[p.schema.mirrorName rel]⟩ ∧
      node.target = rel.owner ∧ node.toMany = true ∧
      node.columns.any (·.field == (p.schema.entity rel.owner).pk) = true := by
  obtain ⟨hfound, hmirror, hmem⟩ := h.linked.find_mirror h.mem
  obtain ⟨joined, hjoined, hjoinedPath⟩ := h.exists_owners hmany
  obtain ⟨-, hrelation, -, htarget⟩ := h.joined_owners hjoined
  have hplanned : p.source.tree p.request.root = .ok tree := ht
  obtain ⟨node, hnode, hname, hpath, hnodeTarget, htoMany, table, hcolumns⟩ :=
    exists_child_of_tree h.named.bound.joined hplanned hjoined hjoinedPath (h.asks.kept _)
  refine ⟨node, hnode, hname, hpath.trans hjoinedPath, hnodeTarget.trans htarget, ?_, ?_⟩
  · rw [htoMany, show joined.relation p.source.schema = _ from hrelation, Relation.isToMany,
      isForeignKey_of_manyToMany ((isManyToMany_mirror hmirror).trans hmany)]
    rfl
  · have hwalk : p.schema.walk rel.target joined.path.segments = .ok ([rel.mirror], rel.owner) := by
      rw [hjoinedPath]
      exact walk_cons.mpr ⟨rel.mirror, [], hfound, by rw [hmirror.target]; rfl, rfl⟩
    rw [hcolumns, htarget]
    exact any_field_of_hasField (h.named.schema.hasField_pk (h.named.schema.owners rel h.mem))
      (h.asks.keysMarked.at_ hwalk).isIncluded (some table)

/-- A row of the target is linked by the keys of the owners that it is shown with. -/
theorem childKeys_eq (h : p.AsksFor rel keys) (hmany : rel.isManyToMany = true) (ht : p.tree = .ok tree) (t : Record) :
    rel.childKeys p.schema (p.schema.having rel.target t
        (nodesGather p.schema tree.children (p.sortedRowsAt sv db t))) =
      (p.shownOwners sv db rel t).map (p.schema.entity rel.owner).key := by
  obtain ⟨node, hnode, hname, hpath, htarget, htoMany, hselected⟩ := h.exists_node_owners hmany ht
  obtain ⟨nodes, hnodes, rfl⟩ := map_eq_ok.mp ht
  have hpk := h.named.schema.hasField_pk (h.named.schema.owners rel h.mem)
  have hshows : (p.schema.entity node.target).shows node.columns =
      fun owner => !((p.schema.entity rel.owner).key owner).isNull := funext fun owner => by
    rw [Entity.shows, htarget, hselected, Bool.true_and]
  have hrelated : (p.schema.having rel.target t
      (nodesGather p.schema nodes (p.sortedRowsAt sv db t))).related? (p.schema.mirrorName rel) =
        some (.many (node.gather p.schema (p.sortedRowsAt sv db t))) := by
    rw [related?_having, ← hname, get?_nodesGather (h.named.nodup_names hnodes) hnode, htoMany]
    rfl
  have hkeys : rel.childKeys p.schema (p.schema.having rel.target t
      (nodesGather p.schema nodes (p.sortedRowsAt sv db t))) =
        (node.gather p.schema (p.sortedRowsAt sv db t)).map (·.pk p.schema) := by
    obtain ⟨through, ownerKey, targetKey, hlink⟩ := link_of_isManyToMany hmany
    rw [Relation.childKeys, hlink]
    dsimp only
    rw [hrelated]
    rfl
  rw [hkeys, JoinNode.gather_eq, hshows, hpath, List.map_map]
  refine List.map_congr_left fun owner _ => ?_
  rw [htarget]
  exact pk_instanceOf hpk hselected owner

end Prepared.AsksFor

theorem keyOf_of_manyToMany {s : Schema} (hmany : rel.isManyToMany = true) (r : Record) :
    rel.keyOf s r = (s.entity rel.owner).key r := by
  obtain ⟨through, ownerKey, targetKey, hlink⟩ := link_of_isManyToMany hmany
  rw [Relation.keyOf, hlink]

/-- The statement of a relation that a linking table links finds what is linked. -/
theorem finds_of_owners (h : p.AsksFor rel keys) (hdb : db.Sound sv p.schema) (hmany : rel.isManyToMany = true)
    {owners : List Record} (howners : owners ⊆ db.of p.schema rel.owner)
    (hkeys : ∀ v, v ∈ keys ↔ v ≠ .null ∧ ∃ r ∈ owners, rel.keyOf p.schema r = v) (ht : p.tree = .ok tree) :
    ∃ rows, rel.Finds sv db p.schema owners rows (p.allInstances sv db tree) := by
  have hid := h.named.schema.owners rel h.mem
  have hall : p.allInstances sv db tree = (p.rootsInOrder sv db).map fun t => p.schema.having rel.target t
      (nodesGather p.schema tree.children (p.sortedRowsAt sv db t)) := by
    rw [allInstances_eq_gather h.named hdb h.asks.included ht, h.root]
    rfl
  refine ⟨p.rootsInOrder sv db, ?_⟩
  rw [hall]
  refine finds_of_keys h.named.schema hdb h.mem h.rootsInOrder_subset (distinct_nodup _) (h.sorted hdb) (fun t => ?_)
    (fun t _ => ?_) fun r hr t => ?_
  · refine withoutOwners_having h.linked h.mem hmany t fun name hname => ?_
    rw [nodesGather_eq_map, List.map_map] at hname
    obtain ⟨node, hnode, rfl⟩ := List.mem_map.mp hname
    exact h.name_of_tree ht node hnode
  · rw [h.childKeys_eq hmany ht]
    refine List.Nodup.map_on (fun a ha b hb he => ?_) ((distinct_nodup _).filter _)
    exact eq_of_key_eq hdb.keys hid ((h.mem_shownOwners hmany hdb).mp ha).1 ((h.mem_shownOwners hmany hdb).mp hb).1 he
  · rw [h.childKeys_eq hmany ht, keyOf_of_manyToMany hmany]
    have hof := howners hr
    have hne : (p.schema.entity rel.owner).key r ≠ .null := hdb.keyed _ hid r hof
    constructor
    · intro hlinks
      have hkey : (p.schema.entity rel.owner).key r ∈ keys := (hkeys _).mpr ⟨hne, r, hr, keyOf_of_manyToMany hmany r⟩
      have hequal : sv.equal ((p.schema.entity rel.owner).key r) ((p.schema.entity rel.owner).key r) = true :=
        Server.equal_iff.mpr ⟨hne, hne, Std.ReflCmp.compare_self⟩
      have hshown := (h.mem_shownOwners hmany hdb).mpr ⟨hof, hlinks, _, hkey, hequal⟩
      refine ⟨?_, List.mem_map_of_mem hshown⟩
      obtain ⟨row, hrow, -⟩ := List.mem_map.mp (mem_distinct.mp (List.mem_filter.mp hshown).1)
      obtain ⟨hrow, hroot⟩ := List.mem_filter.mp hrow
      exact mem_distinct.mpr (List.mem_map.mpr ⟨row, hrow, of_decide_eq_true hroot⟩)
    · rintro ⟨-, hmem⟩
      obtain ⟨owner, hshown, hkey⟩ := List.mem_map.mp hmem
      obtain ⟨hof', hlinks, -⟩ := (h.mem_shownOwners hmany hdb).mp hshown
      rwa [eq_of_key_eq hdb.keys hid hof' hof hkey] at hlinks

/-- What lookups by key take for granted. Of the schema: names can be written into lookups, and foreign keys do not go
by the general name of primary keys. Of the database: it is sound, and foreign keys are equal to primary keys only when
they are the same. -/
structure Sql.Database.Serves (db : Database) (sv : Server) (s : Schema) : Prop where
  schema : s.WellFormed
  linked : s.Linked
  names : s.WritesNames
  keysNamed : s.KeysNamed
  sound : db.Sound sv s
  agree : db.KeysAgree sv s

/-- The statement for the rows that a relation links to some rows of its owner finds these. -/
theorem gives_fetch_finds {s : Schema} {settings : Settings} (hdb : db.Serves sv s) (hrel : rel ∈ s.relations)
    {projection : Projection} (hwhole : projection.OnlyRequires) (childPaths : List Path) {owners : List Record}
    (howners : owners ⊆ db.of s rel.owner) :
    ((db.recorder sv s settings).fetch (childRequest s rel projection [] childPaths
      (rel.parentKeys s (owners.map (s.having rel.owner · []))))).Gives
      fun found => ∃ rows, rel.Finds sv db s owners rows found.1 := by
  have hkeys : ∀ v, v ∈ rel.parentKeys s (owners.map (s.having rel.owner · [])) ↔
      v ≠ .null ∧ ∃ r ∈ owners, rel.keyOf s r = v := fun v => mem_parentKeys hdb.schema hrel
  generalize rel.parentKeys s (owners.map (s.having rel.owner · [])) = keys at hkeys
  obtain ⟨b, hbind, hasks⟩ := bind_childRequest hdb.schema hdb.linked hdb.names hrel hwhole childPaths keys
  obtain ⟨hroot, -, -, -⟩ := childRequest_spec s rel projection [] childPaths keys
  obtain ⟨-, hlimit, hoffset, -⟩ := shape_childRequest s rel projection [] childPaths keys
  refine (gives_fetch_child hdb.schema hdb.names hdb.sound hrel hwhole hbind hasks).mono ?_
  rintro ⟨found, planned⟩ ⟨aliases, hnamed, htree, -, hfound⟩
  rw [hlimit, hoffset, bounded_none] at hfound
  dsimp only at hfound htree
  rw [hfound]
  have h : (⟨s, childRequest s rel projection [] childPaths keys, b, aliases⟩ : Prepared).AsksFor rel keys :=
    ⟨hnamed, hdb.linked, hrel, hroot, hasks⟩
  cases hmany : rel.isManyToMany with
  | true => exact finds_of_owners h hdb.sound hmany howners hkeys htree
  | false =>
    obtain ⟨far, hfar⟩ := exists_linksBy hdb.schema hdb.linked hdb.keysNamed hdb.sound hdb.agree hrel hmany
    exact finds_of_asks h hdb.sound hfar hmany howners hkeys htree

end RelQuery
