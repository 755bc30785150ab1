import RelQuery.Proofs.Prefetch.Found
import RelQuery.Proofs.Prefetch.Load

/-!
# Loading by follow-up statements

Each node of a plan is loaded for the rows above it, and then the nodes below it for the rows found. Attached to the
instances of the rows, what is loaded is what loading along the paths of the plan means, if the nodes cover the paths,
nothing is joined, all fields are selected and no orderings are left to the nodes.
-/

namespace RelQuery

open Sql

variable {sv : Server} {db : Database} {s : Schema} {rel : Relation} {settings : Settings}

mutual

theorem grows_loadNode : ∀ (node : PrefetchNode) (parents : List Instance),
    (loadNode (db.recorder sv s settings) parents node).Grows
  | ⟨path, name, relation, isJoined, projection, orderBy, children⟩, parents => by
    cases isJoined with
    | true =>
      rw [loadNode_of_joined rfl]
      exact (grows_loadNodes children _).bind fun _ => .pure _
    | false =>
      by_cases hkeys : (s.relation relation).parentKeys s parents = []
      · rw [loadNode_of_unasked rfl hkeys]
        exact .pure _
      · rw [loadNode_of_asked rfl rfl hkeys]
        refine (Run.Grows.fetch _).bind ?_
        rintro ⟨instances, planned⟩
        dsimp only
        split
        · exact .pure _
        · exact (grows_loadNodes children _).bind fun _ => .pure _
termination_by structural node => node

theorem grows_loadNodes : ∀ (nodes : List PrefetchNode) (parents : List Instance),
    (loadNodes (db.recorder sv s settings) parents nodes).Grows
  | [], _ => .pure _
  | node :: rest, parents => by
    rw [loadNodes_cons]
    exact (grows_loadNode node parents).bind fun _ => (grows_loadNodes rest parents).bind fun _ => .pure _
termination_by structural nodes => nodes

end

theorem grows_prefetch (plan : PrefetchPlan) (roots : List Instance) :
    (prefetch (db.recorder sv s settings) plan roots).Grows := by
  unfold prefetch
  split
  · exact .pure _
  · exact (grows_loadNodes plan roots).bind fun _ => .pure _

/-- Attached to the instance of one of the rows, the loaded node sets the relation of its name. -/
def LoadedNode.Sets (s : Schema) (id : EntityId) (rows : List Record) (name : String) (related : Record → Related)
    (loaded : LoadedNode) : Prop :=
  ∀ r ∈ rows, ∀ joined, loaded.attach s (s.having id r joined) = s.having id r ((name, related r) :: joined)

theorem setRelated_having (id : EntityId) (r : Record) (joined : List (String × Related)) (name : String)
    (related : Related) : (s.having id r joined).setRelated name related = s.having id r ((name, related) :: joined) :=
  rfl

/-- Instances linked by keys, with what is loaded below them. -/
theorem sets_fetched (hs : s.WellFormed) (hrel : rel ∈ s.relations) {owners : List Record} {name : String}
    {linked : List (Value × Instance)} {below : List LoadedNode} {result : Record → Instance}
    (hlinked : ∀ r ∈ owners, (linked.filter (·.1 = rel.keyOf s r)).map (·.2) =
      (rel.rowsOf sv db s r).map (s.having rel.target · []))
    (hbelow : ∀ r ∈ owners, ∀ t ∈ rel.rowsOf sv db s r, attachAll s (s.having rel.target t []) below = result t) :
    (LoadedNode.fetched name rel linked below).Sets s rel.owner owners name
      fun r => Related.of rel.isToMany ((rel.rowsOf sv db s r).map result) := by
  intro r hr joined
  have hmatched : (linked.filter (·.1 = rel.keyOf s r)).map (fun link => attachAll s link.2 below) =
      (rel.rowsOf sv db s r).map result := by
    have hparts := congrArg (List.map fun i => attachAll s i below) (hlinked r hr)
    rw [List.map_map, List.map_map] at hparts
    exact hparts.trans (List.map_congr_left fun t ht => hbelow r hr t ht)
  rw [LoadedNode.attach, ownerKey_having hs hrel]
  dsimp only
  rw [hmatched, setRelated_having]
  unfold Related.of Relation.isToMany
  cases rel.isForeignKey <;> rfl

theorem sets_nothing (hs : s.WellFormed) (hrel : rel ∈ s.relations) {owners : List Record} (name : String)
    (result : Record → Instance) (hnone : ∀ r ∈ owners, rel.rowsOf sv db s r = []) :
    (LoadedNode.fetched name rel [] []).Sets s rel.owner owners name
      fun r => Related.of rel.isToMany ((rel.rowsOf sv db s r).map result) := by
  refine sets_fetched hs hrel (fun r hr => ?_) fun r hr t ht => ?_
  · rw [hnone r hr]
    rfl
  · rw [hnone r hr] at ht
    cases ht

/-- Loading a node that nothing joins, given what loading the nodes below it gives. -/
theorem gives_loadNode (hdb : db.Serves sv s) {node : PrefetchNode} (hrel : s.relation node.relation ∈ s.relations)
    (hunjoined : node.isJoined = false) (hwhole : node.projection.OnlyRequires) (horders : node.orderBy = [])
    {owners : List Record} (howners : owners ⊆ db.of s (s.relation node.relation).owner) {result : Record → Instance}
    (hbelow : ∀ rows ⊆ db.of s (s.relation node.relation).target,
      (loadNodes (db.recorder sv s settings) (rows.map (s.having (s.relation node.relation).target · []))
        node.children).Gives
          fun below => ∀ t ∈ rows, attachAll s (s.having (s.relation node.relation).target t []) below = result t) :
    (loadNode (db.recorder sv s settings) (owners.map (s.having (s.relation node.relation).owner · [])) node).Gives
      fun loaded => loaded.Sets s (s.relation node.relation).owner owners node.name fun r =>
        Related.of (s.relation node.relation).isToMany (((s.relation node.relation).rowsOf sv db s r).map result) := by
  by_cases hkeys : (s.relation node.relation).parentKeys s (owners.map (s.having (s.relation node.relation).owner · [])) = []
  · rw [loadNode_of_unasked hunjoined hkeys]
    refine .pure (sets_nothing hdb.schema hrel node.name result ?_)
    exact rowsOf_of_parentKeys_eq_nil hdb.schema hdb.sound hrel howners hkeys
  · rw [loadNode_of_asked hunjoined rfl hkeys, PrefetchNode.request, horders]
    refine (gives_fetch_finds hdb hrel hwhole _ howners).bind ?_ ?_
    · intro fetched
      split
      · exact .pure _
      · exact (grows_loadNodes node.children _).bind fun _ => .pure _
    · rintro ⟨instances, planned⟩ ⟨rows, hfinds⟩
      dsimp only at hfinds ⊢
      split
      · rename_i hempty
        refine .pure (sets_nothing hdb.schema hrel node.name result fun r hr => ?_)
        have hrows : rows = [] := by
          have hmap := hfinds.found_eq
          rw [List.isEmpty_iff.mp hempty] at hmap
          exact List.map_eq_nil_iff.mp hmap.symm
        exact List.eq_nil_of_subset_nil (hrows ▸ hfinds.linked_mem r hr)
      · have hload := hbelow rows hfinds.rows_of
        rw [← hfinds.found_eq] at hload
        refine Run.Gives.bind hload (fun _ => .pure _) fun below hset => .pure ?_
        refine sets_fetched hdb.schema hrel hfinds.linked_eq fun r hr t ht => hset t (hfinds.linked_mem r hr ht)

/-- Nodes that are loaded one after the other set their relations one after the other. -/
theorem gives_loadNodes_each {id : EntityId} {owners : List Record} {related : PrefetchNode → Record → Related}
    {nodes : List PrefetchNode}
    (h : ∀ node ∈ nodes, (loadNode (db.recorder sv s settings) (owners.map (s.having id · [])) node).Gives
      fun loaded => loaded.Sets s id owners node.name (related node)) :
    (loadNodes (db.recorder sv s settings) (owners.map (s.having id · [])) nodes).Gives fun loaded =>
      ∀ r ∈ owners, ∀ joined, attachAll s (s.having id r joined) loaded =
        s.having id r ((nodes.map fun node => (node.name, related node r)).reverse ++ joined) := by
  induction nodes with
  | nil => exact .pure fun r _ joined => rfl
  | cons node rest ih =>
    obtain ⟨hnode, hrest⟩ := List.forall_mem_cons.mp h
    rw [loadNodes_cons]
    refine hnode.bind (fun _ => (grows_loadNodes rest _).bind fun _ => .pure _) fun first hfirst => ?_
    refine (ih hrest).bind (fun _ => .pure _) fun more hmore => .pure fun r hr joined => ?_
    rw [attachAll, hfirst r hr, hmore r hr, List.map_cons, List.reverse_cons, List.append_assoc]
    rfl

variable {tree : JoinTree} {projection : Projection} {paths : List Path}

/-- What loading along paths gives the row of an owner under the name of a node below it. -/
def PrefetchNode.loads (s : Schema) (sv : Server) (db : Database) (paths : List Path) (levels : Nat)
    (node : PrefetchNode) (r : Record) : Related :=
  Related.of (s.relation node.relation).isToMany (((s.relation node.relation).rowsOf sv db s r).map
    (s.loaded sv db paths levels node.path (s.relation node.relation).target))

/-- Nodes that cover the paths load just the relations that the paths go on by. -/
theorem NodesCover.get?_loads (hlinked : s.Linked) {parent : Path} {id : EntityId} {nodes : List PrefetchNode}
    (hcover : NodesCover s tree projection paths parent id nodes) (levels : Nat) (r : Record) (name : String) :
    NameMap.get? (nodes.map fun node => (node.name, node.loads s sv db paths levels r)).reverse name =
      NameMap.get? (s.loadedRelations sv db paths levels parent id r) name := by
  by_cases hname : name ∈ nodes.map (·.name)
  · obtain ⟨node, hnode, rfl⟩ := List.mem_map.mp hname
    have hfollows := (hcover.below node hnode).follows
    obtain ⟨hrel, rfl, hnamed⟩ := relation_of_findRelation? hfollows.found
    have hthrough := (hcover.complete node.name).mp hname
    rw [← hnamed] at hthrough
    rw [← hnamed, get?_loadedRelations hlinked hrel hthrough levels r, hnamed, ← hfollows.path]
    refine NameMap.get?_of_mem ?_ (List.mem_reverse.mpr (List.mem_map.mpr ⟨node, hnode, rfl⟩))
    rw [List.map_reverse, List.map_map, List.nodup_reverse]
    exact hcover.names
  · have hnot : goThrough paths (parent.child name) = false :=
      Bool.eq_false_iff.mpr fun hthrough => hname ((hcover.complete name).mpr hthrough)
    rw [get?_loadedRelations_of_not hnot, NameMap.get?_eq_none_iff, List.map_reverse, List.mem_reverse, List.map_map]
    exact hname

theorem NodesCover.eq_nil {parent : Path} {id : EntityId} {nodes : List PrefetchNode}
    (hcover : NodesCover s tree projection paths parent id nodes) (hend : ∀ path ∈ paths, path.length ≤ parent.length) :
    nodes = [] := by
  refine List.eq_nil_iff_forall_not_mem.mpr fun node hnode => ?_
  obtain ⟨path, hpath, hpre⟩ := goThrough_iff.mp ((hcover.complete node.name).mp (List.mem_map_of_mem hnode))
  have hlong : (parent.child node.name).length ≤ path.length := hpre.length_le
  rw [Path.length_child] at hlong
  have hshort := hend path hpath
  omega

/-- Below nodes that cover the paths, loading and attaching gives what loading along the paths means. -/
theorem gives_loadNodes (hdb : db.Serves sv s) (hunjoined : ∀ path : Path, path ≠ .root → tree.contains path = false)
    (hwhole : projection.OnlyRequires) {levels : Nat} {parent : Path} {id : EntityId} {nodes : List PrefetchNode}
    (hcover : NodesCover s tree projection paths parent id nodes)
    (horders : ∀ node ∈ nodesListed nodes, node.orderBy = [])
    (hlevels : ∀ path ∈ paths, path.length ≤ parent.length + levels) {rows : List Record}
    (hrows : rows ⊆ db.of s id) :
    (loadNodes (db.recorder sv s settings) (rows.map (s.having id · [])) nodes).Gives fun loaded =>
      ∀ r ∈ rows, attachAll s (s.having id r []) loaded = s.loaded sv db paths levels parent id r := by
  -- the induction is on how far paths go on, since the nodes below a node are loaded for other rows
  induction levels generalizing parent id nodes rows with
  | zero =>
    obtain rfl := hcover.eq_nil hlevels
    exact .pure fun r _ => rfl
  | succ levels ih =>
    have heach : ∀ node ∈ nodes, (loadNode (db.recorder sv s settings) (rows.map (s.having id · [])) node).Gives
        fun loaded => loaded.Sets s id rows node.name (node.loads s sv db paths levels) := by
      intro node hnode
      have hcovers := hcover.below node hnode
      obtain ⟨hpath, hfound, hjoined, hshows⟩ := hcovers.follows
      obtain ⟨hrel, rfl, -⟩ := relation_of_findRelation? hfound
      have hne : node.path ≠ .root := hpath ▸ Path.child_ne_root _ _
      have hlisted := mem_nodesListed.mpr ⟨node, hnode, PrefetchNode.mem_listed.mpr (.inl rfl)⟩
      refine gives_loadNode hdb hrel (hjoined.trans (hunjoined _ hne)) (hshows ▸ hwhole.at_ _)
        (horders node hlisted) hrows fun more hmore => ?_
      refine ih hcovers.children (fun below hbelow => horders below ?_) (fun path hp => ?_) hmore
      · exact mem_nodesListed.mpr ⟨node, hnode, PrefetchNode.mem_listed.mpr (.inr hbelow)⟩
      · have hshort := hlevels path hp
        rw [hpath, Path.length_child]
        omega
    refine (gives_loadNodes_each heach).mono fun loaded hset r hr => ?_
    rw [hset r hr, loaded_succ, List.append_nil]
    exact having_congr (hcover.get?_loads hdb.linked levels r)

theorem gives_prefetch (hdb : db.Serves sv s) (hunjoined : ∀ path : Path, path ≠ .root → tree.contains path = false)
    (hwhole : projection.OnlyRequires) {levels : Nat} {id : EntityId} {plan : PrefetchPlan}
    (hcover : NodesCover s tree projection paths .root id plan) (horders : ∀ node ∈ nodesListed plan, node.orderBy = [])
    (hlevels : ∀ path ∈ paths, path.length ≤ levels) {rows : List Record} (hrows : rows ⊆ db.of s id) :
    (prefetch (db.recorder sv s settings) plan (rows.map (s.having id · []))).Gives fun found =>
      found = rows.map (s.loaded sv db paths levels .root id) := by
  have hshort : ∀ path ∈ paths, path.length ≤ Path.root.length + levels := fun path hpath => by
    rw [show Path.root.length = 0 from rfl, Nat.zero_add]
    exact hlevels path hpath
  have hload : (loadNodes (db.recorder sv s settings) (rows.map (s.having id · [])) plan).Gives fun loaded =>
      ∀ r ∈ rows, attachAll s (s.having id r []) loaded = s.loaded sv db paths levels .root id r :=
    gives_loadNodes hdb hunjoined hwhole hcover horders hshort hrows
  unfold prefetch
  split
  · rename_i hnothing
    refine .pure (List.map_congr_left fun r hr => (loaded_of_end (fun name => ?_) levels id r).symm)
    rcases Bool.or_eq_true_iff.mp hnothing with hplan | hroots
    · refine Bool.eq_false_iff.mpr fun hthrough => ?_
      have hmem := (hcover.complete name).mpr hthrough
      rw [List.isEmpty_iff.mp hplan] at hmem
      cases hmem
    · rw [List.map_eq_nil_iff.mp (List.isEmpty_iff.mp hroots)] at hr
      cases hr
  · refine hload.bind (fun _ => .pure _) fun loaded hset => .pure ?_
    rw [List.map_map]
    exact List.map_congr_left fun r hr => hset r hr

end RelQuery
