import RelQuery.Proofs.Engine.Run
import RelQuery.Proofs.Plan.Bounds
import RelQuery.Proofs.Plan.Paginate

/-!
# What engines fetch

An engine whose backend answers queries from a database fetches, for any request, the instances that the kept joined
rows show, merged. A page of them is as large as it can be, and holds instances just as they are without bounds.
-/

namespace RelQuery

open Sql

variable {sv : Server} {db : Database} {s : Schema} {p : Prepared}

/-- An engine whose backend answers queries from a database. -/
def Sql.Database.engine (db : Database) (sv : Server) (s : Schema) (settings : Settings) : Engine Unit where
  schema := s
  settings := settings
  factory := .standard
  backend := ⟨fun query state => (.ok ((query.answer sv db).map NameMap.ofPairs), state)⟩

/-- The instances that an engine fetches for a request when it has these aliases registered. -/
def Engine.fetched (e : Engine Unit) (r : Request) (registry : AliasRegistry) : Except NoResult (List Instance) :=
  ((e.fetch r).exec ⟨registry, (), []⟩).1.map (·.1)

theorem fetched_eq {settings : Settings} {r : Request} {registry registry' : AliasRegistry} {planned : PlannedQuery}
    (hplan : r.plan s settings registry = (.ok planned, registry')) :
    (db.engine sv s settings).fetched r registry =
      NoResult.lift
        (((standardOf s).ofRows planned.tree ((planned.query.answer sv db).map NameMap.ofPairs)).map (merge s)) := by
  have hstep : ((db.engine sv s settings).plan r).exec ⟨registry, (), []⟩ = (.ok planned, ⟨registry', (), []⟩) := by
    change ((r.plan s settings registry).1, (⟨(r.plan s settings registry).2, (), []⟩ : Session Unit)) = _
    rw [hplan]
  have hexecute : ∀ session, (((db.engine sv s settings).execute planned.query).exec session).1 =
      .ok ((planned.query.answer sv db).map NameMap.ofPairs) := fun _ => rfl
  unfold Engine.fetched Engine.fetch
  rw [Run.exec_bind, hstep]
  dsimp only
  rw [Run.exec_bind]
  have hrows := hexecute ⟨registry', (), []⟩
  rcases hexec : ((db.engine sv s settings).execute planned.query).exec ⟨registry', (), []⟩ with ⟨r, session⟩
  rw [hexec] at hrows
  cases hrows
  dsimp only
  rw [Run.exec_bind, Run.exec_ofExcept, show (db.engine sv s settings).materializer = standardOf s from rfl]
  rcases (standardOf s).ofRows planned.tree ((planned.query.answer sv db).map NameMap.ofPairs) with - | found <;> rfl

/-- The matching root rows in the order in which the statement first shows them. -/
def Prepared.rootsInOrder (p : Prepared) (sv : Server) (db : Database) : List Record :=
  distinct ((p.sortRows sv (p.keptRows sv db)).map fun row => row .root)

/-- The key of the instance of a root row. -/
def Prepared.instanceKey (p : Prepared) (r : Record) : EntityId × Value := (p.request.root, p.rootEntity.key r)

/-- What the kept joined rows show, merged. -/
def Prepared.allInstances (p : Prepared) (sv : Server) (db : Database) (tree : JoinTree) : List Instance :=
  merge p.schema ((p.sortRows sv (p.keptRows sv db)).map (tree.read p.schema))

theorem perm_rootsInOrder (p : Prepared) (sv : Server) (db : Database) :
    (p.rootsInOrder sv db).Perm (p.matching sv db) :=
  perm_distinct ((perm_sortRows p sv (p.keptRows sv db)).map _)

/-- Some joined row of the first root row comes no later than any of the second, by all that pages sort by. -/
def Prepared.FirstBefore (p : Prepared) (sv : Server) (db : Database) (a b : Record) : Prop :=
  ∃ x ∈ p.keptRows sv db, x .root = a ∧ ∀ y ∈ p.keptRows sv db, y .root = b →
    (sv.compareKeys p.rootDirs (x.sortKey p.rootSort) (y.sortKey p.rootSort)).isLE = true

theorem pairwise_firstBefore (p : Prepared) (sv : Server) (db : Database) :
    (p.rootsInOrder sv db).Pairwise (p.FirstBefore sv db) := by
  have hperm := perm_sortRows p sv (p.keptRows sv db)
  refine (pairwise_distinct_map (pairwise_sortRows p sv _)).imp fun {a b} ⟨x, hx, hxa, hle⟩ =>
    ⟨x, hperm.mem_iff.mp hx, hxa, fun y hy hyb => ?_⟩
  have hsorted := hle y (hperm.mem_iff.mpr hy) hyb
  obtain ⟨more, hmore⟩ := rootSort_prefix_rowSort p
  rw [← hmore] at hsorted
  exact compareKeys_isLE_of_append hsorted

theorem instanceKey_injective (h : p.Named) (hdb : db.Keyed sv p.schema) {a b : Record}
    (ha : a ∈ db.of p.schema p.request.root) (hb : b ∈ db.of p.schema p.request.root)
    (hkey : p.instanceKey a = p.instanceKey b) : a = b := by
  have hvalue : p.rootEntity.key a = p.rootEntity.key b := (Prod.mk.inj hkey).2
  refine (equal_key_iff h hdb ha hb).mp ?_
  rw [hvalue]
  exact (equal_key_iff h hdb hb hb).mpr rfl

section

variable {registry : AliasRegistry} {tree : JoinTree}

theorem key_of_read (h : p.Named) (hfrom : PreparedFrom p.schema registry p.request p) (ht : p.tree = .ok tree)
    (hpk : tree.columns.any (·.field == p.rootEntity.pk) = true) (rows : List Joined) :
    (rows.map (tree.read p.schema)).map (·.key p.schema) = (rows.map fun row => row .root).map p.instanceKey := by
  rw [List.map_map, List.map_map]
  exact List.map_congr_left fun row _ => key_read h hfrom ht hpk row

/-- There is one instance for each matching root row, in the order in which the statement first shows them. -/
theorem map_key_allInstances (h : p.Named) (hdb : db.Sound sv p.schema)
    (hfrom : PreparedFrom p.schema registry p.request p) (ht : p.tree = .ok tree)
    (hpk : tree.columns.any (·.field == p.rootEntity.pk) = true) :
    (p.allInstances sv db tree).map (·.key p.schema) = (p.rootsInOrder sv db).map p.instanceKey := by
  have hordered : ∀ i ∈ (p.sortRows sv (p.keptRows sv db)).map (tree.read p.schema), i.Ordered :=
    List.forall_mem_map.mpr fun row _ => ordered_read tree row
  have hroot : ∀ a ∈ (p.sortRows sv (p.keptRows sv db)).map (fun row => row .root), a ∈ db.of p.schema p.request.root :=
    List.forall_mem_map.mpr fun row hrow =>
      (fits_of_mem_keptRows h (mem_sortRows.mp hrow)).root
  unfold Prepared.allInstances
  rw [map_key_merge hordered, key_of_read h hfrom ht hpk,
    distinct_map_of_injective fun a ha b hb => instanceKey_injective h hdb.keys (hroot a ha) (hroot b hb)]
  rfl

/-- Merging what the joined rows of some root rows show gives the instances of these root rows among all. -/
theorem merge_rows_of_roots (h : p.Named) (hdb : db.Sound sv p.schema)
    (hfrom : PreparedFrom p.schema registry p.request p) (ht : p.tree = .ok tree)
    (hpk : tree.columns.any (·.field == p.rootEntity.pk) = true) {roots : List Record}
    (hroots : roots ⊆ db.of p.schema p.request.root) :
    merge p.schema (((p.sortRows sv (p.keptRows sv db)).filter fun row => row .root ∈ roots).map (tree.read p.schema)) =
      (p.allInstances sv db tree).filter fun i => i.key p.schema ∈ roots.map p.instanceKey := by
  have hordered : ∀ i ∈ (p.sortRows sv (p.keptRows sv db)).map (tree.read p.schema), i.Ordered :=
    List.forall_mem_map.mpr fun row _ => ordered_read tree row
  have hrows : ((p.sortRows sv (p.keptRows sv db)).filter fun row => row .root ∈ roots).map (tree.read p.schema) =
      ((p.sortRows sv (p.keptRows sv db)).map (tree.read p.schema)).filter
        fun i => decide (i.key p.schema ∈ roots.map p.instanceKey) := by
    rw [List.filter_map]
    refine congrArg _ (List.filter_congr fun row hrow => ?_)
    have hmem := (fits_of_mem_keptRows h (mem_sortRows.mp hrow)).root
    rw [Function.comp_apply, decide_eq_decide, key_read h hfrom ht hpk]
    constructor
    · exact fun hin => List.mem_map_of_mem hin
    · intro hin
      obtain ⟨root, hroot, hkey⟩ := List.mem_map.mp hin
      rwa [← instanceKey_injective h hdb.keys (hroots hroot) hmem hkey]
  unfold Prepared.allInstances
  rw [hrows]
  exact merge_filter hordered fun k => decide (k ∈ roots.map p.instanceKey)

end

end RelQuery
