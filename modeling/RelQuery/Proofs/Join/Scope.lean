import Mathlib.Data.List.Pairwise
import RelQuery.Plan
import RelQuery.Proofs.Alias.Plan
import RelQuery.Proofs.Path
import RelQuery.Proofs.Request
import RelQuery.Proofs.Schema.Build
import RelQuery.Proofs.Sql.Scope

/-!
# The tables that joins introduce

Each joined path introduces the table it leads to and, before that, the linking table that its last relation goes
through. Joins come in the order of the paths, and each path after the one it goes on from; so a condition reads the
root table, a table that was joined before, or its own.
-/

namespace RelQuery

open Sql

variable {s : Schema} {p : Prepared}

/-! ### Names of tables -/

/-- The tables that the joins along a relation introduce: the name of each, and the entity it stands for. -/
def Relation.tableNames (rel : Relation) (target : String) (through : Option String) : List (String × EntityId) :=
  match rel.link, through with
  | .manyToMany middle _ _, some t => [(t, middle), (target, rel.target)]
  | _, _ => [(target, rel.target)]

/-- The tables that the joins of a path introduce. -/
def ResolvedPath.tableNames (r : ResolvedPath) (s : Schema) (aliases : AliasPlan) : List (String × EntityId) :=
  match aliases.get? r.path with
  | none => []
  | some a => (s.relation (r.lastHop?.getD default)).tableNames a.target.text (a.through.map (·.text))

/-- The tables of a statement: the root table, and those that the joins introduce. -/
def Prepared.tableNames (p : Prepared) : List (String × EntityId) :=
  (p.rootTable, p.request.root) :: p.bound.resolved.flatMap fun r => r.tableNames p.schema p.aliases

/-- The joined paths are told apart by how they are written. -/
def Prepared.PathsDiffer (p : Prepared) : Prop := (p.bound.resolved.map (·.path.text)).Nodup

/-- A prepared request of a sound schema whose paths are told apart by how they are written. -/
structure Prepared.Named (p : Prepared) : Prop where
  schema : p.schema.WellFormed
  root : p.request.root.index < p.schema.entities.length
  bound : BoundFrom p.schema p.request p.bound
  texts : p.PathsDiffer
  aliases : p.aliases.NamesPaths p.schema p.rootTable p.bound.resolved

/-- What is known of a joined path: its aliases, the relation it ends on, and the path it goes on from. -/
structure Prepared.Hop (p : Prepared) (r : ResolvedPath) (a : JoinAlias) (rel : Relation) : Prop where
  aliases : p.aliases.get? r.path = some a
  relation : p.schema.relation (r.lastHop?.getD default) = rel
  through : a.through.isSome = rel.isManyToMany
  mem : rel ∈ p.schema.relations
  target : r.target = rel.target
  source : ∃ before, p.schema.walk p.request.root r.path.segments.dropLast = .ok (before, rel.owner)

theorem Prepared.Named.exists_hop (h : p.Named) {r : ResolvedPath} (hr : r ∈ p.bound.resolved) :
    ∃ a rel, p.Hop r a rel := by
  have hne : r.path.segments ≠ [] := fun he => h.bound.joined.ne_root r hr (congrArg Path.mk he)
  have hsplit := (List.dropLast_concat_getLast hne).symm
  obtain ⟨before, mid, id, hwalk, hid, hlast, htarget⟩ := (h.bound.joined.resolves r hr).lastHop hsplit
  obtain ⟨hmem, howner, -⟩ := relation_of_findRelation? hid
  obtain ⟨a, ha, hthrough⟩ := h.aliases.aliases r hr id hlast
  refine ⟨a, p.schema.relation id, ha, ?_, hthrough, hmem, htarget, before, ?_⟩
  · rw [hlast, Option.getD_some]
  · rw [howner]
    exact hwalk

theorem Prepared.Hop.tableNames_eq {r : ResolvedPath} {a : JoinAlias} {rel : Relation} (h : p.Hop r a rel) :
    r.tableNames p.schema p.aliases = rel.tableNames a.target.text (a.through.map (·.text)) := by
  unfold ResolvedPath.tableNames
  rw [h.aliases, h.relation]

theorem Relation.tableNames_perm {rel : Relation} {through : Option String} (target : String)
    (h : through.isSome = rel.isManyToMany) :
    ((rel.tableNames target through).map (·.1)).Perm (target :: through.toList) := by
  unfold Relation.isManyToMany at h
  unfold Relation.tableNames
  rcases hlink : rel.link with key | key | ⟨middle, ownerKey, targetKey⟩ <;> rw [hlink] at h
  · have hnone : through = none := Option.isNone_iff_eq_none.mp (Option.isSome_eq_false_iff.mp h)
    subst hnone
    exact .refl _
  · have hnone : through = none := Option.isNone_iff_eq_none.mp (Option.isSome_eq_false_iff.mp h)
    subst hnone
    exact .refl _
  · obtain ⟨t, rfl⟩ := Option.isSome_iff_exists.mp h
    exact List.Perm.swap target t []

theorem Prepared.Hop.tableNames_perm {r : ResolvedPath} {a : JoinAlias} {rel : Relation} (h : p.Hop r a rel) :
    ((r.tableNames p.schema p.aliases).map (·.1)).Perm (a.target.text :: a.through.toList.map (·.text)) := by
  have hthrough : (a.through.map (·.text)).isSome = rel.isManyToMany := by
    rw [Option.isSome_map, h.through]
  rw [h.tableNames_eq, ← Option.toList_map]
  exact Relation.tableNames_perm a.target.text hthrough

/-- Different paths have different aliases, and none is the name of the root table. -/
theorem Prepared.Named.nodup_tableNames (h : p.Named) : (p.tableNames.map (·.1)).Nodup := by
  have hunique := h.aliases.unique
  unfold AliasPlan.uses at hunique
  rw [List.map_append, List.map_flatMap, List.nodup_append'] at hunique
  obtain ⟨hentries, -, hroot⟩ := hunique
  have hentry : ∀ r ∈ p.bound.resolved, ∃ a, (r.path.text, a) ∈ p.aliases.entries ∧
      ((r.tableNames p.schema p.aliases).map (·.1)).Perm
        (((a.target.text, r.path.text) :: a.through.toList.map fun t => (t.text, r.path.text ++ " (through)")).map
          (·.1)) := by
    intro r hr
    obtain ⟨a, rel, hop⟩ := h.exists_hop hr
    refine ⟨a, NameMap.mem_of_get? hop.aliases, ?_⟩
    rw [List.map_cons, List.map_map]
    exact hop.tableNames_perm
  unfold Prepared.tableNames
  rw [List.map_cons, List.map_flatMap, List.nodup_cons]
  constructor
  · intro hmem
    obtain ⟨r, hr, hname⟩ := List.mem_flatMap.mp hmem
    obtain ⟨a, ha, hperm⟩ := hentry r hr
    exact hroot (List.mem_flatMap.mpr ⟨_, ha, hperm.mem_iff.mp hname⟩) (List.mem_singleton_self _)
  · refine List.nodup_flatMap.mpr ⟨fun r hr => ?_, ?_⟩
    · obtain ⟨a, ha, hperm⟩ := hentry r hr
      exact hperm.nodup_iff.mpr ((List.nodup_flatMap.mp hentries).1 _ ha)
    · refine (List.pairwise_map.mp h.texts).imp_of_mem fun {r t} hr ht hne => ?_
      refine List.disjoint_left.mpr fun name hname hname' => hne ?_
      obtain ⟨a, ha, hperm⟩ := hentry r hr
      obtain ⟨b, hb, hperm'⟩ := hentry t ht
      exact congrArg Prod.fst
        (eq_of_mem_flatMap hentries ha hb (hperm.mem_iff.mp hname) (hperm'.mem_iff.mp hname'))

theorem dbName_mem {e : Entity} {field : String} (h : e.hasField field = true) :
    e.dbName field ∈ e.columns.map (·.dbName) := by
  obtain ⟨c, hc⟩ := Option.isSome_iff_exists.mp h
  unfold Entity.dbName
  rw [hc]
  exact List.mem_map_of_mem (List.mem_of_find?_eq_some hc)

theorem pkColumn_mem {e : Entity} (h : e.hasField e.pk = true) : e.pkColumn.dbName ∈ e.columns.map (·.dbName) := by
  obtain ⟨c, hc⟩ := Option.isSome_iff_exists.mp h
  unfold Entity.pkColumn
  rw [hc, Option.getD_some]
  exact List.mem_map_of_mem (List.mem_of_find?_eq_some hc)

theorem Schema.WellFormed.hasField_pk (hs : s.WellFormed) {id : EntityId} (h : id.index < s.entities.length) :
    (s.entity id).hasField (s.entity id).pk = true := by
  refine hs.keys _ ?_
  unfold Schema.entity
  rw [List.getElem?_eq_getElem h, Option.getD_some]
  exact List.getElem_mem h

theorem Schema.WellFormed.pk_mem (hs : s.WellFormed) {id : EntityId} (h : id.index < s.entities.length) :
    (s.entity id).pkColumn.dbName ∈ (s.entity id).columns.map (·.dbName) :=
  pkColumn_mem (hs.hasField_pk h)

variable {names : List (String × EntityId)} {tables : List TableRef}

/-- The tables have, under this name, all columns of the entity. -/
def ProvidesEntity (s : Schema) (names : List (String × EntityId)) (tables : List TableRef) (n : String × EntityId) :
    Prop :=
  ∀ column ∈ (s.entity n.2).columns.map (·.dbName), Provides s names tables n.1 column

/-- A table by its entity, under another name. -/
def Schema.tableAs (s : Schema) (n : String × EntityId) : TableRef := .aliased (s.entity n.2).table n.1

theorem providesEntity_tableAs {n : String × EntityId} (hn : NameMap.get? names n.1 = some n.2)
    (hmem : s.tableAs n ∈ tables) : ProvidesEntity s names tables n :=
  fun _ hcolumn => ⟨s.tableAs n, hmem, rfl, n.1, n.2, rfl, hn, rfl, hcolumn⟩

theorem readsFrom_eq {left right : String × EntityId} {a b : String} (hl : ProvidesEntity s names tables left)
    (ha : a ∈ (s.entity left.2).columns.map (·.dbName)) (hr : ProvidesEntity s names tables right)
    (hb : b ∈ (s.entity right.2).columns.map (·.dbName)) :
    (Expr.binary .eq (.col left.1 a) (.col right.1 b)).ReadsFrom s names tables :=
  readsFrom_binary (readsFrom_col.mpr (hl a ha)) (readsFrom_col.mpr (hr b hb))

theorem ProvidesEntity.append {n : String × EntityId} {more : List TableRef} (h : ProvidesEntity s names tables n) :
    ProvidesEntity s names (tables ++ more) n :=
  fun column hcolumn => (h column hcolumn).append

/-- The joins along a relation introduce its tables, and their conditions read what is joined by then. -/
theorem joinsScoped_relation (hs : s.WellFormed) {rel : Relation} (hrel : rel ∈ s.relations) {source target : String}
    {through : Option String} (hthrough : through.isSome = rel.isManyToMany)
    (hsource : ProvidesEntity s names tables (source, rel.owner))
    (hnames : ∀ n ∈ rel.tableNames target through, NameMap.get? names n.1 = some n.2) :
    (rel.joins s source target (through.getD target)).map (·.table) = (rel.tableNames target through).map s.tableAs ∧
      JoinsScoped s names tables (rel.joins s source target (through.getD target)) := by
  have hown := hs.pk_mem (hs.owners rel hrel)
  have hfar := hs.pk_mem (hs.targets rel hrel)
  have hfits := hs.links rel hrel
  unfold Relation.isManyToMany at hthrough
  unfold Relation.tableNames at hnames ⊢
  unfold Relation.joins
  rcases hlink : rel.link with key | key | ⟨middle, ownerKey, targetKey⟩ <;>
    rw [hlink] at hthrough hfits hnames
  · have hjoined : ProvidesEntity s names (tables ++ [s.tableAs (target, rel.target)]) (target, rel.target) :=
      providesEntity_tableAs (hnames _ (List.mem_singleton_self _)) (by simp)
    exact ⟨rfl, readsFrom_eq hsource.append (dbName_mem hfits) hjoined hfar, trivial⟩
  · have hjoined : ProvidesEntity s names (tables ++ [s.tableAs (target, rel.target)]) (target, rel.target) :=
      providesEntity_tableAs (hnames _ (List.mem_singleton_self _)) (by simp)
    exact ⟨rfl, readsFrom_eq hsource.append hown hjoined (dbName_mem hfits), trivial⟩
  · obtain ⟨t, rfl⟩ := Option.isSome_iff_exists.mp hthrough
    have hmiddle : ProvidesEntity s names (tables ++ [s.tableAs (t, middle)]) (t, middle) :=
      providesEntity_tableAs (hnames _ (by simp)) (by simp)
    have hjoined : ProvidesEntity s names (tables ++ [s.tableAs (t, middle)] ++ [s.tableAs (target, rel.target)])
        (target, rel.target) :=
      providesEntity_tableAs (hnames _ (by simp)) (by simp)
    exact ⟨rfl, readsFrom_eq hsource.append hown hmiddle (dbName_mem hfits.1),
      readsFrom_eq hmiddle.append (dbName_mem hfits.2) hjoined hfar, trivial⟩

/-! ### Joined paths -/

theorem Prepared.Named.get?_tableNames (h : p.Named) {n : String × EntityId} (hn : n ∈ p.tableNames) :
    NameMap.get? p.tableNames n.1 = some n.2 :=
  NameMap.get?_of_mem h.nodup_tableNames hn

theorem mem_tableNames {r : ResolvedPath} (hr : r ∈ p.bound.resolved) {n : String × EntityId}
    (hn : n ∈ r.tableNames p.schema p.aliases) : n ∈ p.tableNames :=
  List.mem_cons_of_mem _ (List.mem_flatMap.mpr ⟨r, hr, hn⟩)

theorem Prepared.Hop.target_mem {r : ResolvedPath} {a : JoinAlias} {rel : Relation} (h : p.Hop r a rel) :
    (a.target.text, r.target) ∈ r.tableNames p.schema p.aliases := by
  rw [h.tableNames_eq, h.target]
  unfold Relation.tableNames
  split <;> simp

theorem qualifier_of_ne_root {aliases : AliasPlan} {path : Path} {rootTable : String} {a : JoinAlias}
    (hne : path ≠ .root) (ha : aliases.get? path = some a) : aliases.qualifier path rootTable = .ok a.target.text := by
  unfold AliasPlan.qualifier
  rw [if_neg fun hr => hne (Path.isRoot_iff.mp hr), ha]

/-- The joins of a path, from the table that the path before it is named by. -/
theorem joins_of_hop (h : p.Named) {r : ResolvedPath} (hr : r ∈ p.bound.resolved) {a : JoinAlias} {rel : Relation}
    (hop : p.Hop r a rel) {js : List Join} (hjs : r.joins p.schema p.aliases p.rootTable = .ok js) :
    ∃ source, p.aliases.qualifier ⟨r.path.segments.dropLast⟩ p.rootTable = .ok source ∧
      js = rel.joins p.schema source a.target.text ((a.through.map (·.text)).getD a.target.text) := by
  have hne := h.bound.joined.ne_root r hr
  have hparent : r.path.parent?.getD .root = ⟨r.path.segments.dropLast⟩ := by
    unfold Path.parent?
    rw [if_neg fun hroot => hne (Path.isRoot_iff.mp hroot), Option.getD_some]
  unfold ResolvedPath.joins at hjs
  obtain ⟨source, hsource, hjs⟩ := bind_eq_ok.mp hjs
  obtain ⟨target, htarget, hjs⟩ := bind_eq_ok.mp hjs
  rw [qualifier_of_ne_root hne hop.aliases] at htarget
  cases htarget
  cases hjs
  rw [hparent] at hsource
  refine ⟨source, hsource, ?_⟩
  rw [hop.relation, hop.aliases, Option.bind_some]

theorem JoinedPaths.parent_mem {root : EntityId} {done todo : List ResolvedPath} {r : ResolvedPath}
    (h : JoinedPaths s root (done ++ r :: todo)) (hne : r.path.segments.dropLast ≠ []) :
    ∃ t ∈ done, t.path = ⟨r.path.segments.dropLast⟩ := by
  have hshorter : r.path.segments.dropLast.length < r.path.segments.length := by
    have hpos := List.length_pos_iff.mpr hne
    rw [List.length_dropLast] at hpos ⊢
    omega
  obtain ⟨t, ht, htpath⟩ := h.closed r (by simp) ⟨r.path.segments.dropLast⟩ (fun he => hne (congrArg Path.segments he))
    (List.dropLast_prefix _)
  have htlen : t.path.length < r.path.length := by
    rw [htpath]
    exact hshorter
  refine ⟨t, ?_, htpath⟩
  rcases List.mem_append.mp ht with hdone | hrest
  · exact hdone
  · rcases List.mem_cons.mp hrest with rfl | htodo
    · exact absurd htlen (Nat.lt_irrefl _)
    · have hle := List.rel_of_pairwise_cons (List.pairwise_append.mp h.shorterFirst).2.1 htodo
      omega

/-- The table that a joined path goes on from has the columns of the entity that owns its relation. -/
theorem providesEntity_source (h : p.Named) {done todo : List ResolvedPath} {r : ResolvedPath}
    (hsplit : p.bound.resolved = done ++ r :: todo) (hroot : ProvidesEntity p.schema p.tableNames tables
      (p.rootTable, p.request.root))
    (hdone : ∀ t ∈ done, ∀ n ∈ t.tableNames p.schema p.aliases, ProvidesEntity p.schema p.tableNames tables n)
    {a : JoinAlias} {rel : Relation} (hop : p.Hop r a rel) {source : String}
    (hsource : p.aliases.qualifier ⟨r.path.segments.dropLast⟩ p.rootTable = .ok source) :
    ProvidesEntity p.schema p.tableNames tables (source, rel.owner) := by
  obtain ⟨before, hwalk⟩ := hop.source
  by_cases hparent : r.path.segments.dropLast = []
  · rw [hparent] at hwalk hsource
    obtain ⟨-, howner⟩ := Prod.mk.inj (Except.ok.inj hwalk)
    cases hsource
    rw [← howner]
    exact hroot
  · have hjoined := h.bound.joined
    rw [hsplit] at hjoined
    obtain ⟨t, ht, htpath⟩ := hjoined.parent_mem hparent
    have hmem : t ∈ p.bound.resolved := hsplit ▸ List.mem_append_left _ ht
    obtain ⟨b, rel', hop'⟩ := h.exists_hop hmem
    rw [← htpath, qualifier_of_ne_root (h.bound.joined.ne_root t hmem) hop'.aliases] at hsource
    cases hsource
    have hends : p.schema.walk p.request.root t.path.segments = .ok (before, rel.owner) := by
      rw [htpath]
      exact hwalk
    rw [← (h.bound.joined.resolves t hmem).target_eq hends]
    exact hdone t ht _ hop'.target_mem

/-- Joining the paths that are left, after those that are done. -/
theorem joinsScoped_todo (h : p.Named) {done todo : List ResolvedPath} (hsplit : p.bound.resolved = done ++ todo)
    (hroot : ProvidesEntity p.schema p.tableNames tables (p.rootTable, p.request.root))
    (hdone : ∀ t ∈ done, ∀ n ∈ t.tableNames p.schema p.aliases, ProvidesEntity p.schema p.tableNames tables n)
    {jss : List (List Join)}
    (hjss : List.Forall₂ (fun r js => ResolvedPath.joins r p.schema p.aliases p.rootTable = .ok js) todo jss) :
    jss.flatten.map (·.table) = (todo.flatMap fun r => r.tableNames p.schema p.aliases).map p.schema.tableAs ∧
      JoinsScoped p.schema p.tableNames tables jss.flatten := by
  induction hjss generalizing done tables with
  | nil => exact ⟨rfl, trivial⟩
  | @cons r js todo jss hjs hrest ih =>
    have hr : r ∈ p.bound.resolved := hsplit ▸ List.mem_append_right _ (List.mem_cons_self ..)
    obtain ⟨a, rel, hop⟩ := h.exists_hop hr
    obtain ⟨source, hsource, hjs⟩ := joins_of_hop h hr hop hjs
    have hnames : ∀ n ∈ r.tableNames p.schema p.aliases, NameMap.get? p.tableNames n.1 = some n.2 :=
      fun n hn => h.get?_tableNames (mem_tableNames hr hn)
    have hthrough : (a.through.map (·.text)).isSome = rel.isManyToMany := by
      rw [Option.isSome_map, hop.through]
    obtain ⟨htables, hscoped⟩ := joinsScoped_relation h.schema hop.mem hthrough
      (providesEntity_source h hsplit hroot hdone hop hsource) (hop.tableNames_eq ▸ hnames)
    rw [← hjs, ← hop.tableNames_eq] at htables
    rw [← hjs] at hscoped
    have hnow : ∀ t ∈ done ++ [r], ∀ n ∈ t.tableNames p.schema p.aliases,
        ProvidesEntity p.schema p.tableNames (tables ++ js.map (·.table)) n := by
      intro t ht n hn
      rcases List.mem_append.mp ht with hold | hnew
      · exact (hdone t hold n hn).append
      · rw [List.mem_singleton.mp hnew] at hn
        refine providesEntity_tableAs (hnames n hn) (List.mem_append_right _ ?_)
        rw [htables]
        exact List.mem_map_of_mem hn
    obtain ⟨hmore, hscoped'⟩ := ih (by rw [hsplit, List.append_assoc]; rfl) hroot.append hnow
    rw [List.flatten_cons, List.map_append, htables, hmore, List.flatMap_cons, List.map_append, joinsScoped_append]
    exact ⟨rfl, hscoped, hscoped'⟩

/-- The joins of a statement introduce the tables of the joined paths, and each condition reads what is joined by
then. -/
theorem joinsScoped_joins (h : p.Named) {js : List Join} (hjs : p.joins = .ok js)
    (hroot : ProvidesEntity p.schema p.tableNames tables (p.rootTable, p.request.root)) :
    js.map (·.table) = p.tableNames.tail.map p.schema.tableAs ∧ JoinsScoped p.schema p.tableNames tables js := by
  unfold Prepared.joins at hjs
  obtain ⟨jss, hjss, rfl⟩ := map_eq_ok.mp hjs
  exact joinsScoped_todo h (List.nil_append _).symm hroot (fun t ht => by cases ht) (mapM_eq_ok.mp hjss)

end RelQuery
