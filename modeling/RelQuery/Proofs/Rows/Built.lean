import RelQuery.Proofs.Engine.Run
import RelQuery.Proofs.Merge.NormalForm
import RelQuery.Proofs.Plan

/-!
# What rows are built into

A plain factory constructs instances of the entity that it is asked for. Sliced with it, rows become instances of the
root entity, and a relation to many leads to instances of one entity. Merging keeps this, so whatever a backend answers,
no two fetched instances have the same primary key, and neither have two that one relation of them leads to.
-/

namespace RelQuery

variable {s : Schema} {m : Materializer} {row : Row}

/-- A factory that constructs instances of the entity that it is asked for, with nothing loaded. -/
def Factory.Plain (f : Factory) : Prop :=
  ∀ e id values skipValidation i, NameMap.Ordered values → f.construct e id values skipValidation = .ok i →
    i.entity = id ∧ NameMap.Ordered i.fields ∧ i.relations = []

theorem Factory.plain_standard : Factory.standard.Plain := by
  intro e id values skipValidation i hvalues h
  unfold Factory.standard at h
  dsimp only at h
  split at h
  · cases h
    exact ⟨rfl, hvalues, rfl⟩
  · split at h
    · cases h
    · cases h
      exact ⟨rfl, hvalues, rfl⟩

/-- Relations with the instances of the nodes below a node: those of a relation to many are of the entity of its node. -/
structure BuiltRelations (nodes : List JoinNode) (relations : NameMap Related) : Prop where
  ordered : NameMap.Ordered relations
  below : ∀ p ∈ relations, ∀ c ∈ p.2.instances, c.Ordered
  many : ∀ name l, NameMap.get? relations name = some (.many l) →
    ∃ node ∈ nodes, node.name = name ∧ ∀ c ∈ l, c.entity = node.target

/-- An instance of an entity with the relations of the nodes below it. -/
structure Instance.BuiltFor (i : Instance) (id : EntityId) (nodes : List JoinNode) : Prop where
  entity : i.entity = id
  ordered : i.Ordered
  relations : BuiltRelations nodes i.relations

theorem builtRelations_nil : BuiltRelations [] [] :=
  ⟨.nil, fun _ h => absurd h List.not_mem_nil, fun _ _ h => by cases h⟩

theorem BuiltRelations.put {nodes : List JoinNode} {relations : NameMap Related} (h : BuiltRelations nodes relations)
    {name : String} {related : Related} (hordered : ∀ c ∈ related.instances, c.Ordered)
    (hmany : ∀ l, related = .many l → ∃ node ∈ nodes, node.name = name ∧ ∀ c ∈ l, c.entity = node.target) :
    BuiltRelations nodes (NameMap.put name related relations) where
  ordered := h.ordered.put name related
  below p hp := by
    rcases NameMap.mem_put hp with rfl | hp
    · exact hordered
    · exact h.below p hp
  many key l hl := by
    rw [NameMap.get?_put] at hl
    split at hl
    · rename_i hkey
      rw [hkey]
      exact hmany l (Option.some.inj hl)
    · exact h.many key l hl

theorem BuiltRelations.cons {nodes : List JoinNode} {relations : NameMap Related} (h : BuiltRelations nodes relations)
    (node : JoinNode) : BuiltRelations (node :: nodes) relations :=
  ⟨h.ordered, h.below, fun name l hl => by
    obtain ⟨below, hbelow, hnamed⟩ := h.many name l hl
    exact ⟨below, List.mem_cons_of_mem _ hbelow, hnamed⟩⟩

section

variable (hplain : m.factory.Plain)
include hplain

theorem plain_construct {id : EntityId} {values : NameMap Value} {skipValidation : Bool} {i : Instance}
    (hvalues : NameMap.Ordered values) (h : m.construct id values skipValidation = .ok i) :
    i.entity = id ∧ NameMap.Ordered i.fields ∧ i.relations = [] := by
  unfold Materializer.construct at h
  split at h
  · rename_i built hbuilt
    cases h
    exact hplain _ _ _ _ _ hvalues hbuilt
  · cases h

theorem ordered_of_stub {target : EntityId} {key : Value} {related : Related}
    (h : m.stub target key = .ok related) :
    (∀ c ∈ related.instances, c.Ordered) ∧ ∀ l, related ≠ .many l := by
  unfold Materializer.stub at h
  split at h
  · cases h
    exact ⟨fun _ hc => (List.not_mem_nil hc).elim, fun l => by simp⟩
  · obtain ⟨i, hi, rfl⟩ := map_eq_ok.mp h
    obtain ⟨-, hfields, hrelations⟩ := plain_construct hplain (by simp [NameMap.Ordered]) hi
    refine ⟨fun c hc => ?_, fun l => by simp⟩
    rw [List.mem_singleton.mp hc, Instance.ordered_iff, hrelations]
    exact ⟨hfields, .nil, fun _ hp => (List.not_mem_nil hp).elim⟩

theorem builtRelations_addStubs {columns : List SelectedColumn} {i : Instance} {nodes : List JoinNode}
    {rs : List Relation} : ∀ {joined relations : NameMap Related}, BuiltRelations nodes joined →
      m.addStubs columns i rs joined = .ok relations → BuiltRelations nodes relations := by
  induction rs with
  | nil =>
    intro joined relations hjoined h
    cases h
    exact hjoined
  | cons r rest ih =>
    intro joined relations hjoined h
    unfold Materializer.addStubs at h
    split at h
    · split at h
      · exact ih hjoined h
      · split at h
        · cases h
        · rename_i related hstub
          obtain ⟨hordered, hone⟩ := ordered_of_stub hplain hstub
          exact ih (hjoined.put hordered fun l hl => absurd hl (hone l)) h
    · exact ih hjoined h

theorem builtFor_assemble {id : EntityId} {columns : List SelectedColumn} {isPartial : Bool} {nodes : List JoinNode}
    {joined : Except QueryError (NameMap Related)}
    (hjoined : ∀ relations, joined = .ok relations → BuiltRelations nodes relations) {i : Instance}
    (h : m.assemble row id columns isPartial joined = .ok (some i)) : i.BuiltFor id nodes := by
  unfold Materializer.assemble at h
  dsimp only at h
  split at h
  · obtain ⟨relations, hrelations, h⟩ := bind_eq_ok.mp h
    obtain ⟨built, hbuilt, h⟩ := bind_eq_ok.mp h
    obtain ⟨shown, hshown, h⟩ := bind_eq_ok.mp h
    cases h
    obtain ⟨hentity, hfields, -⟩ := plain_construct hplain (NameMap.ordered_ofPairs _) hbuilt
    have hall := builtRelations_addStubs hplain (hjoined relations hrelations) hshown
    exact ⟨hentity, Instance.ordered_iff.mpr ⟨hfields, hall.ordered, hall.below⟩, hall⟩
  · cases h

end

mutual

theorem builtFor_ofNode (hplain : m.factory.Plain) : ∀ (node : JoinNode) {i : Instance},
    m.ofNode row node = .ok (some i) → i.BuiltFor node.target node.children
  | ⟨_, _, _, target, _, _, isPartial, columns, children⟩, i, h => by
    unfold Materializer.ofNode at h
    exact builtFor_assemble hplain (fun relations hrelations => builtRelations_ofNodes hplain children hrelations) h
termination_by structural node => node

theorem builtRelations_ofNodes (hplain : m.factory.Plain) : ∀ (nodes : List JoinNode) {relations : NameMap Related},
    m.ofNodes row nodes = .ok relations → BuiltRelations nodes relations
  | [], relations, h => by
    unfold Materializer.ofNodes at h
    cases h
    exact builtRelations_nil
  | node :: rest, relations, h => by
    unfold Materializer.ofNodes at h
    split at h
    · cases h
    · rename_i found hfound
      obtain ⟨others, hothers, rfl⟩ := map_eq_ok.mp h
      have hbuilt : ∀ c ∈ found, c.BuiltFor node.target node.children := fun c hc =>
        builtFor_ofNode hplain node (hfound.trans (congrArg Except.ok hc))
      refine ((builtRelations_ofNodes hplain rest hothers).cons node).put (fun c hc => ?_) fun l hl => ?_
      · refine (hbuilt c ?_).ordered
        unfold Materializer.relatedOf at hc
        split at hc <;> simpa [Related.instances] using hc
      · refine ⟨node, List.mem_cons_self, rfl, fun c hc => (hbuilt c ?_).entity⟩
        unfold Materializer.relatedOf at hl
        split at hl
        · cases hl
          simpa using hc
        · cases hl
termination_by structural nodes => nodes

end

theorem builtFor_ofRows (hplain : m.factory.Plain) {t : JoinTree} {rows : List Row} {found : List Instance}
    (h : m.ofRows t rows = .ok found) : ∀ i ∈ found, i.BuiltFor t.root t.children := by
  intro i hi
  obtain ⟨all, hall, rfl⟩ := map_eq_ok.mp h
  obtain ⟨_, hmem, rfl⟩ := List.mem_filterMap.mp hi
  obtain ⟨row, -, hrow⟩ := exists_of_mem_forall₂ (mapM_eq_ok.mp hall) hmem
  exact builtFor_assemble hplain (fun relations hrelations => builtRelations_ofNodes hplain t.children hrelations) hrow

/-- If the instance has a relation to many of this name, it leads to instances of the entity. -/
def Instance.ManyOf (i : Instance) (name : String) (id : EntityId) : Prop :=
  ∀ l, i.related? name = some (.many l) → ∀ c ∈ l, c.entity = id

/-- In the rows of a tree a relation to many leads to instances of one entity. -/
theorem exists_manyOf {id : EntityId} {nodes : List JoinNode} (hnames : (nodes.map (·.name)).Nodup) (name : String) :
    ∃ target, ∀ i : Instance, i.BuiltFor id nodes → i.ManyOf name target := by
  by_cases hname : name ∈ nodes.map (·.name)
  · obtain ⟨node, hnode, rfl⟩ := List.mem_map.mp hname
    refine ⟨node.target, fun i hi l hl => ?_⟩
    obtain ⟨other, hother, hsame, htarget⟩ := hi.relations.many node.name l hl
    rwa [List.inj_on_of_nodup_map hnames hother hnode hsame] at htarget
  · refine ⟨id, fun i hi l hl => ?_⟩
    obtain ⟨node, hnode, rfl, -⟩ := hi.relations.many name l hl
    exact absurd (List.mem_map_of_mem hnode) hname

theorem MergeOf.manyOf {l : List Instance} {i : Instance} (h : MergeOf s l i) (ho : ∀ a ∈ l, a.Ordered) {name : String}
    {id : EntityId} (hl : ∀ a ∈ l, a.ManyOf name id) : i.ManyOf name id := by
  induction h with
  | one a => exact hl a (List.mem_singleton_self a)
  | @pair l₁ l₂ a b _ hb iha ihb =>
    obtain ⟨ho₁, ho₂⟩ := List.forall_mem_append.mp ho
    obtain ⟨hl₁, hl₂⟩ := List.forall_mem_append.mp hl
    have ha := iha ho₁ hl₁
    have hb' := ihb ho₂ hl₂
    intro both hboth
    rw [related?_mergePair (hb.ordered ho₂).relations] at hboth
    rcases hra : a.related? name with - | ours <;> rcases hrb : b.related? name with - | theirs <;>
      rw [hra, hrb] at hboth
    · cases hboth
    · exact hb' both (hrb.trans hboth)
    · exact ha both (hra.trans hboth)
    · replace hboth : mergeRelated s ours theirs = .many both := Option.some.inj hboth
      cases theirs with
      | many right =>
        rcases ours with (- | x) | left <;> cases hboth
        · exact hb' both hrb
        · exact List.forall_mem_append.mpr ⟨ha left hra, hb' right hrb⟩
      | one y =>
        rcases ours with (- | x) | left <;> cases hboth
        exact ha both hra

theorem entity_of_mem_merge {l : List Instance} {id : EntityId} (h : ∀ i ∈ l, i.entity = id) :
    ∀ i ∈ merge s l, i.entity = id := by
  intro i hi
  obtain ⟨group, hgroup, merged, hof, rfl⟩ := exists_mergeOf_of_mem_merge hi
  rw [tidy_entity]
  exact hof.entity fun a ha => h a (hgroup ha)

theorem manyOf_of_mem_merge {l : List Instance} (ho : ∀ i ∈ l, i.Ordered) {name : String} {id : EntityId}
    (h : ∀ i ∈ l, i.ManyOf name id) : ∀ i ∈ merge s l, i.ManyOf name id := by
  intro i hi children hchildren
  obtain ⟨group, hgroup, merged, hof, rfl⟩ := exists_mergeOf_of_mem_merge hi
  have hmany := hof.manyOf (fun a ha => ho a (hgroup ha)) fun a ha => h a (hgroup ha)
  rw [related?_tidy] at hchildren
  obtain ⟨related, hrelated, htidy⟩ := Option.map_eq_some_iff.mp hchildren
  cases related with
  | one o => cases htidy
  | many before =>
    cases htidy
    exact entity_of_mem_merge (hmany before hrelated)

/-- No two of the instances have the same primary key, and neither have two that one relation of them leads to. -/
structure KeysApart (s : Schema) (found : List Instance) : Prop where
  ordered : ∀ i ∈ found, i.Ordered
  keys : (found.map (·.pk s)).Nodup
  related : ∀ i ∈ found, ∀ name, ((i.relatedBy name).map (·.pk s)).Nodup

theorem nodup_pk_of_key {l : List Instance} {id : EntityId} (hl : ∀ i ∈ l, i.entity = id)
    (h : (l.map (·.key s)).Nodup) : (l.map (·.pk s)).Nodup := by
  have hkey : l.map (·.key s) = (l.map (·.pk s)).map (Prod.mk id) := by
    rw [List.map_map]
    exact List.map_congr_left fun i hi => congrArg (·, i.pk s) (hl i hi)
  rw [hkey] at h
  exact List.Nodup.of_map _ h

theorem keysApart_nil : KeysApart s [] :=
  ⟨fun _ h => absurd h List.not_mem_nil, List.nodup_nil, fun _ h => absurd h List.not_mem_nil⟩

theorem keysApart_merge {id : EntityId} {nodes : List JoinNode} (hnames : (nodes.map (·.name)).Nodup)
    {rows : List Instance} (h : ∀ i ∈ rows, i.BuiltFor id nodes) : KeysApart s (merge s rows) := by
  have ho : ∀ i ∈ rows, i.Ordered := fun i hi => (h i hi).ordered
  refine ⟨ordered_merge ho, ?_, fun i hi name => ?_⟩
  · exact nodup_pk_of_key (entity_of_mem_merge fun i hi => (h i hi).entity) (nodup_key_merge ho)
  · rcases hrelated : i.related? name with - | related
    · rw [Instance.relatedBy, hrelated]
      exact List.nodup_nil
    · rw [Instance.relatedBy_of_related? hrelated]
      cases related with
      | one o => cases o <;> simp [Related.instances]
      | many l =>
        obtain ⟨target, htarget⟩ : ∃ target, ∀ j : Instance, j.BuiltFor id nodes → j.ManyOf name target :=
          exists_manyOf hnames name
        have hmany := manyOf_of_mem_merge ho (fun j hj => htarget j (h j hj)) i hi
        obtain ⟨merged, hmerged, -, rfl⟩ := exists_tidy_of_mem_merge ho hi
        exact nodup_pk_of_key (hmany l hrelated) (nodup_key_of_mem_tidy hmerged (NameMap.mem_of_get? hrelated))

variable {σ : Type} {e : Engine σ} {session session' : Session σ}

/-- Whatever the backend answers. -/
theorem keysApart_fetch (hplain : e.factory.Plain) {r : Request} {found : List Instance} {planned : PlannedQuery}
    (h : (e.fetch r).exec session = (.ok (found, planned), session')) : KeysApart e.schema found := by
  obtain ⟨planned', next, hplan, h⟩ := Run.exec_bind_eq_ok.mp h
  obtain ⟨rows, last, -, h⟩ := Run.exec_bind_eq_ok.mp h
  obtain ⟨instances, final, hinstances, h⟩ := Run.exec_bind_eq_ok.mp h
  obtain ⟨hrows, -⟩ := Run.exec_ofExcept_eq_ok.mp hinstances
  cases h
  rw [Engine.plan, Run.exec_onRegistry] at hplan
  obtain ⟨hplan, -⟩ := Prod.mk.inj hplan
  obtain ⟨p, hp, hplanned⟩ := prepared_of_plan (Prod.ext hplan rfl)
  obtain ⟨_, _, _, htree, -⟩ := plan_eq_ok hplanned
  exact keysApart_merge (complete_of_tree hp htree).names (builtFor_ofRows (m := e.materializer) hplain hrows)

end RelQuery
