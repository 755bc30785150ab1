import RelQuery.Proofs.Merge.NormalForm
import RelQuery.Proofs.Plan
import RelQuery.Proofs.Rows.Materialize

/-!
# Merging gives back the forest

The rows of a forest repeat each instance once for every combination of what its relations lead to. Which combinations
these are does not matter: at each node the slices have the same members in the same order of first appearance as the
instances that the relation leads to, and that is all that merging notices. The induction is on the node, for any list
of instances with the first appearances of its slices.
-/

namespace RelQuery

variable {s : Schema}

mutual

/-- The instance at a node with stubs for its foreign keys that are selected but not joined, at all levels. -/
def JoinNode.withStubs (s : Schema) : JoinNode → Instance → Instance
  | ⟨_, _, _, _, _, _, _, columns, children⟩, i => i.loading s columns (nodesWithStubs s children i)
termination_by structural node => node

def nodesWithStubs (s : Schema) : List JoinNode → Instance → List (String × Related)
  | [], _ => []
  | node :: rest, i =>
    (node.name, ((i.related? node.name).getD (.one none)).mapInstances (node.withStubs s)) :: nodesWithStubs s rest i
termination_by structural nodes => nodes

end

def JoinTree.withStubs (s : Schema) (t : JoinTree) (i : Instance) : Instance :=
  i.loading s t.columns (nodesWithStubs s t.children i)

theorem related?_loading (columns : List SelectedColumn) (i : Instance) (joined : List (String × Related))
    (name : String) :
    (i.loading s columns joined).related? name = (NameMap.get? joined name).or (NameMap.get? (stubsOf s columns i) name) := by
  unfold Instance.loading Instance.related?
  rw [NameMap.get?_ofFirst, NameMap.get?_append]

theorem map_fst_nodesWithStubs (nodes : List JoinNode) (i : Instance) :
    (nodesWithStubs s nodes i).map (·.1) = nodes.map (·.name) := by
  induction nodes with
  | nil => rfl
  | cons node rest ih => rw [nodesWithStubs, List.map_cons, List.map_cons, ih]

theorem get?_nodesWithStubs {nodes : List JoinNode} (h : (nodes.map (·.name)).Nodup) {node : JoinNode}
    (hn : node ∈ nodes) (i : Instance) :
    NameMap.get? (nodesWithStubs s nodes i) node.name =
      some (((i.related? node.name).getD (.one none)).mapInstances (node.withStubs s)) := by
  refine NameMap.get?_of_mem (by rwa [map_fst_nodesWithStubs]) ?_
  clear h
  induction nodes with
  | nil => cases hn
  | cons first rest ih =>
    rw [nodesWithStubs]
    rcases List.mem_cons.mp hn with rfl | hrest
    · exact List.mem_cons_self ..
    · exact List.mem_cons_of_mem _ (ih hrest)

/-- What a stub leads to: at most one instance that has no relations. -/
theorem exists_of_get?_stubsOf {columns : List SelectedColumn} {i : Instance} {name : String} {r : Related}
    (h : NameMap.get? (stubsOf s columns i) name = some r) : ∃ target key, r = stubOf s target key := by
  have hmem := NameMap.mem_of_get? h
  unfold stubsOf at hmem
  obtain ⟨relation, -, hstub⟩ := List.mem_filterMap.mp hmem
  unfold Relation.stub? at hstub
  split at hstub
  · split at hstub
    · rename_i key _ _
      cases hstub
      exact ⟨relation.target, (i.get? key).getD .null, rfl⟩
    · cases hstub
  · cases hstub

theorem ordered_stub (target : EntityId) (name : String) (key : Value) :
    (⟨target, [(name, key)], []⟩ : Instance).Ordered := by
  simp [NameMap.Ordered]

theorem mergeRelated_stubOf (target : EntityId) (key : Value) :
    mergeRelated s (stubOf s target key) (stubOf s target key) = stubOf s target key := by
  unfold stubOf
  split
  · rw [mergeRelated_none]
  · have hfields : NameMap.Ordered [((s.entity target).pk, key)] := (ordered_stub target _ key).fields
    rw [mergeRelated_some, if_pos rfl, mergePair, mergeFields_self hfields]
    rfl

theorem tidy_stubOf (target : EntityId) (key : Value) : (stubOf s target key).tidy s = stubOf s target key := by
  unfold stubOf
  split
  · rfl
  · rw [Related.tidy, Option.map_some, tidy_eq]
    rfl

/-! ### Which slices there are -/

/-- What the slices at a node show of a relation: each of the slices one relation further, or nothing. -/
def JoinNode.found (s : Schema) (node : JoinNode) (i : Instance) : List (Option Instance) :=
  if (i.relatedBy node.name).isEmpty then [none] else ((i.relatedBy node.name).flatMap (node.slices s)).map some

theorem found_of_none {node : JoinNode} {i : Instance} (h : i.related? node.name = some (.one none)) :
    node.found s i = [none] := by
  rw [JoinNode.found, if_pos]
  rw [Instance.relatedBy_of_related? h]
  rfl

theorem found_of_one {node : JoinNode} {i c : Instance} (h : i.related? node.name = some (.one (some c))) :
    node.found s i = (node.slices s c).map some := by
  have hsome : i.relatedBy node.name = [c] := Instance.relatedBy_of_related? h
  rw [JoinNode.found, hsome, List.flatMap_singleton]
  rfl

theorem nodesSlices_cons (node : JoinNode) (rest : List JoinNode) (i : Instance) :
    nodesSlices s (node :: rest) i =
      (node.found s i).flatMap fun o =>
        (nodesSlices s rest i).map ((node.name, Materializer.relatedOf node.toMany o) :: ·) := rfl

theorem JoinNode.slices_eq (node : JoinNode) (i : Instance) :
    node.slices s i = (nodesSlices s node.children i).map (i.loading s node.columns) := by
  cases node
  rfl

theorem found_ne_nil {node : JoinNode} {i : Instance} (h : ∀ c, node.slices s c ≠ []) : node.found s i ≠ [] := by
  unfold JoinNode.found
  split
  · simp
  · rename_i hempty
    rcases hc : i.relatedBy node.name with - | ⟨c, rest⟩
    · rw [hc] at hempty
      exact absurd rfl hempty
    · rw [List.flatMap_cons, List.map_append]
      refine List.append_ne_nil_of_left_ne_nil ?_ _
      simpa using h c

theorem nodesSlices_ne_nil {nodes : List JoinNode} (h : ∀ node ∈ nodes, ∀ c, node.slices s c ≠ []) (i : Instance) :
    nodesSlices s nodes i ≠ [] := by
  induction nodes with
  | nil => simp [nodesSlices]
  | cons node rest ih =>
    have hrest := ih fun n hn => h n (List.mem_cons_of_mem _ hn)
    obtain ⟨o, more, ho⟩ := List.exists_cons_of_ne_nil (found_ne_nil (i := i) (h node (List.mem_cons_self ..)))
    rw [nodesSlices_cons, ho, List.flatMap_cons]
    refine List.append_ne_nil_of_left_ne_nil ?_ _
    simpa using hrest

theorem slices_ne_nil (node : JoinNode) (i : Instance) : node.slices s i ≠ [] := by
  induction node using JoinNode.children_induction generalizing i with
  | step node ih =>
    have hne := nodesSlices_ne_nil ih i
    rw [node.slices_eq]
    simpa using hne

theorem map_fst_of_mem_nodesSlices {nodes : List JoinNode} {i : Instance} {joined : List (String × Related)}
    (h : joined ∈ nodesSlices s nodes i) : joined.map (·.1) = nodes.map (·.name) := by
  induction nodes generalizing joined with
  | nil =>
    rw [List.mem_singleton.mp h]
    rfl
  | cons node rest ih =>
    rw [nodesSlices_cons] at h
    obtain ⟨o, -, h⟩ := List.mem_flatMap.mp h
    obtain ⟨more, hmore, rfl⟩ := List.mem_map.mp h
    rw [List.map_cons, List.map_cons, ih hmore]

open scoped Classical in
/-- Whatever the other relations lead to, the slices show what a relation leads to in the same order. -/
theorem sameFirsts_nodesSlices {nodes : List JoinNode} (h : (nodes.map (·.name)).Nodup) {node : JoinNode}
    (hn : node ∈ nodes) (i : Instance) :
    SameFirsts ((nodesSlices s nodes i).map fun joined => NameMap.get? joined node.name)
      ((node.found s i).map fun o => some (Materializer.relatedOf node.toMany o)) := by
  induction nodes with
  | nil => cases hn
  | cons first rest ih =>
    rw [List.map_cons, List.nodup_cons] at h
    have hrest : nodesSlices s rest i ≠ [] := nodesSlices_ne_nil (fun n _ => slices_ne_nil n) i
    rw [nodesSlices_cons, List.map_flatMap]
    simp only [List.map_map, Function.comp_def, NameMap.get?_cons]
    rcases List.mem_cons.mp hn with rfl | hmem
    · simp only [if_true]
      refine sameFirsts_flatMap_copies (fun o _ => by simpa using hrest) fun o _ x hx => ?_
      obtain ⟨_, -, rfl⟩ := List.mem_map.mp hx
      rfl
    · have hne : first.name ≠ node.name := fun e => h.1 (e ▸ List.mem_map_of_mem hmem)
      simp only [if_neg hne]
      exact (sameFirsts_flatMap_const _ _ (found_ne_nil (slices_ne_nil first))).trans (ih h.2 hmem)

theorem key_loading (columns : List SelectedColumn) (i : Instance) (joined : List (String × Related)) :
    (i.loading s columns joined).key s = i.key s := rfl

theorem key_of_mem_slices {node : JoinNode} {i x : Instance} (h : x ∈ node.slices s i) : x.key s = i.key s := by
  rw [node.slices_eq] at h
  obtain ⟨joined, -, rfl⟩ := List.mem_map.mp h
  exact key_loading node.columns i joined

theorem mem_slices_of_mem_found {node : JoinNode} {i x : Instance} (h : some x ∈ node.found s i) :
    x ∈ (i.relatedBy node.name).flatMap (node.slices s) := by
  unfold JoinNode.found at h
  split at h
  · simp at h
  · obtain ⟨y, hy, he⟩ := List.mem_map.mp h
    cases he
    exact hy

/-- What a slice has loaded under the name of a node is one of the slices one relation further, or nothing. -/
theorem related?_of_mem_nodesSlices {nodes : List JoinNode} (h : (nodes.map (·.name)).Nodup) {node : JoinNode}
    (hn : node ∈ nodes) {i : Instance} {joined : List (String × Related)} (hj : joined ∈ nodesSlices s nodes i)
    (columns : List SelectedColumn) :
    ∃ o ∈ node.found s i,
      (i.loading s columns joined).related? node.name = some (Materializer.relatedOf node.toMany o) := by
  classical
  have hmem := (sameFirsts_nodesSlices h hn i).mem_iff.mp (List.mem_map_of_mem hj)
  obtain ⟨o, ho, he⟩ := List.mem_map.mp hmem
  refine ⟨o, ho, ?_⟩
  rw [related?_loading, ← he]
  rfl

theorem related?_of_not_mem {nodes : List JoinNode} {name : String} (h : name ∉ nodes.map (·.name)) {i : Instance}
    {joined : List (String × Related)} (hj : joined ∈ nodesSlices s nodes i) (columns : List SelectedColumn) :
    (i.loading s columns joined).related? name = NameMap.get? (stubsOf s columns i) name := by
  have hnone : NameMap.get? joined name = none := by
    rw [NameMap.get?_eq_none_iff, map_fst_of_mem_nodesSlices hj]
    exact h
  rw [related?_loading, hnone, Option.none_or]

theorem instances_relatedOf (toMany : Bool) (o : Option Instance) :
    (Materializer.relatedOf toMany o).instances = o.toList := by
  cases toMany <;> rfl

theorem ordered_loading {nodes : List JoinNode} {columns : List SelectedColumn} {i : Instance}
    (hf : NameMap.Ordered i.fields) (h : (nodes.map (·.name)).Nodup)
    (hs : ∀ node ∈ nodes, ∀ c ∈ i.relatedBy node.name, ∀ x ∈ node.slices s c, x.Ordered)
    {joined : List (String × Related)} (hj : joined ∈ nodesSlices s nodes i) : (i.loading s columns joined).Ordered := by
  have hrel : NameMap.Ordered (i.loading s columns joined).relations := NameMap.ordered_ofFirst _
  refine Instance.ordered_iff.mpr ⟨hf, hrel, ?_⟩
  rintro ⟨name, r⟩ hp c hc
  have hget : (i.loading s columns joined).related? name = some r := hrel.get?_eq_some_iff.mpr hp
  by_cases hname : name ∈ nodes.map (·.name)
  · obtain ⟨node, hn, rfl⟩ := List.mem_map.mp hname
    obtain ⟨o, ho, hrelated⟩ := related?_of_mem_nodesSlices h hn hj columns
    rw [hrelated] at hget
    cases hget
    rw [instances_relatedOf, Option.mem_toList] at hc
    cases hc
    obtain ⟨d, hd, hx⟩ := List.mem_flatMap.mp (mem_slices_of_mem_found ho)
    exact hs node hn d hd c hx
  · rw [related?_of_not_mem hname hj] at hget
    obtain ⟨target, key, rfl⟩ := exists_of_get?_stubsOf hget
    unfold stubOf at hc
    split at hc
    · cases hc
    · rw [List.mem_singleton.mp hc]
      exact ordered_stub target _ key

theorem ordered_of_mem_slices {node : JoinNode} (hc : node.Complete s) {i : Instance}
    (hf : Fits s node.target node.columns node.children i) : ∀ x ∈ node.slices s i, x.Ordered := by
  induction hc generalizing i with
  | @intro node _ names _ ih =>
    intro x hx
    rw [node.slices_eq] at hx
    obtain ⟨joined, hj, rfl⟩ := List.mem_map.mp hx
    exact ordered_loading hf.fieldsFit.ordered names (fun n hn c hc => ih n hn (hf.relatedBy hn c hc)) hj

/-! ### Merging slices -/

section
open scoped Classical

/-- All instances that slices show under the name of a node are the slices one relation further. -/
theorem sameFirsts_relatedBy {nodes : List JoinNode} (h : (nodes.map (·.name)).Nodup) {node : JoinNode}
    (hn : node ∈ nodes) {columns : List SelectedColumn} {i : Instance} {l : List Instance}
    (hl : SameFirsts l ((nodesSlices s nodes i).map (i.loading s columns))) :
    SameFirsts (l.flatMap (·.relatedBy node.name)) ((i.relatedBy node.name).flatMap (node.slices s)) := by
  have hslices : (nodesSlices s nodes i).flatMap (fun joined => (i.loading s columns joined).relatedBy node.name) =
      ((nodesSlices s nodes i).map fun joined => NameMap.get? joined node.name).flatMap
        fun o => (o.map Related.instances).getD [] := by
    rw [List.flatMap_map]
    refine List.flatMap_congr fun joined hj => ?_
    have hmem : node.name ∈ joined.map (·.1) := by
      rw [map_fst_of_mem_nodesSlices hj]
      exact List.mem_map_of_mem hn
    obtain ⟨r, hr⟩ := NameMap.exists_get?_of_mem hmem
    rw [Instance.relatedBy, related?_loading, hr, Option.some_or]
  have hfound : ((node.found s i).map fun o => some (Materializer.relatedOf node.toMany o)).flatMap
      (fun o => (o.map Related.instances).getD []) = (i.relatedBy node.name).flatMap (node.slices s) := by
    rw [List.flatMap_map]
    simp only [Option.map_some, Option.getD_some, instances_relatedOf]
    unfold JoinNode.found
    split
    · rename_i hempty
      rw [List.isEmpty_iff.mp hempty]
      rfl
    · rw [List.flatMap_map]
      simp only [Option.toList_some, List.flatMap_singleton']
  have hrelated := hl.flatMap (·.relatedBy node.name)
  rw [List.flatMap_map, hslices] at hrelated
  refine hrelated.trans ?_
  rw [← hfound]
  exact (sameFirsts_nodesSlices h hn i).flatMap _

/-- A forest of distinct keys, each of whose instances is given back by merging what it is repeated as, is given back
by merging what the whole forest is repeated as. -/
theorem merge_repeated {forest : List Instance} (hkeys : (forest.map (·.key s)).Nodup)
    {repeated : Instance → List Instance} (hne : ∀ i, repeated i ≠ [])
    (hkey : ∀ i, ∀ x ∈ repeated i, x.key s = i.key s) {result : Instance → Instance}
    (hmerge : ∀ i ∈ forest, ∀ l m, SameFirsts l (repeated i) → MergeOf s l m → m.tidy s = result i) {l : List Instance}
    (hl : SameFirsts l (forest.flatMap repeated)) : merge s l = forest.map result := by
  have hfirst : distinct (l.map (·.key s)) = forest.map (·.key s) := by
    have hmap := hl.map (·.key s)
    rw [List.map_flatMap] at hmap
    have hcopies : SameFirsts (forest.flatMap fun i => (repeated i).map (·.key s)) (forest.map (·.key s)) := by
      refine sameFirsts_flatMap_copies (fun i _ => by simpa using hne i) fun i _ k hk => ?_
      obtain ⟨x, hx, rfl⟩ := List.mem_map.mp hk
      exact hkey i x hx
    exact Eq.trans (hmap.trans hcopies) (distinct_eq_self hkeys)
  have hgroup : ∀ i ∈ forest, SameFirsts (l.filter fun j => j.key s = i.key s) (repeated i) := by
    intro i hi
    have hgroup := hl.filter fun j => decide (j.key s = i.key s)
    rwa [filter_flatMap_of_forall fun j _ x hx => congrArg (fun k => decide (k = i.key s)) (hkey j x hx),
      filter_key_eq_singleton hkeys hi, List.flatMap_singleton] at hgroup
  rw [merge_eq]
  unfold mergeThen groupByKey
  rw [hfirst, List.map_map, List.filterMap_map]
  refine List.filterMap_eq_map_iff_forall_eq_some.mpr fun i hi => ?_
  have hne' := (hgroup i hi).ne_nil (hne i)
  obtain ⟨m, hm, hof⟩ := mergeGroup?_mergeOf (s := s) hne'
  simp only [Function.comp_apply, hm, Option.map_some, hmerge i hi _ m (hgroup i hi) hof]

theorem related?_tidy_of_joined {id : EntityId} {columns : List SelectedColumn} {nodes : List JoinNode}
    (hnames : (nodes.map (·.name)).Nodup) {i : Instance} (hf : Fits s id columns nodes i) {node : JoinNode}
    (hn : node ∈ nodes)
    (ih : ∀ c, Fits s node.target node.columns node.children c →
      ∀ l m, SameFirsts l (node.slices s c) → MergeOf s l m → m.tidy s = node.withStubs s c)
    {l : List Instance} {m : Instance} (ho : ∀ a ∈ l, a.Ordered)
    (hl : SameFirsts l ((nodesSlices s nodes i).map (i.loading s columns))) (hm : MergeOf s l m) :
    (m.related? node.name).map (Related.tidy s) =
      some (((i.related? node.name).getD (.one none)).mapInstances (node.withStubs s)) := by
  obtain ⟨r, hr, hkind, hbelow⟩ := hf.exists_related hn
  have hfirsts := sameFirsts_relatedBy hnames hn hl
  have hshown : ∀ a ∈ l, ∃ o ∈ node.found s i, a.related? node.name = some (Materializer.relatedOf node.toMany o) := by
    intro a ha
    obtain ⟨joined, hj, rfl⟩ := List.mem_map.mp (hl.mem_iff.mp ha)
    exact related?_of_mem_nodesSlices hnames hn hj columns
  rw [hr, Option.getD_some]
  rw [Instance.relatedBy_of_related? hr] at hfirsts
  -- many instances, none, or one: slices of one instance lead to one again, those of none to nothing
  cases r with
  | many children =>
    obtain ⟨htoMany, hkeys⟩ := hkind
    rw [hm.related?_many ho, Option.map_some, Related.tidy]
    · exact congrArg (fun l => some (Related.many l)) (merge_repeated hkeys (slices_ne_nil node)
        (fun c x hx => key_of_mem_slices hx) (fun c hc l m hl hm => ih c (hbelow c hc) l m hl hm) hfirsts)
    · intro a ha
      obtain ⟨o, -, hrel⟩ := hshown a ha
      rw [htoMany] at hrel
      exact ⟨o.toList, hrel⟩
  | one related =>
    have htoMany : node.toMany = false := hkind
    cases related with
    | none =>
      have hnone : ∀ a ∈ l, a.related? node.name = some (.one none) := by
        intro a ha
        obtain ⟨o, ho, hrel⟩ := hshown a ha
        rw [found_of_none hr, List.mem_singleton] at ho
        rw [hrel, htoMany, ho]
        rfl
      rw [hm.related?_const ho hnone rfl]
      rfl
    | some c =>
      have hone : ∀ a ∈ l, ∃ x, a.related? node.name = some (.one (some x)) ∧ x.key s = c.key s := by
        intro a ha
        obtain ⟨o, ho, hrel⟩ := hshown a ha
        rw [found_of_one hr] at ho
        obtain ⟨x, hx, rfl⟩ := List.mem_map.mp ho
        rw [htoMany] at hrel
        exact ⟨x, hrel, key_of_mem_slices hx⟩
      obtain ⟨x, hx, -, hof⟩ := hm.related?_one ho hone
      have hc : c ∈ (Related.one (some c)).instances := List.mem_singleton_self c
      rw [show (Related.one (some c)).instances = [c] from rfl, List.flatMap_singleton] at hfirsts
      rw [hx, Option.map_some, Related.tidy, Option.map_some, ih c (hbelow c hc) _ x hfirsts hof]
      rfl

/-- A relation for which all instances have the same stub keeps it. -/
theorem related?_tidy_of_const {columns : List SelectedColumn} {i : Instance} {name : String} {l : List Instance}
    {m : Instance} (ho : ∀ a ∈ l, a.Ordered)
    (hconst : ∀ a ∈ l, a.related? name = NameMap.get? (stubsOf s columns i) name) (hm : MergeOf s l m) :
    (m.related? name).map (Related.tidy s) = NameMap.get? (stubsOf s columns i) name := by
  rcases hstub : NameMap.get? (stubsOf s columns i) name with - | r
  · rw [hstub] at hconst
    rw [hm.related?_const ho hconst rfl]
    rfl
  · obtain ⟨target, key, rfl⟩ := exists_of_get?_stubsOf hstub
    rw [hstub] at hconst
    rw [hm.related?_const ho hconst (by rw [mergeLoaded, mergeRelated_stubOf]), Option.map_some, tidy_stubOf]

/-- What merging and tidying slices gives for a relation that is not joined: its stub. -/
theorem related?_tidy_of_stub {nodes : List JoinNode} {columns : List SelectedColumn} {i : Instance} {name : String}
    (hname : name ∉ nodes.map (·.name)) {l : List Instance} {m : Instance} (ho : ∀ a ∈ l, a.Ordered)
    (hl : SameFirsts l ((nodesSlices s nodes i).map (i.loading s columns))) (hm : MergeOf s l m) :
    (m.related? name).map (Related.tidy s) = NameMap.get? (stubsOf s columns i) name := by
  refine related?_tidy_of_const ho (fun a ha => ?_) hm
  obtain ⟨joined, hj, rfl⟩ := List.mem_map.mp (hl.mem_iff.mp ha)
  exact related?_of_not_mem hname hj columns

/-- Merging what an instance is repeated as, given that this works one relation further, gives back the instance with
stubs. -/
theorem tidy_of_mergeOf_slices {id : EntityId} {columns : List SelectedColumn} {nodes : List JoinNode}
    (hnames : (nodes.map (·.name)).Nodup) (hcomplete : ∀ node ∈ nodes, node.Complete s)
    (ih : ∀ node ∈ nodes, ∀ c, Fits s node.target node.columns node.children c →
      ∀ l m, SameFirsts l (node.slices s c) → MergeOf s l m → m.tidy s = node.withStubs s c)
    {i : Instance} (hf : Fits s id columns nodes i) {l : List Instance} {m : Instance}
    (hl : SameFirsts l ((nodesSlices s nodes i).map (i.loading s columns))) (hm : MergeOf s l m) :
    m.tidy s = i.loading s columns (nodesWithStubs s nodes i) := by
  have hmem : ∀ a ∈ l, ∃ joined ∈ nodesSlices s nodes i, a = i.loading s columns joined := by
    intro a ha
    obtain ⟨joined, hj, rfl⟩ := List.mem_map.mp (hl.mem_iff.mp ha)
    exact ⟨joined, hj, rfl⟩
  have ho : ∀ a ∈ l, a.Ordered := by
    intro a ha
    obtain ⟨joined, hj, rfl⟩ := hmem a ha
    exact ordered_loading hf.fieldsFit.ordered hnames
      (fun node hn c hc => ordered_of_mem_slices (hcomplete node hn) (hf.relatedBy hn c hc)) hj
  refine Instance.ext_related (ordered_tidy (hm.ordered ho)).relations (NameMap.ordered_ofFirst _) ?_ ?_ fun name => ?_
  · rw [tidy_entity]
    refine hm.entity fun a ha => ?_
    obtain ⟨joined, -, rfl⟩ := hmem a ha
    rfl
  · rw [tidy_fields]
    refine hm.fields hf.fieldsFit.ordered fun a ha => ?_
    obtain ⟨joined, -, rfl⟩ := hmem a ha
    rfl
  · rw [related?_tidy, related?_loading]
    by_cases hname : name ∈ nodes.map (·.name)
    · obtain ⟨node, hn, rfl⟩ := List.mem_map.mp hname
      rw [get?_nodesWithStubs hnames hn, Option.some_or]
      exact related?_tidy_of_joined hnames hf hn (ih node hn) ho hl hm
    · have hnone : NameMap.get? (nodesWithStubs s nodes i) name = none := by
        rw [NameMap.get?_eq_none_iff, map_fst_nodesWithStubs]
        exact hname
      rw [hnone, Option.none_or]
      exact related?_tidy_of_stub hname ho hl hm

theorem tidy_of_node_slices {node : JoinNode} (hc : node.Complete s) (i : Instance)
    (hf : Fits s node.target node.columns node.children i) (l : List Instance) (m : Instance)
    (hl : SameFirsts l (node.slices s i)) (hm : MergeOf s l m) : m.tidy s = node.withStubs s i := by
  induction hc generalizing i l m with
  | @intro node _ names below ih =>
    rw [node.slices_eq] at hl
    rw [tidy_of_mergeOf_slices names below ih hf hl hm]
    cases node
    rfl

end

/-! ### The forest of a planned tree -/

theorem merge_slices {t : JoinTree} (hc : t.Complete s) {forest : List Instance} (hf : t.FitsForest s forest) :
    merge s (forest.flatMap (t.slices s)) = forest.map (t.withStubs s) := by
  classical
  refine merge_repeated hf.keys (fun i => ?_) (fun i x hx => ?_) (fun i hi l m hl hm => ?_) (SameFirsts.refl _)
  · have hne := nodesSlices_ne_nil (fun node (_ : node ∈ t.children) => slices_ne_nil (s := s) node) i
    simpa [JoinTree.slices] using hne
  · obtain ⟨joined, -, rfl⟩ := List.mem_map.mp hx
    exact key_loading t.columns i joined
  · exact tidy_of_mergeOf_slices hc.names hc.below
      (fun node hn c hfit => tidy_of_node_slices (hc.below node hn) c hfit) (hf.roots i hi) hl hm

/-- Slicing the rows that outer joins make of a forest along a planned tree, and merging the slices, gives back the
forest with stubs for the foreign keys that are selected but not joined. -/
theorem merge_materialized_fanOut (s : Schema) (settings : Settings) (registry registry' : AliasRegistry)
    (r : Request) (planned : PlannedQuery) (hplan : r.plan s settings registry = (.ok planned, registry'))
    (hlabels : ((planned.tree.selectList (s.entity r.root).table).map (·.label)).Nodup)
    (forest : List Instance) (hfit : planned.tree.FitsForest s forest) :
    ∃ found, Materializer.ofRows ⟨s, .standard⟩ planned.tree (planned.tree.fanOut forest) = .ok found ∧
      merge s found = forest.map (planned.tree.withStubs s) := by
  obtain ⟨p, hp, hpok⟩ := prepared_of_plan hplan
  obtain ⟨_, _, _, htree, -⟩ := plan_eq_ok hpok
  have hc := complete_of_tree hp htree
  exact ⟨_, ofRows_fanOut hc hlabels hfit.roots, merge_slices hc hfit⟩

def shelfSchema : Schema :=
  ⟨[⟨"Author", "authors", "id", [⟨"id", "id", false⟩, ⟨"name", "name", true⟩]⟩,
    ⟨"Book", "books", "id", [⟨"id", "id", false⟩, ⟨"author_id", "author_id", true⟩]⟩,
    ⟨"Prize", "prizes", "id", [⟨"id", "id", false⟩, ⟨"author_id", "author_id", true⟩]⟩],
   [⟨"author", .foreignKey "author_id", ⟨1⟩, ⟨0⟩, true, false, some "books", ⟨1⟩⟩,
    ⟨"books", .reverseForeignKey "author_id", ⟨0⟩, ⟨1⟩, true, true, some "author", ⟨0⟩⟩,
    ⟨"author", .foreignKey "author_id", ⟨2⟩, ⟨0⟩, true, false, some "prizes", ⟨3⟩⟩,
    ⟨"prizes", .reverseForeignKey "author_id", ⟨0⟩, ⟨2⟩, true, true, some "author", ⟨2⟩⟩]⟩

def shelfRequest : Request := { root := ⟨0⟩, selectRelated := [⟨["books"]⟩, ⟨["prizes"]⟩] }

def shelfRegistry : AliasRegistry :=
  ⟨6, [(.edge "authors" "books", ⟨"b00c5a"⟩), (.edge "authors" "prizes", ⟨"9f12e0"⟩)]⟩

def shelfTree : JoinTree :=
  ⟨⟨0⟩, [⟨"id", "id", "id"⟩, ⟨"name", "name", "name"⟩],
    [⟨⟨1⟩, "books", ⟨["books"]⟩, ⟨1⟩, ⟨"b00c5a"⟩, true, false,
      [⟨"id", "id", "b00c5a_id"⟩, ⟨"author_id", "author_id", "b00c5a_author_id"⟩], []⟩,
     ⟨⟨3⟩, "prizes", ⟨["prizes"]⟩, ⟨2⟩, ⟨"9f12e0"⟩, true, false,
      [⟨"id", "id", "9f12e0_id"⟩, ⟨"author_id", "author_id", "9f12e0_author_id"⟩], []⟩]⟩

def shelfItem (entity : EntityId) (id author : Value) : Instance :=
  ⟨entity, [("author_id", author), ("id", id)], []⟩

def shelfAuthor (id name : Value) (books prizes : List Instance) : Instance :=
  ⟨⟨0⟩, [("id", id), ("name", name)], [("books", .many books), ("prizes", .many prizes)]⟩

/-- An author of two books with two prizes, and an author of nothing. -/
def shelfForest : List Instance :=
  [shelfAuthor (.int 1) (.text "a") [shelfItem ⟨1⟩ (.int 10) (.int 1), shelfItem ⟨1⟩ (.int 11) .null]
    [shelfItem ⟨2⟩ (.int 20) (.int 1), shelfItem ⟨2⟩ (.int 21) (.int 1)],
   shelfAuthor (.int 2) .null [] []]

theorem fits_shelfItem {entity : EntityId} (he : entity = ⟨1⟩ ∨ entity = ⟨2⟩) {idLabel keyLabel : String}
    {id author : Value} (h : id ≠ .null) :
    Fits shelfSchema entity [⟨"id", "id", idLabel⟩, ⟨"author_id", "author_id", keyLabel⟩] []
      (shelfItem entity id author) := by
  have ho : NameMap.Ordered [("author_id", author), ("id", id)] := by
    change List.Pairwise (· < ·) ["author_id", "id"]
    decide
  refine .intro ⟨rfl, ho, ?_, ?_, ?_, ?_⟩ ?_ ?_ ?_ ?_ <;> rcases he with rfl | rfl <;>
    simp [shelfItem, NameMap.Ordered, shelfSchema, Schema.entity, Instance.pk, Instance.get?, NameMap.get?, or_comm, h,
      Instance.related?]

theorem fits_shelfAuthor {id name : Value} {books prizes : List Instance} (h : id ≠ .null)
    (hbooks : (books.map (·.key shelfSchema)).Nodup)
    (hbook : ∀ c ∈ books, ∃ id author, id ≠ .null ∧ c = shelfItem ⟨1⟩ id author)
    (hprizes : (prizes.map (·.key shelfSchema)).Nodup)
    (hprize : ∀ c ∈ prizes, ∃ id author, id ≠ .null ∧ c = shelfItem ⟨2⟩ id author) :
    Fits shelfSchema shelfTree.root shelfTree.columns shelfTree.children (shelfAuthor id name books prizes) := by
  have ho : NameMap.Ordered [("id", id), ("name", name)] := by
    change List.Pairwise (· < ·) ["id", "name"]
    decide
  have hr : NameMap.Ordered [("books", Related.many books), ("prizes", .many prizes)] := by
    change List.Pairwise (· < ·) ["books", "prizes"]
    decide
  refine .intro ⟨rfl, ho, ?_, ?_, ?_, ?_⟩ hr ?_ ?_ ?_
  · simp [shelfAuthor, shelfSchema, shelfTree, Schema.entity]
  · simp [shelfAuthor, shelfSchema, Schema.entity, Instance.pk, Instance.get?, NameMap.get?, h]
  · simp [shelfAuthor, shelfSchema, shelfTree, Schema.entity, Instance.get?, NameMap.get?, h]
  · simp [shelfSchema, shelfTree, Schema.entity]
  · simp [shelfAuthor, shelfTree]
  · simp [shelfAuthor, shelfTree, Instance.related?, NameMap.get?, Related.FitsKind, hbooks, hprizes]
  · intro node hn r hrel c hc
    rcases List.mem_pair.mp hn with rfl | rfl <;> cases hrel
    · obtain ⟨id, author, hid, rfl⟩ := hbook c hc
      exact fits_shelfItem (.inl rfl) hid
    · obtain ⟨id, author, hid, rfl⟩ := hprize c hc
      exact fits_shelfItem (.inr rfl) hid

theorem fitsForest_shelfForest : shelfTree.FitsForest shelfSchema shelfForest := by
  refine ⟨by decide, fun i hi => ?_⟩
  rcases List.mem_pair.mp hi with rfl | rfl
  · refine fits_shelfAuthor (by decide) (by decide) (fun c hc => ?_) (by decide) fun c hc => ?_
    · rcases List.mem_pair.mp hc with rfl | rfl
      · exact ⟨.int 10, .int 1, by decide, rfl⟩
      · exact ⟨.int 11, .null, by decide, rfl⟩
    · rcases List.mem_pair.mp hc with rfl | rfl
      · exact ⟨.int 20, .int 1, by decide, rfl⟩
      · exact ⟨.int 21, .int 1, by decide, rfl⟩
  · exact fits_shelfAuthor (by decide) (by decide) (by simp) (by decide) (by simp)

theorem merge_materialized_fanOut_shelf :
    ∃ planned registry', shelfRequest.plan shelfSchema {} shelfRegistry = (.ok planned, registry') ∧
      ((planned.tree.selectList (shelfSchema.entity shelfRequest.root).table).map (·.label)).Nodup ∧
      planned.tree.FitsForest shelfSchema shelfForest ∧
      ∃ found,
        Materializer.ofRows ⟨shelfSchema, .standard⟩ planned.tree (planned.tree.fanOut shelfForest) = .ok found ∧
          merge shelfSchema found = shelfForest.map (planned.tree.withStubs shelfSchema) := by
  have hplan : (shelfRequest.plan shelfSchema {} shelfRegistry).1.map (·.tree) = .ok shelfTree := by rfl
  obtain ⟨planned, hok, htree⟩ := map_eq_ok.mp hplan
  have hpair : shelfRequest.plan shelfSchema {} shelfRegistry =
      (.ok planned, (shelfRequest.plan shelfSchema {} shelfRegistry).2) := Prod.ext hok rfl
  have hlabels : ((planned.tree.selectList (shelfSchema.entity shelfRequest.root).table).map (·.label)).Nodup := by
    rw [htree]
    decide
  have hfit : planned.tree.FitsForest shelfSchema shelfForest := by
    rw [htree]
    exact fitsForest_shelfForest
  exact ⟨planned, _, hpair, hlabels, hfit, merge_materialized_fanOut shelfSchema {} shelfRegistry _ shelfRequest planned
    hpair hlabels shelfForest hfit⟩

end RelQuery
