import RelQuery.Plan
import RelQuery.Proofs.Request

/-!
# Planned trees

Where the nodes of a join tree come from: each stands for a joined path that the projection keeps, and the nodes one
relation below another are named differently. From this follows what slicing rows along the tree needs.
-/

namespace RelQuery

variable {s : Schema}

/-- The node stands for a joined path, and so do all nodes below it. -/
inductive JoinNode.Planned (src : JoinSource) : JoinNode → Prop where
  | intro {r : ResolvedPath} {a : JoinAlias} {children : List JoinNode} (mem : r ∈ src.resolved)
      (kept : src.projection.excludesPath r.path = false) (named : src.aliases.get? r.path = some a)
      (names : (children.map (·.name)).Nodup) (below : ∀ child ∈ children, child.Planned src) :
      (src.node r (r.lastHop?.getD default) a.target children).Planned src

theorem segments_of_mem_stepsFrom {src : JoinSource} {parent : Path} {r : ResolvedPath}
    (h : r ∈ src.stepsFrom parent) : r ∈ src.resolved ∧ ∃ name, r.path.segments = parent.segments ++ [name] := by
  unfold JoinSource.stepsFrom at h
  simp only [List.mem_filter, Bool.and_eq_true, beq_iff_eq, Path.isPrefixOf_iff] at h
  obtain ⟨hr, hlen, tail, htail⟩ := h
  refine ⟨hr, ?_⟩
  have hone : tail.length = 1 := by
    have hsum := congrArg List.length htail
    rw [List.length_append] at hsum
    unfold Path.length at hlen
    omega
  obtain ⟨name, rfl⟩ := List.length_eq_one_iff.mp hone
  exact ⟨name, htail.symm⟩

theorem name_of_resolves {root : EntityId} {r : ResolvedPath} (h : r.Resolves s root) {names : List String}
    {name : String} (hp : r.path.segments = names ++ [name]) : (s.relation (r.lastHop?.getD default)).name = name := by
  obtain ⟨_, mid, id, -, hid, hlast, -⟩ := h.lastHop hp
  rw [hlast, Option.getD_some]
  exact (relation_of_findRelation? hid).2.2

/-- The nodes below a path stand one by one for the kept paths one relation further. -/
theorem forall₂_of_nodesBelow {src : JoinSource} {levels : Nat} {parent : Path} {nodes : List JoinNode}
    (h : src.nodesBelow (levels + 1) parent = .ok nodes) :
    List.Forall₂
      (fun r node => ∃ a children, src.aliases.get? r.path = some a ∧ src.nodesBelow levels r.path = .ok children ∧
        node = src.node r (r.lastHop?.getD default) a.target children)
      ((src.stepsFrom parent).filter fun r => !src.projection.excludesPath r.path) nodes := by
  unfold JoinSource.nodesBelow at h
  refine (mapM_eq_ok.mp h).imp fun r node he => ?_
  rcases ha : src.aliases.get? r.path with - | a
  · rw [ha] at he
    cases he
  · rw [ha] at he
    obtain ⟨children, hchildren, rfl⟩ := map_eq_ok.mp he
    exact ⟨a, children, rfl, hchildren, rfl⟩

/-- A joined path one relation further has a node if the projection keeps it. -/
theorem exists_node_of_nodesBelow {src : JoinSource} {root : EntityId} (hj : JoinedPaths src.schema root src.resolved)
    {levels : Nat} {parent : Path} {nodes : List JoinNode} (h : src.nodesBelow (levels + 1) parent = .ok nodes)
    {r : ResolvedPath} (hr : r ∈ src.resolved) {name : String} (hpath : r.path = parent.child name)
    (hkept : src.projection.excludesPath r.path = false) :
    ∃ a children, src.nodesBelow levels r.path = .ok children ∧
      (src.schema.relation (r.lastHop?.getD default)).name = name ∧
        src.node r (r.lastHop?.getD default) a children ∈ nodes := by
  have hstep : r ∈ (src.stepsFrom parent).filter fun r => !src.projection.excludesPath r.path := by
    refine List.mem_filter.mpr ⟨List.mem_filter.mpr ⟨hr, Bool.and_eq_true_iff.mpr ⟨?_, ?_⟩⟩, ?_⟩
    · rw [hpath, Path.length_child]
      exact beq_self_eq_true _
    · rw [hpath]
      exact Path.isPrefixOf_iff.mpr (List.prefix_append _ _)
    · rw [hkept]
      rfl
  obtain ⟨node, hnode, a, children, -, hchildren, rfl⟩ := exists_of_mem_forall₂ (forall₂_of_nodesBelow h).flip hstep
  exact ⟨a.target, children, hchildren, name_of_resolves (hj.resolves r hr) (congrArg Path.segments hpath), hnode⟩

theorem exists_step_of_nodesBelow {src : JoinSource} {levels : Nat} {path : Path} {nodes : List JoinNode}
    (h : src.nodesBelow levels path = .ok nodes) {node : JoinNode} (hnode : node ∈ nodes) :
    ∃ a children, ∃ r ∈ src.resolved, node = src.node r (r.lastHop?.getD default) a children := by
  cases levels with
  | zero =>
    cases h
    cases hnode
  | succ levels =>
    obtain ⟨r, hr, a, children, -, -, rfl⟩ := exists_of_mem_forall₂ (forall₂_of_nodesBelow h) hnode
    exact ⟨_, children, r, (segments_of_mem_stepsFrom (List.mem_filter.mp hr).1).1, rfl⟩

theorem nodup_names_of_nodesBelow {src : JoinSource} {root : EntityId}
    (hj : JoinedPaths src.schema root src.resolved) {levels : Nat} {parent : Path} {nodes : List JoinNode}
    (h : src.nodesBelow (levels + 1) parent = .ok nodes) : (nodes.map (·.name)).Nodup := by
  have hsame : List.Forall₂ (· = ·)
      (((src.stepsFrom parent).filter fun r => !src.projection.excludesPath r.path).map
        fun r => (src.schema.relation (r.lastHop?.getD default)).name)
      (nodes.map (·.name)) := by
    rw [List.forall₂_map_left_iff, List.forall₂_map_right_iff]
    refine (forall₂_of_nodesBelow h).imp fun r node he => ?_
    obtain ⟨a, children, -, -, rfl⟩ := he
    rfl
  rw [List.forall₂_eq_eq_eq] at hsame
  rw [← hsame]
  refine List.Nodup.map_on ?_ (((List.Nodup.of_map _ hj.nodup).filter _).filter _)
  intro r hr t ht he
  obtain ⟨hr, name, hrn⟩ := segments_of_mem_stepsFrom (List.mem_filter.mp hr).1
  obtain ⟨ht, name', htn⟩ := segments_of_mem_stepsFrom (List.mem_filter.mp ht).1
  rw [name_of_resolves (hj.resolves r hr) hrn, name_of_resolves (hj.resolves t ht) htn] at he
  refine List.inj_on_of_nodup_map hj.nodup hr ht ?_
  rw [← he, ← hrn] at htn
  exact congrArg Path.mk htn.symm

theorem planned_of_nodesBelow {src : JoinSource} {root : EntityId} (hj : JoinedPaths src.schema root src.resolved)
    {levels : Nat} {parent : Path} {nodes : List JoinNode} (h : src.nodesBelow levels parent = .ok nodes) :
    (nodes.map (·.name)).Nodup ∧ ∀ node ∈ nodes, node.Planned src := by
  induction levels generalizing parent nodes with
  | zero =>
    cases h
    simp
  | succ levels ih =>
    refine ⟨nodup_names_of_nodesBelow hj h, fun node hn => ?_⟩
    obtain ⟨r, hr, a, children, ha, hchildren, rfl⟩ := exists_of_mem_forall₂ (forall₂_of_nodesBelow h) hn
    obtain ⟨hnames, hbelow⟩ := ih hchildren
    obtain ⟨hr, hkept⟩ := List.mem_filter.mp hr
    exact .intro (segments_of_mem_stepsFrom hr).1 (by simpa using hkept) ha hnames hbelow

/-- The columns that an instance of the entity needs besides its key are selected. -/
def HoldsRequired (s : Schema) (id : EntityId) (columns : List SelectedColumn) : Prop :=
  ∀ c ∈ (s.entity id).columns, c.nullable = false → c.name ≠ (s.entity id).pk →
    columns.any (·.field == c.name) = true

theorem checkEntity_eq_ok {p : Projection} {e : Entity} :
    p.checkEntity e = .ok () ↔
      ∀ c ∈ e.columns, c.nullable = false → c.name ≠ e.pk → p.isIncluded c.name = true := by
  unfold Projection.checkEntity
  split
  · rename_i c hc
    have hp := List.find?_some hc
    simp only [Bool.and_eq_true, Bool.not_eq_true', bne_iff_ne] at hp
    refine iff_of_false (by simp) fun hall => ?_
    have hin := hall c (List.mem_of_find?_eq_some hc) hp.1.1 hp.1.2
    rw [hp.2] at hin
    cases hin
  · rename_i hc
    rw [List.find?_eq_none] at hc
    refine iff_of_true rfl fun c hmem hnull hpk => ?_
    have hnot := hc c hmem
    simpa [hnull, hpk] using hnot

theorem any_field_selectColumns {e : Entity} {p : Projection} {table : Option Alias} {c : Column}
    (hc : c ∈ e.columns) (h : p.isIncluded c.name = true) :
    (selectColumns e p table).any (·.field == c.name) = true := by
  unfold selectColumns Projection.visibleColumns
  simp only [List.any_map, List.any_eq_true, List.mem_filter, Function.comp_apply, beq_iff_eq]
  exact ⟨c, ⟨hc, h⟩, rfl⟩

theorem holdsRequired_of_checkEntity {id : EntityId} {p : Projection} (h : p.checkEntity (s.entity id) = .ok ())
    (table : Option Alias) : HoldsRequired s id (selectColumns (s.entity id) p table) :=
  fun c hc hnull hpk => any_field_selectColumns hc (checkEntity_eq_ok.mp h c hc hnull hpk)

/-- The nodes below a node are named differently, and where instances must be complete the columns are. -/
inductive JoinNode.Complete (s : Schema) : JoinNode → Prop where
  | intro {node : JoinNode} (required : node.isPartial = false → HoldsRequired s node.target node.columns)
      (names : (node.children.map (·.name)).Nodup) (below : ∀ child ∈ node.children, child.Complete s) :
      node.Complete s

/-- The same of a tree, whose root instances must be complete. -/
structure JoinTree.Complete (s : Schema) (t : JoinTree) : Prop where
  required : HoldsRequired s t.root t.columns
  names : (t.children.map (·.name)).Nodup
  below : ∀ child ∈ t.children, child.Complete s

theorem complete_of_planned {src : JoinSource}
    (h : ∀ r ∈ src.resolved, src.projection.excludesPath r.path = false → src.partialPaths.contains r.path = false →
      (src.projection.at_ r.path).checkEntity (src.schema.entity r.target) = .ok ())
    {node : JoinNode} (hn : node.Planned src) : node.Complete src.schema := by
  induction hn with
  | @intro r a children mem kept named names below ih =>
    exact .intro (fun hpartial => holdsRequired_of_checkEntity (h r mem kept hpartial) (some a.target)) names ih

theorem planned_of_tree {registry : AliasRegistry} {r : Request} {p : Prepared} (hp : PreparedFrom s registry r p)
    {t : JoinTree} (h : p.tree = .ok t) :
    t.root = r.root ∧ t.columns = selectColumns (s.entity r.root) p.bound.projection none ∧
      (t.children.map (·.name)).Nodup ∧
      ∀ node ∈ t.children, node.Planned ⟨s, p.bound.resolved, p.aliases, p.bound.projection, r.partialPaths⟩ := by
  obtain ⟨rfl, rfl, hbound, -, -⟩ := hp
  unfold Prepared.tree JoinSource.tree at h
  obtain ⟨children, hchildren, rfl⟩ := map_eq_ok.mp h
  obtain ⟨hnames, hplanned⟩ := planned_of_nodesBelow hbound.joined hchildren
  exact ⟨rfl, rfl, hnames, hplanned⟩

theorem complete_of_tree {registry : AliasRegistry} {r : Request} {p : Prepared} (hp : PreparedFrom s registry r p)
    {t : JoinTree} (h : p.tree = .ok t) : t.Complete s := by
  obtain ⟨hroot, hcolumns, hnames, hplanned⟩ := planned_of_tree hp h
  have hcheck := hp.complete
  unfold Prepared.checkRequired Projection.checkRequired at hcheck
  rw [hp.schema, hp.request] at hcheck
  obtain ⟨⟨⟩, hcheckRoot, hcheckPaths⟩ := bind_eq_ok.mp hcheck
  rw [forM_eq_ok] at hcheckPaths
  refine ⟨?_, hnames, fun node hn => complete_of_planned ?_ (hplanned node hn)⟩
  · rw [hroot, hcolumns]
    exact holdsRequired_of_checkEntity hcheckRoot none
  · intro q hq hkept hpartial
    refine hcheckPaths q ?_
    unfold Prepared.completePaths
    rw [hp.request]
    simpa [hq, hkept] using hpartial

end RelQuery
