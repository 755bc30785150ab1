import RelQuery.Proofs.Instance
import RelQuery.Rows

/-!
# The rows of a forest

What outer joins along a tree make of a forest: every instance is repeated for each combination of what its relations
lead to, a relation that leads nowhere counting as one row of nulls. Which forests have the shape of a tree is said by
`Fits`.
-/

namespace RelQuery

open Sql

theorem JoinNode.children_induction {P : JoinNode → Prop}
    (step : ∀ node : JoinNode, (∀ child ∈ node.children, P child) → P node) (node : JoinNode) : P node := by
  refine JoinNode.rec (motive_1 := P) (motive_2 := fun nodes => ∀ child ∈ nodes, P child) ?_ ?_ ?_ node
  · intro relation name path target table toMany isPartial columns children ih
    exact step _ ih
  · intro child hc
    cases hc
  · intro node nodes hnode hnodes
    exact List.forall_mem_cons.mpr ⟨hnode, hnodes⟩

/-- A part of a row: values under labels. -/
abbrev Cells := List (String × Value)

/-- What an instance puts under the labels of the columns selected for it. -/
def cellsOf (columns : List SelectedColumn) (i : Instance) : Cells :=
  columns.map fun c => (c.label, (i.get? c.field).getD .null)

mutual

/-- Nulls under the labels of a node and all below it. -/
def JoinNode.nulls : JoinNode → Cells
  | ⟨_, _, _, _, _, _, _, columns, children⟩ => columns.map (fun c => (c.label, .null)) ++ nodesNulls children
termination_by structural node => node

def nodesNulls : List JoinNode → Cells
  | [] => []
  | node :: rest => node.nulls ++ nodesNulls rest
termination_by structural nodes => nodes

end

mutual

/-- The partial rows that an instance at a node makes. -/
def JoinNode.fanOut : JoinNode → Instance → List Cells
  | ⟨_, _, _, _, _, _, _, columns, children⟩, i => (nodesFanOut children i).map (cellsOf columns i ++ ·)
termination_by structural node => node

/-- The product, over nodes in order, of the partial rows of what their relations lead to. -/
def nodesFanOut : List JoinNode → Instance → List Cells
  | [], _ => [[]]
  | node :: rest, i =>
    let rows := if (i.relatedBy node.name).isEmpty then [node.nulls] else (i.relatedBy node.name).flatMap node.fanOut
    rows.flatMap fun cells => (nodesFanOut rest i).map (cells ++ ·)
termination_by structural nodes => nodes

end

/-- The rows of a forest: those of each root in order. -/
def JoinTree.fanOut (t : JoinTree) (forest : List Instance) : List Row :=
  (forest.flatMap fun i => (nodesFanOut t.children i).map (cellsOf t.columns i ++ ·)).map NameMap.ofPairs

/-- The fields of an instance are the columns of its entity: those that are selected have values that they may have,
the others are null. -/
structure FieldsFit (s : Schema) (id : EntityId) (columns : List SelectedColumn) (i : Instance) : Prop where
  entity : i.entity = id
  ordered : NameMap.Ordered i.fields
  names : ∀ name, name ∈ i.fields.map (·.1) ↔ name ∈ (s.entity id).columns.map (·.name)
  key : i.pk s ≠ .null
  required : ∀ c ∈ (s.entity id).columns, columns.any (·.field == c.name) = true → c.nullable = false →
    i.get? c.name ≠ some .null
  unselected : ∀ c ∈ (s.entity id).columns, columns.any (·.field == c.name) = false → i.get? c.name = some .null

/-- A relation to many leads to instances with distinct keys, a relation to one to at most one instance. -/
def Related.FitsKind (s : Schema) (toMany : Bool) : Related → Prop
  | .one _ => toMany = false
  | .many l => toMany = true ∧ (l.map (·.key s)).Nodup

/-- The instance has the shape of a level of a tree: its relations are the nodes below, and what they lead to has the
shape of these. -/
inductive Fits (s : Schema) : EntityId → List SelectedColumn → List JoinNode → Instance → Prop where
  | intro {id : EntityId} {columns : List SelectedColumn} {nodes : List JoinNode} {i : Instance}
      (fields : FieldsFit s id columns i) (relations : NameMap.Ordered i.relations)
      (names : ∀ name, name ∈ i.relations.map (·.1) ↔ name ∈ nodes.map (·.name))
      (kinds : ∀ node ∈ nodes, ∀ r, i.related? node.name = some r → r.FitsKind s node.toMany)
      (below : ∀ node ∈ nodes, ∀ r, i.related? node.name = some r →
        ∀ c ∈ r.instances, Fits s node.target node.columns node.children c) :
      Fits s id columns nodes i

/-- The roots of a forest have distinct keys and the shape of a tree. -/
structure JoinTree.FitsForest (s : Schema) (t : JoinTree) (forest : List Instance) : Prop where
  keys : (forest.map (·.key s)).Nodup
  roots : ∀ i ∈ forest, Fits s t.root t.columns t.children i

variable {s : Schema}

namespace Fits

variable {id : EntityId} {columns : List SelectedColumn} {nodes : List JoinNode} {i : Instance}

theorem fieldsFit (h : Fits s id columns nodes i) : FieldsFit s id columns i := by
  cases h with
  | intro fields _ _ _ _ => exact fields

theorem exists_related (h : Fits s id columns nodes i) {node : JoinNode} (hn : node ∈ nodes) :
    ∃ r, i.related? node.name = some r ∧ r.FitsKind s node.toMany ∧
      ∀ c ∈ r.instances, Fits s node.target node.columns node.children c := by
  cases h with
  | intro _ _ names kinds below =>
    obtain ⟨r, hr⟩ := NameMap.exists_get?_of_mem ((names node.name).mpr (List.mem_map_of_mem hn))
    exact ⟨r, hr, kinds node hn r hr, below node hn r hr⟩

theorem relatedBy (h : Fits s id columns nodes i) {node : JoinNode} (hn : node ∈ nodes) :
    ∀ c ∈ i.relatedBy node.name, Fits s node.target node.columns node.children c := by
  obtain ⟨r, hr, -, hbelow⟩ := h.exists_related hn
  rw [Instance.relatedBy_of_related? hr]
  exact hbelow

end Fits

theorem labels_columnItems (table : String) (columns : List SelectedColumn) :
    (columnItems table columns).map (·.label) = columns.map fun c => some c.label := by
  simp [columnItems, Function.comp_def]

theorem labels_cellsOf (columns : List SelectedColumn) (i : Instance) (table : String) :
    (cellsOf columns i).map (fun p => some p.1) = (columnItems table columns).map (·.label) := by
  rw [labels_columnItems]
  simp [cellsOf, Function.comp_def]

theorem labels_nulls (node : JoinNode) : node.nulls.map (fun p => some p.1) = node.items.map (·.label) := by
  induction node using JoinNode.children_induction with
  | step node ih =>
    have hnodes : ∀ nodes : List JoinNode, (∀ child ∈ nodes,
        child.nulls.map (fun p => some p.1) = child.items.map (·.label)) →
        (nodesNulls nodes).map (fun p => some p.1) = (nodesItems nodes).map (·.label) := by
      intro nodes
      induction nodes with
      | nil => intro _; rfl
      | cons node rest ihr =>
        intro h
        rw [nodesNulls, nodesItems, List.map_append, List.map_append, h node (List.mem_cons_self ..),
          ihr fun child hc => h child (List.mem_cons_of_mem _ hc)]
    obtain ⟨_, _, _, _, table, _, _, columns, children⟩ := node
    rw [JoinNode.nulls, JoinNode.items, List.map_append, List.map_append, hnodes children ih, labels_columnItems]
    simp [Function.comp_def]

theorem labels_nodesFanOut {nodes : List JoinNode} {i : Instance}
    (h : ∀ node ∈ nodes, ∀ c ∈ i.relatedBy node.name, ∀ cells ∈ node.fanOut c,
      cells.map (fun p => some p.1) = node.items.map (·.label)) :
    ∀ cells ∈ nodesFanOut nodes i, cells.map (fun p => some p.1) = (nodesItems nodes).map (·.label) := by
  induction nodes with
  | nil =>
    intro cells hc
    rw [List.mem_singleton.mp hc]
    rfl
  | cons node rest ih =>
    intro cells hc
    rw [nodesFanOut] at hc
    obtain ⟨first, hfirst, hc⟩ := List.mem_flatMap.mp hc
    obtain ⟨more, hmore, rfl⟩ := List.mem_map.mp hc
    rw [nodesItems, List.map_append, List.map_append, ih (fun n hn => h n (List.mem_cons_of_mem _ hn)) more hmore]
    congr 1
    split at hfirst
    · rw [List.mem_singleton.mp hfirst, labels_nulls]
    · obtain ⟨c, hc, hcells⟩ := List.mem_flatMap.mp hfirst
      exact h node (List.mem_cons_self ..) c hc first hcells

theorem labels_fanOut (node : JoinNode) (i : Instance) :
    ∀ cells ∈ node.fanOut i, cells.map (fun p => some p.1) = node.items.map (·.label) := by
  induction node using JoinNode.children_induction generalizing i with
  | step node ih =>
    obtain ⟨_, _, _, _, table, _, _, columns, children⟩ := node
    intro cells hc
    rw [JoinNode.fanOut] at hc
    obtain ⟨below, hbelow, rfl⟩ := List.mem_map.mp hc
    rw [JoinNode.items, List.map_append, List.map_append, labels_cellsOf columns i table.text,
      labels_nodesFanOut (fun node hn c _ => ih node hn c) below hbelow]

end RelQuery
