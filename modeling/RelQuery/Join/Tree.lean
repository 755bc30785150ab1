import RelQuery.Alias.Plan
import RelQuery.Projection
import RelQuery.Sql.Syntax

/-!
# Join trees

The joined relations of a statement as a tree below the root entity, each node with the columns that are selected for
it. Rows are sliced along this tree.
-/

namespace RelQuery

open Sql

/-- A selected column and its label in the rows. -/
structure SelectedColumn where
  field : String
  dbName : String
  label : String
  deriving DecidableEq

/-- The columns of an entity that a projection selects, labelled by the alias of its table or, for the root, by field. -/
def selectColumns (e : Entity) (p : Projection) (table : Option Alias) : List SelectedColumn :=
  (p.visibleColumns e).map fun c =>
    ⟨c.name, c.dbName,
      match table with
      | some a => a.label c.name
      | none => c.name⟩

def columnItems (table : String) (columns : List SelectedColumn) : List SelectItem :=
  columns.map fun c => ⟨.col table c.dbName, some c.label⟩

structure JoinNode where
  relation : RelationId
  name : String
  path : Path
  target : EntityId
  table : Alias
  toMany : Bool
  /-- Whether instances of the relation may lack columns that they need otherwise. -/
  isPartial : Bool
  columns : List SelectedColumn
  children : List JoinNode

/-- The root entity and what is joined to it. -/
structure JoinTree where
  root : EntityId
  columns : List SelectedColumn
  children : List JoinNode

structure JoinSource where
  schema : Schema
  resolved : List ResolvedPath
  aliases : AliasPlan
  projection : Projection
  partialPaths : List Path

namespace JoinSource

def stepsFrom (src : JoinSource) (parent : Path) : List ResolvedPath :=
  src.resolved.filter fun r => r.path.length == parent.length + 1 && parent.isPrefixOf r.path

def node (src : JoinSource) (r : ResolvedPath) (id : RelationId) (table : Alias) (children : List JoinNode) : JoinNode :=
  let relation := src.schema.relation id
  { relation := id, name := relation.name, path := r.path, target := r.target, table
    toMany := relation.isToMany, isPartial := src.partialPaths.contains r.path
    columns := selectColumns (src.schema.entity r.target) (src.projection.at_ r.path) (some table)
    children }

/-- The nodes below a path, down to a number of levels. Relations that the projection leaves out get none. -/
def nodesBelow (src : JoinSource) : Nat → Path → Except QueryError (List JoinNode)
  | 0, _ => .ok []
  | levels + 1, parent =>
    ((src.stepsFrom parent).filter fun r => !src.projection.excludesPath r.path).mapM fun r =>
      let id := r.lastHop?.getD default
      match src.aliases.get? r.path with
      | none => .error (.unknownRelation r.path.text (src.schema.relation id).name)
      | some a => (src.nodesBelow levels r.path).map (src.node r id a.target)

def levels (src : JoinSource) : Nat :=
  src.resolved.foldl (fun n r => max n r.path.length) 0

def tree (src : JoinSource) (root : EntityId) : Except QueryError JoinTree :=
  (src.nodesBelow src.levels .root).map fun children =>
    ⟨root, selectColumns (src.schema.entity root) src.projection none, children⟩

end JoinSource

def nodesContain : List JoinNode → List String → Bool
  | _, [] => true
  | nodes, segment :: rest =>
    match nodes.find? (·.name == segment) with
    | some node => nodesContain node.children rest
    | none => false

def JoinTree.contains (t : JoinTree) (path : Path) : Bool :=
  nodesContain t.children path.segments

mutual

def JoinNode.items : JoinNode → List SelectItem
  | ⟨_, _, _, _, table, _, _, columns, children⟩ => columnItems table.text columns ++ nodesItems children
termination_by structural node => node

def nodesItems : List JoinNode → List SelectItem
  | [] => []
  | node :: rest => node.items ++ nodesItems rest
termination_by structural nodes => nodes

end

def JoinTree.selectList (t : JoinTree) (rootTable : String) : List SelectItem :=
  columnItems rootTable t.columns ++ nodesItems t.children

end RelQuery
