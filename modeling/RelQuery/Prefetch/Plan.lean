import RelQuery.Join.Tree

/-!
# Prefetch plans

The relations that are loaded by follow-up statements, as a tree below the root entity. A relation that the main
statement joins is in the tree as well when relations below it are to be loaded: it needs no statement, its instances
are there already.
-/

namespace RelQuery

structure PrefetchNode where
  path : Path
  name : String
  relation : RelationId
  /-- Whether the main statement joins the relation. -/
  isJoined : Bool
  projection : Projection
  orderBy : List OrderSpec
  children : List PrefetchNode

/-- Relations to load, as a forest below the root entity. -/
abbrev PrefetchPlan := List PrefetchNode

/-- The paths that a resolved path begins with, each with its last relation. -/
def ResolvedPath.steps (r : ResolvedPath) : List (Path × RelationId) :=
  r.path.prefixes.zip r.hops

def PrefetchNode.ofStep (tree : JoinTree) (p : Projection) (step : Path × RelationId) : PrefetchNode :=
  { path := step.1, name := step.1.last?.getD "", relation := step.2, isJoined := tree.contains step.1
    projection := p.at_ step.1, orderBy := [], children := [] }

/-- Adds the nodes along a path that are not there yet. -/
def insertSteps (tree : JoinTree) (p : Projection) : List (Path × RelationId) → PrefetchPlan → PrefetchPlan
  | [], nodes => nodes
  | step :: rest, nodes =>
    let node := PrefetchNode.ofStep tree p step
    if nodes.any (·.name == node.name) then
      nodes.map fun n => if n.name == node.name then { n with children := insertSteps tree p rest n.children } else n
    else nodes ++ [{ node with children := insertSteps tree p rest [] }]

def PrefetchNode.isAbove (n : PrefetchNode) (path : Path) : Bool :=
  decide (n.path.length < path.length) && n.path.isPrefixOf path

mutual

/-- Whether a path goes on below this node or one under it that has a statement of its own. -/
def PrefetchNode.reaches (path : Path) : PrefetchNode → Bool
  | ⟨at_, _, _, isJoined, _, _, children⟩ =>
    decide (at_.length < path.length) && at_.isPrefixOf path && (!isJoined || nodesReach path children)
termination_by structural node => node

/-- Whether a path goes on below one of these nodes or one under them that has a statement of its own. -/
def nodesReach (path : Path) : List PrefetchNode → Bool
  | [] => false
  | node :: rest => node.reaches path || nodesReach path rest
termination_by structural nodes => nodes

end

mutual

/-- Gives an ordering to the deepest node with a statement of its own that the ordering goes on below. -/
def PrefetchNode.addOrder (o : OrderSpec) : PrefetchNode → PrefetchNode
  | ⟨path, name, relation, isJoined, projection, orderBy, children⟩ =>
    if nodesReach o.path children then
      ⟨path, name, relation, isJoined, projection, orderBy, addOrderBelow o children⟩
    else if isJoined then ⟨path, name, relation, isJoined, projection, orderBy, children⟩
    else
      let rest := (path.stripFrom? o.path).getD .root
      ⟨path, name, relation, isJoined, projection, orderBy ++ [⟨rest.segments, o.descending⟩], children⟩
termination_by structural node => node

def addOrderBelow (o : OrderSpec) : List PrefetchNode → List PrefetchNode
  | [] => []
  | node :: rest => if node.isAbove o.path then node.addOrder o :: rest else node :: addOrderBelow o rest
termination_by structural nodes => nodes

end

/-- The orderings of the main statement and those of follow-up statements: an ordering belongs to a follow-up
statement if it goes on below a prefetched path that is not joined. -/
def splitOrders (orderBy : List OrderSpec) (prefetch joined : List Path) : List OrderSpec × List OrderSpec :=
  let isPrefetched (o : OrderSpec) :=
    prefetch.any fun path => path.prefixes.any fun step =>
      decide (step.length < o.path.length) && step.isPrefixOf o.path && !joined.any step.isPrefixOf
  (orderBy.filter (!isPrefetched ·), orderBy.filter isPrefetched)

namespace PrefetchPlan

/-- The paths that are loaded: those that lead somewhere and that the projection does not leave out. -/
def pathsToLoad (s : Schema) (root : EntityId) (p : Projection) (paths : List Path) :
    Except QueryError (List ResolvedPath) :=
  (paths.mapM (s.resolve root)).map fun resolved =>
    resolved.filter fun r => !r.path.isRoot && !p.excludesPath r.path

/-- The plan that loads the paths below a root entity, next to what the tree joins. An ordering that no statement of
the plan can apply is dropped. -/
def build (s : Schema) (root : EntityId) (paths : List Path) (tree : JoinTree) (p : Projection)
    (orderBy : List OrderSpec) : Except QueryError PrefetchPlan :=
  (pathsToLoad s root p paths).map fun resolved =>
    let nodes := resolved.foldl (fun nodes r => insertSteps tree p r.steps nodes) []
    orderBy.foldl (fun nodes o => addOrderBelow o nodes) nodes

/-- The foreign keys that loading the paths reads: the path to the entity that holds the key, and its field. Paths that
lead nowhere read none. -/
def requiredKeys (s : Schema) (root : EntityId) (paths : List Path) : List (Path × String) :=
  distinct (paths.flatMap fun path =>
    match s.resolve root path with
    | .error _ => []
    | .ok r => r.steps.filterMap fun (step, id) =>
      match (s.relation id).link with
      | .foreignKey key => some (step.parent?.getD .root, key)
      | _ => none)

end PrefetchPlan

structure PrefetchStep where
  path : String
  relation : String
  isJoined : Bool
  orderBy : List String
  deriving DecidableEq

mutual

def PrefetchNode.outline (s : Schema) : PrefetchNode → List PrefetchStep
  | ⟨path, _, relation, isJoined, _, orderBy, children⟩ =>
    ⟨path.text, s.relationLabel (s.relation relation), isJoined, orderBy.map OrderSpec.text⟩
      :: nodesOutline s children
termination_by structural node => node

def nodesOutline (s : Schema) : List PrefetchNode → List PrefetchStep
  | [] => []
  | node :: rest => node.outline s ++ nodesOutline s rest
termination_by structural nodes => nodes

end

end RelQuery
