import RelQuery.Engine
import RelQuery.Prefetch.Plan

/-!
# Loading by follow-up statements

Every relation of a prefetch plan that is not joined is loaded by one statement, which asks for the instances linked to
the keys of all parents at once. Loading and attaching are separate: nothing is attached before everything is loaded.
-/

namespace RelQuery

/-- The key by which a relation links an instance of its owner: the foreign key that it holds, or its primary key. -/
def Relation.ownerKey (r : Relation) (s : Schema) (owner : Instance) : Value :=
  match r.link with
  | .foreignKey key => (owner.get? key).getD .null
  | _ => owner.pk s

/-- The keys of the parents, each once, without nulls. -/
def Relation.parentKeys (r : Relation) (s : Schema) (parents : List Instance) : List Value :=
  distinct ((parents.map (r.ownerKey s)).filter (!·.isNull))

/-- The keys by which a loaded instance is linked to its owners. Where a relation goes through a linking table, the
owners were loaded along with it. -/
def Relation.childKeys (r : Relation) (s : Schema) (child : Instance) : List Value :=
  match r.link with
  | .foreignKey _ => [child.pk s]
  | .reverseForeignKey key => [(child.get? key).getD .null].filter (!·.isNull)
  | .manyToMany .. =>
    match child.related? (s.mirrorName r) with
    | some owners => owners.instances.map (·.pk s)
    | none => []

/-- A loaded instance without the owners that were loaded only to link it. -/
def Relation.withoutOwners (r : Relation) (s : Schema) (child : Instance) : Instance :=
  if r.isManyToMany then child.dropRelated (s.mirrorName r) else child

/-- The request for the instances linked to the given keys. Whatever the projection leaves out, it selects the keys
that linking them, and loading the relations below, will read. -/
def childRequest (s : Schema) (r : Relation) (projection : Projection) (orderBy : List OrderSpec)
    (childPaths : List Path) (keys : List Value) : Request :=
  let required := PrefetchPlan.requiredKeys s r.target childPaths
  let value : ValueRef := .list (keys.map .scalar)
  let request : Request := { root := r.target, projection, orderBy, required }
  match r.link with
  | .foreignKey _ => { request with filters := [.lookup (pkAlias ++ "__in") value] }
  | .reverseForeignKey key =>
    { request with required := required ++ [(.root, key)], filters := [.lookup (key ++ "__in") value] }
  | .manyToMany .. =>
    let mirror := s.mirrorName r
    let mirrorKey := mirror ++ "__" ++ pkAlias
    { request with
      selectRelated := [⟨[mirror]⟩], partialPaths := [⟨[mirror]⟩], fields := [.names [mirrorKey]]
      filters := [.lookup (mirrorKey ++ "__in") value] }

/-- The request that a node makes for the keys of its parents. -/
def PrefetchNode.request (s : Schema) (node : PrefetchNode) (keys : List Value) : Request :=
  childRequest s (s.relation node.relation) node.projection node.orderBy
    (node.children.map fun c => (node.path.stripFrom? c.path).getD .root) keys

/-- How far loading a relation has come. -/
inductive Phase (τ : Type) where
  | unstarted
  /-- The backend has the query, but has not answered yet. -/
  | asked (ticket : τ) (planned : PlannedQuery)
  | loaded (found : List Instance)

/-- A relation that is being loaded, with the relations below it. -/
structure Loading (τ : Type) where
  node : PrefetchNode
  phase : Phase τ
  children : List (Loading τ)

variable {σ τ : Type}

mutual

def Loading.start : PrefetchNode → Loading τ
  | ⟨path, name, relation, isJoined, projection, orderBy, children⟩ =>
    ⟨⟨path, name, relation, isJoined, projection, orderBy, children⟩, .unstarted, startAll children⟩
termination_by structural node => node

def startAll : List PrefetchNode → List (Loading τ)
  | [] => []
  | node :: rest => .start node :: startAll rest
termination_by structural nodes => nodes

end

/-- Whether the relations below are loaded, too: there is nothing to load for them if no instances were found. -/
def PrefetchNode.goesOn (node : PrefetchNode) (found : List Instance) : Bool :=
  node.isJoined || !found.isEmpty

/-- The instances that the relations below are loaded for. -/
def PrefetchNode.parentsBelow (s : Schema) (node : PrefetchNode) (found : List Instance) : List Instance :=
  if node.isJoined then found else found.map ((s.relation node.relation).withoutOwners s)

mutual

/-- Whether all is loaded that is to be loaded. -/
def Loading.isDone : Loading τ → Bool
  | ⟨node, phase, children⟩ =>
    match phase with
    | .loaded found => !node.goesOn found || allDone children
    | _ => false
termination_by structural loading => loading

def allDone : List (Loading τ) → Bool
  | [] => true
  | loading :: rest => loading.isDone && allDone rest
termination_by structural loadings => loadings

end

/-- Polls for the answer to a query, and makes instances of it. -/
def answered (e : Engine σ) (svc : Service σ τ) (ticket : τ) (planned : PlannedQuery) : Run σ (Phase τ) := do
  match ← svc.rows? ticket with
  | none => return .asked ticket planned
  | some rows =>
    let instances ← Run.ofExcept (e.materializer.ofRows planned.tree rows)
    return .loaded (merge e.schema instances)

/-- Takes a relation on as far as it goes without waiting. The instances of a joined one are with the parents already. -/
def advance (e : Engine σ) (svc : Service σ τ) (parents : List Instance) (node : PrefetchNode) :
    Phase τ → Run σ (Phase τ)
  | .unstarted =>
    if node.isJoined then
      return .loaded (parents.flatMap fun p => ((p.related? node.name).map Related.instances).getD [])
    else do
      let keys := (e.schema.relation node.relation).parentKeys e.schema parents
      if keys.isEmpty then return .loaded []
      let planned ← e.plan (node.request e.schema keys)
      let ticket ← e.submit svc planned.query
      answered e svc ticket planned
  | .asked ticket planned => answered e svc ticket planned
  | .loaded found => return .loaded found

mutual

/-- Polls a relation, and once its instances are there the relations below it. -/
def pollNode (e : Engine σ) (svc : Service σ τ) (parents : List Instance) : Loading τ → Run σ (Loading τ)
  | ⟨node, phase, children⟩ => do
    let phase ← advance e svc parents node phase
    match phase with
    | .loaded found =>
      if node.goesOn found then
        return ⟨node, phase, ← pollLevel e svc (node.parentsBelow e.schema found) children⟩
      else return ⟨node, phase, children⟩
    | _ => return ⟨node, phase, children⟩
termination_by structural loading => loading

/-- Polls siblings in turn. Unless they are loaded concurrently, each waits until the one before it is done. The first
that fails ends the loading of all. -/
def pollLevel (e : Engine σ) (svc : Service σ τ) (parents : List Instance) : List (Loading τ) → Run σ (List (Loading τ))
  | [] => return []
  | loading :: rest => do
    let first ← pollNode e svc parents loading
    if e.settings.concurrentSiblings || first.isDone then
      return first :: (← pollLevel e svc parents rest)
    else return first :: rest
termination_by structural loadings => loadings

end

inductive LoadedNode where
  /-- The instances are there already. -/
  | joined (name : String) (children : List LoadedNode)
  /-- The loaded instances, in order, each under every key that links it to an owner. -/
  | fetched (name : String) (relation : Relation) (linked : List (Value × Instance)) (children : List LoadedNode)

def Relation.linkAll (r : Relation) (s : Schema) (children : List Instance) : List (Value × Instance) :=
  children.flatMap fun child => (r.childKeys s child).map fun key => (key, r.withoutOwners s child)

def Phase.found : Phase τ → List Instance
  | .loaded found => found
  | _ => []

mutual

def Loading.result (s : Schema) : Loading τ → LoadedNode
  | ⟨node, phase, children⟩ =>
    let below := if node.goesOn phase.found then results s children else []
    if node.isJoined then .joined node.name below
    else .fetched node.name (s.relation node.relation) ((s.relation node.relation).linkAll s phase.found) below
termination_by structural loading => loading

def results (s : Schema) : List (Loading τ) → List LoadedNode
  | [] => []
  | loading :: rest => loading.result s :: results s rest
termination_by structural loadings => loadings

end

/-- Loads a relation with all below it. -/
def loadNode (e : Engine σ) (parents : List Instance) (node : PrefetchNode) : Run σ LoadedNode := do
  return (← pollNode e e.backend.atOnce parents (.start node)).result e.schema

/-- Loads siblings. The backend of an engine answers at once, so that polling them once is enough. -/
def loadNodes (e : Engine σ) (parents : List Instance) (nodes : List PrefetchNode) : Run σ (List LoadedNode) := do
  return results e.schema (← pollLevel e e.backend.atOnce parents (startAll nodes))

mutual

/-- Sets a loaded relation of a parent to the instances linked to it, with all below attached to them. -/
def LoadedNode.attach (s : Schema) (parent : Instance) : LoadedNode → Instance
  | .joined name children =>
    match parent.related? name with
    | some related => parent.setRelated name (related.mapInstances fun i => attachAll s i children)
    | none => parent
  | .fetched name r linked children =>
    let key := r.ownerKey s parent
    let matched := (linked.filter (·.1 = key)).map fun link => attachAll s link.2 children
    parent.setRelated name (if r.isForeignKey then .one matched.head? else .many matched)
termination_by structural node => node

def attachAll (s : Schema) (parent : Instance) : List LoadedNode → Instance
  | [] => parent
  | node :: rest => attachAll s (node.attach s parent) rest
termination_by structural nodes => nodes

end

def prefetch (e : Engine σ) (plan : PrefetchPlan) (roots : List Instance) : Run σ (List Instance) := do
  if plan.isEmpty || roots.isEmpty then return roots
  let loaded ← loadNodes e roots plan
  return roots.map fun root => attachAll e.schema root loaded

/-- Polls siblings a number of times, unless they fail before. Siblings that hear from the backend one by one take a
poll each. -/
def pollTimes (e : Engine σ) (svc : Service σ τ) (parents : List Instance) :
    Nat → List (Loading τ) → Run σ (List (Loading τ))
  | 0, loadings => return loadings
  | polls + 1, loadings => do pollTimes e svc parents polls (← pollLevel e svc parents loadings)

/-- What loading has come to after a number of polls: the roots with all that was loaded, once it is all there. -/
def prefetchWithin (e : Engine σ) (svc : Service σ τ) (polls : Nat) (plan : PrefetchPlan) (roots : List Instance) :
    Run σ (Option (List Instance)) := do
  if plan.isEmpty || roots.isEmpty then return some roots
  let loadings ← pollTimes e svc roots polls (startAll plan)
  if allDone loadings then
    return some (roots.map fun root => attachAll e.schema root (results e.schema loadings))
  else return none

end RelQuery
