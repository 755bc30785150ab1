import RelQuery.Alias
import RelQuery.Distinct
import RelQuery.NameMap
import RelQuery.Schema.Resolve

/-!
# The aliases of one statement

Each path that a statement joins needs an alias for the table it leads to and, if its last relation goes through a
linking table, one for that. Of the paths that end on the same relation of the same table, the shortest gets the alias
of the relation, the others aliases of their own paths.
-/

namespace RelQuery

structure JoinAlias where
  target : Alias
  through : Option Alias
  deriving DecidableEq

/-- The aliases of all joined paths, by the text of the path. -/
structure AliasPlan where
  entries : NameMap JoinAlias

/-- The scopes that a path's tables are named by. -/
structure JoinScopes where
  path : String
  target : AliasScope
  through : Option AliasScope

def JoinScopes.all (w : JoinScopes) : List AliasScope :=
  w.through.toList ++ [w.target]

/-- A path that ends on a relation of a table. -/
structure EdgePath where
  path : Path
  table : String
  relation : Relation

namespace EdgePath

/-- The last relation of a resolved path, with the table of its owner. -/
def ofResolved? (s : Schema) (r : ResolvedPath) : Option EdgePath :=
  r.lastHop?.map fun id =>
    let relation := s.relation id
    ⟨r.path, (s.entity relation.owner).table, relation⟩

def scope (e : EdgePath) : AliasScope := .edge e.table e.relation.name

def byEdge (e : EdgePath) : JoinScopes :=
  { path := e.path.text, target := e.scope
    through := if e.relation.isManyToMany then some (.through e.table e.relation.name) else none }

def byPath (rootTable : String) (e : EdgePath) : JoinScopes :=
  { path := e.path.text, target := .path rootTable e.path.text
    through := if e.relation.isManyToMany then some (.throughPath rootTable e.path.text) else none }

end EdgePath

/-- Paths that end on the same edge, longest first, the later given first among equally long ones. -/
def longestFirst (paths : List EdgePath) : List EdgePath :=
  let longest := paths.foldl (fun n e => max n e.path.length) 0
  (List.range (longest + 1)).reverse.flatMap fun n => (paths.filter (·.path.length == n)).reverse

/-- The scopes of paths that end on the same edge: the last of them, shortest and earliest, keeps the edge. -/
def groupScopes (rootTable : String) (paths : List EdgePath) : List JoinScopes :=
  let ordered := longestFirst paths
  ordered.dropLast.map (·.byPath rootTable) ++ ordered.getLast?.toList.map (·.byEdge)

/-- The scopes that a statement needs, in the order in which they are registered. -/
def neededScopes (s : Schema) (rootTable : String) (paths : List ResolvedPath) : List JoinScopes :=
  let edges := paths.filterMap (EdgePath.ofResolved? s)
  (distinct (edges.map (·.scope))).flatMap fun scope => groupScopes rootTable (edges.filter (·.scope == scope))

/-- Why there is no result. -/
inductive NoResult where
  | failed (e : QueryError)
  /-- All candidates of the scope are taken, so the search for a free one goes on for ever. -/
  | endless (scope : AliasScope)
  deriving DecidableEq

/-- A result that needs no aliases is missing only where it fails. -/
def NoResult.lift {α : Type} (r : Except QueryError α) : Except NoResult α :=
  r.mapError .failed

/-- Whether it shows before any statement is executed. -/
def NoResult.isCompileError : NoResult → Bool
  | failed e => e.isCompileError
  | endless _ => true

def AliasRegistry.registerOptional (r : AliasRegistry) : Option AliasScope → Option (Option Alias × AliasRegistry)
  | none => some (none, r)
  | some scope => (r.register scope).map fun (a, r) => (some a, r)

/-- Registers the scopes of each path, up to the first whose search for an alias does not end. -/
def registerScopes : AliasRegistry → List JoinScopes → Except NoResult (List (String × JoinAlias)) × AliasRegistry
  | r, [] => (.ok [], r)
  | r, w :: rest =>
    match r.registerOptional w.through with
    | none => (.error (.endless (w.through.getD w.target)), r)
    | some (through, r) =>
      match r.register w.target with
      | none => (.error (.endless w.target), r)
      | some (target, r) =>
        match registerScopes r rest with
        | (.ok entries, r) => (.ok ((w.path, ⟨target, through⟩) :: entries), r)
        | (.error e, r) => (.error e, r)

namespace AliasPlan

/-- The names that a statement introduces, each with what it names: the root table names the empty path. -/
def uses (p : AliasPlan) (rootTable : String) : List (String × String) :=
  (p.entries.flatMap fun (path, a) =>
    (a.target.text, path) :: a.through.toList.map fun t => (t.text, path ++ " (through)"))
  ++ [(rootTable, "")]

def insertText (t : String) : List String → List String
  | [] => [t]
  | u :: rest => if t < u then t :: u :: rest else u :: insertText t rest

def verifyUnique (p : AliasPlan) (rootTable : String) : Except QueryError Unit :=
  let uses := p.uses rootTable
  let clash := uses.find? fun u => 1 < (uses.filter (·.1 == u.1)).length
  match clash with
  | none => .ok ()
  | some (name, _) =>
    let paths := (uses.filter (·.1 == name)).map (·.2)
    .error (.ambiguousAlias name (paths.foldr insertText []))

/-- Gives every path its aliases. Scopes that were registered stay so when the plan is refused. -/
def assign (r : AliasRegistry) (s : Schema) (rootTable : String) (paths : List ResolvedPath) :
    Except NoResult AliasPlan × AliasRegistry :=
  match registerScopes r (neededScopes s rootTable paths) with
  | (.error e, r) => (.error e, r)
  | (.ok entries, r) =>
    let plan : AliasPlan := ⟨NameMap.ofPairs entries⟩
    match plan.verifyUnique rootTable with
    | .ok () => (.ok plan, r)
    | .error e => (.error (.failed e), r)

def get? (p : AliasPlan) (path : Path) : Option JoinAlias :=
  p.entries.get? path.text

/-- The table name that columns at a path are read from: the root's own name, or the alias of the path. -/
def qualifier (p : AliasPlan) (path : Path) (root : String) : Except QueryError String :=
  if path.isRoot then .ok root
  else
    match p.get? path with
    | some a => .ok a.target.text
    | none => .error (.unknownRelation path.text (path.last?.getD ""))

def size (p : AliasPlan) : Nat := p.entries.length

end AliasPlan

end RelQuery
