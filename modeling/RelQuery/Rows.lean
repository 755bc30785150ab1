import RelQuery.Instance.Merge
import RelQuery.Join.Tree

/-!
# Rows to instances

A row holds values under labels. It is sliced along a join tree: every node takes its columns out of the row, unless its
primary key is null or missing, and then there is no instance. A foreign key whose target was not joined becomes a
stub that holds the target's key.
-/

namespace RelQuery

/-- A row: values under labels. -/
abbrev Row := NameMap Value

/-- The value of a field in a row, through the first column selected for it. -/
def rowValue? (row : Row) (columns : List SelectedColumn) (field : String) : Option Value :=
  (columns.find? (·.field == field)).bind fun c => row.get? c.label

def hasKey (row : Row) (e : Entity) (columns : List SelectedColumn) : Bool :=
  match rowValue? row columns e.pk with
  | some v => !v.isNull
  | none => false

/-- The values of all fields of an entity; null for those that are not selected. -/
def rowValues (row : Row) (e : Entity) (columns : List SelectedColumn) : NameMap Value :=
  NameMap.ofPairs (e.columns.map fun c => (c.name, (rowValue? row columns c.name).getD .null))

structure Materializer where
  schema : Schema
  factory : Factory

namespace Materializer

def construct (m : Materializer) (id : EntityId) (values : NameMap Value) (skipValidation : Bool) :
    Except QueryError Instance :=
  match m.factory.construct (m.schema.entity id) id values skipValidation with
  | .ok i => .ok i
  | .error e => .error (.construct e)

/-- The stub of the target of a foreign key, or nothing for a null key. -/
def stub (m : Materializer) (target : EntityId) (key : Value) : Except QueryError Related :=
  if key.isNull then .ok (.one none)
  else (m.construct target [((m.schema.entity target).pk, key)] true).map fun i => .one (some i)

/-- Adds stubs for foreign keys that are selected and whose relations are not loaded. -/
def addStubs (m : Materializer) (columns : List SelectedColumn) (i : Instance) :
    List Relation → NameMap Related → Except QueryError (NameMap Related)
  | [], relations => .ok relations
  | r :: rest, relations =>
    match r.link with
    | .foreignKey key =>
      if NameMap.has relations r.name || !(columns.any (·.field == key)) then m.addStubs columns i rest relations
      else
        match m.stub r.target ((i.get? key).getD .null) with
        | .error e => .error e
        | .ok related => m.addStubs columns i rest (NameMap.put r.name related relations)
    | _ => m.addStubs columns i rest relations

def assemble (m : Materializer) (row : Row) (id : EntityId) (columns : List SelectedColumn) (isPartial : Bool)
    (joined : Except QueryError (NameMap Related)) : Except QueryError (Option Instance) :=
  let e := m.schema.entity id
  if hasKey row e columns then do
    let relations ← joined
    let i ← m.construct id (rowValues row e columns) isPartial
    let relations ← m.addStubs columns i (m.schema.relationsOf id) relations
    return some { i with relations }
  else .ok none

def relatedOf (toMany : Bool) (i : Option Instance) : Related :=
  if toMany then .many i.toList else .one i

mutual

def ofNode (m : Materializer) (row : Row) : JoinNode → Except QueryError (Option Instance)
  | ⟨_, _, _, target, _, _, isPartial, columns, children⟩ =>
    m.assemble row target columns isPartial (ofNodes m row children)
termination_by structural node => node

def ofNodes (m : Materializer) (row : Row) : List JoinNode → Except QueryError (NameMap Related)
  | [] => .ok []
  | node :: rest =>
    match ofNode m row node with
    | .error e => .error e
    | .ok i => (ofNodes m row rest).map (NameMap.put node.name (relatedOf node.toMany i))
termination_by structural nodes => nodes

end

def ofRow (m : Materializer) (tree : JoinTree) (row : Row) : Except QueryError (Option Instance) :=
  m.assemble row tree.root tree.columns false (m.ofNodes row tree.children)

/-- The root instances of rows, one for each row that holds one, up to the first that cannot be constructed. -/
def ofRows (m : Materializer) (tree : JoinTree) (rows : List Row) : Except QueryError (List Instance) :=
  (rows.mapM (m.ofRow tree)).map fun found => found.filterMap id

end Materializer

end RelQuery
