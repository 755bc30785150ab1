import RelQuery.NameMap
import RelQuery.Schema.Resolve

/-!
# Projections

Which columns of each joined entity are selected, and which relations are left out. A projection is a list of marks,
each placed at a path: a field can be named for inclusion, named for exclusion, or required, and a required field is
included whatever else is said of it.
-/

namespace RelQuery

/-- What a user names: fields by path, a tree of relations, or everything. -/
inductive FieldSelection where
  | names (paths : List String)
  | tree (entries : List (String × FieldSelection))
  | all

/-- Whether the fields that a selection names are the ones wanted or the ones not wanted. -/
inductive SelectionMode where
  | keep
  | leaveOut
  deriving DecidableEq

inductive Mark where
  | included (field : String)
  | excluded (field : String)
  | required (field : String)
  deriving DecidableEq

/-- A mark of a field of the entity at a path. -/
structure PlacedMark where
  path : Path
  mark : Mark
  deriving DecidableEq

def SelectionMode.mark : SelectionMode → String → Mark
  | keep, field => .included field
  | leaveOut, field => .excluded field

structure Projection where
  marks : List PlacedMark
  deriving DecidableEq

namespace Projection

def empty : Projection := ⟨[]⟩

def add (p : Projection) (marks : List PlacedMark) : Projection :=
  ⟨p.marks ++ marks⟩

def require (p : Projection) (path : Path) (field : String) : Projection :=
  p.add [⟨path, .required field⟩]

/-- The projection as seen from the far side of a relation. -/
def below (p : Projection) (segment : String) : Projection :=
  ⟨p.marks.filterMap fun m =>
    match m.path.segments with
    | [] => none
    | head :: rest => if head = segment then some ⟨⟨rest⟩, m.mark⟩ else none⟩

def at_ (p : Projection) (path : Path) : Projection :=
  path.segments.foldl below p

def hasMark (p : Projection) (mark : Mark) : Bool :=
  p.marks.any fun m => m.path.isRoot && m.mark == mark

/-- Whether some field is named for inclusion, which leaves out all that are not named. -/
def restricts (p : Projection) : Bool :=
  p.marks.any fun m =>
    match m.mark with
    | .included _ => m.path.isRoot
    | _ => false

def isIncluded (p : Projection) (field : String) : Bool :=
  p.hasMark (.required field) ||
    (!p.hasMark (.excluded field) && (!p.restricts || p.hasMark (.included field)))

def excludesRelation (p : Projection) (relation : String) : Bool :=
  p.hasMark (.excluded relation)

def excludesSegments (p : Projection) : List String → Bool
  | [] => false
  | segment :: rest => p.excludesRelation segment || (p.below segment).excludesSegments rest

def excludesPath (p : Projection) (path : Path) : Bool :=
  p.excludesSegments path.segments

def visibleColumns (p : Projection) (e : Entity) : List Column :=
  e.columns.filter fun c => p.isIncluded c.name

end Projection

/-- The marks that a selection makes, up to the first fault. -/
structure Marking where
  marks : List PlacedMark
  fault : Option QueryError

namespace Marking

def of (marks : List PlacedMark) : Marking := ⟨marks, none⟩

def fail (e : QueryError) : Marking := ⟨[], some e⟩

/-- One marking and then, unless it ends in a fault, another. -/
def andThen (a b : Marking) : Marking :=
  match a.fault with
  | some _ => a
  | none => ⟨a.marks ++ b.marks, b.fault⟩

end Marking

def pkMark (s : Schema) (entity : EntityId) (place : Path) : Marking :=
  .of [⟨place, .required (s.entity entity).pk⟩]

/-- The name of a field of an entity: a column, a relation, or the general name of the primary key. -/
def fieldName? (s : Schema) (entity : EntityId) (field : String) : Option String :=
  let e := s.entity entity
  if field = pkAlias then some e.pk
  else if e.hasField field || (s.findRelation? entity field).isSome then some field
  else none

def fieldMarks (s : Schema) (mode : SelectionMode) (raw : String) (entity : EntityId) (place : Path) :
    List String → Marking
  | [] => .of []
  | head :: rest =>
    if rest.isEmpty then
      match fieldName? s entity head with
      | some name => .of [⟨place, mode.mark name⟩]
      | none => .fail (.unknownField (s.entity entity).name head)
    else
      match s.findRelation? entity head with
      | none => .fail (.unknownRelation raw head)
      | some id =>
        let target := (s.relation id).target
        (pkMark s target (place.child head)).andThen (fieldMarks s mode raw target (place.child head) rest)

def namesMarks (s : Schema) (mode : SelectionMode) (entity : EntityId) (place : Path) : List String → Marking
  | [] => .of []
  | name :: rest =>
    (fieldMarks s mode name entity place (segmentsOf name)).andThen (namesMarks s mode entity place rest)

mutual

def selectionMarks (s : Schema) (mode : SelectionMode) (entity : EntityId) (place : Path) :
    FieldSelection → Marking
  | .all => pkMark s entity place
  | .names paths => (pkMark s entity place).andThen (namesMarks s mode entity place paths)
  | .tree entries => (pkMark s entity place).andThen (entriesMarks s mode entity place entries)
termination_by structural selection => selection

/-- The marks of the entries of a tree. An entry for everything marks the relation or field itself. -/
def entriesMarks (s : Schema) (mode : SelectionMode) (entity : EntityId) (place : Path) :
    List (String × FieldSelection) → Marking
  | [] => .of []
  | (key, selection) :: rest =>
    let first :=
      match selection with
      | .all => fieldMarks s mode key entity place [key]
      | _ =>
        match s.findRelation? entity key with
        | none => .fail (.unknownRelation key key)
        | some id =>
          let target := (s.relation id).target
          (pkMark s target (place.child key)).andThen (selectionMarks s mode target (place.child key) selection)
    first.andThen (entriesMarks s mode entity place rest)
termination_by structural entries => entries

end

namespace Projection

/-- Adds the marks of a selection at the root, and says what is wrong with it. Marks made before the fault stay. -/
def select (p : Projection) (s : Schema) (root : EntityId) (mode : SelectionMode) (selection : FieldSelection) :
    Projection × Option QueryError :=
  let marking := selectionMarks s mode root .root selection
  (p.add marking.marks, marking.fault)

/-- Adds the marks of several selections, or says what is wrong with the first faulty one. -/
def selectAll (p : Projection) (s : Schema) (root : EntityId) (mode : SelectionMode) :
    List FieldSelection → Except QueryError Projection
  | [] => .ok p
  | selection :: rest =>
    match p.select s root mode selection with
    | (_, some e) => .error e
    | (p, none) => p.selectAll s root mode rest

/-- Checks that no column that every instance needs is left out of an entity. -/
def checkEntity (p : Projection) (e : Entity) : Except QueryError Unit :=
  match e.columns.find? fun c => !c.nullable && c.name != e.pk && !p.isIncluded c.name with
  | some c => .error (.excludedRequiredField e.name c.name)
  | none => .ok ()

def checkRequired (p : Projection) (s : Schema) (root : EntityId) (loaded : List ResolvedPath) :
    Except QueryError Unit := do
  p.checkEntity (s.entity root)
  loaded.forM fun r => (p.at_ r.path).checkEntity (s.entity r.target)

end Projection

end RelQuery
