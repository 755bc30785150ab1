import RelQuery.Distinct
import RelQuery.Instance

/-!
# Merging repeated instances

Joining along a relation to many repeats the instances on its near side. Merging brings instances with the same entity
and primary key together, in order of first appearance, and joins what they know: a field takes the first value that is
not null, relations to many are concatenated and then merged in turn.
-/

namespace RelQuery

/-- What tells instances apart. -/
def Instance.key (s : Schema) (i : Instance) : EntityId × Value := (i.entity, i.pk s)

/-- Our fields, with the values of others where ours are null or missing. -/
def mergeFields (ours theirs : NameMap Value) : NameMap Value :=
  theirs.foldl
    (fun fields (name, value) =>
      match fields.get? name with
      | some v => if v.isNull then NameMap.put name value fields else fields
      | none => NameMap.put name value fields)
    ours

mutual

def mergePair (s : Schema) (ours : Instance) : Instance → Instance
  | ⟨_, fields, relations⟩ =>
    ⟨ours.entity, mergeFields ours.fields fields, mergeRelations s ours.relations relations⟩
termination_by structural theirs => theirs

/-- Our relations, each merged with the other one of its name. -/
def mergeRelations (s : Schema) (ours : List (String × Related)) :
    List (String × Related) → List (String × Related)
  | [] => ours
  | (name, theirs) :: rest =>
    let merged :=
      match NameMap.get? ours name with
      | some r => mergeRelated s r theirs
      | none => theirs
    mergeRelations s (NameMap.put name merged ours) rest
termination_by structural theirs => theirs

/-- Relations to many are concatenated; relations to one are merged if they lead to the same key; a relation that
leads nowhere gives way; otherwise ours stays. -/
def mergeRelated (s : Schema) (ours : Related) : Related → Related
  | .many theirs =>
    match ours with
    | .many left => .many (left ++ theirs)
    | .one none => .many theirs
    | .one (some i) => .one (some i)
  | .one theirs =>
    match ours with
    | .one (some i) => .one (some (mergeSame s i theirs))
    | .one none => .one theirs
    | .many left => .many left
termination_by structural theirs => theirs

/-- An instance merged with another if there is one of the same key. -/
def mergeSame (s : Schema) (ours : Instance) : Option Instance → Instance
  | none => ours
  | some theirs => if ours.key s = theirs.key s then mergePair s ours theirs else ours
termination_by structural theirs => theirs

end

def mergeNeighbours (s : Schema) : List Instance → List Instance
  | a :: b :: rest => mergePair s a b :: mergeNeighbours s rest
  | rest => rest

/-- Merges neighbours for a number of rounds, or until one instance is left. -/
def mergeRounds (s : Schema) : Nat → List Instance → List Instance
  | 0, group => group
  | rounds + 1, group => if group.length ≤ 1 then group else mergeRounds s rounds (mergeNeighbours s group)

def mergeGroup? (s : Schema) (group : List Instance) : Option Instance :=
  (mergeRounds s group.length group).getLast?

/-- Instances grouped by key, in order of first appearance. -/
def groupByKey (s : Schema) (instances : List Instance) : List (List Instance) :=
  (distinct (instances.map (·.key s))).map fun key => instances.filter fun i => i.key s = key

mutual

def Instance.depth : Instance → Nat
  | ⟨_, _, relations⟩ => relationsDepth relations
termination_by structural i => i

def relationsDepth : List (String × Related) → Nat
  | [] => 0
  | (_, related) :: rest => max (related.depth + 1) (relationsDepth rest)
termination_by structural relations => relations

def Related.depth : Related → Nat
  | .one related => optionalDepth related
  | .many related => instancesDepth related
termination_by structural r => r

def optionalDepth : Option Instance → Nat
  | none => 0
  | some i => i.depth
termination_by structural i => i

def instancesDepth : List Instance → Nat
  | [] => 0
  | i :: rest => max i.depth (instancesDepth rest)
termination_by structural l => l

end

/-- Merges instances, each merged one then passed through `tidy`. -/
def mergeThen (s : Schema) (tidy : Instance → Instance) (instances : List Instance) : List Instance :=
  (groupByKey s instances).filterMap fun group => (mergeGroup? s group).map tidy

/-- Merges what the relations of an instance lead to, down to a depth. -/
def tidyWithin (s : Schema) : Nat → Instance → Instance
  | 0, i => i
  | depth + 1, i =>
    { i with
      relations := i.relations.map fun (name, related) =>
        (name,
          match related with
          | .one related => .one (related.map (tidyWithin s depth))
          | .many related => .many (mergeThen s (tidyWithin s depth) related)) }

def merge (s : Schema) (instances : List Instance) : List Instance :=
  mergeThen s (tidyWithin s (instancesDepth instances)) instances

end RelQuery
