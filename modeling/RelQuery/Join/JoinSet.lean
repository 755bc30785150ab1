import RelQuery.Distinct
import RelQuery.Path

/-!
# Join sets

The paths that a statement joins, kept as the longest ones: a path is joined together with all the paths it begins
with.
-/

namespace RelQuery

/-- The longest of the joined paths, in order of addition. -/
structure JoinSet where
  leaves : List Path
  deriving DecidableEq

/-- Paths level by level: shorter ones first, those of one length in the order given. -/
def byLength (paths : List Path) : List Path :=
  let longest := paths.foldl (fun n p => max n p.length) 0
  (List.range (longest + 1)).flatMap fun n => paths.filter (·.length == n)

namespace JoinSet

def empty : JoinSet := ⟨[]⟩

def contains (j : JoinSet) (path : Path) : Bool :=
  j.leaves.any path.isPrefixOf

def accepts (j : JoinSet) (path : Path) : Bool :=
  !path.isRoot && !j.contains path

/-- Joins a path, in place of the leaves it goes on from. -/
def add (j : JoinSet) (path : Path) : JoinSet :=
  if j.accepts path then ⟨j.leaves.filter (fun leaf => !leaf.isPrefixOf path) ++ [path]⟩ else j

/-- All joined paths, shorter ones first. -/
def expanded (j : JoinSet) : List Path :=
  byLength (distinct (j.leaves.flatMap Path.prefixes))

def isEmpty (j : JoinSet) : Bool := j.leaves.isEmpty

end JoinSet

end RelQuery
