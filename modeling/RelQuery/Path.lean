/-!
# Relation paths

A path is the chain of relation names that leads from a root entity to another. Written down, its segments are
separated by two underscores or by a point.
-/

namespace RelQuery

/-- The pieces of a text between its separators, empty ones included. Of three underscores the first two separate. -/
def pieces : List Char → List (List Char)
  | [] => [[]]
  | '_' :: '_' :: rest => [] :: pieces rest
  | '.' :: rest => [] :: pieces rest
  | c :: rest =>
    match pieces rest with
    | [] => [[c]]
    | piece :: more => (c :: piece) :: more

/-- The segments of a written path: its pieces that are not empty. -/
def segmentsOf (raw : String) : List String :=
  ((pieces raw.toList).filter (!·.isEmpty)).map String.ofList

def joinSegments (segments : List String) : String :=
  String.intercalate "__" segments

structure Path where
  segments : List String
  deriving DecidableEq, Inhabited

namespace Path

/-- The path that goes nowhere. -/
def root : Path := ⟨[]⟩

def parse (raw : String) : Path := ⟨segmentsOf raw⟩

def text (p : Path) : String := joinSegments p.segments

def length (p : Path) : Nat := p.segments.length

def isRoot (p : Path) : Bool := p.segments.isEmpty

def last? (p : Path) : Option String := p.segments.getLast?

def parent? (p : Path) : Option Path :=
  if p.isRoot then none else some ⟨p.segments.dropLast⟩

def child (p : Path) (segment : String) : Path := ⟨p.segments ++ [segment]⟩

def isPrefixOf (p other : Path) : Bool := p.segments.isPrefixOf other.segments

def stripFrom? (p other : Path) : Option Path :=
  if p.isPrefixOf other then some ⟨other.segments.drop p.length⟩ else none

/-- The paths that this one begins with, itself included and the root left out, shortest first. -/
def prefixes (p : Path) : List Path :=
  (List.range p.length).map fun n => ⟨p.segments.take (n + 1)⟩

def isBefore (p other : Path) : Bool := decide (p.segments < other.segments)

theorem length_child (p : Path) (segment : String) : (p.child segment).length = p.length + 1 := by
  simp [child, length]

end Path

end RelQuery
