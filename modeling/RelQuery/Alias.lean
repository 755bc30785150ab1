import RelQuery.Digest.Sha256

/-!
# Table aliases

Every scope that needs a table in a statement gets one short alias for as long as its registry lives, so that the
labels in compiled statements are reproducible. An alias is the beginning of the digest of its scope; when another
scope has it already, the digest is taken again with a counter.
-/

namespace RelQuery

inductive AliasScope where
  /-- A relation of a table. -/
  | edge (table relation : String)
  /-- The linking table of a relation of a table. -/
  | through (table relation : String)
  /-- A path from a root table. -/
  | path (root written : String)
  /-- The linking table at the end of a path from a root table. -/
  | throughPath (root written : String)
  deriving DecidableEq

def AliasScope.key : AliasScope → String
  | .edge table relation => "edge:" ++ table ++ "." ++ relation
  | .through table relation => "through:" ++ table ++ "." ++ relation
  | .path root written => "path:" ++ root ++ ":" ++ written
  | .throughPath root written => "through-path:" ++ root ++ ":" ++ written

structure Alias where
  text : String
  deriving DecidableEq, Inhabited

def Alias.label (a : Alias) (field : String) : String :=
  a.text ++ "_" ++ field

def minAliasLength : Nat := 4

def maxAliasLength : Nat := 16

/-- The nearest length that a registry supports. -/
def clampAliasLength (length : Nat) : Nat :=
  max minAliasLength (min length maxAliasLength)

/-- The four bytes of a counter, least significant first; none for zero. -/
def attemptBytes (attempt : UInt32) : List UInt8 :=
  if attempt = 0 then []
  else (List.range 4).map fun i => UInt8.ofNat (attempt.toNat / Nat.pow 256 i)

/-- The alias that a scope gets at an attempt unless it is taken. -/
def AliasScope.candidate (scope : AliasScope) (length : Nat) (attempt : UInt32) : Alias :=
  let bytes := scope.key.toUTF8.data.toList ++ attemptBytes attempt
  ⟨String.ofList ((Sha256.hexDigest bytes).take length)⟩

/-- The aliases given so far, in order, all of one length. -/
structure AliasRegistry where
  length : Nat
  entries : List (AliasScope × Alias)

namespace AliasRegistry

def empty (length : Nat) : AliasRegistry :=
  ⟨clampAliasLength length, []⟩

def size (r : AliasRegistry) : Nat := r.entries.length

def resolve? (r : AliasRegistry) (scope : AliasScope) : Option Alias :=
  (r.entries.find? (·.1 == scope)).map (·.2)

def isTaken (r : AliasRegistry) (a : Alias) : Bool :=
  r.entries.any (·.2 == a)

/-- The first free candidate of a scope among a number of attempts. -/
def mintFrom (r : AliasRegistry) (scope : AliasScope) : Nat → UInt32 → Option Alias
  | 0, _ => none
  | left + 1, attempt =>
    let candidate := scope.candidate r.length attempt
    if r.isTaken candidate then r.mintFrom scope left (attempt + 1) else some candidate

/-- The first free candidate of a scope among all attempts that a 32-bit counter numbers. -/
def mint (r : AliasRegistry) (scope : AliasScope) : Option Alias :=
  r.mintFrom scope UInt32.size 0

/-- The alias of a scope, minted if it has none. There is no answer when every candidate is taken. -/
def register (r : AliasRegistry) (scope : AliasScope) : Option (Alias × AliasRegistry) :=
  match r.resolve? scope with
  | some a => some (a, r)
  | none =>
    match r.mint scope with
    | some a => some (a, { r with entries := r.entries ++ [(scope, a)] })
    | none => none

theorem register_of_resolve? {r : AliasRegistry} {scope : AliasScope} {a : Alias} (h : r.resolve? scope = some a) :
    r.register scope = some (a, r) := by
  simp [register, h]

end AliasRegistry

end RelQuery
