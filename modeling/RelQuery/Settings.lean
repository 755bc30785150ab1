import RelQuery.Alias
import RelQuery.Sql.Dialect

/-!
# Settings

What can be chosen about an engine.
-/

namespace RelQuery

structure Settings where
  dialect : Sql.Dialect := .sqlite
  /-- The length of aliases, as wished for. -/
  aliasLength : Nat := 6
  /-- Whether sibling relations may be loaded at the same time. -/
  concurrentSiblings : Bool := true
  /-- Whether a page of root rows is a derived table; otherwise its keys select the rows. -/
  pageAsSubquery : Bool := true
  deriving DecidableEq

namespace Settings

def effectiveLength (s : Settings) : Nat := clampAliasLength s.aliasLength

def newRegistry (s : Settings) : AliasRegistry := .empty s.effectiveLength

def withDialect (s : Settings) (d : Sql.Dialect) : Settings := { s with dialect := d }

end Settings

end RelQuery
