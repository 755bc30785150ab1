import RelQuery.Settings
import RelQuery.Toml

/-!
# Where settings come from

Settings are read from a TOML file: the one that is named, else one beside the program, else one of the user. What is
not said keeps its default, and what is not known is passed over.
-/

namespace RelQuery

inductive SettingsError where
  | fileNotFound
  | unreadable
  | malformed
  deriving DecidableEq

def Toml.asBool? : Toml → Option Bool
  | .boolean b => some b
  | _ => none

/-- A length: an integer of 64 bits without a sign. -/
def Toml.asLength? : Toml → Option Nat
  | .integer n => if 0 ≤ n && n < UInt64.size then some n.toNat else none
  | _ => none

/-- A dialect: its name, or a table that holds nothing under that name. -/
def Toml.asDialect? : Toml → Option Sql.Dialect
  | .string name => Sql.Dialect.ofName? name
  | .table [(name, .table [])] => Sql.Dialect.ofName? name
  | .table [(name, .array [])] => Sql.Dialect.ofName? name
  | _ => none

/-- Reads an entry if there is one; no answer if it has the wrong form. -/
def readEntry? {α : Type} (read : Toml → Option α) (default : α) : Option Toml → Option α
  | none => some default
  | some t => read t

def entryOf? (entries : List (String × Toml)) (key : String) : Option Toml :=
  (entries.find? (·.1 == key)).map (·.2)

/-- Reads the one field of a section. A section may also be an array of its values in order; a date has no fields. -/
def readSection? {α : Type} (field : String) (read : Toml → Option α) (default : α) : Option Toml → Option α
  | none => some default
  | some (.table entries) => readEntry? read default (entryOf? entries field)
  | some (.array items) => readEntry? read default items.head?
  | some .date => some default
  | some _ => none

namespace Settings

def ofToml? (text : String) : Option Settings := do
  let entries ← Toml.parse? text
  let base : Settings := {}
  return {
    dialect := ← readEntry? Toml.asDialect? base.dialect (entryOf? entries "dialect")
    aliasLength := ← readSection? "length" Toml.asLength? base.aliasLength (entryOf? entries "aliases")
    concurrentSiblings :=
      ← readSection? "concurrent_siblings" Toml.asBool? base.concurrentSiblings (entryOf? entries "prefetch")
    pageAsSubquery := ← readSection? "subquery" Toml.asBool? base.pageAsSubquery (entryOf? entries "pagination") }

end Settings

/-- What is found where a settings file is looked for. -/
inductive ConfigFile where
  | missing
  | directory
  | bytes (content : ByteArray)

namespace ConfigFile

def exists_ : ConfigFile → Bool
  | missing => false
  | _ => true

def settings : ConfigFile → Except SettingsError Settings
  | missing => .error .fileNotFound
  | directory => .error .unreadable
  | bytes content =>
    match String.fromUTF8? content with
    | none => .error .unreadable
    | some text =>
      match Settings.ofToml? text with
      | some s => .ok s
      | none => .error .malformed

end ConfigFile

/-- Settings from the file that is named, if one is, else from the first file that is there, else the defaults. -/
def Settings.load (named : Option ConfigFile) (beside user : ConfigFile) : Except SettingsError Settings :=
  match named with
  | some file => file.settings
  | none =>
    if beside.exists_ then beside.settings
    else if user.exists_ then user.settings
    else .ok {}

end RelQuery
