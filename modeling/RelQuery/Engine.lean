import RelQuery.Plan
import RelQuery.Rows

/-!
# Engines

An engine plans requests, has a backend execute their queries, and turns the rows into instances. What changes while it
runs is its session: the alias registry, the state of the backend, and the statements executed so far.
-/

namespace RelQuery

open Sql

/-- What executes queries: an answer is rows, or the text of a failure. -/
structure Backend (σ : Type) where
  execute : Query → σ → Except String (List Row) × σ

def Backend.ofStatements {σ : Type} (d : Dialect) (execute : Statement → σ → Except String (List Row) × σ) :
    Backend σ where
  execute query := execute (query.statement d)

/-- What executes queries and may answer later: a query that is handed over gets a ticket, and whoever polls the ticket
gets the answer, or nothing while there is none. -/
structure Service (σ τ : Type) where
  submit : Query → σ → τ × σ
  poll : τ → σ → Option (Except String (List Row)) × σ

/-- A backend that answers a query when it gets it. -/
def Backend.atOnce {σ : Type} (b : Backend σ) : Service σ (Except String (List Row)) where
  submit := b.execute
  poll answer state := (some answer, state)

/-- What stays the same while an engine runs. -/
structure Engine (σ : Type) where
  schema : Schema
  settings : Settings
  factory : Factory
  backend : Backend σ

/-- What changes while an engine runs. -/
structure Session (σ : Type) where
  registry : AliasRegistry
  backend : σ
  /-- The statements executed so far, in order, those that failed included. -/
  executed : List Statement

/-- A computation of an engine. Changes of the session stay when it has no result. -/
abbrev Run (σ : Type) := ExceptT NoResult (StateM (Session σ))

variable {σ τ α : Type}

def Engine.newSession (e : Engine σ) (backend : σ) : Session σ := ⟨e.settings.newRegistry, backend, []⟩

namespace Run

def exec (run : Run σ α) (session : Session σ) : Except NoResult α × Session σ := run session

/-- A result that needs no session. -/
def ofExcept (r : Except QueryError α) : Run σ α := fun session => (NoResult.lift r, session)

def onRegistry (step : AliasRegistry → Except NoResult α × AliasRegistry) : Run σ α := fun session =>
  match step session.registry with
  | (r, registry) => (r, { session with registry })

end Run

namespace Engine

def execute (e : Engine σ) (query : Query) : Run σ (List Row) := fun session =>
  match e.backend.execute query session.backend with
  | (r, backend) =>
    let session := { session with backend, executed := session.executed ++ [query.statement e.settings.dialect] }
    match r with
    | .ok rows => (.ok rows, session)
    | .error cause => (.error (.failed (.backend cause)), session)

/-- Hands a query over. From then on it counts as executed, whenever it is answered. -/
def submit (e : Engine σ) (svc : Service σ τ) (query : Query) : Run σ τ := fun session =>
  match svc.submit query session.backend with
  | (ticket, backend) =>
    (.ok ticket, { session with backend, executed := session.executed ++ [query.statement e.settings.dialect] })

def materializer (e : Engine σ) : Materializer := ⟨e.schema, e.factory⟩

def plan (e : Engine σ) (r : Request) : Run σ PlannedQuery := Run.onRegistry (r.plan e.schema e.settings)

def fetch (e : Engine σ) (r : Request) : Run σ (List Instance × PlannedQuery) := do
  let planned ← e.plan r
  let rows ← e.execute planned.query
  let instances ← Run.ofExcept (e.materializer.ofRows planned.tree rows)
  return (merge e.schema instances, planned)

end Engine

/-- The rows that answer a ticket, if they are there. -/
def Service.rows? (svc : Service σ τ) (ticket : τ) : Run σ (Option (List Row)) := fun session =>
  match svc.poll ticket session.backend with
  | (answer, backend) =>
    let session := { session with backend }
    match answer with
    | none => (.ok none, session)
    | some (.ok rows) => (.ok (some rows), session)
    | some (.error cause) => (.error (.failed (.backend cause)), session)

end RelQuery
