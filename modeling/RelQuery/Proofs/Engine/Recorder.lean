import RelQuery.Prefetch.Load
import RelQuery.Proofs.Engine.Run
import RelQuery.Proofs.Engine.Slice
import RelQuery.Proofs.Plan.Exists

/-!
# Recorded runs

An engine over a database that records the queries it executes. What a computation gives may take that all queries it
executes have distinct labels: `Run.Gives` says so of the whole record, so it goes on from step to step because records
only grow.
-/

namespace RelQuery

open Sql

variable {sv : Server} {db : Database} {s : Schema} {settings : Settings} {α β : Type}

/-- An engine whose backend answers queries from a database and records them. -/
def Sql.Database.recorder (db : Database) (sv : Server) (s : Schema) (settings : Settings) : Engine (List Query) where
  schema := s
  settings := settings
  factory := .standard
  backend := ⟨fun query asked => (.ok ((query.answer sv db).map NameMap.ofPairs), asked ++ [query])⟩

theorem exec_execute (query : Query) (session : Session (List Query)) :
    ((db.recorder sv s settings).execute query).exec session =
      (.ok ((query.answer sv db).map NameMap.ofPairs),
        { session with
          backend := session.backend ++ [query]
          executed := session.executed ++ [query.statement settings.dialect] }) := rfl

/-- No query has two values under one label. -/
def DistinctLabels (queries : List Query) : Prop := ∀ query ∈ queries, (query.select.map (·.label)).Nodup

theorem DistinctLabels.of_prefix {before after : List Query} (h : DistinctLabels after) (hpre : before <+: after) :
    DistinctLabels before := fun query hquery => h query (hpre.subset hquery)

namespace Run

/-- The computation keeps what is recorded. -/
def Grows (run : Run (List Query) α) : Prop := ∀ session, session.backend <+: (run.exec session).2.backend

namespace Grows

theorem pure (a : α) : (Pure.pure a : Run (List Query) α).Grows := fun _ => List.prefix_rfl

theorem ofExcept (r : Except QueryError α) : (Run.ofExcept r : Run (List Query) α).Grows := fun _ => List.prefix_rfl

theorem onRegistry (step : AliasRegistry → Except NoResult α × AliasRegistry) :
    (Run.onRegistry step : Run (List Query) α).Grows := fun _ => List.prefix_rfl

theorem execute (query : Query) : ((db.recorder sv s settings).execute query).Grows := fun session =>
  List.prefix_append session.backend [query]

theorem bind {run : Run (List Query) α} {f : α → Run (List Query) β} (h : run.Grows) (hf : ∀ a, (f a).Grows) :
    (run >>= f).Grows := by
  intro session
  have hfirst := h session
  rw [exec_bind]
  rcases hexec : run.exec session with ⟨e | a, session'⟩ <;> rw [hexec] at hfirst
  · exact hfirst
  · exact hfirst.trans (hf a session')

theorem fetch (r : Request) : ((db.recorder sv s settings).fetch r).Grows :=
  (onRegistry _).bind fun planned => (execute planned.query).bind fun _ => (ofExcept _).bind fun _ => pure _

end Grows

/-- If all queries that are recorded in the end have distinct labels, the computation gives a result that has the
property, unless tables find no aliases. -/
def Gives (run : Run (List Query) α) (P : α → Prop) : Prop :=
  ∀ session, DistinctLabels (run.exec session).2.backend →
    (∃ a, (run.exec session).1 = .ok a ∧ P a) ∨ ∃ e, (run.exec session).1 = .error e ∧ e.isAliasError = true

namespace Gives

variable {P : α → Prop}

theorem pure {a : α} (h : P a) : (Pure.pure a : Run (List Query) α).Gives P := fun _ _ => .inl ⟨a, rfl, h⟩

theorem ofExcept {a : α} {r : Except QueryError α} (hr : r = .ok a) (h : P a) :
    (Run.ofExcept r : Run (List Query) α).Gives P := fun _ _ => .inl ⟨a, NoResult.lift_eq_ok.mpr hr, h⟩

theorem mono {Q : α → Prop} {run : Run (List Query) α} (h : run.Gives P) (hPQ : ∀ a, P a → Q a) : run.Gives Q :=
  fun session hlabels => (h session hlabels).imp_left fun ⟨a, ha, hP⟩ => ⟨a, ha, hPQ a hP⟩

theorem bind {Q : β → Prop} {run : Run (List Query) α} {f : α → Run (List Query) β} (h : run.Gives P)
    (hgrows : ∀ a, (f a).Grows) (hf : ∀ a, P a → (f a).Gives Q) : (run >>= f).Gives Q := by
  intro session hlabels
  rw [exec_bind] at hlabels ⊢
  have hfirst := h session
  rcases hexec : run.exec session with ⟨e | a, session'⟩ <;> rw [hexec] at hlabels hfirst
  · obtain ⟨a, ha, -⟩ | ⟨e', he, halias⟩ := hfirst hlabels
    · cases ha
    · cases he
      exact .inr ⟨e, rfl, halias⟩
  · obtain ⟨a', ha, hP⟩ | ⟨_, he, -⟩ := hfirst (hlabels.of_prefix (hgrows a session'))
    · cases ha
      exact hf a hP session' hlabels
    · cases he

end Gives

end Run

/-- What fetching a request gives, if under any registry it is planned and its rows can be read, or its tables find no
aliases. -/
theorem gives_fetch {r : Request} {P : List Instance × PlannedQuery → Prop}
    (h : ∀ registry,
      (∃ planned, (r.plan s settings registry).1 = .ok planned ∧
        ((planned.query.select.map (·.label)).Nodup → ∃ found,
          (standardOf s).ofRows planned.tree ((planned.query.answer sv db).map NameMap.ofPairs) = .ok found ∧
            P (merge s found, planned))) ∨
      ∃ e, (r.plan s settings registry).1 = .error e ∧ e.isAliasError = true) :
    ((db.recorder sv s settings).fetch r).Gives P := by
  intro session hlabels
  have hplan : ((db.recorder sv s settings).plan r).exec session =
      ((r.plan s settings session.registry).1,
        { session with registry := (r.plan s settings session.registry).2 }) := rfl
  unfold Engine.fetch at hlabels ⊢
  rw [Run.exec_bind, hplan] at hlabels ⊢
  obtain ⟨planned, hplanned, hanswer⟩ | ⟨e, herror, halias⟩ := h session.registry
  · rw [hplanned] at hlabels ⊢
    dsimp only at hlabels ⊢
    rw [Run.exec_bind, exec_execute] at hlabels ⊢
    have hgrows : (Run.ofExcept ((db.recorder sv s settings).materializer.ofRows planned.tree
        ((planned.query.answer sv db).map NameMap.ofPairs)) >>= fun found =>
          (Pure.pure (merge s found, planned) : Run (List Query) (List Instance × PlannedQuery))).Grows :=
      (Run.Grows.ofExcept _).bind fun found => Run.Grows.pure _
    have hrecorded := hlabels.of_prefix (hgrows _) planned.query (List.mem_append_right _ (List.mem_singleton_self _))
    obtain ⟨found, hfound, hP⟩ := hanswer hrecorded
    have hread : (db.recorder sv s settings).materializer.ofRows planned.tree
        ((planned.query.answer sv db).map NameMap.ofPairs) = .ok found := hfound
    dsimp only
    rw [hread]
    exact .inl ⟨_, rfl, hP⟩
  · rw [herror]
    exact .inr ⟨e, rfl, halias⟩

/-- What is fetched of a bound request: all instances of it, prepared under some aliases, within its bounds. -/
def BoundRequest.Fetched (b : BoundRequest) (sv : Server) (db : Database) (s : Schema) (r : Request)
    (found : List Instance × PlannedQuery) : Prop :=
  ∃ aliases, (⟨s, r, b, aliases⟩ : Prepared).Named ∧ (⟨s, r, b, aliases⟩ : Prepared).tree = .ok found.2.tree ∧
    found.2.projection = b.projection ∧
    found.1 = bounded r.limit r.offset ((⟨s, r, b, aliases⟩ : Prepared).allInstances sv db found.2.tree)

/-- A bound request that selects what instances need and orders by the root alone is fetched. -/
theorem gives_fetch_of_bind (hs : s.WellFormed) (hplain : ∀ rel ∈ s.relations, Separable rel.name) (hdb : db.Sound sv s)
    {r : Request} (hroot : r.root.index < s.entities.length) (hkey : r.projection.KeepsKey s r.root)
    (hraw : r.limitRawSql = false) {b : BoundRequest} (hb : r.bind s = .ok b)
    (hwhole : ∀ field, b.projection.isIncluded field = true)
    (hcomplete : ∀ t ∈ b.resolved, r.partialPaths.contains t.path = false →
      ∀ field, (b.projection.at_ t.path).isIncluded field = true)
    (horders : ∀ o ∈ b.orders, o.path.isRoot = true) :
    ((db.recorder sv s settings).fetch r).Gives (b.Fetched sv db s r) := by
  refine gives_fetch fun registry => ?_
  obtain ⟨aliases, registry', hprepared⟩ | ⟨e, registry', herror, halias⟩ :=
    prepare_of_bind registry hb hwhole hcomplete
  · have hdiffer := pathsDiffer_of_separable hprepared hplain
    have hnamed := named_of_prepare hs hroot hprepared hdiffer
    obtain ⟨planned, hplanned⟩ := hnamed.exists_plan settings
    have hplan := planRequest_eq_ok.mpr ⟨_, hprepared, hplanned⟩
    refine .inl ⟨planned, congrArg Prod.fst hplan, fun hlabels => ?_⟩
    have h : Answerable s r registry ⟨s, r, b, aliases⟩ :=
      ⟨hs, hroot, hkey, ⟨registry', hprepared⟩, hdiffer, settings, planned, hplanned, hlabels⟩
    obtain ⟨_, _, _, htree, -⟩ := plan_eq_ok hplanned
    have hfetched := fetched_aligned h hdb hraw htree (aligned_of_root_orders horders) settings
    rw [fetched_eq hplan] at hfetched
    obtain ⟨found, hfound, hmerged⟩ := map_eq_ok.mp (NoResult.lift_eq_ok.mp hfetched)
    exact ⟨found, hfound, aliases, hnamed, htree, projection_of_plan hplanned, hmerged⟩
  · refine .inr ⟨e, ?_, halias⟩
    rw [plan_eq, herror]
    rfl

end RelQuery
