import RelQuery.Proofs.Plan.Values
import RelQuery.Proofs.Prefetch.Asked
import RelQuery.Proofs.Prefetch.Faults
import RelQuery.Proofs.Prefetch.Levels
import RelQuery.Proofs.Prefetch.Load

/-!
# The follow-up statements of a run

A run asks once for every relation that is not joined and that has parents with keys, in the order of the tree, for just
these keys. It stops at the first request that fails.
-/

namespace RelQuery

open Sql

variable {σ α : Type} {s : Schema}

/-! ### How it is answered -/

/-- The fault that a computation ends with, if any. -/
def faultOf : Except NoResult α → Option NoResult
  | .ok _ => none
  | .error n => some n

def FollowUp.request (s : Schema) (ask : FollowUp) : Request := ask.node.request s ask.keys

/-- Requests made one after the other, with the statements that are executed for them, up to the first that fails: it is
refused when it is planned, or fails when its statement has been executed. -/
inductive Followed (e : Engine σ) (level : Path → List Instance) :
    List FollowUp → Session σ → List Statement → Option NoResult → Session σ → Prop where
  | done (session : Session σ) : Followed e level [] session [] none session
  | answered {ask : FollowUp} {asks : List FollowUp} {session next last : Session σ} {found : List Instance}
      {planned : PlannedQuery} {statements : List Statement} {fault : Option NoResult}
      (hfetch : (e.fetch (ask.request e.schema)).exec session = (.ok (found, planned), next))
      (hlevel : level ask.node.path = found.map ((e.schema.relation ask.node.relation).withoutOwners e.schema))
      (hrest : Followed e level asks next statements fault last) :
      Followed e level (ask :: asks) session (planned.statement e.settings.dialect :: statements) fault last
  | refused {ask : FollowUp} {asks : List FollowUp} {session last : Session σ} {n : NoResult}
      (hplan : (e.plan (ask.request e.schema)).exec session = (.error n, last)) :
      Followed e level (ask :: asks) session [] (some n) last
  | failed {ask : FollowUp} {asks : List FollowUp} {session next last : Session σ} {planned : PlannedQuery}
      {n : NoResult} (hplan : (e.plan (ask.request e.schema)).exec session = (.ok planned, next))
      (hfetch : (e.fetch (ask.request e.schema)).exec session = (.error n, last)) :
      Followed e level (ask :: asks) session [planned.statement e.settings.dialect] (some n) last

namespace Followed

variable {e : Engine σ} {level : Path → List Instance} {asks more : List FollowUp} {session next last : Session σ}
  {statements statements' : List Statement} {fault : Option NoResult}

theorem congr {level' : Path → List Instance} (h : Followed e level asks session statements fault last)
    (hsame : ∀ ask ∈ asks, level' ask.node.path = level ask.node.path) :
    Followed e level' asks session statements fault last := by
  induction h with
  | done => exact .done _
  | answered hfetch hlevel hrest ih =>
    obtain ⟨hask, hasks⟩ := List.forall_mem_cons.mp hsame
    exact .answered hfetch (hask.trans hlevel) (ih hasks)
  | refused hplan => exact .refused hplan
  | failed hplan hfetch => exact .failed hplan hfetch

theorem append (h : Followed e level asks session statements none next)
    (h' : Followed e level more next statements' fault last) :
    Followed e level (asks ++ more) session (statements ++ statements') fault last := by
  generalize hnone : none = stopped at h
  induction h with
  | done => exact h'
  | answered hfetch hlevel hrest ih => exact .answered hfetch hlevel (ih h' hnone)
  | refused => cases hnone
  | failed => cases hnone

theorem stop {n : NoResult} (h : Followed e level asks session statements (some n) last) (more : List FollowUp) :
    Followed e level (asks ++ more) session statements (some n) last := by
  generalize hsome : some n = stopped at h ⊢
  induction h with
  | done => cases hsome
  | answered hfetch hlevel hrest ih => exact .answered hfetch hlevel (ih hsome)
  | refused hplan => exact .refused hplan
  | failed hplan hfetch => exact .failed hplan hfetch

end Followed

/-- A list of values can only be looked up as a list. -/
theorem list_of_bindLookup {root : EntityId} {raw : String} {keys : List Value} {c : BoundCond}
    (h : s.bindLookup root raw (.list (keys.map .scalar)) = .ok c) :
    ∃ path column, c = ⟨raw, path, column, .isIn, .many keys⟩ := by
  obtain ⟨path, column, referenced, bound, -, hbound, rfl⟩ := bindLookup_eq_ok.mp h
  unfold ValueRef.bind at hbound
  cases hop : (Lookup.parse raw).operator <;> rw [hop] at hbound
  case isIn =>
    obtain ⟨values, hvalues, rfl⟩ := map_eq_ok.mp hbound
    rw [mapM_plain] at hvalues
    cases hvalues
    exact ⟨path, column.dbName, rfl⟩
  all_goals cases hbound

theorem params_of_request {node : PrefetchNode} {keys : List Value} {settings : Settings}
    {registry registry' : AliasRegistry} {planned : PlannedQuery}
    (h : (node.request s keys).plan s settings registry = (.ok planned, registry')) (d : Dialect) :
    (planned.statement d).params = keys := by
  obtain ⟨p, hp, hplan⟩ := prepared_of_plan h
  obtain ⟨-, hlimit, hoffset, -⟩ := shape_childRequest s (s.relation node.relation) node.projection node.orderBy
    (node.children.map fun c => (node.path.stripFrom? c.path).getD .root) keys
  rw [← PrefetchNode.request] at hlimit hoffset
  have hfilters := hp.bound.filters
  rw [PrefetchNode.request, filters_childRequest] at hfilters
  unfold Schema.bindFilters at hfilters
  split at hfilters
  · cases hfilters
  · rename_i f hf
    obtain ⟨c, hc, rfl⟩ := map_eq_ok.mp hf
    obtain ⟨path, column, rfl⟩ := list_of_bindLookup hc
    obtain ⟨none, hnone, hfilters⟩ := map_eq_ok.mp hfilters
    cases hnone
    exact params_of_isIn hplan (hp.request ▸ hlimit) (hp.request ▸ hoffset) hfilters.symm d

section

variable {e : Engine σ} {session next last : Session σ} {r : Request}

theorem executed_of_execute {query : Query} {result : Except NoResult (List Row)}
    (h : (e.execute query).exec session = (result, last)) :
    last.executed = session.executed ++ [query.statement e.settings.dialect] := by
  unfold Engine.execute Run.exec at h
  dsimp only at h
  split at h <;> cases h <;> rfl

/-- Once a request is planned its statement is executed, and nothing else, whatever comes of it. -/
theorem executed_of_fetch {planned : PlannedQuery} (hplan : (e.plan r).exec session = (.ok planned, next))
    {result : Except NoResult (List Instance × PlannedQuery)} (h : (e.fetch r).exec session = (result, last)) :
    last.executed = session.executed ++ [planned.statement e.settings.dialect] := by
  unfold Engine.fetch at h
  rw [Run.exec_bind, hplan] at h
  dsimp only at h
  rw [Run.exec_bind] at h
  rcases hexecute : (e.execute planned.query).exec next with ⟨err | rows, after⟩
  all_goals
    have hexecuted := executed_of_execute hexecute
    rw [(executed_of_plan hplan).1] at hexecuted
    rw [hexecute] at h
    dsimp only at h
  · cases h
    exact hexecuted
  · rw [Run.exec_bind, Run.exec_ofExcept] at h
    rcases hrows : e.materializer.ofRows planned.tree rows with err | instances <;> rw [hrows] at h <;> cases h <;>
      exact hexecuted

theorem plan_of_fetch {found : List Instance} {planned : PlannedQuery}
    (h : (e.fetch r).exec session = (.ok (found, planned), last)) :
    ∃ next, (e.plan r).exec session = (.ok planned, next) := by
  obtain ⟨planned', next, hplan, h⟩ := Run.exec_bind_eq_ok.mp h
  obtain ⟨rows, _, -, h⟩ := Run.exec_bind_eq_ok.mp h
  obtain ⟨instances, _, -, h⟩ := Run.exec_bind_eq_ok.mp h
  cases h
  exact ⟨next, hplan⟩

end

namespace Followed

variable {e : Engine σ} {level : Path → List Instance} {asks : List FollowUp} {session last : Session σ}
  {statements : List Statement} {fault : Option NoResult}

theorem executed (h : Followed e level asks session statements fault last) :
    last.executed = session.executed ++ statements := by
  induction h with
  | done => rw [List.append_nil]
  | answered hfetch hlevel hrest ih =>
    obtain ⟨next, hplan⟩ := plan_of_fetch hfetch
    rw [ih, executed_of_fetch hplan hfetch, List.append_assoc, List.singleton_append]
  | refused hplan => rw [(executed_of_plan hplan).1, List.append_nil]
  | failed hplan hfetch => exact executed_of_fetch hplan hfetch

theorem params (h : Followed e level asks session statements fault last) :
    statements.map (·.params) <+: asks.map (·.keys) ∧
      (fault = none → statements.map (·.params) = asks.map (·.keys)) := by
  induction h with
  | done => exact ⟨List.prefix_rfl, fun _ => rfl⟩
  | answered hfetch hlevel hrest ih =>
    obtain ⟨next, hplan⟩ := plan_of_fetch hfetch
    rw [List.map_cons, List.map_cons, params_of_request (executed_of_plan hplan).2]
    exact ⟨List.cons_prefix_cons.mpr ⟨rfl, ih.1⟩, fun hnone => congrArg (_ :: ·) (ih.2 hnone)⟩
  | refused hplan => exact ⟨List.nil_prefix, fun hnone => by cases hnone⟩
  | failed hplan hfetch =>
    rw [List.map_singleton, List.map_cons, params_of_request (executed_of_plan hplan).2]
    exact ⟨List.cons_prefix_cons.mpr ⟨rfl, List.nil_prefix⟩, fun hnone => by cases hnone⟩

end Followed

/-! ### Runs -/

variable {tree : JoinTree} {projection : Projection} {paths : List Path} {parent : Path} {id : EntityId}
  {node : PrefetchNode} {level level' : Path → List Instance}

theorem Followed.congr_levels {e : Engine σ} {listed : List PrefetchNode} {session last : Session σ}
    {statements : List Statement} {fault : Option NoResult}
    (h : Followed e level (listed.filterMap (·.followUp? e.schema level)) session statements fault last)
    (hsame : SameLevels listed level' level) :
    Followed e level' (listed.filterMap (·.followUp? e.schema level')) session statements fault last := by
  rw [followUps_congr hsame]
  exact h.congr fun ask hask => (hsame _ (node_mem_of_followUp hask)).1

/-- A computation asks just for what nodes need for the instances above them, for some levels with these instances. -/
def AsksBelow (e : Engine σ) (parent : Path) (parents : List Instance) (listed : List PrefetchNode) (run : Run σ α) :
    Prop :=
  ∀ session result last, run.exec session = (result, last) →
    ∃ level statements, level parent = parents ∧ Levels e.schema level listed ∧
      Followed e level (listed.filterMap (·.followUp? e.schema level)) session statements (faultOf result) last

section

variable {e : Engine σ}

theorem followed_of_fetch_error (ask : FollowUp) {session last : Session σ} {n : NoResult}
    (h : (e.fetch (ask.request e.schema)).exec session = (.error n, last)) (level : Path → List Instance)
    (asks : List FollowUp) : ∃ statements, Followed e level (ask :: asks) session statements (some n) last := by
  rcases hplan : (e.plan (ask.request e.schema)).exec session with ⟨refusal | planned, next⟩
  · have hsame := h
    unfold Engine.fetch at hsame
    rw [Run.exec_bind, hplan] at hsame
    cases hsame
    exact ⟨[], .refused hplan⟩
  · exact ⟨_, .failed hplan h⟩

theorem AsksBelow.map {β : Type} {parents : List Instance} {listed : List PrefetchNode} {run : Run σ α}
    (h : AsksBelow e parent parents listed run) (f : α → β) :
    AsksBelow e parent parents listed (run >>= fun a => pure (f a)) := by
  intro session result last hexec
  rw [Run.exec_bind] at hexec
  rcases hrun : run.exec session with ⟨found, next⟩
  rw [hrun] at hexec
  obtain ⟨level, statements, hparent, hlevels, hfollowed⟩ := h _ _ _ hrun
  refine ⟨level, statements, hparent, hlevels, ?_⟩
  rcases found with err | a <;> cases hexec <;> exact hfollowed

theorem asksBelow_nothing (parent : Path) (listed : List PrefetchNode) (a : α) :
    AsksBelow e parent [] listed (pure a : Run σ α) := by
  intro session result last hexec
  cases hexec
  refine ⟨fun _ => [], [], rfl, levels_nothing listed, ?_⟩
  rw [followUps_nothing]
  exact .done _

theorem asksBelow_nil (parents : List Instance) (a : α) : AsksBelow e parent parents [] (pure a : Run σ α) := by
  intro session result last hexec
  cases hexec
  exact ⟨fun _ => parents, [], rfl, levels_nil _, .done _⟩

section

variable (hcovers : node.Covers e.schema tree projection paths parent id)
include hcovers

/-- A node that needs no request asks for what its children need. -/
theorem AsksBelow.unasked {parents start : List Instance} {run : Run σ α}
    (h : AsksBelow e node.path start (nodesListed node.children) run)
    (hjoined : node.isJoined = true → start = parents.flatMap (·.relatedBy node.name))
    (hpending : node.isJoined = false →
      (e.schema.relation node.relation).parentKeys e.schema parents = [] ∧ start = []) :
    AsksBelow e parent parents node.listed run := by
  intro session result last hexec
  obtain ⟨inside, statements, hstart, hinside, hfollowed⟩ := h _ _ _ hexec
  obtain ⟨level, hparent, -, hsame, hlevels⟩ := exists_levels_node hcovers parents hinside
    (fun hnode => hstart.trans (hjoined hnode)) fun hnode _ => hstart.trans (hpending hnode).2
  have hnone : node.followUp? e.schema level = none := by
    rw [PrefetchNode.followUp?, keysAbove_eq (hcovers.above_eq ▸ hparent)]
    cases hnode : node.isJoined with
    | true => rw [Bool.true_or, if_pos rfl]
    | false => rw [(hpending hnode).1, List.isEmpty_nil, Bool.or_true, if_pos rfl]
  refine ⟨level, statements, hparent, hlevels, ?_⟩
  rw [followUps_listed, hnone, Option.toList_none, List.nil_append]
  exact hfollowed.congr_levels hsame

/-- A node with a request asks for what its children need, after it, for the instances that it is answered with. -/
theorem AsksBelow.asked {parents : List Instance} {keys : List Value} {rest : List Instance × PlannedQuery → Run σ α}
    (h : ∀ fetched : List Instance × PlannedQuery,
      AsksBelow e node.path (fetched.1.map ((e.schema.relation node.relation).withoutOwners e.schema))
        (nodesListed node.children) (rest fetched))
    (hpending : node.isJoined = false) (hkeys : (e.schema.relation node.relation).parentKeys e.schema parents = keys)
    (hne : keys ≠ []) : AsksBelow e parent parents node.listed (e.fetch (node.request e.schema keys) >>= rest) := by
  intro session result last hexec
  have hask : ∀ level, level parent = parents → node.followUp? e.schema level = some ⟨node, keys⟩ := by
    intro level hparent
    rw [PrefetchNode.followUp?, keysAbove_eq (hcovers.above_eq ▸ hparent), hkeys, hpending, Bool.false_or,
      if_neg (by simpa using hne)]
  have hlevels : ∀ inside, Levels e.schema inside (nodesListed node.children) → ∃ level, level parent = parents ∧
      level node.path = inside node.path ∧ SameLevels (nodesListed node.children) level inside ∧
        Levels e.schema level node.listed := fun inside hinside =>
    exists_levels_node hcovers parents hinside (fun hnode => by rw [hpending] at hnode; cases hnode)
      fun _ hnone => absurd (hkeys.symm.trans hnone) hne
  rw [Run.exec_bind] at hexec
  rcases hfetch : (e.fetch (node.request e.schema keys)).exec session with ⟨err | fetched, next⟩
  · rw [hfetch] at hexec
    cases hexec
    obtain ⟨level, hparent, -, -, hlevel⟩ := hlevels _ (levels_nothing _)
    obtain ⟨statements, hfollowed⟩ := followed_of_fetch_error ⟨node, keys⟩ hfetch level
      ((nodesListed node.children).filterMap (·.followUp? e.schema level))
    refine ⟨level, statements, hparent, hlevel, ?_⟩
    rw [followUps_listed, hask level hparent]
    exact hfollowed
  · rw [hfetch] at hexec
    obtain ⟨inside, statements, hstart, hinside, hfollowed⟩ := h fetched _ _ _ hexec
    obtain ⟨level, hparent, hpath, hsame, hlevel⟩ := hlevels inside hinside
    refine ⟨level, fetched.2.statement e.settings.dialect :: statements, hparent, hlevel, ?_⟩
    rw [followUps_listed, hask level hparent]
    exact .answered hfetch (hpath.trans hstart) (hfollowed.congr_levels hsame)

/-- What follows a node asks for what the siblings need. If it fails at the node, any levels of theirs will do. -/
theorem AsksBelow.seq {β γ : Type} {parents : List Instance} {siblings : List PrefetchNode} {run : Run σ α}
    {more : Run σ β} (h : AsksBelow e parent parents node.listed run)
    (hmore : AsksBelow e parent parents (nodesListed siblings) more)
    (hsiblings : ∀ other ∈ siblings, other.Covers e.schema tree projection paths parent id)
    (hnew : node.name ∉ siblings.map (·.name)) (f : α → β → γ) :
    AsksBelow e parent parents (nodesListed (node :: siblings))
      (run >>= fun a => more >>= fun b => pure (f a b)) := by
  intro session result last hexec
  rw [Run.exec_bind] at hexec
  rcases hrun : run.exec session with ⟨found, next⟩
  rw [hrun] at hexec
  obtain ⟨inside, statements, hinParent, hinside, hfollowed⟩ := h _ _ _ hrun
  rcases hrest : more.exec next with ⟨others, final⟩
  obtain ⟨outside, statements', houtParent, houtside, hfollowed'⟩ := hmore _ _ _ hrest
  have hin := sameLevels_inside hcovers inside outside (houtParent.trans hinParent.symm)
  have hout := sameLevels_outside hcovers inside outside hsiblings hnew
  have hlevels := (hinside.congr hin).append (houtside.congr hout)
  have hparent : levelsBelow node.path inside outside parent = parents :=
    (levelsBelow_parent hcovers ..).trans houtParent
  rcases found with err | a
  · cases hexec
    refine ⟨_, statements, hparent, hlevels, ?_⟩
    rw [nodesListed, List.filterMap_append]
    exact (hfollowed.congr_levels hin).stop _
  · dsimp only at hexec
    rw [Run.exec_bind, hrest] at hexec
    refine ⟨_, statements ++ statements', hparent, hlevels, ?_⟩
    rw [nodesListed, List.filterMap_append]
    rcases others with err | b <;> cases hexec <;>
      exact (hfollowed.congr_levels hin).append (hfollowed'.congr_levels hout)

theorem asksBelow_loadNode
    (hbelow : ∀ start, AsksBelow e node.path start (nodesListed node.children) (loadNodes e start node.children))
    (parents : List Instance) : AsksBelow e parent parents node.listed (loadNode e parents node) := by
  cases hjoined : node.isJoined with
  | true =>
    rw [loadNode_of_joined hjoined]
    refine ((hbelow _).map _).unasked hcovers (fun _ => rfl) fun hpending => ?_
    rw [hjoined] at hpending
    cases hpending
  | false =>
    by_cases hkeys : (e.schema.relation node.relation).parentKeys e.schema parents = []
    · rw [loadNode_of_unasked hjoined hkeys]
      refine (asksBelow_nothing node.path (nodesListed node.children) _).unasked hcovers (fun hnode => ?_)
        fun _ => ⟨hkeys, rfl⟩
      rw [hjoined] at hnode
      cases hnode
    · rw [loadNode_of_asked hjoined rfl hkeys]
      refine AsksBelow.asked hcovers (fun fetched => ?_) hjoined rfl hkeys
      split
      · rename_i hempty
        rw [List.isEmpty_iff.mp hempty]
        exact asksBelow_nothing _ _ _
      · exact (hbelow _).map _

end

theorem asksBelow_loadNodes_each {nodes : List PrefetchNode} (hnames : (nodes.map (·.name)).Nodup)
    (hcovers : ∀ node ∈ nodes, node.Covers e.schema tree projection paths parent id) (parents : List Instance)
    (heach : ∀ node ∈ nodes, AsksBelow e parent parents node.listed (loadNode e parents node)) :
    AsksBelow e parent parents (nodesListed nodes) (loadNodes e parents nodes) := by
  induction nodes with
  | nil => exact asksBelow_nil parents []
  | cons node rest ih =>
    rw [List.map_cons, List.nodup_cons] at hnames
    obtain ⟨hnode, hrest⟩ := List.forall_mem_cons.mp hcovers
    obtain ⟨hfirst, hothers⟩ := List.forall_mem_cons.mp heach
    rw [loadNodes_cons]
    exact hfirst.seq hnode (ih hnames.2 hrest hothers) hrest hnames.1 _

theorem PrefetchNode.Covers.asksBelow (h : node.Covers e.schema tree projection paths parent id) :
    ∀ parents, AsksBelow e parent parents node.listed (loadNode e parents node) := by
  induction h with
  | @intro parent id node follows names complete below ih =>
    exact asksBelow_loadNode (.intro follows names complete below) fun start =>
      asksBelow_loadNodes_each names below start fun child hchild => ih child hchild start

theorem asksBelow_prefetch {root : EntityId} {plan : PrefetchPlan}
    (hcover : NodesCover e.schema tree projection paths .root root plan) (roots : List Instance) :
    AsksBelow e .root roots (nodesListed plan) (prefetch e plan roots) := by
  unfold prefetch
  split
  · rename_i hnothing
    rcases Bool.or_eq_true_iff.mp hnothing with hplan | hroots
    · rw [List.isEmpty_iff.mp hplan]
      exact asksBelow_nil _ _
    · rw [List.isEmpty_iff.mp hroots]
      exact asksBelow_nothing _ _ _
  · exact (asksBelow_loadNodes_each hcover.names hcover.below roots fun node hnode =>
      (hcover.below node hnode).asksBelow roots).map _

end

/-- A run of a plan asks for the relations that are not joined, in the order of the tree, each by one statement with the
keys of the instances above it as its parameters, and for nothing below a node without instances. At the first fault it
stops and has no result. -/
structure PrefetchPlan.RunAsks (e : Engine σ) (plan : PrefetchPlan) (roots : List Instance)
    (session last : Session σ) (result : Except NoResult (List Instance)) (level : Path → List Instance)
    (statements : List Statement) : Prop where
  run : (prefetch e plan roots).exec session = (result, last)
  start : level .root = roots
  levels : Levels e.schema level (nodesListed plan)
  followed : Followed e level (plan.followUps e.schema level) session statements (faultOf result) last
  executed : last.executed = session.executed ++ statements
  params : statements.map (·.params) <+: (plan.followUps e.schema level).map (·.keys)
  allParams : faultOf result = none → statements.map (·.params) = (plan.followUps e.schema level).map (·.keys)
  nothingBelow : ∀ node ∈ nodesListed plan, level node.path = [] →
    ∀ below ∈ nodesListed node.children, below.followUp? e.schema level = none

theorem runAsks_of_build {e : Engine σ} {root : EntityId} {orderBy : List OrderSpec} {plan : PrefetchPlan}
    (hbuild : PrefetchPlan.build e.schema root paths tree projection orderBy = .ok plan) (roots : List Instance)
    (session : Session σ) :
    ∃ last result level statements, plan.RunAsks e roots session last result level statements := by
  have hcover := nodesCover_build hbuild
  rcases hrun : (prefetch e plan roots).exec session with ⟨result, last⟩
  obtain ⟨level, statements, hroots, hlevels, hfollowed⟩ := asksBelow_prefetch hcover _ _ _ _ hrun
  refine ⟨last, result, level, statements, hrun, hroots, hlevels, hfollowed, hfollowed.executed, hfollowed.params.1,
    hfollowed.params.2, fun node hnode hempty => ?_⟩
  obtain ⟨parent, id, -, -, hcovers⟩ := hcover.of_mem_listed hnode
  exact hcovers.nothing_below (hlevels.mono fun below hbelow => mem_nodesListed_of_below hnode hbelow) hempty

end RelQuery
