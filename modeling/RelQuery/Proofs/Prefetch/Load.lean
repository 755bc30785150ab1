import RelQuery.Proofs.Engine.Run
import RelQuery.Proofs.Engine.Slice
import RelQuery.Proofs.Prefetch.Keys

/-!
# Loading from a backend that answers at once

A backend that answers a query when it gets it leaves no relation waiting: polled once, a relation is loaded with all
below it, whether or not siblings are loaded concurrently. So siblings are loaded one after the other. A relation that
is joined asks for nothing: its instances are with the parents already. Any other asks once for what is linked to the
keys of its parents, unless they have none, and goes on below with what it got.
-/

namespace RelQuery

variable {σ τ α β : Type} {e : Engine σ} {svc : Service σ τ} {parents : List Instance} {node : PrefetchNode}

theorem start_eq (node : PrefetchNode) : (Loading.start node : Loading τ) = ⟨node, .unstarted, startAll node.children⟩ := by
  cases node
  rfl

theorem advance_of_joined (h : node.isJoined = true) :
    advance e svc parents node .unstarted = pure (.loaded (parents.flatMap (·.relatedBy node.name))) := by
  rw [advance, if_pos h]
  rfl

theorem advance_of_unasked (h : node.isJoined = false)
    (hkeys : (e.schema.relation node.relation).parentKeys e.schema parents = []) :
    advance e svc parents node .unstarted = pure (.loaded []) := by
  rw [advance, if_neg (by simp [h])]
  dsimp only
  rw [hkeys]
  rfl

theorem advance_of_asked (h : node.isJoined = false) {keys : List Value}
    (hkeys : (e.schema.relation node.relation).parentKeys e.schema parents = keys) (hne : keys ≠ []) :
    advance e svc parents node .unstarted =
      e.plan (node.request e.schema keys) >>= fun planned =>
        e.submit svc planned.query >>= fun ticket => answered e svc ticket planned := by
  rw [advance, if_neg (by simp [h])]
  dsimp only
  rw [hkeys, if_neg (by simpa using hne)]

/-- The rows of an answer that is there. -/
def Run.rowsOf (answer : Except String (List Row)) : Run σ (List Row) :=
  match answer with
  | .ok rows => pure rows
  | .error cause => throw (.failed (.backend cause))

/-- To execute a query is to hand it to a backend that answers at once. -/
theorem execute_eq (query : Sql.Query) : e.execute query = e.submit e.backend.atOnce query >>= Run.rowsOf := by
  refine Run.ext fun session => ?_
  rw [Run.exec_bind]
  unfold Run.exec Engine.submit Engine.execute
  dsimp only [Backend.atOnce]
  cases (e.backend.execute query session.backend).1 <;> rfl

theorem answered_atOnce (answer : Except String (List Row)) (planned : PlannedQuery) :
    answered e e.backend.atOnce answer planned =
      Run.rowsOf answer >>= fun rows =>
        Run.ofExcept (e.materializer.ofRows planned.tree rows) >>= fun found =>
          pure (Phase.loaded (merge e.schema found)) := by
  rcases answer with cause | rows <;> rfl

theorem advance_atOnce (h : node.isJoined = false) {keys : List Value}
    (hkeys : (e.schema.relation node.relation).parentKeys e.schema parents = keys) (hne : keys ≠ []) :
    advance e e.backend.atOnce parents node .unstarted =
      e.fetch (node.request e.schema keys) >>= fun fetched => pure (.loaded fetched.1) := by
  rw [advance_of_asked h hkeys hne, Engine.fetch]
  simp only [bind_assoc, pure_bind, execute_eq, answered_atOnce]

/-- Where nothing waits, all is loaded. -/
def Phase.IsLoaded (phase : Phase τ) : Prop := ∃ found, phase = .loaded found

theorem isLoaded_of_advance {session next : Session σ} {phase : Phase (Except String (List Row))}
    (h : (advance e e.backend.atOnce parents node .unstarted).exec session = (.ok phase, next)) : phase.IsLoaded := by
  cases hjoined : node.isJoined with
  | true =>
    rw [advance_of_joined hjoined] at h
    cases h
    exact ⟨_, rfl⟩
  | false =>
    by_cases hkeys : (e.schema.relation node.relation).parentKeys e.schema parents = []
    · rw [advance_of_unasked hjoined hkeys] at h
      cases h
      exact ⟨_, rfl⟩
    · rw [advance_atOnce hjoined rfl hkeys] at h
      obtain ⟨fetched, _, -, h⟩ := Run.exec_bind_eq_ok.mp h
      cases h
      exact ⟨_, rfl⟩

theorem pollNode_eq (loading : Loading τ) :
    pollNode e svc parents loading =
      advance e svc parents loading.node loading.phase >>= fun phase =>
        match phase with
        | .loaded found =>
          if loading.node.goesOn found then
            pollLevel e svc (loading.node.parentsBelow e.schema found) loading.children >>= fun below =>
              pure ⟨loading.node, .loaded found, below⟩
          else pure ⟨loading.node, .loaded found, loading.children⟩
        | phase => pure ⟨loading.node, phase, loading.children⟩ := by
  obtain ⟨node, phase, children⟩ := loading
  rw [pollNode]
  refine bind_congr fun phase => ?_
  cases phase <;> rfl

theorem pollLevel_cons (loading : Loading τ) (rest : List (Loading τ)) :
    pollLevel e svc parents (loading :: rest) =
      pollNode e svc parents loading >>= fun first =>
        if e.settings.concurrentSiblings || first.isDone then
          pollLevel e svc parents rest >>= fun others => pure (first :: others)
        else pure (first :: rest) := by
  rw [pollLevel]

theorem isDone_of_loaded (node : PrefetchNode) (found : List Instance) (children : List (Loading τ)) :
    Loading.isDone ⟨node, .loaded found, children⟩ = (!node.goesOn found || allDone children) := by
  rw [Loading.isDone]

mutual

theorem isDone_of_pollNode :
    ∀ (node : PrefetchNode) (parents : List Instance) (session next : Session σ) (loading : Loading _),
      (pollNode e e.backend.atOnce parents (.start node)).exec session = (.ok loading, next) → loading.isDone = true
  | ⟨path, name, relation, isJoined, projection, orderBy, children⟩, parents, session, next, loading, h => by
    rw [pollNode_eq, Loading.start] at h
    obtain ⟨phase, between, hadvance, h⟩ := Run.exec_bind_eq_ok.mp h
    obtain ⟨found, rfl⟩ := isLoaded_of_advance hadvance
    dsimp only at h
    split at h
    · obtain ⟨below, last, hbelow, h⟩ := Run.exec_bind_eq_ok.mp h
      cases h
      rw [isDone_of_loaded, allDone_of_pollLevel children _ between next below hbelow, Bool.or_true]
    · rename_i hends
      cases h
      rw [isDone_of_loaded, Bool.eq_false_iff.mpr hends, Bool.not_false, Bool.true_or]
termination_by structural node => node

theorem allDone_of_pollLevel :
    ∀ (nodes : List PrefetchNode) (parents : List Instance) (session next : Session σ) (loadings : List (Loading _)),
      (pollLevel e e.backend.atOnce parents (startAll nodes)).exec session = (.ok loadings, next) →
        allDone loadings = true
  | [], _, _, _, _, h => by
    cases h
    rfl
  | node :: rest, parents, session, next, loadings, h => by
    rw [startAll, pollLevel_cons] at h
    obtain ⟨first, between, hfirst, h⟩ := Run.exec_bind_eq_ok.mp h
    have hdone := isDone_of_pollNode node parents session between first hfirst
    rw [hdone, Bool.or_true, if_pos rfl] at h
    obtain ⟨others, last, hothers, h⟩ := Run.exec_bind_eq_ok.mp h
    cases h
    rw [allDone, hdone, allDone_of_pollLevel rest parents between next others hothers, Bool.and_true]
termination_by structural nodes => nodes

end

theorem loadNodes_cons (node : PrefetchNode) (rest : List PrefetchNode) :
    loadNodes e parents (node :: rest) =
      loadNode e parents node >>= fun first => loadNodes e parents rest >>= fun others => pure (first :: others) := by
  unfold loadNodes loadNode
  rw [startAll, pollLevel_cons]
  simp only [bind_assoc, pure_bind]
  refine Run.bind_congr fun session first next h => ?_
  rw [isDone_of_pollNode node parents session next first h, Bool.or_true, if_pos rfl]
  simp only [bind_assoc, pure_bind]
  rfl

/-- What is kept of a node that is loaded. -/
def PrefetchNode.kept (s : Schema) (node : PrefetchNode) (found : List Instance) (below : List LoadedNode) :
    LoadedNode :=
  if node.isJoined then .joined node.name below
  else .fetched node.name (s.relation node.relation) ((s.relation node.relation).linkAll s found) below

theorem result_of_loaded (s : Schema) (found : List Instance) (children : List (Loading τ)) :
    Loading.result s ⟨node, .loaded found, children⟩ =
      node.kept s found (if node.goesOn found then results s children else []) := by
  rw [Loading.result]
  rfl

/-- Once its instances are there, a node goes on below. -/
theorem loadNode_of_advance {x : Run σ (List Instance)}
    (h : advance e e.backend.atOnce parents node .unstarted = x >>= fun found => pure (.loaded found)) :
    loadNode e parents node =
      x >>= fun found =>
        if node.goesOn found then
          loadNodes e (node.parentsBelow e.schema found) node.children >>= fun below =>
            pure (node.kept e.schema found below)
        else pure (node.kept e.schema found []) := by
  unfold loadNode
  rw [start_eq, pollNode_eq]
  dsimp only
  rw [h]
  simp only [bind_assoc, pure_bind]
  refine bind_congr fun found => ?_
  split
  · rename_i hon
    unfold loadNodes
    simp only [bind_assoc, pure_bind, result_of_loaded, hon, if_true]
  · rename_i hends
    simp only [pure_bind, result_of_loaded, hends, Bool.false_eq_true, if_false]

theorem loadNode_of_joined (h : node.isJoined = true) :
    loadNode e parents node =
      (loadNodes e (parents.flatMap (·.relatedBy node.name)) node.children >>= fun below =>
        return .joined node.name below) := by
  rw [loadNode_of_advance (x := pure (parents.flatMap (·.relatedBy node.name))) (advance_of_joined h), pure_bind,
    if_pos (by simp [PrefetchNode.goesOn, h])]
  simp only [PrefetchNode.parentsBelow, PrefetchNode.kept, h, if_true]

theorem loadNode_of_unasked (h : node.isJoined = false)
    (hkeys : (e.schema.relation node.relation).parentKeys e.schema parents = []) :
    loadNode e parents node = pure (.fetched node.name (e.schema.relation node.relation) [] []) := by
  rw [loadNode_of_advance (x := pure []) (advance_of_unasked h hkeys), pure_bind,
    if_neg (by simp [PrefetchNode.goesOn, h])]
  simp [PrefetchNode.kept, h, Relation.linkAll]

theorem loadNode_of_asked (h : node.isJoined = false) {keys : List Value}
    (hkeys : (e.schema.relation node.relation).parentKeys e.schema parents = keys) (hne : keys ≠ []) :
    loadNode e parents node =
      (e.fetch (node.request e.schema keys) >>= fun fetched =>
        if fetched.1.isEmpty then return .fetched node.name (e.schema.relation node.relation) [] []
        else
          loadNodes e (fetched.1.map ((e.schema.relation node.relation).withoutOwners e.schema)) node.children
            >>= fun below =>
              return .fetched node.name (e.schema.relation node.relation)
                ((e.schema.relation node.relation).linkAll e.schema fetched.1) below) := by
  have hadvance : advance e e.backend.atOnce parents node .unstarted =
      (e.fetch (node.request e.schema keys) >>= fun fetched => pure fetched.1) >>= fun found =>
        pure (.loaded found) := by
    rw [advance_atOnce h hkeys hne, bind_assoc]
    rfl
  rw [loadNode_of_advance hadvance, bind_assoc]
  refine bind_congr fun fetched => ?_
  rw [pure_bind]
  cases hempty : fetched.1.isEmpty with
  | true =>
    rw [if_neg (by simp [PrefetchNode.goesOn, h, hempty]), if_pos rfl]
    simp [PrefetchNode.kept, h, Relation.linkAll, List.isEmpty_iff.mp hempty]
  | false =>
    rw [if_pos (by simp [PrefetchNode.goesOn, hempty]), if_neg Bool.false_ne_true]
    simp only [PrefetchNode.parentsBelow, PrefetchNode.kept, h, Bool.false_eq_true, if_false]

/-- An engine whose backend gives prepared answers in turn. -/
def scripted (s : Schema) : Engine (List (List Row)) where
  schema := s
  settings := {}
  factory := .standard
  backend := ⟨fun _ answers => (.ok (answers.headD []), answers.tail)⟩

/-- The books of some authors, and the authors of these books. -/
def booksNode : PrefetchNode :=
  ⟨⟨["books"]⟩, "books", ⟨1⟩, false, .empty, [],
    [⟨⟨["books", "author"]⟩, "author", ⟨0⟩, false, .empty, [], []⟩]⟩

def bookRow (id author : Int64) : Row :=
  [("author_id", .int author), ("id", .int id), ("pages", .int 100), ("year", .int 1990)]

/-- Three books, two of them of one author, and then the two authors. -/
def bookAnswers : List (List Row) :=
  [[bookRow 10 1, bookRow 11 2, bookRow 12 1], [[("id", .int 1)], [("id", .int 2)]]]

def someAuthors : List Instance := [1, 2, 3].map fun id => ⟨⟨0⟩, [("id", .int id)], []⟩

end RelQuery
