import RelQuery.Proofs.Prefetch.FollowUps

/-!
# Loading from a backend that answers later

Relations that are polled ask as soon as the instances above them are there, and wait for the answers. What happens
meanwhile are two kinds of events: a query is handed over, and a ticket is answered. Each poll adds some. The events
below siblings that are loaded concurrently interleave; otherwise those of one come before those of the next.
-/

namespace RelQuery

open Sql

variable {σ τ α : Type}

/-- The third list has the elements of the others, each in their order. -/
inductive Interleave : List α → List α → List α → Prop where
  | nil : Interleave [] [] []
  | left {a : α} {xs ys zs : List α} (h : Interleave xs ys zs) : Interleave (a :: xs) ys (a :: zs)
  | right {a : α} {xs ys zs : List α} (h : Interleave xs ys zs) : Interleave xs (a :: ys) (a :: zs)

namespace Interleave

variable {xs ys zs xs' ys' zs' : List α}

theorem append (h : Interleave xs ys zs) (h' : Interleave xs' ys' zs') :
    Interleave (xs ++ xs') (ys ++ ys') (zs ++ zs') := by
  induction h with
  | nil => exact h'
  | left _ ih => exact .left ih
  | right _ ih => exact .right ih

theorem nil_right (xs : List α) : Interleave xs [] xs := by
  induction xs with
  | nil => exact .nil
  | cons a xs ih => exact .left ih

theorem nil_left (ys : List α) : Interleave [] ys ys := by
  induction ys with
  | nil => exact .nil
  | cons a ys ih => exact .right ih

theorem of_append (xs ys : List α) : Interleave xs ys (xs ++ ys) := by
  have h := (nil_right xs).append (nil_left ys)
  rwa [List.append_nil, List.nil_append] at h

theorem perm (h : Interleave xs ys zs) : zs.Perm (xs ++ ys) := by
  induction h with
  | nil => exact .refl []
  | left _ ih => exact ih.cons _
  | right _ ih => exact (ih.cons _).trans List.perm_middle.symm

theorem mem_iff (h : Interleave xs ys zs) {a : α} : a ∈ zs ↔ a ∈ xs ∨ a ∈ ys := by
  rw [h.perm.mem_iff, List.mem_append]

theorem left_subset (h : Interleave xs ys zs) : xs ⊆ zs := fun _ ha => h.mem_iff.mpr (.inl ha)

theorem right_subset (h : Interleave xs ys zs) : ys ⊆ zs := fun _ ha => h.mem_iff.mpr (.inr ha)

/-- What comes before an element in its own list comes before it. -/
theorem split (h : Interleave xs ys zs) {before after : List α} {a : α} (hsplit : zs = before ++ a :: after) :
    (∃ own rest, xs = own ++ a :: rest ∧ own ⊆ before) ∨ ∃ own rest, ys = own ++ a :: rest ∧ own ⊆ before := by
  induction h generalizing before with
  | nil => cases before <;> cases hsplit
  | @left b xs ys zs h ih =>
    cases before with
    | nil =>
      obtain ⟨rfl, -⟩ := List.cons.inj hsplit
      exact .inl ⟨[], xs, rfl, List.nil_subset _⟩
    | cons c before =>
      rw [List.cons_append, List.cons.injEq] at hsplit
      obtain ⟨rfl, hrest⟩ := hsplit
      rcases ih hrest with ⟨own, rest, rfl, hown⟩ | ⟨own, rest, rfl, hown⟩
      · exact .inl ⟨b :: own, rest, rfl, List.cons_subset_cons b hown⟩
      · exact .inr ⟨own, rest, rfl, List.subset_cons_of_subset b hown⟩
  | @right b xs ys zs h ih =>
    cases before with
    | nil =>
      obtain ⟨rfl, -⟩ := List.cons.inj hsplit
      exact .inr ⟨[], ys, rfl, List.nil_subset _⟩
    | cons c before =>
      rw [List.cons_append, List.cons.injEq] at hsplit
      obtain ⟨rfl, hrest⟩ := hsplit
      rcases ih hrest with ⟨own, rest, rfl, hown⟩ | ⟨own, rest, rfl, hown⟩
      · exact .inl ⟨own, rest, rfl, List.subset_cons_of_subset b hown⟩
      · exact .inr ⟨b :: own, rest, rfl, List.cons_subset_cons b hown⟩

end Interleave

/-! ### Events -/

inductive Event (τ : Type) where
  /-- The query for some keys was handed over, for a ticket. -/
  | asked (ask : FollowUp) (ticket : τ) (planned : PlannedQuery)
  /-- The ticket was answered by the rows of these instances. -/
  | answered (ask : FollowUp) (ticket : τ) (planned : PlannedQuery) (found : List Instance)

def Event.ask : Event τ → FollowUp
  | .asked ask .. => ask
  | .answered ask .. => ask

def Event.handedOver? : Event τ → Option (FollowUp × PlannedQuery)
  | .asked ask _ planned => some (ask, planned)
  | .answered .. => none

/-- The requests that were made, in order. -/
def asksOf (events : List (Event τ)) : List FollowUp := (events.filterMap Event.handedOver?).map (·.1)

def statementsOf (d : Dialect) (events : List (Event τ)) : List Statement :=
  (events.filterMap Event.handedOver?).map (·.2.statement d)

theorem asksOf_append (events more : List (Event τ)) : asksOf (events ++ more) = asksOf events ++ asksOf more := by
  rw [asksOf, List.filterMap_append, List.map_append, ← asksOf, ← asksOf]

theorem executed_of_answered {e : Engine σ} {svc : Service σ τ} {session last : Session σ} {ticket : τ}
    {planned : PlannedQuery} {result : Except NoResult (Phase τ)}
    (h : (answered e svc ticket planned).exec session = (result, last)) : last.executed = session.executed := by
  have hpolled : ((svc.rows? ticket).exec session).2.executed = session.executed := by
    unfold Service.rows? Run.exec
    dsimp only
    split <;> rfl
  rw [answered, Run.exec_bind] at h
  rcases hrows : (svc.rows? ticket).exec session with ⟨n | rows, next⟩
  all_goals
    rw [hrows] at h hpolled
    dsimp only at h hpolled
  · cases h
    exact hpolled
  cases rows with
  | none =>
    cases h
    exact hpolled
  | some rows =>
    dsimp only at h
    rw [Run.exec_bind, Run.exec_ofExcept] at h
    cases hread : NoResult.lift (e.materializer.ofRows planned.tree rows) <;> rw [hread] at h <;> cases h <;>
      exact hpolled

theorem answered_cases {e : Engine σ} {svc : Service σ τ} {session last : Session σ} {ticket : τ} {planned : PlannedQuery}
    {phase : Phase τ} (h : (answered e svc ticket planned).exec session = (.ok phase, last)) :
    phase = .asked ticket planned ∨ ∃ found, phase = .loaded found := by
  obtain ⟨rows, next, -, h⟩ := Run.exec_bind_eq_ok.mp h
  cases rows with
  | none =>
    cases h
    exact .inl rfl
  | some rows =>
    obtain ⟨instances, _, -, h⟩ := Run.exec_bind_eq_ok.mp h
    cases h
    exact .inr ⟨_, rfl⟩

/-- How events come about, with the fault that ends them. A query is handed over once it is planned, and only what was
handed over is polled. -/
inductive Happened (e : Engine σ) (svc : Service σ τ) :
    List (Event τ) → Session σ → List (Event τ) → Option NoResult → Session σ → Prop where
  | done (past : List (Event τ)) (session : Session σ) : Happened e svc past session [] none session
  | asked {past events : List (Event τ)} {session between next last : Session σ} {fault : Option NoResult}
      {ask : FollowUp} {ticket : τ} {planned : PlannedQuery}
      (hplan : (e.plan (ask.request e.schema)).exec session = (.ok planned, between))
      (hsubmit : (e.submit svc planned.query).exec between = (.ok ticket, next))
      (hrest : Happened e svc (past ++ [.asked ask ticket planned]) next events fault last) :
      Happened e svc past session (.asked ask ticket planned :: events) fault last
  | refused {past : List (Event τ)} {session last : Session σ} {n : NoResult} {ask : FollowUp}
      (hplan : (e.plan (ask.request e.schema)).exec session = (.error n, last)) :
      Happened e svc past session [] (some n) last
  | waited {past events : List (Event τ)} {session next last : Session σ} {fault : Option NoResult}
      {ask : FollowUp} {ticket : τ} {planned : PlannedQuery} (hpast : .asked ask ticket planned ∈ past)
      (hpoll : (answered e svc ticket planned).exec session = (.ok (.asked ticket planned), next))
      (hrest : Happened e svc past next events fault last) : Happened e svc past session events fault last
  | answered {past events : List (Event τ)} {session next last : Session σ} {fault : Option NoResult}
      {ask : FollowUp} {ticket : τ} {planned : PlannedQuery} {found : List Instance}
      (hpast : .asked ask ticket planned ∈ past)
      (hpoll : (answered e svc ticket planned).exec session = (.ok (.loaded found), next))
      (hrest : Happened e svc (past ++ [.answered ask ticket planned found]) next events fault last) :
      Happened e svc past session (.answered ask ticket planned found :: events) fault last
  | failed {past : List (Event τ)} {session last : Session σ} {n : NoResult} {ask : FollowUp} {ticket : τ}
      {planned : PlannedQuery} (hpast : .asked ask ticket planned ∈ past)
      (hpoll : (answered e svc ticket planned).exec session = (.error n, last)) :
      Happened e svc past session [] (some n) last

namespace Happened

variable {e : Engine σ} {svc : Service σ τ} {past events more : List (Event τ)} {session next last : Session σ}
  {fault : Option NoResult}

theorem append (h : Happened e svc past session events none next)
    (h' : Happened e svc (past ++ events) next more fault last) :
    Happened e svc past session (events ++ more) fault last := by
  generalize hnone : none = stopped at h
  induction h with
  | done => rwa [List.append_nil] at h'
  | asked hplan hsubmit hrest ih => exact .asked hplan hsubmit (ih (by rwa [List.append_assoc]) hnone)
  | refused => cases hnone
  | waited hpast hpoll hrest ih => exact .waited hpast hpoll (ih h' hnone)
  | answered hpast hpoll hrest ih => exact .answered hpast hpoll (ih (by rwa [List.append_assoc]) hnone)
  | failed => cases hnone

theorem executed (h : Happened e svc past session events fault last) :
    last.executed = session.executed ++ statementsOf e.settings.dialect events := by
  induction h with
  | done => exact (List.append_nil _).symm
  | asked hplan hsubmit hrest ih =>
    cases hsubmit
    rw [ih, (executed_of_plan hplan).1, List.append_assoc]
    rfl
  | refused hplan => rw [(executed_of_plan hplan).1]; exact (List.append_nil _).symm
  | waited hpast hpoll hrest ih => rw [ih, executed_of_answered hpoll]
  | answered hpast hpoll hrest ih => rw [ih, executed_of_answered hpoll]; rfl
  | failed hpast hpoll => rw [executed_of_answered hpoll]; exact (List.append_nil _).symm

theorem params (h : Happened e svc past session events fault last) :
    (statementsOf e.settings.dialect events).map (·.params) = (asksOf events).map (·.keys) := by
  induction h with
  | asked hplan hsubmit hrest ih =>
    exact congrArg₂ (· :: ·) (params_of_request (executed_of_plan hplan).2 _) ih
  | waited hpast hpoll hrest ih => exact ih
  | answered hpast hpoll hrest ih => exact ih
  | _ => rfl

end Happened

mutual

/-- The events by which a relation, loaded for these parents, has come to where it is. -/
inductive Traced (e : Engine σ) : List Instance → PrefetchNode → Loading τ → List (Event τ) → Prop where
  | unstarted (parents : List Instance) (node : PrefetchNode) :
      Traced e parents node ⟨node, .unstarted, startAll node.children⟩ []
  | joined {parents : List Instance} {node : PrefetchNode} {children : List (Loading τ)} {events : List (Event τ)}
      (hjoined : node.isJoined = true)
      (hbelow : LevelTraced e (parents.flatMap (·.relatedBy node.name)) node.children children events) :
      Traced e parents node ⟨node, .loaded (parents.flatMap (·.relatedBy node.name)), children⟩ events
  | unasked {parents : List Instance} {node : PrefetchNode} (hpending : node.isJoined = false)
      (hkeys : (e.schema.relation node.relation).parentKeys e.schema parents = []) :
      Traced e parents node ⟨node, .loaded [], startAll node.children⟩ []
  | asked {parents : List Instance} {node : PrefetchNode} {keys : List Value} (hpending : node.isJoined = false)
      (hkeys : (e.schema.relation node.relation).parentKeys e.schema parents = keys) (hne : keys ≠ []) (ticket : τ)
      (planned : PlannedQuery) :
      Traced e parents node ⟨node, .asked ticket planned, startAll node.children⟩ [.asked ⟨node, keys⟩ ticket planned]
  | answered {parents : List Instance} {node : PrefetchNode} {keys : List Value} (hpending : node.isJoined = false)
      (hkeys : (e.schema.relation node.relation).parentKeys e.schema parents = keys) (hne : keys ≠ []) (ticket : τ)
      (planned : PlannedQuery) {found : List Instance} {children : List (Loading τ)} {events : List (Event τ)}
      (hbelow : LevelTraced e (found.map ((e.schema.relation node.relation).withoutOwners e.schema)) node.children
        children events) :
      Traced e parents node ⟨node, .loaded found, children⟩
        (.asked ⟨node, keys⟩ ticket planned :: .answered ⟨node, keys⟩ ticket planned found :: events)

/-- Siblings that are not loaded concurrently have their events one after the other. -/
inductive LevelTraced (e : Engine σ) :
    List Instance → List PrefetchNode → List (Loading τ) → List (Event τ) → Prop where
  | nil (parents : List Instance) : LevelTraced e parents [] [] []
  | cons {parents : List Instance} {node : PrefetchNode} {nodes : List PrefetchNode} {first : Loading τ}
      {rest : List (Loading τ)} {mine theirs events : List (Event τ)} (hfirst : Traced e parents node first mine)
      (hrest : LevelTraced e parents nodes rest theirs) (hmerge : Interleave mine theirs events)
      (hturn : e.settings.concurrentSiblings = false →
        events = mine ++ theirs ∧ (first.isDone = false → theirs = [])) :
      LevelTraced e parents (node :: nodes) (first :: rest) events

end

section

variable {e : Engine σ} {svc : Service σ τ} {parents : List Instance} {node : PrefetchNode}

theorem levelTraced_startAll (nodes : List PrefetchNode) :
    LevelTraced e parents nodes (startAll nodes : List (Loading τ)) [] := by
  induction nodes with
  | nil => exact .nil parents
  | cons node rest ih =>
    rw [startAll, start_eq]
    exact .cons (.unstarted parents node) ih .nil fun _ => ⟨rfl, fun _ => rfl⟩

/-- What is below a node is loaded for the instances of the node, and can go on by itself. -/
theorem Traced.goesOn {node' : PrefetchNode} {found : List Instance} {children : List (Loading τ)}
    {events : List (Event τ)} (h : Traced e parents node ⟨node', .loaded found, children⟩ events)
    (hon : node'.goesOn found = true) :
    node' = node ∧ ∃ own inner, events = own ++ inner ∧
      LevelTraced e (node.parentsBelow e.schema found) node.children children inner ∧
        ∀ children' inner', LevelTraced e (node.parentsBelow e.schema found) node.children children' inner' →
          Traced e parents node ⟨node, .loaded found, children'⟩ (own ++ inner') := by
  cases h with
  | joined hjoined hbelow =>
    rw [PrefetchNode.parentsBelow, if_pos hjoined]
    exact ⟨rfl, [], events, rfl, hbelow, fun _ _ h => .joined hjoined h⟩
  | unasked hpending => simp [PrefetchNode.goesOn, hpending] at hon
  | answered hpending hkeys hne ticket planned hbelow =>
    rename_i keys inner
    rw [PrefetchNode.parentsBelow, if_neg (by simp [hpending])]
    exact ⟨rfl, [.asked ⟨node, keys⟩ ticket planned, .answered ⟨node, keys⟩ ticket planned found], inner, rfl, hbelow,
      fun _ _ h => .answered hpending hkeys hne ticket planned h⟩

/-! ### What polling adds -/

mutual

theorem pollNode_of_isDone : ∀ (loading : Loading τ) (parents : List Instance), loading.isDone = true →
    pollNode e svc parents loading = pure loading
  | ⟨node, phase, children⟩, parents, hdone => by
    rw [pollNode_eq]
    dsimp only
    cases phase with
    | unstarted => cases hdone
    | asked ticket planned => cases hdone
    | loaded found =>
      rw [isDone_of_loaded, Bool.or_eq_true] at hdone
      rw [advance, pure_bind]
      dsimp only
      rcases hdone with hends | hdone
      · rw [if_neg (by simpa using hends)]
      · rw [pollLevel_of_allDone children _ hdone, pure_bind, ite_self]
termination_by structural loading => loading

theorem pollLevel_of_allDone : ∀ (loadings : List (Loading τ)) (parents : List Instance), allDone loadings = true →
    pollLevel e svc parents loadings = pure loadings
  | [], _, _ => rfl
  | first :: rest, parents, hdone => by
    obtain ⟨hfirst, hrest⟩ := Bool.and_eq_true_iff.mp hdone
    rw [pollLevel_cons, pollNode_of_isDone first parents hfirst, pure_bind, hfirst, Bool.or_true, if_pos rfl,
      pollLevel_of_allDone rest parents hrest, pure_bind]
termination_by structural loadings => loadings

end

/-- After the events so far, a computation adds some, which ask for some of the nodes, in their order. Together they lead
to its result, or to where it stops. -/
def Continues (e : Engine σ) (svc : Service σ τ) (events : List (Event τ)) (nodes : List PrefetchNode) (run : Run σ α)
    (reaches : α → List (Event τ) → Prop) (stops : List (Event τ) → Prop) : Prop :=
  ∀ past session result last, events ⊆ past → run.exec session = (result, last) →
    ∃ new, Happened e svc past session new (faultOf result) last ∧ ((asksOf new).map (·.node)).Sublist nodes ∧
      (∀ a, result = .ok a → reaches a (events ++ new)) ∧ ∀ n, result = .error n → stops (events ++ new)

namespace Continues

variable {β : Type} {events : List (Event τ)} {nodes more : List PrefetchNode} {run : Run σ α}
  {reaches : α → List (Event τ) → Prop} {stops : List (Event τ) → Prop}

theorem pure {a : α} (h : reaches a events) : Continues e svc events nodes (pure a) reaches stops := by
  intro past session result last _ hexec
  cases hexec
  refine ⟨[], .done past session, List.nil_sublist _, fun b hb => ?_, fun n hn => by cases hn⟩
  cases hb
  rwa [List.append_nil]

theorem bind {f : α → Run σ β} {reaches' : β → List (Event τ) → Prop}
    (h : Continues e svc events nodes run reaches stops)
    (hf : ∀ a new, reaches a (events ++ new) → Continues e svc (events ++ new) more (f a) reaches' stops) :
    Continues e svc events (nodes ++ more) (run >>= f) reaches' stops := by
  intro past session result last hpast hexec
  rw [Run.exec_bind] at hexec
  rcases hrun : run.exec session with ⟨n | a, next⟩
  all_goals
    rw [hrun] at hexec
    obtain ⟨new, hhappened, hasks, hreaches, hstops⟩ := h past session _ next hpast hrun
  · cases hexec
    refine ⟨new, hhappened, List.sublist_append_of_sublist_left hasks, fun b hb => (by cases hb), fun m hm => ?_⟩
    cases hm
    exact hstops n rfl
  · have hpast' : events ++ new ⊆ past ++ new :=
      List.append_subset.mpr ⟨List.subset_append_of_subset_left new hpast, List.subset_append_right past new⟩
    obtain ⟨new', hhappened', hasks', hreaches', hstops'⟩ :=
      hf a new (hreaches a rfl) (past ++ new) next result last hpast' hexec
    rw [List.append_assoc] at hreaches' hstops'
    refine ⟨new ++ new', hhappened.append hhappened', ?_, hreaches', hstops'⟩
    rw [asksOf_append, List.map_append]
    exact hasks.append hasks'

theorem map {f : α → β} {reaches' : β → List (Event τ) → Prop} (h : Continues e svc events nodes run reaches stops)
    (hf : ∀ a all, reaches a all → reaches' (f a) all) :
    Continues e svc events nodes (run >>= fun a => Pure.pure (f a)) reaches' stops := by
  have hbind : Continues e svc events (nodes ++ []) (run >>= fun a => Pure.pure (f a)) reaches' stops :=
    h.bind fun a new ha => .pure (hf a _ ha)
  rwa [List.append_nil] at hbind

/-- What comes of some events comes of them among others, too. -/
theorem frame {mine : List (Event τ)} {stops' : List (Event τ) → Prop}
    (h : Continues e svc mine nodes run reaches stops) (hmine : mine ⊆ events)
    (hstops : ∀ new, stops (mine ++ new) → stops' (events ++ new)) :
    Continues e svc events nodes run (fun a all => ∃ new, all = events ++ new ∧ reaches a (mine ++ new)) stops' := by
  intro past session result last hpast hexec
  obtain ⟨new, hhappened, hasks, hreaches, hstop⟩ := h past session result last (List.Subset.trans hmine hpast) hexec
  exact ⟨new, hhappened, hasks, fun a ha => ⟨new, rfl, hreaches a ha⟩, fun n hn => hstops new (hstop n hn)⟩

theorem widen (h : Continues e svc events nodes run reaches stops) (hnodes : nodes.Sublist more) :
    Continues e svc events more run reaches stops := by
  intro past session result last hpast hexec
  obtain ⟨new, hhappened, hasks, hreaches, hstops⟩ := h past session result last hpast hexec
  exact ⟨new, hhappened, hasks.trans hnodes, hreaches, hstops⟩

/-- To ask is to plan the request and to hand the query over. A request that is refused leaves things as they are. -/
theorem asked (ask : FollowUp) {rest : τ → PlannedQuery → Run σ α}
    (hrest : ∀ ticket planned,
      Continues e svc (events ++ [.asked ask ticket planned]) nodes (rest ticket planned) reaches stops)
    (hstop : stops events) :
    Continues e svc events (ask.node :: nodes)
      (e.plan (ask.request e.schema) >>= fun planned =>
        e.submit svc planned.query >>= fun ticket => rest ticket planned) reaches stops := by
  intro past session result last hpast hexec
  rw [Run.exec_bind] at hexec
  rcases hplan : (e.plan (ask.request e.schema)).exec session with ⟨n | planned, between⟩
  all_goals rw [hplan] at hexec
  · cases hexec
    refine ⟨[], .refused hplan, List.nil_sublist _, fun a ha => (by cases ha), fun m hm => ?_⟩
    rwa [List.append_nil]
  · have hsubmit : (e.submit svc planned.query).exec between = (.ok _, _) := rfl
    dsimp only at hexec
    rw [Run.exec_bind, hsubmit] at hexec
    have hpast' : ∀ event : Event τ, events ++ [event] ⊆ past ++ [event] := fun event =>
      List.append_subset.mpr ⟨List.subset_append_of_subset_left _ hpast, List.subset_append_right past _⟩
    obtain ⟨new, hhappened, hasks, hreaches, hstops⟩ := hrest _ planned _ _ _ _ (hpast' _) hexec
    rw [List.append_assoc] at hreaches hstops
    exact ⟨_, .asked hplan hsubmit hhappened, hasks.cons_cons _, hreaches, hstops⟩

theorem answered {ask : FollowUp} {ticket : τ} {planned : PlannedQuery} {reaches : Phase τ → List (Event τ) → Prop}
    (hasked : .asked ask ticket planned ∈ events) (hwait : reaches (.asked ticket planned) events)
    (hfound : ∀ found, reaches (.loaded found) (events ++ [.answered ask ticket planned found])) (hstop : stops events) :
    Continues e svc events nodes (RelQuery.answered e svc ticket planned) reaches stops := by
  intro past session result last hpast hexec
  rcases result with n | phase
  · refine ⟨[], .failed (hpast hasked) hexec, List.nil_sublist _, fun a ha => (by cases ha), fun m hm => ?_⟩
    rwa [List.append_nil]
  · rcases answered_cases hexec with rfl | ⟨found, rfl⟩
    · refine ⟨[], .waited (hpast hasked) hexec (.done ..), List.nil_sublist _, fun a ha => ?_, fun m hm => by cases hm⟩
      cases ha
      rwa [List.append_nil]
    · refine ⟨_, .answered (hpast hasked) hexec (.done ..), List.nil_sublist _, fun a ha => ?_, fun m hm => by cases hm⟩
      cases ha
      exact hfound found

end Continues

variable {events : List (Event τ)}

theorem Traced.advance {phase : Phase τ} {children : List (Loading τ)}
    (h : Traced e parents node ⟨node, phase, children⟩ events) :
    Continues e svc events [node] (advance e svc parents node phase)
      (fun phase all => Traced e parents node ⟨node, phase, children⟩ all)
      fun all => ∃ standing : Loading τ, Traced e parents node standing all := by
  cases phase with
  | loaded found => exact .pure h
  | unstarted =>
    cases h
    cases hjoined : node.isJoined with
    | true =>
      rw [advance_of_joined hjoined]
      exact .pure (.joined hjoined (levelTraced_startAll _))
    | false =>
      by_cases hkeys : (e.schema.relation node.relation).parentKeys e.schema parents = []
      · rw [advance_of_unasked hjoined hkeys]
        exact .pure (.unasked hjoined hkeys)
      · rw [advance_of_asked hjoined rfl hkeys]
        refine Continues.asked ⟨node, _⟩ (fun ticket planned => ?_) ⟨_, .unstarted parents node⟩
        have hasked := Traced.asked hjoined rfl hkeys ticket planned
        refine .answered (List.mem_append_right _ (List.mem_singleton.mpr rfl)) hasked (fun found => ?_) ⟨_, hasked⟩
        exact .answered hjoined rfl hkeys ticket planned (levelTraced_startAll _)
  | asked ticket planned =>
    cases h with
    | asked hpending hkeys hne =>
      refine .answered (List.mem_singleton.mpr rfl) ?_ (fun found => ?_) ?_
      · exact .asked hpending hkeys hne ticket planned
      · exact .answered hpending hkeys hne ticket planned (levelTraced_startAll _)
      · exact ⟨_, .asked hpending hkeys hne ticket planned⟩

/-- Siblings stay traced when there are more events of each. -/
theorem Interleave.levelTraced {nodes : List PrefetchNode} {first first' : Loading τ} {others : List (Loading τ)}
    {mine theirs new new' : List (Event τ)} (hmerge : Interleave mine theirs events)
    (hturn : e.settings.concurrentSiblings = false → events = mine ++ theirs ∧ (first.isDone = false → theirs = []))
    (hfirst : Traced e parents node first' (mine ++ new)) (hothers : LevelTraced e parents nodes others (theirs ++ new'))
    (hseq : e.settings.concurrentSiblings = false →
      (theirs = [] ∨ new = []) ∧ (first'.isDone = false → theirs ++ new' = [])) :
    LevelTraced e parents (node :: nodes) (first' :: others) (events ++ (new ++ new')) := by
  refine .cons hfirst hothers (hmerge.append (.of_append new new')) fun h => ⟨?_, (hseq h).2⟩
  rcases (hseq h).1 with rfl | rfl <;> simp [(hturn h).1]

/-- The siblings of a node that has been polled are polled after it. -/
theorem Continues.others {nodes : List PrefetchNode} {first first' : Loading τ} {rest : List (Loading τ)}
    {mine theirs new : List (Event τ)}
    (hpoll : Continues e svc theirs (nodesListed nodes) (RelQuery.pollLevel e svc parents rest)
      (LevelTraced e parents nodes) fun all => ∃ standing : List (Loading τ), LevelTraced e parents nodes standing all)
    (hmerge : Interleave mine theirs events)
    (hturn : e.settings.concurrentSiblings = false → events = mine ++ theirs ∧ (first.isDone = false → theirs = []))
    (hfirst : Traced e parents node first' (mine ++ new))
    (hseq : e.settings.concurrentSiblings = false → (theirs = [] ∨ new = []) ∧ first'.isDone = true) :
    Continues e svc (events ++ new) (nodesListed nodes)
      (RelQuery.pollLevel e svc parents rest >>= fun others => Pure.pure (first' :: others))
      (LevelTraced e parents (node :: nodes))
      fun all => ∃ standing : List (Loading τ), LevelTraced e parents (node :: nodes) standing all := by
  have hlevel : ∀ others new', LevelTraced e parents nodes others (theirs ++ new') →
      LevelTraced e parents (node :: nodes) (first' :: others) (events ++ new ++ new') := by
    intro others new' hothers
    rw [List.append_assoc]
    refine hmerge.levelTraced hturn hfirst hothers fun h => ⟨(hseq h).1, fun hwaits => ?_⟩
    rw [(hseq h).2] at hwaits
    cases hwaits
  have htheirs : theirs ⊆ events ++ new := List.subset_append_of_subset_left new hmerge.right_subset
  refine (hpoll.frame htheirs fun new' hstops => ?_).map fun others all h => ?_
  · obtain ⟨standing, hstanding⟩ := hstops
    exact ⟨_, hlevel standing new' hstanding⟩
  · obtain ⟨new', rfl, hothers⟩ := h
    exact hlevel others new' hothers

mutual

theorem Traced.pollNode : ∀ (loading : Loading τ) {parents : List Instance} {node : PrefetchNode}
    {events : List (Event τ)}, Traced e parents node loading events →
      Continues e svc events node.listed (pollNode e svc parents loading) (Traced e parents node)
        fun all => ∃ standing : Loading τ, Traced e parents node standing all
  | ⟨node', phase, children⟩, parents, node, events, h => by
    obtain rfl : node' = node := by cases h <;> rfl
    rw [pollNode_eq, node'.listed_eq]
    rw [← List.singleton_append]
    refine h.advance.bind fun phase new hphase => ?_
    cases phase with
    | unstarted => exact .pure hphase
    | asked ticket planned => exact .pure hphase
    | loaded found =>
      dsimp only
      split
      · rename_i hon
        obtain ⟨-, own, inner, hall, hbelow, hagain⟩ := hphase.goesOn hon
        rw [hall]
        have hpoll := LevelTraced.pollLevel children hbelow
        refine (hpoll.frame (List.subset_append_right own inner) fun more hstops => ?_).map fun below all h => ?_
        · obtain ⟨standing, hmore⟩ := hstops
          rw [List.append_assoc]
          exact ⟨_, hagain standing _ hmore⟩
        · obtain ⟨more, rfl, hmore⟩ := h
          rw [List.append_assoc]
          exact hagain below _ hmore
      · exact .pure hphase
termination_by structural loading => loading

theorem LevelTraced.pollLevel : ∀ (loadings : List (Loading τ)) {parents : List Instance} {nodes : List PrefetchNode}
    {events : List (Event τ)}, LevelTraced e parents nodes loadings events →
      Continues e svc events (nodesListed nodes) (pollLevel e svc parents loadings) (LevelTraced e parents nodes)
        fun all => ∃ standing : List (Loading τ), LevelTraced e parents nodes standing all
  | [], _, _, _, h => .pure h
  | first :: rest, parents, _, events, h => by
    cases h with | cons hfirst hrest hmerge hturn =>
    rename_i node nodes mine theirs
    have hpoll := LevelTraced.pollLevel rest hrest
    rw [pollLevel_cons, nodesListed]
    cases hdone : first.isDone with
    | true =>
      rw [pollNode_of_isDone first parents hdone, pure_bind, hdone, Bool.or_true, if_pos rfl]
      have hfirst' : Traced e parents node first (mine ++ []) := by rwa [List.append_nil]
      have hothers := hpoll.others hmerge hturn hfirst' fun _ => ⟨.inr rfl, hdone⟩
      rw [List.append_nil] at hothers
      exact hothers.widen (List.sublist_append_right _ _)
    | false =>
      have hnone : e.settings.concurrentSiblings = false → theirs = [] := fun hseq => (hturn hseq).2 hdone
      have halone : ∀ first' new, Traced e parents node first' (mine ++ new) →
          LevelTraced e parents (node :: nodes) (first' :: rest) (events ++ new) := by
        intro first' new hfirst'
        have hrest' : LevelTraced e parents nodes rest (theirs ++ []) := by rwa [List.append_nil]
        have h := hmerge.levelTraced hturn hfirst' hrest' fun hseq =>
          ⟨.inl (hnone hseq), fun _ => by rw [hnone hseq, List.append_nil]⟩
        rwa [List.append_nil] at h
      refine ((Traced.pollNode first hfirst).frame hmerge.left_subset fun new hstops => ?_).bind fun first' new h => ?_
      · obtain ⟨standing, hstanding⟩ := hstops
        exact ⟨_, halone standing new hstanding⟩
      · obtain ⟨_, hnew, hfirst'⟩ := h
        obtain rfl := List.append_cancel_left hnew
        split
        · rename_i hgoes
          exact hpoll.others hmerge hturn hfirst' fun hseq => ⟨.inl (hnone hseq), by rwa [hseq, Bool.false_or] at hgoes⟩
        · exact .pure (halone first' new hfirst')
termination_by structural loadings => loadings

end

/-! ### Progress -/

mutual

/-- Whether all is asked for that can be. -/
def Loading.isCurrent : Loading τ → Bool
  | ⟨node, phase, children⟩ =>
    match phase with
    | .unstarted => false
    | .asked .. => true
    | .loaded found => !node.goesOn found || allCurrent children
termination_by structural loading => loading

def allCurrent : List (Loading τ) → Bool
  | [] => true
  | loading :: rest => loading.isCurrent && allCurrent rest
termination_by structural loadings => loadings

end

theorem advance_ne_unstarted {phase phase' : Phase τ} {session last : Session σ}
    (h : (advance e svc parents node phase).exec session = (.ok phase', last)) : phase' ≠ .unstarted := by
  have hanswered : ∀ {ticket planned next}, (answered e svc ticket planned).exec next = (.ok phase', last) →
      phase' ≠ .unstarted := by
    rintro ticket planned next h rfl
    rcases answered_cases h with h | ⟨_, h⟩ <;> cases h
  cases phase with
  | loaded found =>
    cases h
    exact nofun
  | asked ticket planned => exact hanswered h
  | unstarted =>
    cases hjoined : node.isJoined with
    | true =>
      rw [advance_of_joined hjoined] at h
      cases h
      exact nofun
    | false =>
      by_cases hkeys : (e.schema.relation node.relation).parentKeys e.schema parents = []
      · rw [advance_of_unasked hjoined hkeys] at h
        cases h
        exact nofun
      · rw [advance_of_asked hjoined rfl hkeys] at h
        obtain ⟨planned, _, -, h⟩ := Run.exec_bind_eq_ok.mp h
        obtain ⟨ticket, _, -, h⟩ := Run.exec_bind_eq_ok.mp h
        exact hanswered h

mutual

/-- Where siblings are loaded concurrently, one poll asks for all that can be asked for. -/
theorem isCurrent_of_pollNode (hsiblings : e.settings.concurrentSiblings = true) :
    ∀ (loading : Loading τ) {parents : List Instance} {session last : Session σ} {polled : Loading τ},
      (pollNode e svc parents loading).exec session = (.ok polled, last) → polled.isCurrent = true
  | ⟨node, phase, children⟩, parents, session, last, polled, h => by
    rw [pollNode_eq] at h
    obtain ⟨phase', next, hadvance, h⟩ := Run.exec_bind_eq_ok.mp h
    cases phase' with
    | unstarted => exact absurd rfl (advance_ne_unstarted hadvance)
    | asked ticket planned =>
      cases h
      rfl
    | loaded found =>
      dsimp only at h
      split at h
      · obtain ⟨below, _, hbelow, h⟩ := Run.exec_bind_eq_ok.mp h
        cases h
        rw [Loading.isCurrent, allCurrent_of_pollLevel hsiblings children hbelow, Bool.or_true]
      · rename_i hends
        cases h
        rw [Loading.isCurrent, Bool.eq_false_iff.mpr hends, Bool.not_false, Bool.true_or]
termination_by structural loading => loading

theorem allCurrent_of_pollLevel (hsiblings : e.settings.concurrentSiblings = true) :
    ∀ (loadings : List (Loading τ)) {parents : List Instance} {session last : Session σ} {polled : List (Loading τ)},
      (pollLevel e svc parents loadings).exec session = (.ok polled, last) → allCurrent polled = true
  | [], _, _, _, _, h => by
    cases h
    rfl
  | first :: rest, parents, session, last, polled, h => by
    rw [pollLevel_cons] at h
    obtain ⟨first', next, hfirst, h⟩ := Run.exec_bind_eq_ok.mp h
    rw [hsiblings, Bool.true_or, if_pos rfl] at h
    obtain ⟨others, _, hothers, h⟩ := Run.exec_bind_eq_ok.mp h
    cases h
    rw [allCurrent, isCurrent_of_pollNode hsiblings first hfirst, allCurrent_of_pollLevel hsiblings rest hothers,
      Bool.and_true]
termination_by structural loadings => loadings

end

theorem pollTimes_add (polls more : Nat) (loadings : List (Loading τ)) :
    pollTimes e svc parents (polls + more) loadings =
      pollTimes e svc parents polls loadings >>= pollTimes e svc parents more := by
  induction polls generalizing loadings with
  | zero => rw [Nat.zero_add, pollTimes, pure_bind]
  | succ polls ih =>
    rw [Nat.add_right_comm, pollTimes, pollTimes, bind_assoc]
    exact bind_congr ih

theorem pollTimes_of_allDone {loadings : List (Loading τ)} (hdone : allDone loadings = true) (polls : Nat) :
    pollTimes e svc parents polls loadings = pure loadings := by
  induction polls with
  | zero => rfl
  | succ polls ih => rw [pollTimes, pollLevel_of_allDone loadings parents hdone, pure_bind, ih]

/-- Polled at least once, a backend that answers at once gives what loading gives. -/
theorem prefetchWithin_atOnce (polls : Nat) (plan : PrefetchPlan) (roots : List Instance) :
    prefetchWithin e e.backend.atOnce (polls + 1) plan roots =
      prefetch e plan roots >>= fun found => pure (some found) := by
  unfold prefetchWithin prefetch
  split
  · rw [pure_bind]
  · unfold loadNodes
    rw [pollTimes]
    simp only [bind_assoc, pure_bind]
    refine Run.bind_congr fun session loadings next hpoll => ?_
    have hdone := allDone_of_pollLevel plan roots session next loadings hpoll
    rw [pollTimes_of_allDone hdone, pure_bind, if_pos hdone]

/-- What has failed stays as it is, however often it is polled. -/
theorem prefetchWithin_stopped {plan : PrefetchPlan} {roots : List Instance} {session last : Session σ} {polls : Nat}
    {n : NoResult} (h : (prefetchWithin e svc polls plan roots).exec session = (.error n, last)) (more : Nat) :
    (prefetchWithin e svc (polls + more) plan roots).exec session = (.error n, last) := by
  unfold prefetchWithin at h ⊢
  split at h
  · cases h
  · rename_i hsome
    rw [if_neg hsome, pollTimes_add, bind_assoc]
    rcases Run.exec_bind_eq_error.mp h with h | ⟨loadings, next, -, h⟩
    · exact Run.exec_bind_eq_error.mpr (.inl h)
    · split at h <;> cases h

/-- Siblings that are polled a number of times go on by what each poll adds, in the order of the nodes. -/
theorem LevelTraced.pollTimes {nodes : List PrefetchNode} {loadings : List (Loading τ)} {events past : List (Event τ)}
    {session last : Session σ} {polls : Nat} {result : Except NoResult (List (Loading τ))}
    (h : LevelTraced e parents nodes loadings events) (hpast : events ⊆ past)
    (hexec : (pollTimes e svc parents polls loadings).exec session = (result, last)) :
    ∃ rounds : List (List (Event τ)), rounds.length ≤ polls ∧
      (∀ round ∈ rounds, ((asksOf round).map (·.node)).Sublist (nodesListed nodes)) ∧
        Happened e svc past session rounds.flatten (faultOf result) last ∧
          (∀ standing, result = .ok standing → LevelTraced e parents nodes standing (events ++ rounds.flatten) ∧
            (e.settings.concurrentSiblings = true → polls ≠ 0 → allCurrent standing = true)) ∧
            ∀ n, result = .error n →
              ∃ standing : List (Loading τ), LevelTraced e parents nodes standing (events ++ rounds.flatten) := by
  induction polls generalizing loadings events past session with
  | zero =>
    cases hexec
    refine ⟨[], Nat.le_refl 0, fun _ h => absurd h List.not_mem_nil, .done .., fun standing hstanding => ?_,
      fun n hn => by cases hn⟩
    cases hstanding
    rw [List.flatten_nil, List.append_nil]
    exact ⟨h, fun _ hne => absurd rfl hne⟩
  | succ polls ih =>
    rw [RelQuery.pollTimes, Run.exec_bind] at hexec
    rcases hpoll : (RelQuery.pollLevel e svc parents loadings).exec session with ⟨n | polled, next⟩
    all_goals
      rw [hpoll] at hexec
      obtain ⟨new, hhappened, hasks, hreaches, hstops⟩ := LevelTraced.pollLevel loadings h past session _ next hpast hpoll
    · cases hexec
      refine ⟨[new], Nat.succ_le_succ (Nat.zero_le polls), List.forall_mem_singleton.mpr hasks, ?_,
        fun standing hstanding => (by cases hstanding), fun m hm => ?_⟩
      · rwa [List.flatten_singleton]
      · rw [List.flatten_singleton]
        exact hstops n rfl
    · have hpast' : events ++ new ⊆ past ++ new :=
        List.append_subset.mpr ⟨List.subset_append_of_subset_left new hpast, List.subset_append_right past new⟩
      obtain ⟨rounds, hlength, hrounds, hhappened', hok, herror⟩ := ih (hreaches polled rfl) hpast' hexec
      rw [List.append_assoc] at hok herror
      refine ⟨new :: rounds, Nat.succ_le_succ hlength, List.forall_mem_cons.mpr ⟨hasks, hrounds⟩,
        hhappened.append hhappened',
        fun standing hstanding => ⟨(hok standing hstanding).1, fun hsiblings _ => ?_⟩, herror⟩
      cases polls with
      | zero =>
        subst hstanding
        cases hexec
        exact allCurrent_of_pollLevel hsiblings loadings hpoll
      | succ polls => exact (hok standing hstanding).2 hsiblings (Nat.succ_ne_zero polls)

end

end RelQuery
