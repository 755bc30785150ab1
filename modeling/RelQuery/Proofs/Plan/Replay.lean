import RelQuery.Proofs.Alias.Assign
import RelQuery.Proofs.Plan.Scope

/-!
# Planning a request again

Whatever is planned or counted, the registry only gains aliases. A request that was planned once finds all the scopes
that it needs registered, so planning it again gives the same statement and leaves the registry as it is.
-/

namespace RelQuery

variable {s : Schema} {r r' : AliasRegistry}

theorem registerOptional_of_resolve? {scope : Option AliasScope} {a : Option Alias}
    (h : scope.map r.resolve? = a.map some) : r.registerOptional scope = some (a, r) := by
  cases scope with
  | none =>
    cases a with
    | none => rfl
    | some a => cases h
  | some scope =>
    cases a with
    | none => cases h
    | some a =>
      have hresolved : r.resolve? scope = some a := Option.some.inj h
      rw [AliasRegistry.registerOptional, AliasRegistry.register_of_resolve? hresolved]
      rfl

/-- Registering scopes that have their aliases gives these, and adds nothing. -/
theorem registerScopes_of_givesEntry {scopes : List JoinScopes} {entries : List (String × JoinAlias)}
    (h : List.Forall₂ (JoinScopes.GivesEntry r) scopes entries) :
    registerScopes r scopes = (.ok entries, r) := by
  induction h with
  | nil => rfl
  | @cons w entry rest entries hw _ ih =>
    obtain ⟨hpath, htarget, hthrough⟩ := hw
    unfold registerScopes
    simp only [registerOptional_of_resolve? hthrough, AliasRegistry.register_of_resolve? htarget, ih, ← hpath]

theorem extends_assign (r : AliasRegistry) (s : Schema) (rootTable : String) (paths : List ResolvedPath) :
    r.Extends (AliasPlan.assign r s rootTable paths).2 := by
  have hkeeps := (registerScopes_keeps r (neededScopes s rootTable paths)).1
  rcases hassign : AliasPlan.assign r s rootTable paths with ⟨e | p, r'⟩
  · rcases assign_eq_error hassign with hscopes | ⟨_, _, hscopes, -⟩
    · rwa [hscopes] at hkeeps
    · rwa [hscopes] at hkeeps
  · obtain ⟨_, hscopes, -, -⟩ := assign_eq_ok hassign
    rwa [hscopes] at hkeeps

theorem assign_again {rootTable : String} {paths : List ResolvedPath} {p : AliasPlan} {later : AliasRegistry}
    (h : AliasPlan.assign r s rootTable paths = (.ok p, r')) (hext : r'.Extends later) :
    AliasPlan.assign later s rootTable paths = (.ok p, later) := by
  obtain ⟨entries, hscopes, rfl, hunique⟩ := assign_eq_ok h
  have hgiven : List.Forall₂ (JoinScopes.GivesEntry later) (neededScopes s rootTable paths) entries :=
    (registerScopes_ok hscopes).imp fun _ _ hw => hw.extend hext
  unfold AliasPlan.assign
  rw [registerScopes_of_givesEntry hgiven]
  dsimp only
  rw [hunique]

theorem extends_prepare (request : Request) (s : Schema) (r : AliasRegistry) :
    r.Extends (request.prepare s r).2 := by
  unfold Request.prepare
  split
  · exact .refl r
  · rename_i bound _
    have hassign := extends_assign r s (s.entity request.root).table bound.resolved
    split
    · rename_i he
      rwa [he] at hassign
    · rename_i he
      rwa [he] at hassign

theorem prepare_again {request : Request} {p : Prepared} {later : AliasRegistry}
    (h : request.prepare s r = (.ok p, r')) (hext : r'.Extends later) : request.prepare s later = (.ok p, later) := by
  obtain ⟨hschema, hrequest, hbind, hassign, hcheck⟩ := prepare_eq_ok.mp h
  exact prepare_eq_ok.mpr ⟨hschema, hrequest, hbind, assign_again hassign hext, hcheck⟩

theorem snd_plan (request : Request) (s : Schema) (settings : Settings) (r : AliasRegistry) :
    (request.plan s settings r).2 = (request.prepare s r).2 := by
  rw [plan_eq]

theorem snd_planCount (request : Request) (s : Schema) (r : AliasRegistry) :
    (request.planCount s r).2 = (request.prepare s r).2 := by
  rw [planCount_eq]

/-- A statement that is asked of a registry: for the rows of a request, or for their number. -/
inductive PlanCall where
  | rows (s : Schema) (settings : Settings) (request : Request)
  | count (s : Schema) (request : Request)

/-- The registry after a statement was asked for, whether or not there was one. -/
def PlanCall.after (r : AliasRegistry) : PlanCall → AliasRegistry
  | rows s settings request => (request.plan s settings r).2
  | count s request => (request.planCount s r).2

theorem PlanCall.extends_after (r : AliasRegistry) (call : PlanCall) : r.Extends (call.after r) := by
  cases call with
  | rows s settings request =>
    rw [after, snd_plan]
    exact extends_prepare request s r
  | count s request =>
    rw [after, snd_planCount]
    exact extends_prepare request s r

theorem extends_calls (r : AliasRegistry) (calls : List PlanCall) : r.Extends (calls.foldl PlanCall.after r) := by
  induction calls generalizing r with
  | nil => exact .refl r
  | cons call rest ih => exact (call.extends_after r).trans (ih (call.after r))

/-- A request that was planned is planned alike after any other calls, refused ones included: the same statement, the
same tree with its aliases and labels, and no alias more in the registry. -/
theorem plan_reproducible {request : Request} {settings : Settings} {planned : PlannedQuery}
    (h : request.plan s settings r = (.ok planned, r')) (calls : List PlanCall) :
    request.plan s settings (calls.foldl PlanCall.after r') = (.ok planned, calls.foldl PlanCall.after r') := by
  have hext := extends_calls r' calls
  unfold Request.plan at h ⊢
  split at h
  · cases h
  · rename_i p first hprepare
    obtain ⟨hok, rfl⟩ := Prod.mk.inj h
    rw [prepare_again hprepare hext]
    exact Prod.ext hok rfl

/-- Books with a tag called new, and then calls that need the same tables, are refused, or start elsewhere. -/
def taggedCalls : List PlanCall :=
  [.count taggedSchema { root := ⟨1⟩, filters := [.lookup "books__title" (.scalar (.text "x"))] },
   .rows taggedSchema {} { root := ⟨0⟩, filters := [.lookup "tags__age" (.scalar (.int 1))] },
   .rows taggedSchema {} { root := ⟨0⟩, selectRelated := [⟨["tags", "books", "tags"]⟩] }]

theorem plan_reproducible_tagged :
    ∃ planned first, taggedRequest.plan taggedSchema {} (.empty 6) = (.ok planned, first) ∧
      first.size = 2 ∧ 2 < (taggedCalls.foldl PlanCall.after first).size ∧
      taggedRequest.plan taggedSchema {} (taggedCalls.foldl PlanCall.after first) =
        (.ok planned, taggedCalls.foldl PlanCall.after first) := by
  have hsize : (taggedRequest.plan taggedSchema {} (.empty 6)).2.size = 2 := by decide +kernel
  have hmore : 2 < (taggedCalls.foldl PlanCall.after (taggedRequest.plan taggedSchema {} (.empty 6)).2).size := by
    decide +kernel
  have hok : (taggedRequest.plan taggedSchema {} (.empty 6)).1.isOk = true := by decide +kernel
  rcases hplan : taggedRequest.plan taggedSchema {} (.empty 6) with ⟨planned, first⟩
  rw [hplan] at hsize hmore hok
  cases planned with
  | error e => cases hok
  | ok planned => exact ⟨planned, first, rfl, hsize, hmore, plan_reproducible hplan taggedCalls⟩

end RelQuery
