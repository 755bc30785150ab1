import RelQuery.Proofs.Except
import RelQuery.Schema.Resolve

/-!
# Resolved paths

A path that resolves goes through relations that the entities on the way own and that its segments name, one entity
after the other. The facts about the last relation of a path are those about walking one segment further.
-/

namespace RelQuery

variable {s : Schema}

theorem relation_of_findRelation? {e : EntityId} {name : String} {id : RelationId}
    (h : s.findRelation? e name = some id) :
    s.relation id ∈ s.relations ∧ (s.relation id).owner = e ∧ (s.relation id).name = name := by
  unfold Schema.findRelation? at h
  obtain ⟨n, hn, rfl⟩ := Option.map_eq_some_iff.mp h
  obtain ⟨hlt, hp, -⟩ := List.findIdx?_eq_some_iff_getElem.mp hn
  have hrel : s.relation ⟨n⟩ = s.relations[n] := by
    simp [Schema.relation, List.getElem?_eq_getElem hlt]
  simp only [Bool.and_eq_true, beq_iff_eq] at hp
  rw [hrel]
  exact ⟨List.getElem_mem hlt, hp⟩

theorem walk_cons {e t : EntityId} {name : String} {rest : List String} {hops : List RelationId} :
    s.walk e (name :: rest) = .ok (hops, t) ↔
      ∃ id more, s.findRelation? e name = some id ∧ s.walk (s.relation id).target rest = .ok (more, t) ∧
        hops = id :: more := by
  rw [Schema.walk]
  rcases hid : s.findRelation? e name with - | id
  · simp
  · rcases hw : s.walk (s.relation id).target rest with missing | ⟨more, t'⟩
    · simp [hw]
    · simp only [Except.ok.injEq, Prod.mk.injEq, Option.some.injEq, hw]
      constructor
      · rintro ⟨rfl, rfl⟩
        exact ⟨id, more, rfl, by rw [hw], rfl⟩
      · rintro ⟨_, more', rfl, hw', rfl⟩
        rw [hw] at hw'
        cases hw'
        exact ⟨rfl, rfl⟩

theorem walk_concat {e t : EntityId} {names : List String} {name : String} {hops : List RelationId} :
    s.walk e (names ++ [name]) = .ok (hops, t) ↔
      ∃ before mid id, s.walk e names = .ok (before, mid) ∧ s.findRelation? mid name = some id ∧
        hops = before ++ [id] ∧ t = (s.relation id).target := by
  induction names generalizing e hops with
  | nil =>
    rw [List.nil_append, walk_cons]
    constructor
    · rintro ⟨id, more, hid, hw, rfl⟩
      cases hw
      exact ⟨[], e, id, rfl, hid, rfl, rfl⟩
    · rintro ⟨before, mid, id, hw, hid, rfl, rfl⟩
      cases hw
      exact ⟨id, [], hid, rfl, rfl⟩
  | cons first rest ih =>
    rw [List.cons_append, walk_cons]
    simp only [ih, walk_cons]
    constructor
    · rintro ⟨id, more, hid, ⟨before, mid, last, hw, hlast, rfl, rfl⟩, rfl⟩
      exact ⟨id :: before, mid, last, ⟨id, before, hid, hw, rfl⟩, hlast, rfl, rfl⟩
    · rintro ⟨_, mid, last, ⟨id, before, hid, hw, rfl⟩, hlast, rfl, rfl⟩
      exact ⟨id, before ++ [last], hid, ⟨before, mid, last, hw, hlast, rfl, rfl⟩, rfl⟩

theorem walk_append {e t : EntityId} {names more : List String} {hops : List RelationId} :
    s.walk e (names ++ more) = .ok (hops, t) ↔
      ∃ before mid after, s.walk e names = .ok (before, mid) ∧ s.walk mid more = .ok (after, t) ∧
        hops = before ++ after := by
  induction names generalizing e hops with
  | nil =>
    constructor
    · exact fun h => ⟨[], e, hops, rfl, h, rfl⟩
    · rintro ⟨_, _, after, ⟨⟩, h, rfl⟩
      exact h
  | cons name rest ih =>
    simp only [List.cons_append, walk_cons, ih]
    constructor
    · rintro ⟨id, _, hid, ⟨before, mid, after, hw, hmore, rfl⟩, rfl⟩
      exact ⟨id :: before, mid, after, ⟨id, before, hid, hw, rfl⟩, hmore, rfl⟩
    · rintro ⟨_, mid, after, ⟨id, before, hid, hw, rfl⟩, hmore, rfl⟩
      exact ⟨id, before ++ after, hid, ⟨before, mid, after, hw, hmore, rfl⟩, rfl⟩

/-- The path resolves from the root entity to what the resolved path says. -/
def ResolvedPath.Resolves (s : Schema) (root : EntityId) (r : ResolvedPath) : Prop :=
  s.walk root r.path.segments = .ok (r.hops, r.target)

theorem resolve_eq_ok {root : EntityId} {p : Path} {r : ResolvedPath} :
    s.resolve root p = .ok r ↔ r.path = p ∧ r.Resolves s root := by
  unfold Schema.resolve ResolvedPath.Resolves
  obtain ⟨path, hops, target⟩ := r
  rcases hw : s.walk root p.segments with missing | ⟨hops', target'⟩
  · simp only [reduceCtorEq, false_iff]
    rintro ⟨rfl, h⟩
    rw [hw] at h
    cases h
  · simp only [Except.ok.injEq, ResolvedPath.mk.injEq]
    constructor
    · rintro ⟨rfl, rfl, rfl⟩
      exact ⟨rfl, hw⟩
    · rintro ⟨rfl, h⟩
      rw [hw] at h
      cases h
      exact ⟨rfl, rfl, rfl⟩

theorem ResolvedPath.Resolves.target_eq {root : EntityId} {r : ResolvedPath} (h : r.Resolves s root)
    {hops : List RelationId} {id : EntityId} (hwalk : s.walk root r.path.segments = .ok (hops, id)) : r.target = id := by
  unfold ResolvedPath.Resolves at h
  exact congrArg Prod.snd (Except.ok.inj (h.symm.trans hwalk))

theorem ResolvedPath.Resolves.lastHop {root : EntityId} {r : ResolvedPath} (h : r.Resolves s root)
    {names : List String} {name : String} (hp : r.path.segments = names ++ [name]) :
    ∃ before mid id, s.walk root names = .ok (before, mid) ∧ s.findRelation? mid name = some id ∧
      r.lastHop? = some id ∧ r.target = (s.relation id).target := by
  unfold ResolvedPath.Resolves at h
  rw [hp, walk_concat] at h
  obtain ⟨before, mid, id, hw, hid, hhops, ht⟩ := h
  refine ⟨before, mid, id, hw, hid, ?_, ht⟩
  rw [ResolvedPath.lastHop?, hhops, List.getLast?_concat]

end RelQuery
