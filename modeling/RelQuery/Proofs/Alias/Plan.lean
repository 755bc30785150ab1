import Mathlib.Data.List.Pairwise
import RelQuery.Alias.Plan
import RelQuery.Proofs.Except
import RelQuery.Proofs.Join.JoinSet
import RelQuery.Proofs.NameMap

/-!
# What an alias plan gives

Where the texts of the paths differ, every path has aliases of its own, with one for the linking table just when its
last relation goes through one; and no two tables of the statement go by the same name. The registry plays no part:
whatever it holds, the plan is refused when two names coincide.
-/

namespace RelQuery

variable {s : Schema}

theorem mem_longestFirst {paths : List EdgePath} {e : EdgePath} : e ∈ longestFirst paths ↔ e ∈ paths := by
  have hle := (le_foldl_max (fun e : EdgePath => e.path.length) paths 0).2
  unfold longestFirst
  simp only [List.mem_flatMap, List.mem_reverse, List.mem_range, List.mem_filter, beq_iff_eq]
  constructor
  · rintro ⟨n, -, he, -⟩
    exact he
  · intro he
    exact ⟨e.path.length, Nat.lt_succ_of_le (hle e he), he, rfl⟩

theorem mem_groupScopes {rootTable : String} {paths : List EdgePath} {w : JoinScopes}
    (h : w ∈ groupScopes rootTable paths) :
    ∃ e ∈ paths, w.path = e.path.text ∧ w.through.isSome = e.relation.isManyToMany := by
  unfold groupScopes at h
  rcases List.mem_append.mp h with h | h
  · obtain ⟨e, he, rfl⟩ := List.mem_map.mp h
    refine ⟨e, mem_longestFirst.mp ((List.dropLast_subset _) he), rfl, ?_⟩
    unfold EdgePath.byPath
    cases e.relation.isManyToMany <;> rfl
  · obtain ⟨e, he, rfl⟩ := List.mem_map.mp h
    refine ⟨e, mem_longestFirst.mp (List.mem_of_getLast? (Option.mem_toList.mp he)), rfl, ?_⟩
    unfold EdgePath.byEdge
    cases e.relation.isManyToMany <;> rfl

theorem exists_mem_groupScopes (rootTable : String) {paths : List EdgePath} {e : EdgePath} (he : e ∈ paths) :
    ∃ w ∈ groupScopes rootTable paths, w.path = e.path.text := by
  have hmem := mem_longestFirst.mpr he
  unfold groupScopes
  dsimp only
  rcases List.eq_nil_or_concat' (longestFirst paths) with hnil | ⟨before, last, hlast⟩
  · rw [hnil] at hmem
    cases hmem
  · rw [hlast] at hmem ⊢
    rw [List.dropLast_concat, List.getLast?_concat]
    rcases List.mem_append.mp hmem with hbefore | hlast
    · exact ⟨e.byPath rootTable, List.mem_append_left _ (List.mem_map_of_mem hbefore), rfl⟩
    · rw [List.mem_singleton.mp hlast]
      exact ⟨last.byEdge, List.mem_append_right _ (List.mem_singleton_self _), rfl⟩

theorem mem_neededScopes {rootTable : String} {paths : List ResolvedPath} {w : JoinScopes}
    (h : w ∈ neededScopes s rootTable paths) :
    ∃ t ∈ paths, ∃ id, t.lastHop? = some id ∧ w.path = t.path.text ∧
      w.through.isSome = (s.relation id).isManyToMany := by
  unfold neededScopes at h
  obtain ⟨scope, -, hw⟩ := List.mem_flatMap.mp h
  obtain ⟨e, he, hpath, hthrough⟩ := mem_groupScopes hw
  obtain ⟨t, ht, hedge⟩ := List.mem_filterMap.mp (List.mem_filter.mp he).1
  unfold EdgePath.ofResolved? at hedge
  obtain ⟨id, hid, rfl⟩ := Option.map_eq_some_iff.mp hedge
  exact ⟨t, ht, id, hid, hpath, hthrough⟩

theorem exists_mem_neededScopes (rootTable : String) {paths : List ResolvedPath} {t : ResolvedPath} (ht : t ∈ paths)
    {id : RelationId} (hid : t.lastHop? = some id) :
    ∃ w ∈ neededScopes s rootTable paths, w.path = t.path.text := by
  obtain ⟨e, he, hpath⟩ : ∃ e ∈ paths.filterMap (EdgePath.ofResolved? s), e.path = t.path := by
    refine ⟨⟨t.path, (s.entity (s.relation id).owner).table, s.relation id⟩, List.mem_filterMap.mpr ⟨t, ht, ?_⟩, rfl⟩
    rw [EdgePath.ofResolved?, hid]
    rfl
  have hgroup : e ∈ (paths.filterMap (EdgePath.ofResolved? s)).filter (·.scope == e.scope) := by
    simpa using he
  obtain ⟨w, hw, htext⟩ := exists_mem_groupScopes rootTable hgroup
  unfold neededScopes
  refine ⟨w, List.mem_flatMap.mpr ⟨e.scope, ?_, hw⟩, by rw [htext, hpath]⟩
  exact mem_distinct.mpr (List.mem_map_of_mem he)

theorem through_of_registerOptional {r r' : AliasRegistry} {scope : Option AliasScope} {a : Option Alias}
    (h : r.registerOptional scope = some (a, r')) : a.isSome = scope.isSome := by
  cases scope with
  | none =>
    cases h
    rfl
  | some scope =>
    unfold AliasRegistry.registerOptional at h
    obtain ⟨⟨b, r₁⟩, -, he⟩ := Option.map_eq_some_iff.mp h
    cases he
    rfl

/-- The scopes of one path: the linking table finds no alias, the target finds none, or both have theirs and the rest
is registered. -/
theorem registerScopes_cons {r r' : AliasRegistry} {w : JoinScopes} {rest : List JoinScopes}
    {result : Except NoResult (List (String × JoinAlias))} (h : registerScopes r (w :: rest) = (result, r')) :
    (r.registerOptional w.through = none ∧ result = .error (.endless (w.through.getD w.target)) ∧ r' = r) ∨
    (∃ through, r.registerOptional w.through = some (through, r') ∧ r'.register w.target = none ∧
      result = .error (.endless w.target)) ∨
    ∃ through r₁ target r₂ entries, r.registerOptional w.through = some (through, r₁) ∧
      r₁.register w.target = some (target, r₂) ∧ registerScopes r₂ rest = (entries, r') ∧
        result = entries.map ((w.path, ⟨target, through⟩) :: ·) := by
  unfold registerScopes at h
  split at h
  case h_1 hnone =>
    cases h
    exact .inl ⟨hnone, rfl, rfl⟩
  case h_2 through r₁ hthrough =>
    split at h
    case h_1 hnone =>
      cases h
      exact .inr (.inl ⟨through, hthrough, hnone, rfl⟩)
    case h_2 target r₂ htarget =>
      refine .inr (.inr ⟨through, r₁, target, r₂, ?_⟩)
      split at h
      case h_1 hrest =>
        cases h
        exact ⟨_, hthrough, htarget, hrest, rfl⟩
      case h_2 hrest =>
        cases h
        exact ⟨_, hthrough, htarget, hrest, rfl⟩

/-- Every path whose scopes are registered gets its aliases. -/
theorem forall₂_of_registerScopes {r r' : AliasRegistry} {scopes : List JoinScopes}
    {entries : List (String × JoinAlias)} (h : registerScopes r scopes = (.ok entries, r')) :
    List.Forall₂ (fun w entry => entry.1 = w.path ∧ entry.2.through.isSome = w.through.isSome) scopes entries := by
  induction scopes generalizing r entries with
  | nil =>
    cases h
    exact .nil
  | cons w rest ih =>
    obtain ⟨-, he, -⟩ | ⟨_, -, -, he⟩ | ⟨_, _, _, _, _, hthrough, -, hrest, he⟩ := registerScopes_cons h
    · cases he
    · cases he
    · obtain ⟨more, rfl, rfl⟩ := map_eq_ok.mp he.symm
      exact .cons ⟨rfl, through_of_registerOptional hthrough⟩ (ih hrest)

theorem eq_of_mem_flatMap {α β : Type} {l : List α} {f : α → List β} (h : (l.flatMap f).Nodup) {a b : α} (ha : a ∈ l)
    (hb : b ∈ l) {x : β} (hx : x ∈ f a) (hx' : x ∈ f b) : a = b := by
  have : Std.Symm fun a b => List.Disjoint (f a) (f b) := ⟨fun _ _ hd _ h h' => hd h' h⟩
  by_contra hne
  exact List.disjoint_left.mp ((List.nodup_flatMap.mp h).2.forall ha hb hne) hx hx'

theorem nodup_of_verifyUnique {p : AliasPlan} {rootTable : String} (h : p.verifyUnique rootTable = .ok ()) :
    ((p.uses rootTable).map (·.1)).Nodup := by
  unfold AliasPlan.verifyUnique at h
  dsimp only at h
  split at h
  · rename_i hnone
    rw [List.find?_eq_none] at hnone
    refine List.nodup_iff_count_le_one.mpr fun name => ?_
    by_cases hmem : name ∈ (p.uses rootTable).map (·.1)
    · obtain ⟨u, hu, rfl⟩ := List.mem_map.mp hmem
      have hlen := hnone u hu
      rw [List.count_eq_countP, List.countP_map, List.countP_eq_length_filter]
      exact Nat.le_of_not_lt fun hlt => hlen (decide_eq_true hlt)
    · rw [List.count_eq_zero_of_not_mem hmem]
      exact Nat.zero_le 1
  · cases h

/-- What is known of the aliases of a plan. -/
structure AliasPlan.NamesPaths (p : AliasPlan) (s : Schema) (rootTable : String) (paths : List ResolvedPath) : Prop where
  /-- Every path has aliases, and one for a linking table if it ends on one. -/
  aliases : ∀ t ∈ paths, ∀ id, t.lastHop? = some id →
    ∃ a, p.get? t.path = some a ∧ a.through.isSome = (s.relation id).isManyToMany
  unique : ((p.uses rootTable).map (·.1)).Nodup

section

variable {registry registry' : AliasRegistry} {rootTable : String} {paths : List ResolvedPath} {p : AliasPlan}

theorem assign_eq_ok (h : AliasPlan.assign registry s rootTable paths = (.ok p, registry')) :
    ∃ entries, registerScopes registry (neededScopes s rootTable paths) = (.ok entries, registry') ∧
      p = ⟨NameMap.ofPairs entries⟩ ∧ p.verifyUnique rootTable = .ok () := by
  unfold AliasPlan.assign at h
  split at h
  · cases h
  · rename_i entries registry₁ hentries
    dsimp only at h
    split at h
    · rename_i hunique
      cases h
      exact ⟨entries, hentries, rfl, hunique⟩
    · cases h

theorem assign_eq_error {n : NoResult} (h : AliasPlan.assign registry s rootTable paths = (.error n, registry')) :
    registerScopes registry (neededScopes s rootTable paths) = (.error n, registry') ∨
      ∃ entries e, registerScopes registry (neededScopes s rootTable paths) = (.ok entries, registry') ∧
        (⟨NameMap.ofPairs entries⟩ : AliasPlan).verifyUnique rootTable = .error e ∧ n = .failed e := by
  unfold AliasPlan.assign at h
  split at h
  · rename_i hscopes
    cases h
    exact .inl hscopes
  · rename_i entries registry₁ hentries
    dsimp only at h
    split at h
    · cases h
    · rename_i hverify
      cases h
      exact .inr ⟨entries, _, hentries, hverify, rfl⟩

theorem verifyUnique_of_assign (h : AliasPlan.assign registry s rootTable paths = (.ok p, registry')) :
    p.verifyUnique rootTable = .ok () := by
  obtain ⟨-, -, -, hunique⟩ := assign_eq_ok h
  exact hunique

/-- What a plan gives to a path was registered for a path that is written alike. -/
theorem mem_of_get?_ofPairs {entries : List (String × JoinAlias)} {path : Path} {a : JoinAlias}
    (h : AliasPlan.get? ⟨NameMap.ofPairs entries⟩ path = some a) : (path.text, a) ∈ entries := by
  rw [AliasPlan.get?, NameMap.ofPairs_eq_ofFirst, NameMap.get?_ofFirst] at h
  exact List.mem_reverse.mp (NameMap.mem_of_get? h)

/-- Every path has aliases in the plan, those of a path that is written alike. -/
theorem exists_get?_of_assign (h : AliasPlan.assign registry s rootTable paths = (.ok p, registry')) {t : ResolvedPath}
    (ht : t ∈ paths) {id : RelationId} (hid : t.lastHop? = some id) :
    ∃ a, p.get? t.path = some a ∧ ∃ u ∈ paths, u.path.text = t.path.text ∧
      ∃ id', u.lastHop? = some id' ∧ a.through.isSome = (s.relation id').isManyToMany := by
  obtain ⟨entries, hentries, rfl, -⟩ := assign_eq_ok h
  have hforall := forall₂_of_registerScopes hentries
  obtain ⟨w, hw, hwpath⟩ := exists_mem_neededScopes (s := s) rootTable ht hid
  obtain ⟨entry, hentry, hname, -⟩ := exists_of_mem_forall₂ hforall.flip hw
  have hmem : t.path.text ∈ entries.reverse.map (·.1) := by
    rw [← hwpath, ← hname]
    exact List.mem_map_of_mem (List.mem_reverse.mpr hentry)
  obtain ⟨a, ha⟩ := NameMap.exists_get?_of_mem hmem
  have hget : AliasPlan.get? ⟨NameMap.ofPairs entries⟩ t.path = some a := by
    rw [AliasPlan.get?, NameMap.ofPairs_eq_ofFirst, NameMap.get?_ofFirst, ha]
  obtain ⟨w', hw', hpath', hthrough'⟩ := exists_of_mem_forall₂ hforall (mem_of_get?_ofPairs hget)
  obtain ⟨u, hu, id', hid', htext, hmany⟩ := mem_neededScopes hw'
  exact ⟨a, hget, u, hu, htext.symm.trans hpath'.symm, id', hid', hthrough'.trans hmany⟩

/-- Paths whose tables have one alias are written alike. -/
theorem text_eq_of_target (h : AliasPlan.assign registry s rootTable paths = (.ok p, registry')) {path other : Path}
    {a b : JoinAlias} (ha : p.get? path = some a) (hb : p.get? other = some b) (hsame : a.target = b.target) :
    path.text = other.text := by
  have hunique := nodup_of_verifyUnique (verifyUnique_of_assign h)
  unfold AliasPlan.uses at hunique
  rw [List.map_append, List.map_flatMap] at hunique
  have hentry := eq_of_mem_flatMap hunique.of_append_left (NameMap.mem_of_get? ha) (NameMap.mem_of_get? hb)
    (x := a.target.text) (List.mem_cons_self ..) (by rw [hsame]; exact List.mem_cons_self ..)
  exact congrArg Prod.fst hentry

end

theorem namesPaths_of_assign {registry registry' : AliasRegistry} {rootTable : String} {paths : List ResolvedPath}
    {p : AliasPlan} (htext : (paths.map (·.path.text)).Nodup)
    (h : AliasPlan.assign registry s rootTable paths = (.ok p, registry')) : p.NamesPaths s rootTable paths := by
  refine ⟨fun t ht id hid => ?_, nodup_of_verifyUnique (verifyUnique_of_assign h)⟩
  obtain ⟨a, ha, u, hu, hsame, id', hid', hthrough⟩ := exists_get?_of_assign h ht hid
  -- the path that is written alike is the only one
  obtain rfl := List.inj_on_of_nodup_map htext hu ht hsame
  rw [hid] at hid'
  cases hid'
  exact ⟨a, ha, hthrough⟩

end RelQuery
