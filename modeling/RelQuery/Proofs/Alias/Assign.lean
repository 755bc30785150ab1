import RelQuery.Proofs.Alias.Edge
import RelQuery.Proofs.Alias.Registry
import RelQuery.Proofs.Schema.Resolve

/-!
# What assigning aliases does

Whatever a registry has given before, the tables of a statement get aliases that differ among themselves. A plan is
refused only if one of them is the name of the root table. Otherwise the plan names every path: the keeper of an edge
by the scopes of the edge, the other paths on it by their own. That a scope finds no alias takes a registry in which
all its candidates belong to other scopes.
-/

namespace RelQuery

variable {s : Schema} {rootTable : String} {paths : List ResolvedPath} {r r' : AliasRegistry}

/-- The aliases are those that the registry keeps for the scopes. -/
def JoinAlias.GivenBy (a : JoinAlias) (r : AliasRegistry) (w : JoinScopes) : Prop :=
  r.resolve? w.target = some a.target ∧ w.through.map r.resolve? = a.through.map some

/-- The entry of a plan for a table: its path with the aliases that the registry keeps for it. -/
structure JoinScopes.GivesEntry (r : AliasRegistry) (w : JoinScopes) (entry : String × JoinAlias) : Prop where
  path : entry.1 = w.path
  given : entry.2.GivenBy r w

def JoinAlias.names (a : JoinAlias) : List String :=
  a.target.text :: a.through.toList.map (·.text)

def AliasRegistry.nameOf (r : AliasRegistry) (scope : AliasScope) : String :=
  ((r.resolve? scope).map (·.text)).getD ""

theorem map_resolve?_extend {scope : Option AliasScope} {a : Option Alias}
    (h : scope.map r.resolve? = a.map some) (hext : r.Extends r') : scope.map r'.resolve? = a.map some := by
  cases scope with
  | none => exact h
  | some scope =>
    obtain ⟨t, rfl, ht⟩ := Option.map_eq_some_iff.mp h.symm
    rw [Option.map_some, Option.map_some, hext _ _ ht.symm]

theorem JoinAlias.GivenBy.extend {a : JoinAlias} {w : JoinScopes} (h : a.GivenBy r w) (hext : r.Extends r') :
    a.GivenBy r' w :=
  ⟨hext _ _ h.1, map_resolve?_extend h.2 hext⟩

theorem JoinScopes.GivesEntry.extend {w : JoinScopes} {entry : String × JoinAlias} (h : w.GivesEntry r entry)
    (hext : r.Extends r') : w.GivesEntry r' entry :=
  ⟨h.path, h.given.extend hext⟩

theorem JoinAlias.GivenBy.resolved {a : JoinAlias} {w : JoinScopes} (h : a.GivenBy r w) {scope : AliasScope}
    (hscope : scope ∈ w.all) : ∃ b, r.resolve? scope = some b := by
  obtain ⟨htarget, hthrough⟩ := h
  rcases List.mem_append.mp hscope with hscope | hscope
  · rw [Option.mem_toList.mp hscope] at hthrough
    obtain ⟨t, -, ht⟩ := Option.map_eq_some_iff.mp hthrough.symm
    exact ⟨t, ht.symm⟩
  · rw [List.mem_singleton.mp hscope]
    exact ⟨a.target, htarget⟩

theorem JoinAlias.GivenBy.names_perm {a : JoinAlias} {w : JoinScopes} (h : a.GivenBy r w) :
    a.names.Perm (w.all.map r.nameOf) := by
  obtain ⟨htarget, hthrough⟩ := h
  have hname : r.nameOf w.target = a.target.text := by rw [AliasRegistry.nameOf, htarget]; rfl
  have hlinks : w.through.toList.map r.nameOf = a.through.toList.map (·.text) := by
    cases hw : w.through with
    | none =>
      rw [hw] at hthrough
      rw [Option.map_eq_none_iff.mp hthrough.symm]
      rfl
    | some scope =>
      rw [hw] at hthrough
      obtain ⟨t, ht, htscope⟩ := Option.map_eq_some_iff.mp hthrough.symm
      have hscope : r.nameOf scope = t.text := by rw [AliasRegistry.nameOf, ← htscope]; rfl
      rw [ht, Option.toList_some, Option.toList_some, List.map_singleton, List.map_singleton, hscope]
  rw [JoinScopes.all, List.map_append, hlinks, List.map_singleton, hname]
  exact (List.perm_append_singleton a.target.text _).symm

/-! ### Registering scopes -/

theorem registerOptional_spec {scope : Option AliasScope} {a : Option Alias}
    (h : r.registerOptional scope = some (a, r')) :
    r.Extends r' ∧ (r.Reachable → r'.Reachable) ∧ r'.length = r.length ∧ scope.map r'.resolve? = a.map some := by
  cases scope with
  | none =>
    cases h
    exact ⟨.refl r, id, rfl, rfl⟩
  | some scope =>
    unfold AliasRegistry.registerOptional at h
    obtain ⟨⟨b, r₁⟩, hb, he⟩ := Option.map_eq_some_iff.mp h
    cases he
    refine ⟨AliasRegistry.extends_register hb, fun hr => .register hr hb, AliasRegistry.length_register hb, ?_⟩
    rw [Option.map_some, Option.map_some, AliasRegistry.resolve?_register hb]

theorem exhausted_of_registerOptional {scope : Option AliasScope} (h : r.registerOptional scope = none) :
    ∃ needed, scope = some needed ∧ r.Exhausted needed := by
  cases scope with
  | none => cases h
  | some needed =>
    rw [AliasRegistry.registerOptional, Option.map_eq_none_iff] at h
    exact ⟨needed, rfl, AliasRegistry.exhausted_of_register h⟩

/-- What registering scopes did, whether or not it came to an end. -/
theorem registerScopes_keeps (r : AliasRegistry) (scopes : List JoinScopes) :
    r.Extends (registerScopes r scopes).2 ∧ (r.Reachable → (registerScopes r scopes).2.Reachable) ∧
      (registerScopes r scopes).2.length = r.length := by
  induction scopes generalizing r with
  | nil => exact ⟨.refl r, id, rfl⟩
  | cons w rest ih =>
    rcases hrun : registerScopes r (w :: rest) with ⟨result, r'⟩
    obtain ⟨-, -, rfl⟩ | ⟨_, hthrough, -⟩ | ⟨_, r₁, _, r₂, _, hthrough, htarget, hrest, -⟩ := registerScopes_cons hrun
    · exact ⟨.refl r', id, rfl⟩
    · obtain ⟨hext, hreach, hlength, -⟩ := registerOptional_spec hthrough
      exact ⟨hext, hreach, hlength⟩
    · obtain ⟨hext₁, hreach₁, hlength₁, -⟩ := registerOptional_spec hthrough
      have hext₂ := AliasRegistry.extends_register htarget
      obtain ⟨hext, hreach, hlength⟩ := ih r₂
      rw [hrest] at hext hreach hlength
      exact ⟨(hext₁.trans hext₂).trans hext, fun hr => hreach (.register (hreach₁ hr) htarget),
        hlength.trans ((AliasRegistry.length_register htarget).trans hlength₁)⟩

theorem registerScopes_ok {scopes : List JoinScopes} {entries : List (String × JoinAlias)}
    (h : registerScopes r scopes = (.ok entries, r')) :
    List.Forall₂ (JoinScopes.GivesEntry r') scopes entries := by
  induction scopes generalizing r entries with
  | nil =>
    cases h
    exact .nil
  | cons w rest ih =>
    obtain ⟨-, he, -⟩ | ⟨_, -, -, he⟩ | ⟨through, _, target, r₂, _, hthrough, htarget, hrest, he⟩ :=
      registerScopes_cons h
    · cases he
    · cases he
    · obtain ⟨more, rfl, rfl⟩ := map_eq_ok.mp he.symm
      obtain ⟨-, -, -, hresolve⟩ := registerOptional_spec hthrough
      have hgiven : JoinAlias.GivenBy ⟨target, through⟩ r₂ w :=
        ⟨AliasRegistry.resolve?_register htarget, map_resolve?_extend hresolve (AliasRegistry.extends_register htarget)⟩
      have hkeeps := (registerScopes_keeps r₂ rest).1
      rw [hrest] at hkeeps
      exact .cons ⟨rfl, hgiven.extend hkeeps⟩ (ih hrest)

theorem registerScopes_error {scopes : List JoinScopes} {n : NoResult}
    (h : registerScopes r scopes = (.error n, r')) :
    ∃ w ∈ scopes, ∃ scope ∈ w.all, n = .endless scope ∧ r'.Exhausted scope := by
  induction scopes generalizing r with
  | nil => cases h
  | cons w rest ih =>
    obtain ⟨hnone, he, rfl⟩ | ⟨_, -, hnone, he⟩ | ⟨_, _, _, _, _, -, -, hrest, he⟩ := registerScopes_cons h
    · obtain ⟨scope, hscope, hexhausted⟩ := exhausted_of_registerOptional hnone
      rw [hscope] at he
      refine ⟨w, List.mem_cons_self .., scope, ?_, Except.error.inj he, hexhausted⟩
      rw [JoinScopes.all, hscope]
      exact List.mem_append_left _ (List.mem_singleton_self scope)
    · refine ⟨w, List.mem_cons_self .., w.target, ?_, Except.error.inj he, AliasRegistry.exhausted_of_register hnone⟩
      exact List.mem_append_right _ (List.mem_singleton_self w.target)
    · rw [map_eq_error.mp he.symm] at hrest
      obtain ⟨w', hw', hscope⟩ := ih hrest
      exact ⟨w', List.mem_cons_of_mem w hw', hscope⟩

theorem perm_ofPairs {entries : List (String × JoinAlias)} (h : (entries.map (·.1)).Nodup) :
    (NameMap.ofPairs entries).Perm entries := by
  have hordered := NameMap.ordered_ofPairs entries
  refine (List.perm_ext_iff_of_nodup hordered.nodup.of_map h.of_map).mpr fun entry => ?_
  constructor
  · intro hmem
    have hget := NameMap.get?_of_mem hordered.nodup hmem
    rw [NameMap.ofPairs_eq_ofFirst, NameMap.get?_ofFirst] at hget
    exact List.mem_reverse.mp (NameMap.mem_of_get? hget)
  · intro hmem
    exact NameMap.mem_of_get? (NameMap.get?_ofPairs_of_mem h hmem)

theorem AliasPlan.names_uses (p : AliasPlan) (rootTable : String) :
    (p.uses rootTable).map (·.1) = (p.entries.flatMap fun entry => entry.2.names) ++ [rootTable] := by
  unfold AliasPlan.uses JoinAlias.names
  rw [List.map_append, List.map_flatMap]
  simp [Function.comp_def]

theorem names_perm {scopes : List JoinScopes} {entries : List (String × JoinAlias)}
    (h : List.Forall₂ (JoinScopes.GivesEntry r) scopes entries) :
    (entries.flatMap fun entry => entry.2.names).Perm ((scopes.flatMap JoinScopes.all).map r.nameOf) := by
  induction h with
  | nil => exact .refl _
  | cons hw _ ih =>
    rw [List.flatMap_cons, List.flatMap_cons, List.map_append]
    exact hw.given.names_perm.append ih

theorem exists_resolve?_of_registered {scopes : List JoinScopes} {entries : List (String × JoinAlias)}
    (h : List.Forall₂ (JoinScopes.GivesEntry r) scopes entries) :
    ∀ scope ∈ scopes.flatMap JoinScopes.all, ∃ b, r.resolve? scope = some b := by
  intro scope hscope
  obtain ⟨w, hw, hscope⟩ := List.mem_flatMap.mp hscope
  obtain ⟨entry, -, -, hgiven⟩ := exists_of_mem_forall₂ h.flip hw
  exact hgiven.resolved hscope

theorem nodup_names (hr : r.Sound) {scopes : List JoinScopes} {entries : List (String × JoinAlias)}
    (h : List.Forall₂ (JoinScopes.GivesEntry r) scopes entries)
    (hnodup : (scopes.flatMap JoinScopes.all).Nodup) : (entries.flatMap fun entry => entry.2.names).Nodup := by
  refine (names_perm h).nodup_iff.mpr (List.Nodup.map_on (fun scope hscope scope' hscope' hname => ?_) hnodup)
  have hresolved : ∀ scope ∈ scopes.flatMap JoinScopes.all, ∃ b, r.resolve? scope = some b ∧ r.nameOf scope = b.text := by
    intro scope hscope
    obtain ⟨b, hb⟩ := exists_resolve?_of_registered h scope hscope
    exact ⟨b, hb, by rw [AliasRegistry.nameOf, hb]; rfl⟩
  obtain ⟨b, hb, hbname⟩ := hresolved scope hscope
  obtain ⟨b', hb', hbname'⟩ := hresolved scope' hscope'
  rw [hbname, hbname'] at hname
  have halias : b = b' := by
    cases b
    cases b'
    exact congrArg Alias.mk hname
  exact hr.scope_eq hb (halias ▸ hb')

theorem verifyUnique_error {p : AliasPlan} {e : QueryError} (h : p.verifyUnique rootTable = .error e) :
    ∃ name texts, e = .ambiguousAlias name texts ∧ ¬ ((p.uses rootTable).map (·.1)).count name ≤ 1 := by
  unfold AliasPlan.verifyUnique at h
  dsimp only at h
  split at h
  · cases h
  · rename_i name used hfind
    cases h
    refine ⟨name, _, rfl, ?_⟩
    have hlen := List.find?_some hfind
    rw [decide_eq_true_eq] at hlen
    rw [List.count_eq_countP, List.countP_map, List.countP_eq_length_filter]
    exact Nat.not_le.mpr hlen

/-! ### Assigning -/

/-- The table aliases are the ones that the registry keeps for these scopes. -/
def JoinAlias.ScopedBy (a : JoinAlias) (r : AliasRegistry) (target through : AliasScope) : Prop :=
  r.resolve? target = some a.target ∧ ∀ t ∈ a.through, r.resolve? through = some t

/-- What a plan gives to the tables of a statement. -/
structure AliasPlan.NamesTables (p : AliasPlan) (r : AliasRegistry) (s : Schema) (rootTable : String)
    (paths : List ResolvedPath) : Prop where
  /-- Every path but the empty one has aliases, one of them for a linking table just if it ends on one. -/
  entry : ∀ t ∈ paths, t.path.isRoot = false →
    ∃ id a, t.lastHop? = some id ∧ p.get? t.path = some a ∧ a.through.isSome = (s.relation id).isManyToMany
  /-- The aliases and the name of the root table differ. -/
  unique : ((p.uses rootTable).map (·.1)).Nodup
  /-- The aliases of an edge are those of its keeper. The other paths on it have aliases of their own. -/
  keeper : ∀ t ∈ paths, ∀ table relation, t.edge? s = some (table, relation) →
    ∃ k ∈ paths, k.edge? s = some (table, relation) ∧ KeepsEdge s paths k ∧
      ∀ u ∈ paths, u.edge? s = some (table, relation) → ∃ a, p.get? u.path = some a ∧
        if u = k then a.ScopedBy r (.edge table relation) (.through table relation)
        else a.ScopedBy r (.path rootTable u.path.text) (.throughPath rootTable u.path.text)

theorem scopedBy_of_givenBy {a : JoinAlias} {w : JoinScopes} (h : a.GivenBy r w) {many : Bool} {through : AliasScope}
    (hthrough : w.through = if many then some through else none) : a.ScopedBy r w.target through := by
  refine ⟨h.1, fun t ht => ?_⟩
  have hresolved := h.2
  rw [hthrough, Option.mem_def.mp ht] at hresolved
  split at hresolved
  · exact Option.some.inj hresolved
  · cases hresolved

theorem scopedBy_of_byEdge {a : JoinAlias} {e : EdgePath} (h : a.GivenBy r e.byEdge) :
    a.ScopedBy r (.edge e.table e.relation.name) (.through e.table e.relation.name) :=
  scopedBy_of_givenBy h rfl

theorem scopedBy_of_byPath {a : JoinAlias} {e : EdgePath} (h : a.GivenBy r (e.byPath rootTable)) :
    a.ScopedBy r (.path rootTable e.path.text) (.throughPath rootTable e.path.text) :=
  scopedBy_of_givenBy h rfl

theorem exists_lastHop {root : EntityId} {t : ResolvedPath} (h : t.Resolves s root) (ht : t.path.isRoot = false) :
    ∃ id, t.lastHop? = some id := by
  rcases List.eq_nil_or_concat' t.path.segments with hnil | ⟨names, name, hsegments⟩
  · rw [Path.isRoot, hnil] at ht
    cases ht
  · obtain ⟨-, -, id, -, -, hid, -⟩ := h.lastHop hsegments
    exact ⟨id, hid⟩

theorem keys_of_registered {scopes : List JoinScopes} {entries : List (String × JoinAlias)}
    (h : List.Forall₂ (JoinScopes.GivesEntry r) scopes entries) :
    entries.map (·.1) = scopes.map (·.path) := by
  induction h with
  | nil => rfl
  | cons hw _ ih => rw [List.map_cons, List.map_cons, hw.path, ih]

theorem get?_of_mem_neededScopes {entries : List (String × JoinAlias)} {scopes : List JoinScopes}
    (h : List.Forall₂ (JoinScopes.GivesEntry r) scopes entries)
    (hpaths : (scopes.map (·.path)).Nodup) (w : JoinScopes) (hw : w ∈ scopes) :
    ∃ a, (NameMap.ofPairs entries).get? w.path = some a ∧ a.GivenBy r w := by
  obtain ⟨⟨name, a⟩, hentry, hname, hgiven⟩ := exists_of_mem_forall₂ h.flip hw
  dsimp only at hname hgiven
  subst hname
  exact ⟨a, NameMap.get?_ofPairs_of_mem (keys_of_registered h ▸ hpaths) hentry, hgiven⟩

theorem namesTables_of_assign {root : EntityId} {p : AliasPlan} (hres : ∀ t ∈ paths, s.resolve root t.path = .ok t)
    (htext : (paths.map (·.path.text)).Nodup) (h : AliasPlan.assign r s rootTable paths = (.ok p, r')) :
    p.NamesTables r' s rootTable paths := by
  have hnames := namesPaths_of_assign htext h
  obtain ⟨entries, hentries, rfl, -⟩ := assign_eq_ok h
  have hget := get?_of_mem_neededScopes (registerScopes_ok hentries) (nodup_neededScopes_path rootTable htext)
  refine ⟨fun t ht hroot => ?_, hnames.unique, fun t ht table relation hedge => ?_⟩
  · obtain ⟨id, hid⟩ := exists_lastHop (resolve_eq_ok.mp (hres t ht)).2 hroot
    obtain ⟨a, ha, hthrough⟩ := hnames.aliases t ht id hid
    exact ⟨id, a, hid, ha, hthrough⟩
  · obtain ⟨k, hk, hkedge, hkeeps, hscopes⟩ := exists_keeper rootTable htext ht hedge
    refine ⟨k, hk, hkedge, hkeeps, fun u hu huedge => ?_⟩
    obtain ⟨f, hf, hneeded⟩ := hscopes u hu huedge
    obtain ⟨hfedge, hfpath⟩ := edge?_of_ofResolved? hf
    rw [huedge, Option.some.injEq, Prod.mk.injEq] at hfedge
    obtain ⟨a, ha, hgiven⟩ := hget _ hneeded
    refine ⟨a, ?_, ?_⟩
    · rw [AliasPlan.get?, ← hfpath, ← ha]
      split <;> rfl
    · split at hgiven
      · rename_i huk
        rw [if_pos huk, hfedge.1, hfedge.2]
        exact scopedBy_of_byEdge hgiven
      · rename_i huk
        rw [if_neg huk, ← hfpath]
        exact scopedBy_of_byPath hgiven

theorem isPlain_of_assign {p : AliasPlan} (hr : r.Reachable) (h : AliasPlan.assign r s rootTable paths = (.ok p, r'))
    {path : Path} {a : JoinAlias} (ha : p.get? path = some a) : a.target.IsPlain := by
  obtain ⟨entries, hentries, rfl, -⟩ := assign_eq_ok h
  obtain ⟨w, -, hgives⟩ := exists_of_mem_forall₂ (registerScopes_ok hentries) (mem_of_get?_ofPairs ha)
  have hreach := (registerScopes_keeps r (neededScopes s rootTable paths)).2.1 hr
  rw [hentries] at hreach
  exact hreach.isPlain _ (AliasRegistry.mem_of_resolve? hgives.given.1)

/-- Registered aliases differ among each other, so two alike are those of the root table and of a joined one. -/
theorem root_of_ambiguous {e : QueryError} {entries : List (String × JoinAlias)} (hsound : r.Sound)
    (htext : (paths.map (·.path.text)).Nodup)
    (hgiven : List.Forall₂ (JoinScopes.GivesEntry r) (neededScopes s rootTable paths) entries)
    (h : (⟨NameMap.ofPairs entries⟩ : AliasPlan).verifyUnique rootTable = .error e) :
    (∃ texts, e = .ambiguousAlias rootTable texts) ∧
      ∃ scope ∈ (neededScopes s rootTable paths).flatMap JoinScopes.all, r.resolve? scope = some ⟨rootTable⟩ := by
  have hkeys : (entries.map (·.1)).Nodup := keys_of_registered hgiven ▸ nodup_neededScopes_path rootTable htext
  have hperm := (perm_ofPairs hkeys).flatMap_right fun entry => entry.2.names
  have hnodup := hperm.nodup_iff.mpr (nodup_names hsound hgiven (nodup_neededScopes rootTable htext))
  obtain ⟨name, texts, rfl, hcount⟩ := verifyUnique_error h
  rw [AliasPlan.names_uses, List.count_append] at hcount
  dsimp only at hcount
  have hle := List.nodup_iff_count_le_one.mp hnodup name
  -- a name that occurs twice is that of the root table, once as an alias
  have hname : name = rootTable := by
    by_contra hne
    rw [List.count_singleton, if_neg (by simpa using fun h => hne h.symm)] at hcount
    omega
  subst hname
  refine ⟨⟨texts, rfl⟩, ?_⟩
  have hmem : name ∈ (NameMap.ofPairs entries).flatMap fun entry => entry.2.names := by
    rw [List.count_singleton_self] at hcount
    exact List.count_pos_iff.mp (by omega)
  obtain ⟨scope, hscope, hscopename⟩ := List.mem_map.mp ((hperm.trans (names_perm hgiven)).mem_iff.mp hmem)
  obtain ⟨w, hw, hscopew⟩ := List.mem_flatMap.mp hscope
  obtain ⟨entry, -, -, hentry⟩ := exists_of_mem_forall₂ hgiven.flip hw
  obtain ⟨a, ha⟩ := hentry.resolved hscopew
  rw [AliasRegistry.nameOf, ha] at hscopename
  refine ⟨scope, hscope, ?_⟩
  rw [ha, ← hscopename]
  rfl

theorem refused_of_assign {n : NoResult} (hr : r.Reachable) (htext : (paths.map (·.path.text)).Nodup)
    (h : AliasPlan.assign r s rootTable paths = (.error n, r')) :
    ((∃ texts, n = .failed (.ambiguousAlias rootTable texts)) ∧
        ∃ scope ∈ (neededScopes s rootTable paths).flatMap JoinScopes.all, r'.resolve? scope = some ⟨rootTable⟩) ∨
      ∃ scope ∈ (neededScopes s rootTable paths).flatMap JoinScopes.all, n = .endless scope ∧ r'.Exhausted scope := by
  rcases assign_eq_error h with hscopes | ⟨entries, e, hentries, hverify, rfl⟩
  · obtain ⟨w, hw, scope, hscope, he⟩ := registerScopes_error hscopes
    exact .inr ⟨scope, List.mem_flatMap.mpr ⟨w, hw, hscope⟩, he⟩
  · have hreach := (registerScopes_keeps r (neededScopes s rootTable paths)).2.1 hr
    rw [hentries] at hreach
    obtain ⟨⟨texts, rfl⟩, hroot⟩ := root_of_ambiguous hreach.sound htext (registerScopes_ok hentries) hverify
    exact .inl ⟨⟨texts, rfl⟩, hroot⟩

/-- Where a scope has no candidate left, the search for an alias does not end. -/
theorem endless_of_exhausted {result : Except NoResult AliasPlan}
    (h : AliasPlan.assign r s rootTable paths = (result, r')) {scope : AliasScope}
    (hscope : scope ∈ (neededScopes s rootTable paths).flatMap JoinScopes.all) (hexhausted : r'.Exhausted scope) :
    ∃ scope, result = .error (.endless scope) := by
  have hunregistered {entries : List (String × JoinAlias)}
      (hentries : registerScopes r (neededScopes s rootTable paths) = (.ok entries, r')) : False := by
    obtain ⟨b, hb⟩ := exists_resolve?_of_registered (registerScopes_ok hentries) scope hscope
    rw [hexhausted.unregistered] at hb
    cases hb
  rcases result with n | p
  · rcases assign_eq_error h with hscopes | ⟨entries, -, hentries, -⟩
    · obtain ⟨-, -, endless, -, rfl, -⟩ := registerScopes_error hscopes
      exact ⟨endless, rfl⟩
    · exact (hunregistered hentries).elim
  · obtain ⟨entries, hentries, -⟩ := assign_eq_ok h
    exact (hunregistered hentries).elim

/-- Assigning aliases to paths of different texts goes on for ever just when a scope that is needed has no candidate
left. Otherwise it gives a plan that names the tables of the paths, unless an alias that the registry keeps for one of
the tables is the name of the root table. -/
theorem assign_names_tables {registry : AliasRegistry} (hr : registry.Reachable) {root : EntityId}
    (hres : ∀ t ∈ paths, s.resolve root t.path = .ok t) (htext : (paths.map (·.path.text)).Nodup) :
    let rootTable := (s.entity root).table
    let needed := (neededScopes s rootTable paths).flatMap JoinScopes.all
    let outcome := AliasPlan.assign registry s rootTable paths
    ((∃ scope, outcome.1 = .error (.endless scope)) ↔ ∃ scope ∈ needed, outcome.2.Exhausted scope) ∧
      ((∀ scope ∈ needed, ¬outcome.2.Exhausted scope) →
        (∃ p, outcome.1 = .ok p ∧ p.NamesTables outcome.2 s rootTable paths) ∨
          ((∃ texts, outcome.1 = .error (.failed (.ambiguousAlias rootTable texts))) ∧
            ∃ scope ∈ needed, outcome.2.resolve? scope = some ⟨rootTable⟩)) := by
  intro rootTable needed outcome
  rcases houtcome : outcome with ⟨result, registry'⟩
  refine ⟨⟨?_, ?_⟩, fun hfree => ?_⟩
  · rintro ⟨scope, rfl⟩
    rcases refused_of_assign hr htext houtcome with ⟨⟨texts, he⟩, -⟩ | ⟨scope, hscope, -, hexhausted⟩
    · cases he
    · exact ⟨scope, hscope, hexhausted⟩
  · rintro ⟨scope, hscope, hexhausted⟩
    exact endless_of_exhausted houtcome hscope hexhausted
  · rcases result with n | p
    · rcases refused_of_assign hr htext houtcome with ⟨⟨texts, rfl⟩, hroot⟩ | ⟨scope, hscope, -, hexhausted⟩
      · exact .inr ⟨⟨texts, rfl⟩, hroot⟩
      · exact absurd hexhausted (hfree scope hscope)
    · exact .inl ⟨p, rfl, namesTables_of_assign hres htext houtcome⟩

/-- Tasks with a parent task. -/
def taskSchema : Schema :=
  ⟨[⟨"Task", "tasks", "id", [⟨"id", "id", false⟩, ⟨"parent", "parent_id", true⟩]⟩],
   [⟨"parent", .foreignKey "parent", ⟨0⟩, ⟨0⟩, true, false, some "children", ⟨1⟩⟩,
    ⟨"children", .reverseForeignKey "parent", ⟨0⟩, ⟨0⟩, true, true, some "parent", ⟨0⟩⟩]⟩

/-- The parent of the parent comes first, but the parent keeps the edge. -/
def ancestorPaths : List ResolvedPath :=
  [⟨⟨["parent", "parent"]⟩, [⟨0⟩, ⟨0⟩], ⟨0⟩⟩, ⟨⟨["parent"]⟩, [⟨0⟩], ⟨0⟩⟩]

theorem assign_names_ancestors :
    (AliasRegistry.empty 6).Reachable ∧ (∀ t ∈ ancestorPaths, taskSchema.resolve ⟨0⟩ t.path = .ok t) ∧
      (ancestorPaths.map (·.path.text)).Nodup ∧
        let outcome := AliasPlan.assign (.empty 6) taskSchema "tasks" ancestorPaths
        (∀ scope ∈ (neededScopes taskSchema "tasks" ancestorPaths).flatMap JoinScopes.all, ¬outcome.2.Exhausted scope) ∧
          ∃ p, outcome.1 = .ok p ∧ p.NamesTables outcome.2 taskSchema "tasks" ancestorPaths := by
  have hr := AliasRegistry.Reachable.empty 6
  have hres : ∀ t ∈ ancestorPaths, taskSchema.resolve ⟨0⟩ t.path = .ok t := by decide
  have htext : (ancestorPaths.map (·.path.text)).Nodup := by decide
  have hok : (AliasPlan.assign (.empty 6) taskSchema "tasks" ancestorPaths).1.isOk = true := by decide +kernel
  have hregistered : ∀ scope ∈ (neededScopes taskSchema "tasks" ancestorPaths).flatMap JoinScopes.all,
      ((AliasPlan.assign (.empty 6) taskSchema "tasks" ancestorPaths).2.resolve? scope).isSome = true := by
    decide +kernel
  have hfree : ∀ scope ∈ (neededScopes taskSchema "tasks" ancestorPaths).flatMap JoinScopes.all,
      ¬(AliasPlan.assign (.empty 6) taskSchema "tasks" ancestorPaths).2.Exhausted scope := by
    intro scope hscope hexhausted
    have hsome := hregistered scope hscope
    rw [hexhausted.unregistered] at hsome
    cases hsome
  refine ⟨hr, hres, htext, hfree, ?_⟩
  rcases (assign_names_tables hr hres htext).2 hfree with hplan | ⟨⟨texts, he⟩, -⟩
  · exact hplan
  · have hfailed : (AliasPlan.assign (.empty 6) taskSchema "tasks" ancestorPaths).1 =
        .error (.failed (.ambiguousAlias "tasks" texts)) := he
    rw [hfailed] at hok
    cases hok

end RelQuery
