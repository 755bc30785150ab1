import Mathlib.Data.List.Perm.Basic
import RelQuery.Proofs.Plan.Replay

/-!
# Aliases and the order of paths

Where every edge has one shortest path, the order of the paths does not decide which path keeps the edge. A statement
then needs the same scopes, in another order perhaps, and once it has its aliases, the same paths in any order get the
same plan.
-/

namespace RelQuery

variable {s : Schema} {rootTable : String} {paths paths' : List ResolvedPath} {r r' : AliasRegistry}

/-- On every edge one path is shorter than all others that end there. -/
def UniquelyShortest (s : Schema) (paths : List ResolvedPath) : Prop :=
  ∀ t ∈ paths, (t.edge? s).isSome →
    ∃ k ∈ paths, k.edge? s = t.edge? s ∧
      ∀ u ∈ paths, u.edge? s = t.edge? s → u ≠ k → k.path.length < u.path.length

instance (s : Schema) (paths : List ResolvedPath) : Decidable (UniquelyShortest s paths) :=
  inferInstanceAs (Decidable (∀ _ ∈ paths, _ → ∃ _ ∈ paths, _ ∧ ∀ _ ∈ paths, _ → _ → _))

theorem UniquelyShortest.perm (h : UniquelyShortest s paths) (hperm : paths'.Perm paths) :
    UniquelyShortest s paths' := by
  intro t ht hedge
  obtain ⟨k, hk, hkedge, hshorter⟩ := h t (hperm.mem_iff.mp ht) hedge
  exact ⟨k, hperm.mem_iff.mpr hk, hkedge, fun u hu => hshorter u (hperm.mem_iff.mp hu)⟩

theorem KeepsEdge.length_le {k : ResolvedPath} (h : KeepsEdge s paths k) :
    ∀ u ∈ paths, u.edge? s = k.edge? s → k.path.length ≤ u.path.length := by
  obtain ⟨before, after, rfl, hbefore, hafter⟩ := h
  intro u hu hedge
  rcases List.mem_append.mp hu with hu | hu
  · exact (hbefore u hu hedge).le
  · rcases List.mem_cons.mp hu with rfl | hu
    · exact le_rfl
    · exact hafter u hu hedge

/-- The shortest path is the keeper in every order of the paths. -/
theorem UniquelyShortest.keeper_eq (h : UniquelyShortest s paths) (hperm : paths'.Perm paths) {k k' : ResolvedPath}
    (hk : k ∈ paths) (hk' : k' ∈ paths') (hedge : (k.edge? s).isSome) (hsame : k'.edge? s = k.edge? s)
    (hkeeps : KeepsEdge s paths k) (hkeeps' : KeepsEdge s paths' k') : k' = k := by
  obtain ⟨m, hm, hmedge, hshorter⟩ := h k hk hedge
  have hkm : k = m := by
    by_contra hne
    have hlt := hshorter k hk rfl hne
    exact absurd (hkeeps.length_le m hm hmedge) (Nat.not_le.mpr hlt)
  have hkm' : k' = m := by
    by_contra hne
    have hlt := hshorter k' (hperm.mem_iff.mp hk') hsame hne
    exact absurd (hkeeps'.length_le m (hperm.mem_iff.mpr hm) (hmedge.trans hsame.symm)) (Nat.not_le.mpr hlt)
  exact hkm'.trans hkm.symm

theorem neededScopes_subset (htext : (paths.map (·.path.text)).Nodup) (hshortest : UniquelyShortest s paths)
    (hperm : paths'.Perm paths) : neededScopes s rootTable paths ⊆ neededScopes s rootTable paths' := by
  intro w hw
  have htext' : (paths'.map (·.path.text)).Nodup := (hperm.map _).nodup_iff.mpr htext
  obtain ⟨t, ht, id, hid, hpath, -⟩ := mem_neededScopes hw
  have hedge : t.edge? s = some ((s.entity (s.relation id).owner).table, (s.relation id).name) := by
    rw [ResolvedPath.edge?, hid]
    rfl
  have ht' : t ∈ paths' := hperm.mem_iff.mpr ht
  obtain ⟨k, hk, hkedge, hkeeps, hneeded⟩ := exists_keeper rootTable htext ht hedge
  obtain ⟨k', hk', hkedge', hkeeps', hneeded'⟩ := exists_keeper rootTable htext' ht' hedge
  -- both orders name the path by the same edge, and have the same keeper there
  obtain rfl : k' = k :=
    hshortest.keeper_eq hperm hk hk' (hkedge ▸ rfl) (hkedge'.trans hkedge.symm) hkeeps hkeeps'
  obtain ⟨e, he, hmem⟩ := hneeded t ht hedge
  obtain ⟨e', he', hmem'⟩ := hneeded' t ht' hedge
  obtain rfl : e = e' := Option.some.inj (he.symm.trans he')
  have hsame : w = if t = k' then e.byEdge else e.byPath rootTable := by
    refine List.inj_on_of_nodup_map (nodup_neededScopes_path rootTable htext) hw hmem ?_
    rw [hpath, ← (edge?_of_ofResolved? he).2]
    split <;> rfl
  rwa [hsame]

theorem neededScopes_perm (htext : (paths.map (·.path.text)).Nodup) (hshortest : UniquelyShortest s paths)
    (hperm : paths'.Perm paths) : (neededScopes s rootTable paths').Perm (neededScopes s rootTable paths) := by
  have htext' : (paths'.map (·.path.text)).Nodup := (hperm.map _).nodup_iff.mpr htext
  refine (List.perm_ext_iff_of_nodup (nodup_neededScopes_path rootTable htext').of_map
    (nodup_neededScopes_path rootTable htext).of_map).mpr fun w => ⟨fun hw => ?_, fun hw => ?_⟩
  · exact neededScopes_subset htext' (hshortest.perm hperm) hperm.symm hw
  · exact neededScopes_subset htext hshortest hperm hw

theorem ofPairs_perm {entries entries' : List (String × JoinAlias)} (h : (entries.map (·.1)).Nodup)
    (hperm : entries'.Perm entries) : NameMap.ofPairs entries' = NameMap.ofPairs entries := by
  have hsame : (NameMap.ofPairs entries').Perm (NameMap.ofPairs entries) :=
    ((perm_ofPairs ((hperm.map _).nodup_iff.mpr h)).trans hperm).trans (perm_ofPairs h).symm
  refine NameMap.ordered_ext (NameMap.ordered_ofPairs _) (NameMap.ordered_ofPairs _) fun name => ?_
  refine Option.ext fun a => ?_
  rw [(NameMap.ordered_ofPairs _).get?_eq_some_iff, (NameMap.ordered_ofPairs _).get?_eq_some_iff, hsame.mem_iff]

/-- Paths that have their aliases get them again in any order, from the registry as it is by then: no alias is added,
and the plans are equal. -/
theorem assign_of_perm {p : AliasPlan} {later : AliasRegistry} (htext : (paths.map (·.path.text)).Nodup)
    (hshortest : UniquelyShortest s paths) (h : AliasPlan.assign r s rootTable paths = (.ok p, r'))
    (hperm : paths'.Perm paths) (hext : r'.Extends later) :
    AliasPlan.assign later s rootTable paths' = (.ok p, later) := by
  obtain ⟨entries, hentries, rfl, hunique⟩ := assign_eq_ok h
  have hgiven : List.Forall₂ (JoinScopes.GivesEntry later) (neededScopes s rootTable paths) entries :=
    (registerScopes_ok hentries).imp fun _ _ hw => hw.extend hext
  have hkeys : (entries.map (·.1)).Nodup :=
    keys_of_registered hgiven ▸ nodup_neededScopes_path rootTable htext
  have hscopes : (neededScopes s rootTable paths').Perm (neededScopes s rootTable paths) :=
    neededScopes_perm htext hshortest hperm
  obtain ⟨entries', hgiven', hentries'⟩ := List.perm_comp_forall₂ hscopes hgiven
  have hplan : NameMap.ofPairs entries' = NameMap.ofPairs entries := ofPairs_perm hkeys hentries'
  unfold AliasPlan.assign
  rw [registerScopes_of_givesEntry hgiven']
  dsimp only
  rw [hplan, hunique]

/-- Books by tags by books by tags: two edges with two paths each. -/
def alternatingPaths : List ResolvedPath :=
  [⟨⟨["tags"]⟩, [⟨0⟩], ⟨1⟩⟩, ⟨⟨["tags", "books"]⟩, [⟨0⟩, ⟨1⟩], ⟨0⟩⟩,
    ⟨⟨["tags", "books", "tags"]⟩, [⟨0⟩, ⟨1⟩, ⟨0⟩], ⟨1⟩⟩,
    ⟨⟨["tags", "books", "tags", "books"]⟩, [⟨0⟩, ⟨1⟩, ⟨0⟩, ⟨1⟩], ⟨0⟩⟩]

theorem assign_of_perm_alternating :
    (∀ t ∈ alternatingPaths, taggedSchema.resolve ⟨0⟩ t.path = .ok t) ∧
      (alternatingPaths.map (·.path.text)).Nodup ∧ UniquelyShortest taggedSchema alternatingPaths ∧
      alternatingPaths.reverse ≠ alternatingPaths ∧
      ∃ p registry, AliasPlan.assign (.empty 4) taggedSchema "books" alternatingPaths = (.ok p, registry) ∧
        p.size = 4 ∧
        AliasPlan.assign registry taggedSchema "books" alternatingPaths.reverse = (.ok p, registry) := by
  have hres : ∀ t ∈ alternatingPaths, taggedSchema.resolve ⟨0⟩ t.path = .ok t := by decide
  have htext : (alternatingPaths.map (·.path.text)).Nodup := by decide
  have hshortest : UniquelyShortest taggedSchema alternatingPaths := by decide
  have hplan : (AliasPlan.assign (.empty 4) taggedSchema "books" alternatingPaths).1.map (·.size) = .ok 4 := by
    decide +kernel
  rcases hassign : AliasPlan.assign (.empty 4) taggedSchema "books" alternatingPaths with ⟨planned, registry⟩
  rw [hassign] at hplan
  obtain ⟨p, rfl, hsize⟩ := map_eq_ok.mp hplan
  exact ⟨hres, htext, hshortest, by decide, p, registry, rfl, hsize,
    assign_of_perm htext hshortest hassign (List.reverse_perm _) (.refl _)⟩

end RelQuery
