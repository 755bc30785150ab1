import Mathlib.Data.List.Dedup
import RelQuery.Proofs.Engine.Page
import RelQuery.QuerySet

/-!
# Counts

A count is written as a statement of its own: one group, and the distinct primary keys in it. It has the joins and the
conditions of the statement for the instances, and so counts the root rows that this statement shows, each once,
however many joined rows they have.
-/

namespace RelQuery

open Sql

variable {sv : Server} {db : Database} {s : Schema} {p : Prepared}

/-- Where values tell things apart, the distinct values are those of the things without repetitions. -/
theorem distinctValues_map {α : Type} [DecidableEq α] {f : α → Value} {l : List α}
    (h : ∀ a ∈ l, ∀ b ∈ l, sv.same (f a) (f b) = true ↔ a = b) : sv.distinctValues (l.map f) = l.dedup.map f := by
  induction l with
  | nil => rfl
  | cons a rest ih =>
    have hrest := ih fun b hb c hc => h b (List.mem_cons_of_mem _ hb) c (List.mem_cons_of_mem _ hc)
    have hseen : (rest.dedup.map f).any (sv.same (f a)) = true ↔ a ∈ rest := by
      rw [List.any_map, List.any_eq_true]
      constructor
      · rintro ⟨b, hb, hsame⟩
        have hb := List.mem_dedup.mp hb
        rwa [(h a (List.mem_cons_self ..) b (List.mem_cons_of_mem _ hb)).mp hsame]
      · intro ha
        exact ⟨a, List.mem_dedup.mpr ha, (h a (List.mem_cons_self ..) a (List.mem_cons_self ..)).mpr rfl⟩
    have hstep : sv.distinctValues ((a :: rest).map f) =
        if (sv.distinctValues (rest.map f)).any (sv.same (f a)) then sv.distinctValues (rest.map f)
        else f a :: sv.distinctValues (rest.map f) := rfl
    rw [hstep, hrest]
    by_cases ha : a ∈ rest
    · rw [if_pos (hseen.mpr ha), List.dedup_cons_of_mem ha]
    · rw [if_neg fun hany => ha (hseen.mp hany), List.dedup_cons_of_notMem ha, List.map_cons]

theorem length_dedup {α : Type} [DecidableEq α] (l : List α) : l.dedup.length = (distinct l).length :=
  ((List.perm_ext_iff_of_nodup (List.nodup_dedup l) (distinct_nodup l)).mpr fun a => by
    rw [List.mem_dedup, mem_distinct]).length_eq

/-- A query that counts the distinct values of an expression answers their number over the kept tuples, nulls left out,
in whatever order it finds these. -/
theorem answer_countDistinct {q : Query} {e : Expr} {label : String}
    (hselect : q.select = [⟨e.countDistinct, some label⟩]) (hgroup : q.groupBy = []) (hlimit : q.limit = none)
    (hoffset : q.offset = none) :
    ∃ tuples : List Tuple, tuples.Perm (q.kept sv db) ∧ q.answer sv db =
      [[(label, .int (Int64.ofNat
        (sv.distinctValues ((tuples.map fun t => e.value sv db [t]).filter (!·.isNull))).length))]] := by
  refine ⟨sv.arrange q (q.kept sv db), sv.arrange_perm q _, ?_⟩
  have hgroups : q.groups sv ((sv.arrange q (q.kept sv db)).map fun t => (valuesOf sv db [t] q.groupBy, t)) =
      [sv.arrange q (q.kept sv db)] := by
    unfold Query.groups
    rw [hselect, hgroup, List.map_map]
    exact congrArg (fun l => [l]) (List.map_id _)
  have hvalue : (e.countDistinct).value sv db (sv.arrange q (q.kept sv db)) = .int (Int64.ofNat
      (sv.distinctValues (((sv.arrange q (q.kept sv db)).map fun t => e.value sv db [t]).filter (!·.isNull))).length) := by
    change Server.call sv "COUNT" true _ ((sv.arrange q (q.kept sv db)).map fun t => [e.value sv db [t]]) = _
    unfold Server.call
    rw [List.map_map]
    rfl
  rw [answer_eq, hgroups, hselect, hlimit, hoffset]
  change [[(label, (e.countDistinct).value sv db (sv.arrange q (q.kept sv db)))]] = _
  rw [hvalue]

/-- The query of a count answers the number of root rows with a joined row that all filters keep. -/
theorem answer_countQuery (h : p.Named) (hdb : db.Keyed sv p.schema) {q : Query} (hq : p.countQuery = .ok q) :
    q.answer sv db = [[("count", .int (Int64.ofNat (p.matching sv db).length))]] := by
  obtain ⟨joins, hjoins, hq⟩ := bind_eq_ok.mp hq
  obtain ⟨predicates, hpredicates, hq⟩ := bind_eq_ok.mp hq
  cases hq
  obtain ⟨tuples, hperm, hanswer⟩ := @answer_countDistinct sv db
    { Query.empty with
      select := [⟨p.rootKey.countDistinct, some "count"⟩], table := some (.ofTable p.rootTable), joins
      condition := Expr.all? (predicates.map (·.expr)) } p.rootKey "count" rfl rfl rfl rfl
  -- tuples may be found in any order, and so may the root rows in them
  let roots := tuples.map fun t => p.rowOf p.bound.resolved t .root
  have hroots : roots.Perm ((p.keptRows sv db).map fun row => row .root) := by
    rw [← map_rowOf_kept h hjoins hpredicates, List.map_map]
    exact hperm.map _
  have hof : ∀ r ∈ roots, r ∈ db.of p.schema p.request.root := by
    intro r hr
    obtain ⟨row, hrow, rfl⟩ := List.mem_map.mp (hroots.mem_iff.mp hr)
    exact (fits_of_mem_keptRows h hrow).root
  have hkeys : (tuples.map fun t => p.rootKey.value sv db [t]) = roots.map p.rootEntity.key := by
    rw [List.map_map]
    exact List.map_congr_left fun t _ => value_rootKey h t []
  have hkeyed : ∀ r ∈ roots, p.rootEntity.key r ≠ .null := fun r hr => hdb.keyed _ h.root r (hof r hr)
  have hnulls : (roots.map p.rootEntity.key).filter (!·.isNull) = roots.map p.rootEntity.key := by
    refine List.filter_eq_self.mpr (List.forall_mem_map.mpr fun r hr => ?_)
    rw [Bool.not_eq_true']
    exact Bool.eq_false_iff.mpr fun hnull => hkeyed r hr (Value.isNull_eq_true.mp hnull)
  have hvalues := @distinctValues_map sv _ _ p.rootEntity.key roots fun a ha b hb =>
    same_key_iff h hdb (hof a ha) (hof b hb)
  rw [hanswer, hkeys, hnulls, hvalues, List.length_map, length_dedup, (perm_distinct hroots).length_eq]
  rfl

/-- Which tables a prepared request joins does not depend on the aliases that were registered before. -/
theorem pathsDiffer_of_prepare {r : Request} {registry registry' other other' : AliasRegistry} {p' : Prepared}
    (h : r.prepare s registry = (.ok p, registry')) (h' : r.prepare s other = (.ok p', other'))
    (hdiffer : p.PathsDiffer) : p'.bound = p.bound ∧ p'.PathsDiffer := by
  have hbound : p'.bound = p.bound := Except.ok.inj ((bind_of_prepare h').symm.trans (bind_of_prepare h))
  unfold Prepared.PathsDiffer at hdiffer ⊢
  exact ⟨hbound, hbound ▸ hdiffer⟩

theorem matching_congr {p' : Prepared} (hschema : p'.schema = p.schema) (hroot : p'.request.root = p.request.root)
    (hbound : p'.bound = p.bound) : p'.matching sv db = p.matching sv db := by
  unfold Prepared.matching Prepared.keptRows Prepared.joinedRows Prepared.keeps
  rw [hschema, hroot, hbound]

theorem length_allInstances {r : Request} {registry : AliasRegistry} (h : Answerable s r registry p)
    (hdb : db.Sound sv p.schema) {tree : JoinTree} (ht : p.tree = .ok tree) :
    (p.allInstances sv db tree).length = (p.matching sv db).length := by
  rw [← List.length_map (fun i => Instance.key p.schema i), map_key_allInstances h.named hdb h.from_ ht (h.selects_key ht),
    List.length_map, (perm_rootsInOrder p sv db).length_eq]

/-- The count of a request that is planned is the number of instances that the request has without bounds, whatever
its filters, orderings, joined paths and bounds, under all settings and under the aliases of either statement. -/
theorem count_eq_length_all {entities : List EntityDecl} {relations : List RelationDecl}
    (hs : Schema.build entities relations = .ok s) {r : Request} (hroot : r.root.index < s.entities.length)
    (hprojection : r.projection = .empty) {registry registry' : AliasRegistry} {settings : Settings}
    {planned : PlannedQuery} (hplan : r.plan s settings registry = (.ok planned, registry'))
    (hlabels : (planned.query.select.map (·.label)).Nodup) (hnames : (planned.query.tables.map (·.name?)).Nodup)
    (sv : Server) {db : Database} (hdb : db.Sound sv s) :
    ∃ all : List Instance,
      (∀ settings', (db.engine sv s settings').fetched (r.withBounds none none) registry = .ok all) ∧
      (∃ q, r.planCount s registry = (.ok q, registry')) ∧
      ∀ other other' q, r.planCount s other = (.ok q, other') →
        q.answer sv db = [[("count", .int (Int64.ofNat all.length))]] ∧
        (all.length < 2 ^ 63 → QuerySet.countIn ((q.answer sv db).map NameMap.ofPairs) = all.length) := by
  obtain ⟨p, hp, hok, h, hjoins⟩ := answerable_of_plan (wellFormed_build hs) hroot hprojection hplan hlabels hnames
  obtain ⟨_, predicates, _, htree, -, hpredicates, -⟩ := plan_eq_ok hok
  have hschema := h.schema_eq
  subst hschema
  refine ⟨p.allInstances sv db planned.tree, fun settings' => ?_, ?_, fun other other' q hq => ?_⟩
  · exact fetched_unbounded (h.withBounds none none) hdb rfl htree settings'
  · unfold Request.planCount
    rw [hp]
    have hcount : p.countQuery = .ok _ :=
      bind_eq_ok.mpr ⟨_, hjoins, bind_eq_ok.mpr ⟨predicates, hpredicates, rfl⟩⟩
    exact ⟨_, congrArg (·, registry') (NoResult.lift_eq_ok.mpr hcount)⟩
  · unfold Request.planCount at hq
    split at hq
    · cases hq
    · rename_i p' _ hp'
      obtain ⟨hcount, rfl⟩ := Prod.mk.inj hq
      obtain ⟨hbound, hdiffer⟩ := pathsDiffer_of_prepare hp hp' h.differ
      have hfrom := preparedFrom_of_prepare hp'
      have hnamed := named_of_prepare h.schema hroot hp' hdiffer
      have hanswer := answer_countQuery hnamed (hfrom.schema ▸ hdb.keys) (NoResult.lift_eq_ok.mp hcount)
      rw [matching_congr hfrom.schema (by rw [hfrom.request, h.request_eq]) hbound, ← length_allInstances h hdb htree]
        at hanswer
      refine ⟨hanswer, fun hsmall => ?_⟩
      rw [hanswer]
      change (Int64.ofNat (p.allInstances sv db planned.tree).length).toInt.toNat = _
      rw [Int64.toInt_ofNat_of_lt hsmall, Int.toNat_natCast]

/-- The second book has two tags of the name, and yet counts once; the limit does not count. -/
theorem count_eq_length_all_tagged :
    Schema.build taggedEntities taggedRelations = .ok taggedSchema ∧
      taggedRequest.root.index < taggedSchema.entities.length ∧ taggedRequest.projection = .empty ∧
      ∃ planned registry',
        taggedRequest.plan taggedSchema {} taggedRegistry = (.ok planned, registry') ∧
          (planned.query.select.map (·.label)).Nodup ∧ (planned.query.tables.map (·.name?)).Nodup ∧
          taggedDatabase.Sound .plain taggedSchema ∧
          ∃ q, taggedRequest.planCount taggedSchema taggedRegistry = (.ok q, registry') ∧
            q.answer .plain taggedDatabase = [[("count", .int 3)]] := by
  have hbuild : Schema.build taggedEntities taggedRelations = .ok taggedSchema := by rfl
  have hroot : taggedRequest.root.index < taggedSchema.entities.length := by decide
  obtain ⟨planned, hpair, hlabels, hnames⟩ := @exists_plan_of_names taggedSchema taggedRequest {} taggedRegistry
    [some "id", some "title", some "b00c5a_id", some "b00c5a_name"] [some "books", some "5c1a2e", some "b00c5a"]
    (by rfl) (by decide) (by decide)
  obtain ⟨all, hall, ⟨q, hcount⟩, hanswers⟩ :=
    count_eq_length_all hbuild hroot rfl hpair hlabels hnames .plain sound_taggedDatabase
  have hlength : ((taggedDatabase.engine .plain taggedSchema {}).fetched (taggedRequest.withBounds none none)
      taggedRegistry).map List.length = .ok 3 := by decide +kernel
  have hthree : all.length = 3 := by
    rw [hall] at hlength
    exact Except.ok.inj hlength
  have hanswer := (hanswers _ _ q hcount).1
  rw [hthree] at hanswer
  exact ⟨hbuild, hroot, rfl, planned, _, hpair, hlabels, hnames, sound_taggedDatabase, q, hcount, hanswer⟩

end RelQuery
