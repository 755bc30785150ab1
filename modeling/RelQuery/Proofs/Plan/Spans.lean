import RelQuery.Proofs.Join.Exchange
import RelQuery.Proofs.Plan.Page

/-!
# First appearances among joined rows

Where filters and orderings read the root alone, statements sort the joined rows of a root row by primary keys, path by
path. So of the joined rows that agree on a path, whatever is joined next to it or further on, the rows one relation
further first appear in the order of their primary keys.
-/

namespace RelQuery

open Sql

variable {sv : Server} {db : Database} {p : Prepared}

/-- Filters and orderings read the root alone. -/
structure Prepared.ReadsRoot (p : Prepared) : Prop where
  filters : ∀ f ∈ p.bound.filters, f.isRootOnly = true
  orders : ∀ o ∈ p.bound.orders, o.path.isRoot = true

theorem foldl_addSortColumn {s : Schema} {resolved : List ResolvedPath} {columns : List SortColumn}
    (hnew : ∀ r ∈ resolved, ∀ c ∈ columns, c.path ≠ r.path) (hnodup : (resolved.map (·.path)).Nodup) :
    resolved.foldl (fun columns r => addSortColumn columns r.path (s.entity r.target).pkColumn.dbName) columns =
      columns ++ resolved.map fun r => ⟨r.path, (s.entity r.target).pkColumn.dbName, .asc⟩ := by
  induction resolved generalizing columns with
  | nil => exact (List.append_nil _).symm
  | cons r rest ih =>
    rw [List.map_cons, List.nodup_cons] at hnodup
    have hadd : addSortColumn columns r.path (s.entity r.target).pkColumn.dbName =
        columns ++ [⟨r.path, (s.entity r.target).pkColumn.dbName, .asc⟩] := by
      refine if_neg fun hany => ?_
      obtain ⟨c, hc, he⟩ := List.any_eq_true.mp hany
      exact hnew r (List.mem_cons_self ..) c hc (eq_of_beq (Bool.and_eq_true_iff.mp he).1)
    rw [List.foldl_cons, hadd, ih ?_ hnodup.2, List.append_assoc]
    · rfl
    · intro t ht c hc
      rcases List.mem_append.mp hc with hc | hc
      · exact hnew t (List.mem_cons_of_mem _ ht) c hc
      · rw [List.mem_singleton.mp hc]
        intro he
        rw [show r.path = t.path from he] at hnodup
        exact hnodup.1 (List.mem_map_of_mem ht)

/-- Rows are sorted as root rows are, and then by the primary keys at the joined paths. -/
theorem rowSort_eq (h : p.Named) (hroot : p.ReadsRoot) :
    p.rowSort = p.rootSort ++
      p.bound.resolved.map fun r => ⟨r.path, (p.schema.entity r.target).pkColumn.dbName, .asc⟩ := by
  refine foldl_addSortColumn (fun r hr c hc he => ?_) h.bound.joined.nodup
  exact h.bound.joined.ne_root r hr (he ▸ Path.isRoot_iff.mp (path_of_mem_rootSort hroot.orders hc))

/-- Lists in order are in order by a value before which there is no difference. -/
theorem rank_isLE_of_compareKeys {before after : List SortColumn} {c : SortColumn} {f g : SortColumn → Value}
    (hsame : ∀ b ∈ before, f b = g b)
    (h : (sv.compareKeys ((before ++ c :: after).map (·.dir)) ((before ++ c :: after).map f)
      ((before ++ c :: after).map g)).isLE = true) : (sv.rank c.dir (f c) (g c)).isLE = true := by
  induction before with
  | nil =>
    simp only [List.nil_append, List.map_cons, Server.compareKeys, List.headD_cons, List.tail_cons] at h
    exact (Ordering.isLE_then_iff_and.mp h).1
  | cons b rest ih =>
    obtain ⟨hb, hrest⟩ := List.forall_mem_cons.mp hsame
    refine ih hrest ?_
    have hself : sv.rank b.dir (g b) (g b) = .eq := Std.ReflCmp.compare_self
    simp only [List.cons_append, List.map_cons, Server.compareKeys, List.headD_cons, List.tail_cons, hb, hself,
      Ordering.then] at h
    exact h

/-- Where rows differ at a path and further on only, the order of the statement is that of the primary keys there. -/
theorem compare_key_isLE (h : p.Named) (hroot : p.ReadsRoot) {r : ResolvedPath} (hr : r ∈ p.bound.resolved)
    {row row' : Joined} (hsame : ∀ path : Path, ¬r.path.segments <+: path.segments → row path = row' path)
    (hle : (sv.compareKeys (p.rowSort.map (·.dir)) (row.sortKey p.rowSort) (row'.sortKey p.rowSort)).isLE = true) :
    (sv.rank .asc ((p.schema.entity r.target).key (row r.path))
      ((p.schema.entity r.target).key (row' r.path))).isLE = true := by
  obtain ⟨before, after, hsplit⟩ := List.append_of_mem hr
  have hjoined := h.bound.joined
  have hrowSort := rowSort_eq h hroot
  rw [hsplit, List.map_append, List.map_cons, ← List.append_assoc] at hrowSort
  rw [hrowSort] at hle
  have hlength : r.path.segments ≠ [] := fun he => hjoined.ne_root r hr (congrArg Path.mk he)
  refine @rank_isLE_of_compareKeys sv _ _ ⟨r.path, (p.schema.entity r.target).pkColumn.dbName, .asc⟩
    (fun c => row.value c.path c.column) (fun c => row'.value c.path c.column) (fun c hc => ?_) hle
  have hpath : ¬r.path.segments <+: c.path.segments := by
    rcases List.mem_append.mp hc with hc | hc
    · rw [Path.isRoot_iff.mp (path_of_mem_rootSort hroot.orders hc)]
      exact fun hpre => hlength (List.prefix_nil.mp hpre)
    · obtain ⟨t, ht, rfl⟩ := List.mem_map.mp hc
      -- what is joined earlier is no longer, so it can only go on from the path by being the path
      have hshorter := hjoined.shorterFirst
      have hnodup := hjoined.nodup
      rw [hsplit, List.pairwise_append] at hshorter
      rw [hsplit, List.map_append, List.map_cons, List.nodup_append] at hnodup
      intro hpre
      have hle := hshorter.2.2 t ht r (List.mem_cons_self ..)
      have he : r.path.segments = t.path.segments := hpre.eq_of_length_le hle
      exact hnodup.2.2 _ (List.mem_map_of_mem ht) _ (List.mem_cons_self ..) (congrArg Path.mk he.symm)
  change (row c.path).at_ c.column = (row' c.path).at_ c.column
  rw [hsame c.path hpath]

/-- The rows that filters keep and that agree with one of them on a path, in the order of the statement. -/
structure Prepared.Spans (p : Prepared) (sv : Server) (db : Database) (path : Path) (sample : Joined)
    (rows : List Joined) : Prop where
  sample_mem : sample ∈ p.keptRows sv db
  sorted : rows.Pairwise fun a b =>
    (sv.compareKeys (p.rowSort.map (·.dir)) (a.sortKey p.rowSort) (b.sortKey p.rowSort)).isLE = true
  mem_iff : ∀ row, row ∈ rows ↔
    row ∈ p.keptRows sv db ∧ ∀ other : Path, other.segments <+: path.segments → row other = sample other

theorem spans_root {sample : Joined} (hsample : sample ∈ p.keptRows sv db) :
    p.Spans sv db .root sample
      ((p.sortRows sv (p.keptRows sv db)).filter fun row => row .root = sample .root) where
  sample_mem := hsample
  sorted := (pairwise_sortRows p sv _).filter _
  mem_iff row := by
    rw [List.mem_filter, mem_sortRows, decide_eq_true_iff]
    refine and_congr_right fun _ => ⟨fun hroot other hother => ?_, fun hall => hall .root List.prefix_rfl⟩
    have hother' : other = .root := congrArg Path.mk (List.prefix_nil.mp hother)
    rw [hother', hroot]

theorem Prepared.Spans.narrow {path : Path} {sample : Joined} {rows : List Joined} (h : p.Spans sv db path sample rows)
    {sample' : Joined} (hsample' : sample' ∈ rows) (name : String) :
    p.Spans sv db (path.child name) sample'
      (rows.filter fun row => row (path.child name) = sample' (path.child name)) where
  sample_mem := ((h.mem_iff sample').mp hsample').1
  sorted := h.sorted.filter _
  mem_iff row := by
    have hsame := ((h.mem_iff sample').mp hsample').2
    rw [List.mem_filter, h.mem_iff, decide_eq_true_iff, and_assoc]
    refine and_congr_right fun _ => ⟨fun ⟨hbefore, hhere⟩ other hother => ?_, fun hall => ⟨fun other hother => ?_, ?_⟩⟩
    · rcases List.prefix_concat_iff.mp hother with he | hpre
      · rw [show other = path.child name from congrArg Path.mk he, hhere]
      · rw [hbefore other hpre, hsame other hpre]
    · rw [hall other (hother.trans (List.prefix_append _ _)), hsame other hother]
    · exact hall _ List.prefix_rfl

theorem Prepared.Named.relation_mem (h : p.Named) {r : ResolvedPath} (hr : r ∈ p.bound.resolved) :
    r.relation p.schema ∈ p.schema.relations ∧ r.target = (r.relation p.schema).target := by
  obtain ⟨_, rel, hop⟩ := h.exists_hop hr
  have hrelation : r.relation p.schema = rel := hop.relation
  rw [hrelation]
  exact ⟨hop.mem, hop.target⟩

/-- Where filters read the root alone, they keep a row when another is exchanged for one in it. -/
theorem exists_exchange_kept (h : p.Named) (hroot : p.ReadsRoot) {row : Joined} (hrow : row ∈ p.keptRows sv db)
    {r : ResolvedPath} (hr : r ∈ p.bound.resolved) {found : Record}
    (hfound : found ∈ (r.relation p.schema).follow sv db p.schema (row r.parent)) :
    ∃ row' ∈ p.keptRows sv db, row' r.path = found ∧
      ∀ path : Path, ¬r.path.segments <+: path.segments → row' path = row path := by
  obtain ⟨hjoined, hkeeps⟩ := List.mem_filter.mp hrow
  obtain ⟨hof, hstart⟩ := (mem_joinedRows_at h).mp ⟨hjoined, rfl⟩
  obtain ⟨row', hrow', hhere, hsame⟩ := exists_exchange h.bound.joined hstart hr hfound
  have hlength : ¬r.path.segments <+: Path.root.segments := fun hpre =>
    Path.ne_root_of_prefix hpre (h.bound.joined.ne_root r hr) rfl
  have hjoined' := ((mem_joinedRows_at h).mpr ⟨hof, hrow'⟩).1
  refine ⟨row', List.mem_filter.mpr ⟨hjoined', ?_⟩, hhere, hsame⟩
  refine List.all_eq_true.mpr fun f hf => ?_
  rw [keeps_congr (hroot.filters f hf) (hsame .root hlength)]
  exact List.all_eq_true.mp hkeeps f hf

/-- One relation further, the rows show just what the relation leads to. -/
theorem Prepared.Spans.exists_iff (h : p.Named) (hroot : p.ReadsRoot) {r : ResolvedPath} {sample : Joined}
    {rows : List Joined} (hspans : p.Spans sv db r.parent sample rows) (hr : r ∈ p.bound.resolved) {t : Record} :
    (∃ row ∈ rows, row r.path = t) ↔ t ∈ (r.relation p.schema).follow sv db p.schema (sample r.parent) := by
  constructor
  · rintro ⟨row, hrow, rfl⟩
    obtain ⟨hkept, hsame⟩ := (hspans.mem_iff row).mp hrow
    obtain ⟨-, hstart⟩ := (mem_joinedRows_at h).mp ⟨(List.mem_filter.mp hkept).1, rfl⟩
    have hfound := ((mem_joinPaths_iff h.bound.joined.parentsFirst).mp hstart).1 r hr
    rwa [hsame r.parent List.prefix_rfl] at hfound
  · intro ht
    obtain ⟨row', hrow', hhere, hsame⟩ := exists_exchange_kept h hroot hspans.sample_mem hr ht
    have hshorter := not_prefix_parent (h.bound.joined.ne_root r hr)
    exact ⟨row', (hspans.mem_iff row').mpr
      ⟨hrow', fun other hother => hsame other fun hpre => hshorter (hpre.trans hother)⟩, hhere⟩

/-- One relation further, the rows first appear in the order of their primary keys. -/
theorem firsts_of_spans (h : p.Named) (hdb : db.Sound sv p.schema) (hroot : p.ReadsRoot) {path : Path} {sample : Joined}
    {rows : List Joined} (hspans : p.Spans sv db path sample rows) {r : ResolvedPath} (hr : r ∈ p.bound.resolved)
    (hparent : r.parent = path) :
    ((distinct (rows.map (· r.path))).filter fun t => !((p.schema.entity r.target).key t).isNull) =
      (r.relation p.schema).rowsOf sv db p.schema (sample path) := by
  subst hparent
  obtain ⟨hmem, htarget⟩ := h.relation_mem hr
  rw [htarget]
  refine eq_rowsOf h.schema hdb hmem ((distinct_nodup _).filter _) (fun t => ?_) ?_
  · rw [← mem_follow_iff h.schema hdb hmem, List.mem_filter, mem_distinct, List.mem_map,
      hspans.exists_iff h hroot hr, Bool.not_eq_true', ← Bool.not_eq_true, Value.isNull_eq_true]
  · refine ((pairwise_distinct_map hspans.sorted).filter _).imp_of_mem fun {a b} ha hb ⟨row, hrow, hhere, hfirst⟩ => ?_
    obtain ⟨-, hanull⟩ := List.mem_filter.mp ha
    obtain ⟨hbmem, hbnull⟩ := List.mem_filter.mp hb
    -- the first row with `a` comes no later than the one that has `b` in its place
    obtain ⟨hkept, hsame⟩ := (hspans.mem_iff row).mp hrow
    have hbfound := (hspans.exists_iff h hroot hr).mp (List.mem_map.mp (mem_distinct.mp hbmem))
    rw [← hsame r.parent List.prefix_rfl] at hbfound
    obtain ⟨row', hrow', hhere', hsame'⟩ := exists_exchange_kept h hroot hkept hr hbfound
    have hshorter := not_prefix_parent (h.bound.joined.ne_root r hr)
    have hrow'mem : row' ∈ rows := (hspans.mem_iff row').mpr ⟨hrow', fun other hother => by
      rw [hsame' other fun hpre => hshorter (hpre.trans hother), hsame other hother]⟩
    have hle := compare_key_isLE h hroot hr (fun other hother => (hsame' other hother).symm)
      (hfirst row' hrow'mem hhere')
    rw [hhere, hhere', htarget] at hle
    rw [Bool.not_eq_true'] at hanull hbnull
    unfold Server.rank at hle
    rwa [hanull, hbnull] at hle

end RelQuery
