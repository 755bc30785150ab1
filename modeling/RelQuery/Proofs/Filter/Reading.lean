import RelQuery.Proofs.Filter.Bound
import RelQuery.Proofs.Sql.Reading

/-!
# Reading filters back

The text of a compiled filter has one reading as a condition, and its truth in three-valued logic is that of the filter.
The same holds of the conjunctions of compiled filters that statements select their rows by.
-/

namespace RelQuery

open Sql

variable {aliases : AliasPlan} {root : String} {v : List Token → Option Bool} {d : Dialect}

/-- What a condition compiles to is read as a comparison. -/
theorem compares_comparison? {c : BoundCond} {column e : Expr} (hcolumn : column.Compares d)
    (h : c.comparison? column = some e) : e.Compares d ∧ e.level = .negated := by
  have hparam (v : Value) : (Expr.param v).Compares d := compares_param v
  unfold BoundCond.comparison? at h
  split at h
  · split at h <;> cases h
    · exact ⟨compares_isNull hcolumn _, rfl⟩
    · exact ⟨compares_binary rfl hcolumn (hparam _), rfl⟩
  · split at h <;> cases h
    · exact ⟨compares_isNull hcolumn _, rfl⟩
    · exact ⟨compares_binary rfl hcolumn.lowered (hparam _).lowered, rfl⟩
  · cases h
    exact ⟨compares_isNull hcolumn _, rfl⟩
  · cases h
    exact ⟨compares_inList hcolumn _ _, rfl⟩
  iterate 4
    cases h
    exact ⟨compares_binary rfl hcolumn (hparam _), rfl⟩
  · split at h <;> cases h
    exact ⟨compares_like hcolumn (hparam _) _ _ _, rfl⟩
  · cases h

namespace BoundFilter

mutual

/-- The truth of a filter in three-valued logic, when its conditions have the given truth. -/
def truthOf (v : BoundCond → Option Bool) : BoundFilter → Option Bool
  | .cond c => v c
  | .and items => allTruthOf v items
  | .or items => anyTruthOf v items
  | .not item => (item.truthOf v).map Bool.not
termination_by structural filter => filter

def allTruthOf (v : BoundCond → Option Bool) : List BoundFilter → Option Bool
  | [] => some true
  | filter :: rest => and3 (filter.truthOf v) (allTruthOf v rest)
termination_by structural filters => filters

def anyTruthOf (v : BoundCond → Option Bool) : List BoundFilter → Option Bool
  | [] => some false
  | filter :: rest => or3 (filter.truthOf v) (anyTruthOf v rest)
termination_by structural filters => filters

end

theorem allTruthOf_eq_foldr (v : BoundCond → Option Bool) (fs : List BoundFilter) :
    allTruthOf v fs = (fs.map (truthOf v)).foldr and3 (some true) := by
  induction fs with
  | nil => rfl
  | cons f rest ih => rw [allTruthOf, ih, List.map_cons, List.foldr_cons]

theorem anyTruthOf_eq_foldr (v : BoundCond → Option Bool) (fs : List BoundFilter) :
    anyTruthOf v fs = (fs.map (truthOf v)).foldr or3 (some false) := by
  induction fs with
  | nil => rfl
  | cons f rest ih => rw [anyTruthOf, ih, List.map_cons, List.foldr_cons]

end BoundFilter

/-- The truth of a condition, when the comparisons in the text have theirs. -/
def BoundCond.truthIn (aliases : AliasPlan) (root : String) (v : List Token → Option Bool) (d : Dialect)
    (c : BoundCond) : Option Bool :=
  match c.expr aliases root with
  | .ok e => e.comparisonTruth v d
  | .error _ => none

theorem readsAt_condExpr {c : BoundCond} {e : Expr} (h : c.expr aliases root = .ok e) :
    ReadsAt v d e.level e (c.truthIn aliases root v d) := by
  have htruth : c.truthIn aliases root v d = e.comparisonTruth v d := by rw [BoundCond.truthIn, h]
  unfold BoundCond.expr at h
  split at h
  · cases h
  · split at h
    · rename_i e' he
      cases h
      obtain ⟨hcompares, hlevel⟩ := compares_comparison? (compares_col _ _) he
      exact htruth ▸ hcompares.readsAt hlevel
    · cases h

/-- A compiled filter is read as a condition that has its truth. -/
theorem readsAt_expr (f : BoundFilter) :
    ∀ e, f.expr aliases root = .ok e → ReadsAt v d e.level e (f.truthOf fun c => c.truthIn aliases root v d) := by
  let value (f : BoundFilter) := f.truthOf fun c => c.truthIn aliases root v d
  have parts {fs : List BoundFilter} {es : List Expr}
      (h : List.Forall₂ (fun f e => ReadsAt v d e.level e (value f)) fs es) :
      List.Forall₂ (fun e t => ReadsAt v d e.level e t) es (fs.map value) := by
    rw [List.forall₂_map_right_iff]
    exact h.flip
  refine BoundFilter.expr_induction (P := fun f e => ReadsAt v d e.level e (value f))
    (fun c e h => readsAt_condExpr h) (fun fs es h => ?_) (fun fs es h => ?_) (fun f e h => h.negate) f
  · have hall : value (.and fs) = (fs.map value).foldr and3 (some true) := BoundFilter.allTruthOf_eq_foldr _ fs
    exact hall ▸ readsAt_joined?_getD .and rfl (parts h)
  · have hany : value (.or fs) = (fs.map value).foldr or3 (some false) := BoundFilter.anyTruthOf_eq_foldr _ fs
    exact hany ▸ readsAt_joined?_getD .or rfl (parts h)

/-- The text of every compiled filter has one reading, and the truth of the filter: conjunction, disjunction and negation
are those of three-valued logic. The text of a conjunction of compiled filters, and of tests whether a column is among
the keys that a query selects, has one reading too, and the truth of all of them together. -/
theorem BoundFilter.hasTruth_text (aliases : AliasPlan) (root : String) (v : List Token → Option Bool) (d : Dialect)
    {fs : List BoundFilter} {es : List Expr} (h : List.Forall₂ (fun f e => f.expr aliases root = .ok e) fs es)
    {tests : List Expr} (htests : ∀ e ∈ tests, ∃ table column q negated, e = .inQuery (.col table column) q negated) :
    List.Forall₂ (fun f e => HasTruth v (e.tokens d) (f.truthOf fun c => c.truthIn aliases root v d)) fs es ∧
      match Expr.all? (es ++ tests) with
      | some e => HasTruth v (e.tokens d)
          ((fs.map (truthOf fun c => c.truthIn aliases root v d) ++ tests.map (Expr.comparisonTruth v d)).foldr and3
            (some true))
      | none => fs = [] ∧ tests = [] := by
  have hfilters : List.Forall₂ (fun e t => ReadsAt v d e.level e t) es
      (fs.map (truthOf fun c => c.truthIn aliases root v d)) := by
    rw [List.forall₂_map_right_iff]
    exact h.flip.imp fun e f he => readsAt_expr f e he
  have htests' : List.Forall₂ (fun e t => ReadsAt v d e.level e t) tests (tests.map (Expr.comparisonTruth v d)) := by
    rw [List.forall₂_map_right_iff, List.forall₂_same]
    intro e he
    obtain ⟨table, column, q, negated, rfl⟩ := htests e he
    exact (compares_inQuery (compares_col table column) q negated).readsAt rfl
  refine ⟨h.imp fun f e he => (readsAt_expr f e he).hasTruth, ?_⟩
  have hall := List.rel_append hfilters htests'
  split
  · rename_i e he
    exact (readsAt_joined? .and hall he).hasTruth
  · rename_i he
    obtain ⟨rfl, rfl⟩ := List.append_eq_nil_iff.mp (Expr.all?_eq_none.mp he)
    exact ⟨List.forall₂_nil_right_iff.mp h, rfl⟩

/-- A filter that nests groups, some of them empty or of one part. -/
def groupsFilter : BoundFilter :=
  let title : BoundFilter := .cond ⟨"title", .root, "title", .exact, .one (.text "x")⟩
  let price : BoundFilter := .cond ⟨"price__gt", .root, "price", .gt, .one (.int 3)⟩
  let shelf : BoundFilter := .cond ⟨"shelf__isnull", .root, "shelf", .isnull, .flag true⟩
  .or [.and [.or [title, price], .not (.and [])], .and [.and [.not (.or []), .and [title, shelf]]]]

theorem BoundFilter.hasTruth_text_groups :
    let v : List Token → Option Bool := fun tokens => if .isNull ∈ tokens then none else some (.eq ∈ tokens)
    let keys : Expr := .inQuery (.col "books" "id") ⟨[⟨.col "page" "id", none⟩], some (.ofTable "page"), [], none, [], [],
      none⟩ false
    ∃ e all, groupsFilter.expr ⟨[]⟩ "books" = .ok e ∧ Expr.all? [e, keys] = some all ∧
      HasTruth v (e.tokens .mysql) none ∧ HasTruth v (all.tokens .mysql) (some false) := by
  intro v keys
  obtain ⟨e, he⟩ : ∃ e, groupsFilter.expr ⟨[]⟩ "books" = .ok e := ⟨_, rfl⟩
  have hkeys : ∀ e ∈ [keys], ∃ table column q negated, e = .inQuery (.col table column) q negated := by
    intro e he
    exact ⟨_, _, _, _, List.mem_singleton.mp he⟩
  obtain ⟨hfilters, hall⟩ := BoundFilter.hasTruth_text ⟨[]⟩ "books" v .mysql (.cons he .nil) hkeys
  have htruth : groupsFilter.truthOf (fun c => c.truthIn ⟨[]⟩ "books" v .mysql) = none := by decide
  have hkeysTruth : keys.comparisonTruth v .mysql = some false := by decide
  cases hfilters with
  | cons hfilter _ =>
    refine ⟨e, _, he, rfl, htruth ▸ hfilter, ?_⟩
    simp only [List.map_cons, List.map_nil, htruth, hkeysTruth] at hall
    exact hall

end RelQuery
