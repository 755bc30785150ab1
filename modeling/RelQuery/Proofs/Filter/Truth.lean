import RelQuery.Proofs.Join.Tuples

/-!
# When filters hold

The truth of a filter for a joined row, told without statements: conditions compare values at the ends of paths, and
conjunction, disjunction and negation are those of three-valued logic. It is the truth of the expression that the filter
compiles to, for every tuple that shows the row.
-/

namespace RelQuery

open Sql

variable {sv : Server} {db : Database}

/-- Whether a condition holds of a row: it compares the value at the end of its path. -/
def BoundCond.truth (sv : Server) (db : Database) (row : Joined) (c : BoundCond) : Option Bool :=
  (c.comparison? (.param (row.value c.path c.column))).bind fun e => Sql.truth (e.value sv db [])

namespace BoundFilter

mutual

def truth (sv : Server) (db : Database) (row : Joined) : BoundFilter → Option Bool
  | .cond c => c.truth sv db row
  | .and items => allTruth sv db row items
  | .or items => anyTruth sv db row items
  | .not item => (item.truth sv db row).map Bool.not
termination_by structural filter => filter

def allTruth (sv : Server) (db : Database) (row : Joined) : List BoundFilter → Option Bool
  | [] => some true
  | filter :: rest => and3 (filter.truth sv db row) (allTruth sv db row rest)
termination_by structural filters => filters

def anyTruth (sv : Server) (db : Database) (row : Joined) : List BoundFilter → Option Bool
  | [] => some false
  | filter :: rest => or3 (filter.truth sv db row) (anyTruth sv db row rest)
termination_by structural filters => filters

end

/-- Whether the row is one that the filter keeps. -/
def keeps (sv : Server) (db : Database) (f : BoundFilter) (row : Joined) : Bool := f.truth sv db row == some true

end BoundFilter

variable {group : List Tuple}

theorem value_parenIf (op : BinaryOp) (e : Expr) : (Expr.parenIf op e).value sv db group = e.value sv db group :=
  Expr.apply_parenIf (fun _ => rfl) op e

/-- Expressions joined by an operator that is associative with a unit have the truth of all together. -/
theorem truth_joined? {op : BinaryOp} {f : Option Bool → Option Bool → Option Bool} {unit : Option Bool}
    (hop : ∀ a b, sv.binary op a b = f (truth a) (truth b)) (hassoc : ∀ a b c, f (f a b) c = f a (f b c))
    (hunit : ∀ a, f a unit = a) {es : List Expr} {e : Expr} (h : Expr.joined? op es = some e) :
    truth (e.value sv db group) = es.foldr (fun e b => f (truth (e.value sv db group)) b) unit := by
  cases es with
  | nil => cases h
  | cons first rest =>
    cases h
    induction rest generalizing first with
    | nil => exact (hunit _).symm
    | cons second rest ih =>
      rw [List.foldl_cons, ih (.binary op first second), List.foldr_cons, List.foldr_cons, List.foldr_cons]
      rw [Expr.value, hop, truth_ofTruth, hassoc]

theorem truth_all? {es : List Expr} {e : Expr} (h : Expr.all? es = some e) :
    truth (e.value sv db group) = es.foldr (fun e b => and3 (truth (e.value sv db group)) b) (some true) := by
  rw [truth_joined? (fun _ _ => rfl) and3_assoc and3_true h, List.foldr_map]
  simp only [value_parenIf]

theorem truth_any? {es : List Expr} {e : Expr} (h : Expr.any? es = some e) :
    truth (e.value sv db group) = es.foldr (fun e b => or3 (truth (e.value sv db group)) b) (some false) := by
  rw [truth_joined? (fun _ _ => rfl) or3_assoc or3_false h, List.foldr_map]
  simp only [value_parenIf]

theorem holdsIn_all? (t : Tuple) (es : List Expr) :
    holdsIn sv db t (Expr.all? es) = es.all fun e => truth (e.value sv db [t]) == some true := by
  have hfold : (es.foldr (fun e b => and3 (truth (e.value sv db [t])) b) (some true) == some true) =
      es.all fun e => truth (e.value sv db [t]) == some true := by
    induction es with
    | nil => rfl
    | cons e rest ih =>
      rw [List.foldr_cons, List.all_cons, ← ih, Bool.eq_iff_iff, Bool.and_eq_true, beq_iff_eq, beq_iff_eq, beq_iff_eq,
        and3_eq_true]
  rcases he : Expr.all? es with - | e
  · rw [Expr.all?_eq_none.mp he]
    rfl
  · rw [holdsIn, truth_all? he, hfold]

theorem valuesOf_params (vs : List Value) : valuesOf sv db group (vs.map .param) = vs := by
  induction vs with
  | nil => rfl
  | cons v rest ih =>
    rw [List.map_cons, valuesOf, ih]
    rfl

theorem value_lowered (e : Expr) : e.lowered.value sv db group = sv.lower (e.value sv db group) := rfl

/-- A comparison depends on the value of its column only. -/
theorem truth_comparison? {c : BoundCond} {column e : Expr} (h : c.comparison? column = some e) {v : Value}
    (hv : column.value sv db group = v) :
    ((c.comparison? (.param v)).bind fun e => truth (e.value sv db [])) = truth (e.value sv db group) := by
  have hparam : ∀ g, (Expr.param v).value sv db g = v := fun _ => rfl
  unfold BoundCond.comparison? at h ⊢
  split at h <;> (try split at h) <;> cases h <;>
    simp_all [Expr.value, value_lowered, valuesOf_params]

theorem truth_condExpr {aliases : AliasPlan} {rootTable : String} {t : Tuple} {row : Joined} {c : BoundCond} {e : Expr}
    (h : c.expr aliases rootTable = .ok e)
    (hreads : ∀ table, aliases.qualifier c.path rootTable = .ok table →
      t.column (some table) c.column = row.value c.path c.column) :
    truth (e.value sv db [t]) = c.truth sv db row := by
  unfold BoundCond.expr at h
  split at h
  · cases h
  · rename_i table htable
    split at h
    · rename_i e' he
      cases h
      have hvalue : (Expr.col table c.column).value sv db [t] = row.value c.path c.column := hreads table htable
      exact (truth_comparison? he hvalue).symm
    · cases h

/-- The expression of a filter is true of a tuple when the filter is of the row that the tuple shows. -/
theorem truth_expr {aliases : AliasPlan} {rootTable : String} {t : Tuple} {row : Joined} (f : BoundFilter) :
    ∀ e, f.expr aliases rootTable = .ok e →
      (∀ c ∈ f.conds, ∀ table, aliases.qualifier c.path rootTable = .ok table →
        t.column (some table) c.column = row.value c.path c.column) →
      truth (e.value sv db [t]) = f.truth sv db row := by
  let Shows (c : BoundCond) : Prop := ∀ table, aliases.qualifier c.path rootTable = .ok table →
    t.column (some table) c.column = row.value c.path c.column
  have parts {fs : List BoundFilter} {es : List Expr}
      (h : List.Forall₂ (fun f e => (∀ c ∈ f.conds, Shows c) → truth (e.value sv db [t]) = f.truth sv db row) fs es)
      (hshows : ∀ c ∈ BoundFilter.condsOf fs, Shows c) :
      es.foldr (fun e b => and3 (truth (e.value sv db [t])) b) (some true) = BoundFilter.allTruth sv db row fs ∧
        es.foldr (fun e b => or3 (truth (e.value sv db [t])) b) (some false) = BoundFilter.anyTruth sv db row fs := by
    induction h with
    | nil => exact ⟨rfl, rfl⟩
    | cons hf _ ih =>
      have hhead := hf fun c hc => hshows c (List.mem_append_left _ hc)
      obtain ⟨hall, hany⟩ := ih fun c hc => hshows c (List.mem_append_right _ hc)
      rw [List.foldr_cons, List.foldr_cons, hhead, hall, hany]
      exact ⟨rfl, rfl⟩
  refine BoundFilter.expr_induction
    (P := fun f e => (∀ c ∈ f.conds, Shows c) → truth (e.value sv db [t]) = f.truth sv db row)
    (fun c e h hshows => truth_condExpr h (hshows c (List.mem_singleton_self c))) (fun fs es h hshows => ?_)
    (fun fs es h hshows => ?_) (fun f e h hshows => ?_) f
  · rw [BoundFilter.truth, ← (parts h hshows).1]
    rcases hall : Expr.all? es with - | joined
    · rw [Expr.all?_eq_none.mp hall]
      rfl
    · exact truth_all? hall
  · rw [BoundFilter.truth, ← (parts h hshows).2]
    rcases hany : Expr.any? es with - | joined
    · rw [Expr.any?_eq_none.mp hany]
      rfl
    · exact truth_any? hany
  · rw [BoundFilter.truth, ← h hshows, Expr.negate, Expr.value, Expr.value, truth_ofTruth]

/-- The compiled filters keep the tuples whose rows the filters keep. -/
theorem keeps_predicates {p : Prepared} (h : p.Named) {predicates : List Predicate} (hp : p.predicates = .ok predicates) :
    List.Forall₂
      (fun f pred => pred.rootOnly = f.isRootOnly ∧
        ∀ t, (truth (pred.expr.value sv db [t]) == some true) = f.keeps sv db (p.rowOf p.bound.resolved t))
      p.bound.filters predicates := by
  have hcompiled := mapM_eq_ok.mp hp
  refine ((List.forall₂_and_left _ _).mpr ⟨fun f hf => hf, hcompiled⟩).imp fun f pred ⟨hf, hpred⟩ => ?_
  obtain ⟨e, he, rfl⟩ := map_eq_ok.mp hpred
  refine ⟨rfl, fun t => ?_⟩
  rw [BoundFilter.keeps, truth_expr f e he]
  intro c hc table htable
  refine column_qualified h (List.Subset.refl _) h.bound.joined.nodup (fun hne => ?_)
    (hasColumnAt_of_bindFilters h.bound.filters f hf c hc) htable t
  exact h.bound.joined_of_cond hf hc hne

end RelQuery
