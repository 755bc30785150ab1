import RelQuery.Proofs.Filter.Bound
import RelQuery.Proofs.Sql.Masked

/-!
# Filters without their values

Two filters have the same shape if they differ in nothing but the values that they compare with, where a null stays a
null and a list keeps its length. What filters of the same shape compile to is the same when masked.
-/

namespace RelQuery

open Sql

/-- The value with a text in place of what is not null, and with a null in place of every member of a list. -/
def BoundValue.masked : BoundValue → BoundValue
  | .one v => .one (if v.isNull then .null else .text "")
  | .many vs => .many (vs.map fun _ => .null)
  | .flag b => .flag b

def BoundCond.masked (c : BoundCond) : BoundCond := { c with value := c.value.masked }

mutual

def BoundFilter.masked : BoundFilter → BoundFilter
  | .cond c => .cond c.masked
  | .and items => .and (filtersMasked items)
  | .or items => .or (filtersMasked items)
  | .not item => .not item.masked
termination_by structural filter => filter

def filtersMasked : List BoundFilter → List BoundFilter
  | [] => []
  | filter :: rest => filter.masked :: filtersMasked rest
termination_by structural filters => filters

end

theorem conds_masked (f : BoundFilter) : f.masked.conds = f.conds.map BoundCond.masked := by
  refine BoundFilter.rec (motive_1 := fun f => f.masked.conds = f.conds.map BoundCond.masked)
    (motive_2 := fun fs => BoundFilter.condsOf (filtersMasked fs) = (BoundFilter.condsOf fs).map BoundCond.masked)
    ?_ ?_ ?_ ?_ ?_ ?_ f
  · exact fun _ => rfl
  · exact fun _ ih => ih
  · exact fun _ ih => ih
  · exact fun _ ih => ih
  · rfl
  · intro f rest ihf ihrest
    rw [filtersMasked, BoundFilter.condsOf, BoundFilter.condsOf, ihf, ihrest, List.map_append]

theorem paths_masked (f : BoundFilter) : f.masked.paths = f.paths := by
  unfold BoundFilter.paths
  rw [conds_masked, List.map_map]
  rfl

theorem isRootOnly_masked (f : BoundFilter) : f.masked.isRootOnly = f.isRootOnly := by
  unfold BoundFilter.isRootOnly
  rw [conds_masked, List.all_map]
  rfl

/-- The value of a condition has the form that its operator needs. -/
def BoundCond.Fits (c : BoundCond) : Prop := ∀ column, ∃ e, c.comparison? column = some e

theorem comparison?_masked {c : BoundCond} (h : c.Fits) (column : Expr) :
    (c.masked.comparison? column).map Expr.masked = (c.comparison? column).map Expr.masked := by
  obtain ⟨e, he⟩ := h column
  obtain ⟨lookup, path, name, op, value⟩ := c
  cases value with
  | one v =>
    cases op with
    | exact | iexact => cases v <;> rfl
    | gt | gte | lt | lte => rfl
    | isnull | isIn => cases v <;> cases he
    | contains | icontains | startswith | istartswith | endswith | iendswith =>
      -- Only a text is a pattern, and a text stays one.
      cases v with
      | text pattern => rfl
      | _ => cases he
  | many vs =>
    cases op with
    | isIn =>
      have hvalues : exprsMasked ((vs.map fun _ => Value.null).map .param) = exprsMasked (vs.map .param) := by
        rw [exprsMasked_eq_map, exprsMasked_eq_map, List.map_map, List.map_map, List.map_map]
        rfl
      exact congrArg (fun values => some (Expr.inList column.masked values false)) hvalues
    | _ => rfl
  | flag b => rfl

theorem fits_of_bindFilters {s : Schema} {root : EntityId} {fs : List Filter} {bs : List BoundFilter}
    (h : s.bindFilters root fs = .ok bs) : ∀ b ∈ bs, ∀ c ∈ b.conds, c.Fits := by
  intro b hb c hc column
  obtain ⟨raw, value, hlookup⟩ := bindLookup_of_bindFilters h b hb c hc
  exact exists_comparison_of_bindLookup hlookup column

theorem masked_parenIf (op : BinaryOp) (e : Expr) : (Expr.parenIf op e).masked = Expr.parenIf op e.masked := by
  cases e with
  | binary o left right =>
    rw [Expr.masked, Expr.parenIf, Expr.parenIf]
    split <;> rfl
  | _ => rfl

theorem map_masked_joined? (op : BinaryOp) (es : List Expr) :
    (Expr.joined? op es).map Expr.masked = Expr.joined? op (es.map Expr.masked) := by
  have hfold : ∀ (rest : List Expr) (first : Expr),
      (rest.foldl (.binary op) first).masked = (rest.map Expr.masked).foldl (.binary op) first.masked := by
    intro rest
    induction rest with
    | nil => exact fun _ => rfl
    | cons e rest ih =>
      intro first
      rw [List.foldl_cons, ih, List.map_cons, List.foldl_cons]
      rfl
  cases es with
  | nil => rfl
  | cons first rest => exact congrArg some (hfold rest first)

theorem map_masked_all? (es : List Expr) : (Expr.all? es).map Expr.masked = Expr.all? (es.map Expr.masked) := by
  unfold Expr.all?
  rw [map_masked_joined?, List.map_map, List.map_map]
  exact congrArg _ (List.map_congr_left fun e _ => masked_parenIf .or e)

theorem map_masked_any? (es : List Expr) : (Expr.any? es).map Expr.masked = Expr.any? (es.map Expr.masked) := by
  unfold Expr.any?
  rw [map_masked_joined?, List.map_map, List.map_map]
  exact congrArg _ (List.map_congr_left fun e _ => masked_parenIf .and e)

theorem masked_getD (joined : Option Expr) (l : Literal) :
    (joined.getD (.literal l)).masked = (joined.map Expr.masked).getD (.literal l) := by
  cases joined <;> rfl

variable {aliases : AliasPlan} {rootTable : String}

theorem map_masked_condExpr {c : BoundCond} (h : c.Fits) :
    (c.masked.expr aliases rootTable).map Expr.masked = (c.expr aliases rootTable).map Expr.masked := by
  unfold BoundCond.expr
  rw [show c.masked.path = c.path from rfl]
  split
  · rfl
  · rename_i table _
    obtain ⟨e, he⟩ := h (.col table c.column)
    have hmasked := comparison?_masked h (.col table c.column)
    rw [he] at hmasked ⊢
    obtain ⟨e', he', hsame⟩ := Option.map_eq_some_iff.mp hmasked
    rw [show c.masked.column = c.column from rfl, he']
    exact congrArg Except.ok hsame

/-- What a filter compiles to, masked, does not depend on its values. -/
theorem map_masked_expr (f : BoundFilter) (h : ∀ c ∈ f.conds, c.Fits) :
    (f.masked.expr aliases rootTable).map Expr.masked = (f.expr aliases rootTable).map Expr.masked := by
  refine BoundFilter.rec
    (motive_1 := fun f => (∀ c ∈ f.conds, c.Fits) →
      (f.masked.expr aliases rootTable).map Expr.masked = (f.expr aliases rootTable).map Expr.masked)
    (motive_2 := fun fs => (∀ c ∈ BoundFilter.condsOf fs, c.Fits) →
      (BoundFilter.exprs aliases rootTable (filtersMasked fs)).map (List.map Expr.masked) =
        (BoundFilter.exprs aliases rootTable fs).map (List.map Expr.masked)) ?_ ?_ ?_ ?_ ?_ ?_ f h
  · intro c h
    exact map_masked_condExpr (h c (List.mem_singleton_self c))
  · intro items ih h
    rw [BoundFilter.masked, BoundFilter.expr, BoundFilter.expr, map_map, map_map]
    refine map_eq_map_of_agree (ih h) fun es es' hes => ?_
    rw [Function.comp_apply, Function.comp_apply, masked_getD, masked_getD, map_masked_all?, map_masked_all?, hes]
  · intro items ih h
    rw [BoundFilter.masked, BoundFilter.expr, BoundFilter.expr, map_map, map_map]
    refine map_eq_map_of_agree (ih h) fun es es' hes => ?_
    rw [Function.comp_apply, Function.comp_apply, masked_getD, masked_getD, map_masked_any?, map_masked_any?, hes]
  · intro item ih h
    rw [BoundFilter.masked, BoundFilter.expr, BoundFilter.expr, map_map, map_map]
    refine map_eq_map_of_agree (ih h) fun e e' he => ?_
    rw [Function.comp_apply, Function.comp_apply, Expr.negate, Expr.negate, Expr.masked, Expr.masked, Expr.masked,
      Expr.masked, he]
  · exact fun _ => rfl
  · intro f rest ihf ihrest h
    obtain ⟨hf, hrest⟩ := List.forall_mem_append.mp h
    rw [filtersMasked, BoundFilter.exprs, BoundFilter.exprs]
    rcases cases_of_map_eq (ihf hf) with ⟨err, hmasked, hplain⟩ | ⟨e', e, hmasked, hplain, he⟩
    · rw [hmasked, hplain]
    · rw [hmasked, hplain]
      dsimp only
      rw [map_map, map_map]
      refine map_eq_map_of_agree (ihrest hrest) fun es es' hes => ?_
      rw [Function.comp_apply, Function.comp_apply, List.map_cons, List.map_cons, he, hes]

def Predicate.masked (p : Predicate) : Predicate := { p with expr := p.expr.masked }

theorem map_masked_predicate {f g : BoundFilter} (hf : ∀ c ∈ f.conds, c.Fits) (hg : ∀ c ∈ g.conds, c.Fits)
    (h : f.masked = g.masked) :
    (f.predicate aliases rootTable).map Predicate.masked = (g.predicate aliases rootTable).map Predicate.masked := by
  have hroot : f.isRootOnly = g.isRootOnly := by
    rw [← isRootOnly_masked, h, isRootOnly_masked]
  have hexpr : (f.expr aliases rootTable).map Expr.masked = (g.expr aliases rootTable).map Expr.masked := by
    rw [← map_masked_expr f hf, h, map_masked_expr g hg]
  unfold BoundFilter.predicate
  rw [map_map, map_map]
  rcases cases_of_map_eq hexpr with ⟨err, hf, hg⟩ | ⟨e, e', hf, hg, he⟩
  · rw [hf, hg]
    rfl
  · rw [hf, hg]
    exact congrArg Except.ok (congrArg₂ Predicate.mk he hroot)

/-- Filters of the same shapes compile to predicates that are the same when masked. -/
theorem map_masked_predicates {fs gs : List BoundFilter} (hfs : ∀ f ∈ fs, ∀ c ∈ f.conds, c.Fits)
    (hgs : ∀ g ∈ gs, ∀ c ∈ g.conds, c.Fits) (h : fs.map BoundFilter.masked = gs.map BoundFilter.masked) :
    (fs.mapM fun f : BoundFilter => f.predicate aliases rootTable).map (List.map Predicate.masked) =
      (gs.mapM fun g : BoundFilter => g.predicate aliases rootTable).map (List.map Predicate.masked) := by
  induction fs generalizing gs with
  | nil =>
    obtain rfl := List.map_eq_nil_iff.mp h.symm
    rfl
  | cons f rest ih =>
    obtain ⟨g, more, rfl, hg, hmore⟩ := List.map_eq_cons_iff.mp h.symm
    obtain ⟨hf, hrest⟩ := List.forall_mem_cons.mp hfs
    obtain ⟨hgFits, hmoreFits⟩ := List.forall_mem_cons.mp hgs
    rw [List.mapM_cons, List.mapM_cons]
    have hboth : (f.predicate aliases rootTable).map Predicate.masked =
        (g.predicate aliases rootTable).map Predicate.masked := map_masked_predicate hf hgFits hg.symm
    rcases cases_of_map_eq hboth with ⟨err, hfirst, hother⟩ | ⟨p, q, hfirst, hother, hpq⟩
    · rw [hfirst, hother]
      rfl
    · rw [hfirst, hother]
      rcases cases_of_map_eq (ih hrest hmoreFits hmore.symm) with ⟨err, hps, hqs⟩ | ⟨ps, qs, hps, hqs, hsame⟩
      · rw [hps, hqs]
        rfl
      · rw [hps, hqs]
        exact congrArg Except.ok (congrArg₂ List.cons hpq hsame)

end RelQuery
