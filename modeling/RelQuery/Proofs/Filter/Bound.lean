import Mathlib.Data.List.Forall2
import RelQuery.Filter.Predicate
import RelQuery.Proofs.Schema.Resolve
import RelQuery.Proofs.Sql.Scope

/-!
# What filters and orderings read

A bound lookup or ordering reads a column of the entity that its path leads to, and its expression reads this column
from the table that the path is named by, and nothing else.
-/

namespace RelQuery

open Sql

variable {s : Schema} {root : EntityId}

/-! ### Columns at the end of a path -/

/-- The path leads from the root entity to one with this column in its table. -/
def Schema.HasColumnAt (s : Schema) (root : EntityId) (path : Path) (column : String) : Prop :=
  ∃ hops id, s.walk root path.segments = .ok (hops, id) ∧ column ∈ (s.entity id).columns.map (·.dbName)

/-- The path of a field leads to its entity, which owns the relation that the field is, if it is one. -/
structure FieldTarget.Resolves (s : Schema) (root : EntityId) (t : FieldTarget) : Prop where
  walks : ∃ hops, s.walk root t.path.segments = .ok (hops, t.entity)
  owns : ∀ id, t.field = .relation id → s.findRelation? t.entity (s.relation id).name = some id

theorem resolves_of_resolveFieldFrom {lookup : String} {parts walked rest : List String} {entity : EntityId}
    {t : FieldTarget} (hw : ∃ hops, s.walk root walked = .ok (hops, entity))
    (h : s.resolveFieldFrom lookup parts walked entity rest = .ok t) : t.Resolves s root := by
  induction rest generalizing walked entity with
  | nil => cases h
  | cons segment rest ih =>
    rw [Schema.resolveFieldFrom] at h
    split at h
    · rename_i id hid
      split at h
      · cases h
        refine ⟨hw, fun id' he => ?_⟩
        cases he
        rwa [(relation_of_findRelation? hid).2.2]
      · obtain ⟨hops, hwalk⟩ := hw
        exact ih ⟨hops ++ [id], walk_concat.mpr ⟨hops, entity, id, hwalk, hid, rfl, rfl⟩⟩ h
    · split at h
      · split at h
        · cases h
          exact ⟨hw, fun id' he => by cases he⟩
        · cases h
      · split at h <;> cases h

theorem walks_columnTarget {t : FieldTarget} (h : t.Resolves s root) :
    ∃ hops, s.walk root (t.columnTarget s).path.segments = .ok (hops, (t.columnTarget s).entity) := by
  obtain ⟨hops, hwalk⟩ := h.walks
  unfold FieldTarget.columnTarget
  split
  · exact ⟨hops, hwalk⟩
  · rename_i id hid
    dsimp only
    split
    · exact ⟨hops, hwalk⟩
    · exact ⟨hops ++ [id], walk_concat.mpr ⟨hops, t.entity, id, hwalk, h.owns id hid, rfl, rfl⟩⟩

theorem bindField_eq_ok {raw : String} {parts : List String} {path : Path} {c : Column} {referenced : EntityId} :
    s.bindField root raw parts = .ok (path, c, referenced) ↔
      ∃ t, s.resolveField root raw parts = .ok t ∧ (t.columnTarget s).path = path ∧
        (s.entity (t.columnTarget s).entity).column? (t.columnTarget s).column = some c ∧
          t.referenced s = referenced := by
  unfold Schema.bindField
  rw [bind_eq_ok]
  refine exists_congr fun t => and_congr_right fun _ => ?_
  dsimp only
  split
  · rename_i found hfound
    rw [hfound]
    constructor
    · rintro ⟨⟩
      exact ⟨rfl, rfl, rfl⟩
    · rintro ⟨rfl, ⟨⟩, rfl⟩
      rfl
  · rename_i hnone
    rw [hnone]
    constructor
    · rintro ⟨⟩
    · rintro ⟨-, ⟨⟩, -⟩

theorem hasColumnAt_of_bindField {raw : String} {parts : List String} {path : Path} {column : Column}
    {referenced : EntityId} (h : s.bindField root raw parts = .ok (path, column, referenced)) :
    s.HasColumnAt root path column.dbName := by
  obtain ⟨t, ht, rfl, hc, -⟩ := bindField_eq_ok.mp h
  obtain ⟨hops, hwalk⟩ := walks_columnTarget (resolves_of_resolveFieldFrom ⟨[], rfl⟩ ht)
  exact ⟨hops, _, hwalk, List.mem_map_of_mem (List.mem_of_find?_eq_some hc)⟩

theorem hasColumnAt_of_bindOrder {spec : OrderSpec} {o : BoundOrder} (h : s.bindOrder root spec = .ok o) :
    s.HasColumnAt root o.path o.column := by
  unfold Schema.bindOrder at h
  obtain ⟨⟨path, column, referenced⟩, hfield, h⟩ := bind_eq_ok.mp h
  cases h
  exact hasColumnAt_of_bindField hfield

theorem path_of_resolveFieldFrom {lookup : String} {parts walked rest : List String} {entity : EntityId}
    {t : FieldTarget} (h : s.resolveFieldFrom lookup parts walked entity rest = .ok t) :
    t.path.segments = walked ++ rest.dropLast := by
  induction rest generalizing walked entity with
  | nil => cases h
  | cons segment rest ih =>
    have hlast : rest.isEmpty = true → t.path.segments = walked →
        t.path.segments = walked ++ (segment :: rest).dropLast := by
      intro hempty hpath
      rw [List.isEmpty_iff.mp hempty, hpath]
      exact (List.append_nil _).symm
    rw [Schema.resolveFieldFrom] at h
    split at h
    · split at h
      case isTrue hempty =>
        cases h
        exact hlast hempty rfl
      case isFalse hmore =>
        rw [ih h, List.append_assoc, List.singleton_append, List.dropLast_cons_of_ne_nil]
        exact fun he => hmore (List.isEmpty_iff.mpr he)
    · split at h
      · split at h
        case isTrue hempty =>
          cases h
          exact hlast hempty rfl
        case isFalse => cases h
      · split at h <;> cases h

theorem root_of_columnTarget {t : FieldTarget} (h : (t.columnTarget s).path = .root) : t.path = .root := by
  unfold FieldTarget.columnTarget at h
  split at h
  · exact h
  · dsimp only at h
    split at h
    · exact h
    · exact absurd (congrArg Path.segments h) (List.concat_ne_nil _ _)

theorem parts_of_bindOrder {o : OrderSpec} {b : BoundOrder} (h : s.bindOrder root o = .ok b)
    (hroot : b.path = .root) : o.parts.length ≤ 1 := by
  obtain ⟨⟨path, column, referenced⟩, hfield, h⟩ := bind_eq_ok.mp h
  cases h
  obtain ⟨t, ht, hplace, -, -⟩ := bindField_eq_ok.mp hfield
  have hpath := path_of_resolveFieldFrom ht
  have hdrop : o.parts.dropLast = [] := by
    have hstart := root_of_columnTarget (hplace.trans hroot)
    rw [hstart] at hpath
    exact hpath.symm
  have hlength := congrArg List.length hdrop
  rw [List.length_dropLast, List.length_nil] at hlength
  omega

theorem bindLookup_eq_ok {raw : String} {value : ValueRef} {c : BoundCond} :
    s.bindLookup root raw value = .ok c ↔
      ∃ path column referenced bound, s.bindField root raw (Lookup.parse raw).parts = .ok (path, column, referenced) ∧
        value.bind s (s.entity referenced) raw (Lookup.parse raw).operator = .ok bound ∧
          c = ⟨raw, path, column.dbName, (Lookup.parse raw).operator, bound⟩ := by
  unfold Schema.bindLookup
  constructor
  · intro h
    obtain ⟨⟨path, column, referenced⟩, hfield, h⟩ := bind_eq_ok.mp h
    obtain ⟨bound, hbound, h⟩ := bind_eq_ok.mp h
    cases h
    exact ⟨path, column, referenced, bound, hfield, hbound, rfl⟩
  · rintro ⟨path, column, referenced, bound, hfield, hbound, rfl⟩
    exact bind_eq_ok.mpr ⟨_, hfield, bind_eq_ok.mpr ⟨bound, hbound, rfl⟩⟩

theorem hasColumnAt_of_bindLookup {raw : String} {value : ValueRef} {c : BoundCond}
    (h : s.bindLookup root raw value = .ok c) : s.HasColumnAt root c.path c.column := by
  obtain ⟨path, column, referenced, bound, hfield, -, rfl⟩ := bindLookup_eq_ok.mp h
  exact hasColumnAt_of_bindField hfield

/-! ### Filters -/

theorem bindFilters_cons {f : Filter} {rest : List Filter} {bs : List BoundFilter}
    (h : s.bindFilters root (f :: rest) = .ok bs) :
    ∃ b more, s.bindFilter root f = .ok b ∧ s.bindFilters root rest = .ok more ∧ bs = b :: more := by
  rw [Schema.bindFilters] at h
  rcases hb : s.bindFilter root f with e | b
  · rw [hb] at h
    cases h
  · rw [hb] at h
    obtain ⟨more, hmore, rfl⟩ := map_eq_ok.mp h
    exact ⟨b, more, rfl, hmore, rfl⟩

theorem bindLookup_of_bindFilter (f : Filter) :
    ∀ b, s.bindFilter root f = .ok b → ∀ c ∈ b.conds, ∃ raw value, s.bindLookup root raw value = .ok c := by
  refine Filter.rec
    (motive_1 := fun f => ∀ b, s.bindFilter root f = .ok b →
      ∀ c ∈ b.conds, ∃ raw value, s.bindLookup root raw value = .ok c)
    (motive_2 := fun fs => ∀ bs, s.bindFilters root fs = .ok bs →
      ∀ c ∈ BoundFilter.condsOf bs, ∃ raw value, s.bindLookup root raw value = .ok c) ?_ ?_ ?_ ?_ ?_ ?_ f
  · intro raw value b h c hc
    obtain ⟨cond, hcond, rfl⟩ := map_eq_ok.mp h
    rw [List.mem_singleton.mp hc]
    exact ⟨raw, value, hcond⟩
  · intro items ih b h c hc
    obtain ⟨bs, hbs, rfl⟩ := map_eq_ok.mp h
    exact ih bs hbs c hc
  · intro items ih b h c hc
    obtain ⟨bs, hbs, rfl⟩ := map_eq_ok.mp h
    exact ih bs hbs c hc
  · intro item ih b h c hc
    obtain ⟨inner, hinner, rfl⟩ := map_eq_ok.mp h
    exact ih inner hinner c hc
  · intro bs h c hc
    cases h
    cases hc
  · intro item rest ihitem ihrest bs h c hc
    obtain ⟨b, more, hb, hmore, rfl⟩ := bindFilters_cons h
    rcases List.mem_append.mp hc with hc | hc
    · exact ihitem b hb c hc
    · exact ihrest more hmore c hc

theorem bindLookup_of_bindFilters {fs : List Filter} {bs : List BoundFilter} (h : s.bindFilters root fs = .ok bs) :
    ∀ b ∈ bs, ∀ c ∈ b.conds, ∃ raw value, s.bindLookup root raw value = .ok c := by
  induction fs generalizing bs with
  | nil =>
    cases h
    simp
  | cons f rest ih =>
    obtain ⟨b, more, hb, hmore, rfl⟩ := bindFilters_cons h
    exact List.forall_mem_cons.mpr ⟨bindLookup_of_bindFilter f b hb, ih hmore⟩

theorem hasColumnAt_of_bindFilters {fs : List Filter} {bs : List BoundFilter} (h : s.bindFilters root fs = .ok bs) :
    ∀ b ∈ bs, ∀ c ∈ b.conds, s.HasColumnAt root c.path c.column := by
  intro b hb c hc
  obtain ⟨raw, value, hlookup⟩ := bindLookup_of_bindFilters h b hb c hc
  exact hasColumnAt_of_bindLookup hlookup

/-- A value that was bound for an operator has the form that the operator needs. -/
theorem exists_comparison_of_bind {e : Entity} {raw lookup column : String} {path : Path} {op : Operator}
    {value : ValueRef} {bound : BoundValue} (h : value.bind s e raw op = .ok bound) (expr : Expr) :
    ∃ compared, BoundCond.comparison? ⟨lookup, path, column, op, bound⟩ expr = some compared := by
  unfold ValueRef.bind at h
  cases op with
  | exact | iexact =>
    obtain ⟨v, -, rfl⟩ := map_eq_ok.mp h
    unfold BoundCond.comparison?
    dsimp only
    split <;> exact ⟨_, rfl⟩
  | contains | icontains | startswith | istartswith | endswith | iendswith =>
    obtain ⟨text, -, rfl⟩ := map_eq_ok.mp h
    exact ⟨_, rfl⟩
  | isnull =>
    dsimp only at h
    split at h
    · split at h
      · cases h
        exact ⟨_, rfl⟩
      · cases h
    · cases h
  | isIn =>
    dsimp only at h
    split at h
    · obtain ⟨vs, -, rfl⟩ := map_eq_ok.mp h
      exact ⟨_, rfl⟩
    · cases h
  | gt | gte | lt | lte =>
    obtain ⟨v, -, h⟩ := bind_eq_ok.mp h
    split at h
    · cases h
    · cases h
      exact ⟨_, rfl⟩

/-- The expression of a bound lookup can be made for any column. -/
theorem exists_comparison_of_bindLookup {raw : String} {value : ValueRef} {c : BoundCond}
    (h : s.bindLookup root raw value = .ok c) (expr : Expr) : ∃ compared, c.comparison? expr = some compared := by
  obtain ⟨path, column, referenced, bound, -, hbound, rfl⟩ := bindLookup_eq_ok.mp h
  exact exists_comparison_of_bind hbound expr

theorem columnsOf_params (vs : List Value) : columnsOf (vs.map .param) = [] := by
  induction vs with
  | nil => rfl
  | cons v rest ih => exact ih

theorem queriesOf_params (vs : List Value) : queriesOf (vs.map .param) = [] := by
  induction vs with
  | nil => rfl
  | cons v rest ih => exact ih

theorem columns_comparison? {c : BoundCond} {column e : Expr} (h : c.comparison? column = some e) :
    e.columns = column.columns ∧ e.queries = column.queries := by
  unfold BoundCond.comparison? at h
  split at h <;> (try split at h) <;> cases h <;>
    simp [Expr.columns, Expr.queries, Expr.lowered, columnsOf, queriesOf, columnsOf_params, queriesOf_params]

/-- The expression reads what the conditions do, and holds no query. -/
structure ReadsConds (aliases : AliasPlan) (rootTable : String) (conds : List BoundCond) (e : Expr) : Prop where
  queries : e.queries = []
  columns : ∀ ref ∈ e.columns, ∃ c ∈ conds, ∃ table, aliases.qualifier c.path rootTable = .ok table ∧
    ref = (some table, c.column)

variable {aliases : AliasPlan} {rootTable : String}

theorem ReadsConds.mono {conds more : List BoundCond} {e : Expr} (h : ReadsConds aliases rootTable conds e)
    (hsub : conds ⊆ more) : ReadsConds aliases rootTable more e := by
  refine ⟨h.queries, fun ref href => ?_⟩
  obtain ⟨c, hc, hread⟩ := h.columns ref href
  exact ⟨c, hsub hc, hread⟩

theorem readsConds_of_condExpr {c : BoundCond} {e : Expr} (h : c.expr aliases rootTable = .ok e) :
    ReadsConds aliases rootTable [c] e := by
  unfold BoundCond.expr at h
  split at h
  · cases h
  · rename_i table htable
    split at h
    · rename_i e' he
      cases h
      obtain ⟨hcolumns, hqueries⟩ := columns_comparison? he
      refine ⟨hqueries, fun ref href => ?_⟩
      rw [hcolumns] at href
      exact ⟨c, List.mem_singleton_self c, table, htable, List.mem_singleton.mp href⟩
    · cases h

/-- A conjunction or disjunction reads what its parts do; the literal that stands for none of them reads nothing. -/
theorem readsConds_getD {conds : List BoundCond} {es : List Expr} {joined : Option Expr} {l : Literal}
    (hcolumns : ∀ e, joined = some e → e.columns = es.flatMap Expr.columns)
    (hqueries : ∀ e, joined = some e → e.queries = es.flatMap Expr.queries)
    (h : ∀ e ∈ es, ReadsConds aliases rootTable conds e) :
    ReadsConds aliases rootTable conds (joined.getD (.literal l)) := by
  cases joined with
  | none => exact ⟨rfl, fun ref href => by cases href⟩
  | some e =>
    refine ⟨?_, fun ref href => ?_⟩
    · rw [Option.getD_some, hqueries e rfl]
      exact List.flatMap_eq_nil_iff.mpr fun part hpart => (h part hpart).queries
    · rw [Option.getD_some, hcolumns e rfl] at href
      obtain ⟨part, hpart, href⟩ := List.mem_flatMap.mp href
      exact (h part hpart).columns ref href

theorem exprs_cons {f : BoundFilter} {rest : List BoundFilter} {es : List Expr}
    (h : BoundFilter.exprs aliases rootTable (f :: rest) = .ok es) :
    ∃ e more, f.expr aliases rootTable = .ok e ∧ BoundFilter.exprs aliases rootTable rest = .ok more ∧
      es = e :: more := by
  rw [BoundFilter.exprs] at h
  rcases he : f.expr aliases rootTable with fault | e
  · rw [he] at h
    cases h
  · rw [he] at h
    obtain ⟨more, hmore, rfl⟩ := map_eq_ok.mp h
    exact ⟨e, more, rfl, hmore, rfl⟩

/-- What holds of conditions and what they compile to, and passes from parts to wholes, holds of filters. -/
theorem BoundFilter.expr_induction {P : BoundFilter → Expr → Prop}
    (cond : ∀ c e, c.expr aliases rootTable = .ok e → P (.cond c) e)
    (and : ∀ fs es, List.Forall₂ P fs es → P (.and fs) ((Expr.all? es).getD (.literal (.bool true))))
    (or : ∀ fs es, List.Forall₂ P fs es → P (.or fs) ((Expr.any? es).getD (.literal (.bool false))))
    (not : ∀ f e, P f e → P (.not f) e.negate) (f : BoundFilter) :
    ∀ e, f.expr aliases rootTable = .ok e → P f e := by
  refine BoundFilter.rec
    (motive_1 := fun f => ∀ e, f.expr aliases rootTable = .ok e → P f e)
    (motive_2 := fun fs => ∀ es, BoundFilter.exprs aliases rootTable fs = .ok es → List.Forall₂ P fs es)
    cond ?_ ?_ ?_ ?_ ?_ f
  · intro fs ih e h
    obtain ⟨es, hes, rfl⟩ := map_eq_ok.mp h
    exact and fs es (ih es hes)
  · intro fs ih e h
    obtain ⟨es, hes, rfl⟩ := map_eq_ok.mp h
    exact or fs es (ih es hes)
  · intro f ih e h
    obtain ⟨inner, hinner, rfl⟩ := map_eq_ok.mp h
    exact not f inner (ih inner hinner)
  · intro es h
    cases h
    exact .nil
  · intro f rest ihf ihrest es h
    obtain ⟨first, more, hfirst, hmore, rfl⟩ := exprs_cons h
    exact .cons (ihf first hfirst) (ihrest more hmore)

theorem readsConds_of_expr (f : BoundFilter) :
    ∀ e, f.expr aliases rootTable = .ok e → ReadsConds aliases rootTable f.conds e := by
  have parts {fs : List BoundFilter} {es : List Expr}
      (h : List.Forall₂ (fun f e => ReadsConds aliases rootTable f.conds e) fs es) :
      ∀ e ∈ es, ReadsConds aliases rootTable (BoundFilter.condsOf fs) e := by
    induction h with
    | nil => exact nofun
    | cons hf _ ih =>
      refine List.forall_mem_cons.mpr ⟨hf.mono (List.subset_append_left _ _), fun e he => ?_⟩
      exact (ih e he).mono (List.subset_append_right _ _)
  refine BoundFilter.expr_induction (P := fun f e => ReadsConds aliases rootTable f.conds e)
    (fun c e h => readsConds_of_condExpr h) (fun fs es h => ?_) (fun fs es h => ?_)
    (fun f e h => ⟨h.queries, h.columns⟩) f
  · exact readsConds_getD (fun e he => Expr.columns_all? he) (fun e he => Expr.queries_all? he) (parts h)
  · exact readsConds_getD (fun e he => Expr.columns_any? he) (fun e he => Expr.queries_any? he) (parts h)

end RelQuery
