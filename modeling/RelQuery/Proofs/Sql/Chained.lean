import RelQuery.Proofs.Sql.Reading

/-!
# Conditions added one by one

A query takes conditions one by one, and `AND` joins their texts as they are. Since it binds tighter than `OR`, only the
last part of a disjunction among them is joined with what comes after it, and only the first one with what comes before.
-/

namespace RelQuery.Sql

namespace Connective

/-- The truth of conditions that a connective joins. -/
def total (op : Connective) (ts : List (Option Bool)) : Option Bool := ts.foldr op.apply op.unit

theorem total_singleton (op : Connective) (t : Option Bool) : op.total [t] = t := op.apply_unit t

theorem or_total_eq_true {ts : List (Option Bool)} : or.total ts = some true ↔ some true ∈ ts := by
  induction ts with
  | nil => simp [total, unit]
  | cons t ts ih =>
    have hcons : or.total (t :: ts) = or3 t (or.total ts) := rfl
    rw [hcons, or3_eq_true, ih, List.mem_cons, eq_comm]

end Connective

/-- The truths of what `OR` separates after `AND` has come between two texts: the last part of the one and the first
part of the other are a single part. -/
def glue : List (Option Bool) → List (Option Bool) → List (Option Bool)
  | [], bs => bs
  | [a], [] => [a]
  | [a], b :: bs => and3 a b :: bs
  | a :: a' :: as, bs => a :: glue (a' :: as) bs

theorem true_mem_glue {as bs : List (Option Bool)} (ha : some true ∈ as) (hb : some true ∈ bs) :
    some true ∈ glue as bs := by
  induction as, bs using glue.induct with
  | case1 bs => cases ha
  | case2 a => cases hb
  | case3 a b bs =>
    obtain rfl := List.mem_singleton.mp ha
    rcases List.mem_cons.mp hb with rfl | hb
    · exact List.mem_cons_self
    · exact List.mem_cons_of_mem _ hb
  | case4 a a' as bs ih =>
    rcases List.mem_cons.mp ha with rfl | ha
    · exact List.mem_cons_self
    · exact List.mem_cons_of_mem _ (ih ha hb)

theorem true_mem_foldl_glue {ds : List (Option Bool)} {dss : List (List (Option Bool))} (h : some true ∈ ds)
    (hs : ∀ ds ∈ dss, some true ∈ ds) : some true ∈ dss.foldl glue ds := by
  induction dss generalizing ds with
  | nil => exact h
  | cons ds' dss ih =>
    obtain ⟨h', hs⟩ := List.forall_mem_cons.mp hs
    exact ih (true_mem_glue h h') hs

/-! ### Disjuncts of a text -/

section

variable {v : List Token → Option Bool} {d : Dialect}

/-- A text that `OR` separates into parts of the given truths. -/
inductive Disjuncts (v : List Token → Option Bool) : List Token → List (Option Bool) → Prop
  | one {tokens : List Token} {c : Condition} (h : Reading (.joined .and) tokens c) : Disjuncts v tokens [c.truth v]
  | more {l r : List Token} {c : Condition} {ts : List (Option Bool)} (h : Reading (.joined .and) l c)
    (hrest : Disjuncts v r ts) : Disjuncts v (l ++ .or :: r) (c.truth v :: ts)

namespace Disjuncts

variable {l r tokens : List Token} {ts us : List (Option Bool)}

theorem reading (h : Disjuncts v tokens ts) :
    ∃ c, Reading (.joined .or) tokens c ∧ c.truth v = Connective.or.total ts := by
  induction h with
  | one h => exact ⟨_, .tighter .or h, (Connective.total_singleton .or _).symm⟩
  | more h _ ih =>
    obtain ⟨c, hc, htruth⟩ := ih
    obtain ⟨joined, hjoined, hor⟩ := (Reading.tighter .or h).append hc v
    exact ⟨joined, hjoined, by rw [hor, htruth]; rfl⟩

theorem append (hl : Disjuncts v l ts) (hr : Disjuncts v r us) : Disjuncts v (l ++ .or :: r) (ts ++ us) := by
  induction hl with
  | one h => exact .more h hr
  | more h _ ih =>
    rw [List.append_assoc]
    exact .more h ih

theorem glued (hl : Disjuncts v l ts) (hr : Disjuncts v r us) : Disjuncts v (l ++ .and :: r) (glue ts us) := by
  induction hl with
  | one h =>
    -- the parts that meet are read as one, and what follows the second stays
    cases hr with
    | one h' =>
      obtain ⟨c, hc, htruth⟩ := h.append h' v
      have := Disjuncts.one (v := v) hc
      rwa [htruth] at this
    | more h' hrest =>
      obtain ⟨c, hc, htruth⟩ := h.append h' v
      have := Disjuncts.more hc hrest
      rw [htruth, List.append_assoc] at this
      exact this
  | @more l r' c ts h hrest ih =>
    have hcons : glue (c.truth v :: ts) us = c.truth v :: glue ts us := by cases hrest <;> rfl
    rw [hcons, List.append_assoc]
    exact .more h ih

/-- Without `OR` outside parentheses there is one part. -/
theorem of_inside (h : Disjuncts v tokens ts) (hinside : Inside .or tokens) :
    ∃ c, Reading (.joined .and) tokens c ∧ c.truth v = Connective.or.total ts := by
  cases h with
  | one h => exact ⟨_, h, (Connective.total_singleton .or _).symm⟩
  | more h _ => exact absurd h.balanced.height_eq (hinside _ _ rfl)

end Disjuncts

/-- What is read as one comparison: an operand, or operands compared. -/
inductive Expr.IsTest : Expr → Prop
  | column (table : Option String) (name : String) : (Expr.column table name).IsTest
  | literal (l : Literal) : (Expr.literal l).IsTest
  | param (v : Value) : (Expr.param v).IsTest
  | call (name : String) (distinct : Bool) (args : List Expr) : (Expr.call name distinct args).IsTest
  | binary {op : BinaryOp} {l r : Expr} (hop : op.token.isPlain = true) (hl : l.IsTest) (hr : r.IsTest) :
    (Expr.binary op l r).IsTest
  | inList {e : Expr} (values : List Expr) (negated : Bool) (h : e.IsTest) : (Expr.inList e values negated).IsTest
  | inQuery {e : Expr} (q : Query) (negated : Bool) (h : e.IsTest) : (Expr.inQuery e q negated).IsTest
  | isNull {e : Expr} (negated : Bool) (h : e.IsTest) : (Expr.isNull e negated).IsTest
  | like {e pattern : Expr} (escape : Char) (negated caseInsensitive : Bool) (h : e.IsTest)
    (hpattern : pattern.IsTest) : (Expr.like e pattern escape negated caseInsensitive).IsTest

/-- What is built from comparisons with connectives, with parentheses or without, and with `NOT` before parentheses. -/
inductive Expr.IsCondition : Expr → Prop
  | test {e : Expr} (h : e.IsTest) : e.IsCondition
  | paren {e : Expr} (h : e.IsCondition) : (Expr.paren e).IsCondition
  | negate {e : Expr} (h : e.IsCondition) : e.negate.IsCondition
  | join (op : Connective) {l r : Expr} (hl : l.IsCondition) (hr : r.IsCondition) :
    (Expr.binary op.binary l r).IsCondition

/-- The truths of what `OR` separates in the text of a condition. -/
def Expr.disjuncts (v : List Token → Option Bool) (d : Dialect) : Expr → List (Option Bool)
  | .binary .or l r => l.disjuncts v d ++ r.disjuncts v d
  | .binary .and l r => glue (l.disjuncts v d) (r.disjuncts v d)
  | .not e => [(Connective.or.total (e.disjuncts v d)).map Bool.not]
  | .paren e => [Connective.or.total (e.disjuncts v d)]
  | e => [e.comparisonTruth v d]

/-- The truth of a condition as its text is read. -/
def Expr.truthIn (v : List Token → Option Bool) (d : Dialect) (e : Expr) : Option Bool :=
  Connective.or.total (e.disjuncts v d)

theorem Expr.IsTest.compares {e : Expr} (h : e.IsTest) (d : Dialect) : e.Compares d := by
  induction h with
  | column table name =>
    cases table with
    | none => exact isComparison_singleton rfl nofun
    | some table => exact compares_col table name
  | literal l => cases l <;> exact isComparison_singleton rfl nofun
  | param v => exact compares_param v
  | call name distinct args =>
    have hname : IsComparison [.function name] := isComparison_singleton rfl nofun
    have hbody : Balanced (significant (if distinct then [.distinct, .space] else [])) := by
      cases distinct with
      | false => exact .nil
      | true => exact (Unjoined.single rfl).balanced
    have hcall := hname.append (hbody.append (exprsLaid d args).balanced).unjoined
    rw [Expr.Compares, Expr.tokens, significant_append, significant_append, significant_cons rfl, significant_cons rfl]
    exact hcall
  | binary hop _ _ ihl ihr => exact compares_binary hop ihl ihr
  | inList values negated _ ih => exact compares_inList ih values negated
  | inQuery q negated _ ih => exact compares_inQuery ih q negated
  | isNull negated _ ih => exact compares_isNull ih negated
  | like escape negated caseInsensitive _ _ ih ihpattern =>
    exact compares_like ih ihpattern escape negated caseInsensitive

theorem Expr.IsTest.level_eq {e : Expr} (h : e.IsTest) : e.level = .negated := by
  cases h with
  | @binary op _ _ hop => cases op <;> first | rfl | cases hop
  | _ => rfl

theorem Expr.IsTest.disjuncts_eq {e : Expr} (h : e.IsTest) : e.disjuncts v d = [e.comparisonTruth v d] := by
  cases h with
  | @binary op _ _ hop => cases op <;> first | rfl | cases hop
  | _ => rfl

theorem ReadsAt.disjuncts {e : Expr} {t : Option Bool} (h : ReadsAt v d .negated e t) :
    Disjuncts v (significant (e.tokens d)) [t] := by
  obtain ⟨c, hc, rfl⟩ := h
  exact .one (hc.of_negated .and)

theorem Disjuncts.readsAt {e : Expr} (h : Disjuncts v (significant (e.tokens d)) (e.disjuncts v d)) :
    ReadsAt v d (.joined .or) e (e.truthIn v d) := h.reading

/-- The text of a condition is separated by `OR` as its form says. -/
theorem Expr.IsCondition.disjuncts {e : Expr} (h : e.IsCondition) :
    Disjuncts v (significant (e.tokens d)) (e.disjuncts v d) := by
  induction h with
  | @test e h =>
    have hreads : ReadsAt v d e.level e _ := (h.compares d).readsAt h.level_eq
    rw [h.disjuncts_eq]
    exact (h.level_eq ▸ hreads).disjuncts
  | paren _ ih => exact ih.readsAt.paren.disjuncts
  | @negate e _ ih =>
    have hnot : e.negate.disjuncts v d = [(e.truthIn v d).map Bool.not] := by
      rw [Expr.negate, Expr.disjuncts, Expr.disjuncts, Connective.total_singleton]
      rfl
    exact hnot ▸ ih.readsAt.negate.disjuncts
  | @join op l r _ _ ihl ihr =>
    have htoken : op.binary.token.isLayout = false := by cases op <;> rfl
    rw [Expr.tokens, significant_append, significant_layout rfl, significant_cons htoken, significant_layout rfl]
    cases op with
    | and => exact ihl.glued ihr
    | or => exact ihl.append ihr

theorem Expr.IsCondition.hasTruth {e : Expr} (h : e.IsCondition) : HasTruth v (e.tokens d) (e.truthIn v d) :=
  h.disjuncts.readsAt.hasTruth

theorem isCondition_joined? (op : Connective) {es : List Expr} (h : ∀ e ∈ es, e.IsCondition) {e : Expr}
    (he : Expr.joined? op.binary es = some e) : e.IsCondition := by
  cases es with
  | nil => cases he
  | cons first rest =>
    obtain rfl := Option.some.inj he
    obtain ⟨hfirst, hrest⟩ := List.forall_mem_cons.mp h
    clear he h
    induction rest generalizing first with
    | nil => exact hfirst
    | cons second rest ih =>
      obtain ⟨hsecond, hrest⟩ := List.forall_mem_cons.mp hrest
      exact ih _ (.join op hfirst hsecond) hrest

theorem Expr.IsCondition.parenIf {e : Expr} (h : e.IsCondition) (op : BinaryOp) : (Expr.parenIf op e).IsCondition := by
  unfold Expr.parenIf
  split
  · split
    · exact .paren h
    · exact h
  · exact h

/-- The conjunction and the disjunction of conditions are conditions. -/
theorem isCondition_joined?_parenIf (op : Connective) {es : List Expr} (h : ∀ e ∈ es, e.IsCondition) {e : Expr}
    (he : Expr.joined? op.binary (es.map (Expr.parenIf op.other.binary)) = some e) : e.IsCondition := by
  refine isCondition_joined? op ?_ he
  rw [List.forall_mem_map]
  exact fun e he => (h e he).parenIf _

theorem disjuncts_foldl_and (es : List Expr) (first : Expr) :
    (es.foldl (Expr.binary .and) first).disjuncts v d =
      (es.map (Expr.disjuncts v d)).foldl glue (first.disjuncts v d) := by
  induction es generalizing first with
  | nil => rfl
  | cons e es ih => exact ih (.binary .and first e)

/-! ### Queries -/

theorem Query.foldl_filter (q : Query) (conditions : List Expr) :
    conditions.foldl Query.filter q = { q with condition := Expr.joined? .and (q.condition.toList ++ conditions) } := by
  induction conditions generalizing q with
  | nil =>
    obtain ⟨select, table, joins, condition, groupBy, orderBy, bounds⟩ := q
    cases condition <;> rfl
  | cons e rest ih =>
    obtain ⟨select, table, joins, condition, groupBy, orderBy, bounds⟩ := q
    rw [List.foldl_cons, ih]
    cases condition <;> rfl

/-- Only one clause of a text depends on the condition of the query. -/
theorem Query.tokens_condition (d : Dialect) (q : Query) : ∃ before after,
    q.tokens d = before ++ clauseTokens .where_ (optionalExprTokens d q.condition) ++ after ∧
      ∀ condition, ({ q with condition } : Query).tokens d =
        before ++ clauseTokens .where_ (optionalExprTokens d condition) ++ after := by
  obtain ⟨select, table, joins, condition, groupBy, orderBy, bounds⟩ := q
  have hclause (condition : Option Expr) :
      (⟨select, table, joins, condition, groupBy, orderBy, bounds⟩ : Query).tokens d =
        (.select :: selectTokens d select ++ clauseTokens .from_ (optionalTableTokens d table) ++ joinsTokens d joins)
          ++ clauseTokens .where_ (optionalExprTokens d condition)
          ++ (clauseTokens .groupBy (exprsTokens d groupBy) ++ clauseTokens .orderBy (orderTokens d orderBy)
            ++ boundsTokens d bounds) := by
    simp only [Query.tokens, List.append_assoc]
  exact ⟨_, _, hclause condition, hclause⟩

section

variable {es : List Expr} (h : ∀ e ∈ es, e.IsCondition) {e : Expr} (he : Expr.joined? .and es = some e)

include h he

/-- Conditions that `AND` joins as they are run into each other where they meet. -/
theorem hasTruth_joined?_and :
    HasTruth v (e.tokens d) (Connective.or.total ((es.map (Expr.disjuncts v d)).foldl glue [])) := by
  have htruth : HasTruth v (e.tokens d) (e.truthIn v d) := (isCondition_joined? .and h he).hasTruth
  cases es with
  | nil => cases he
  | cons first rest =>
    obtain rfl := Option.some.inj he
    rw [Expr.truthIn, disjuncts_foldl_and] at htruth
    exact htruth

/-- Where all of them are true, the text is. -/
theorem hasTruth_joined?_and_of_true (htrue : ∀ e ∈ es, e.truthIn v d = some true) :
    HasTruth v (e.tokens d) (some true) := by
  have htruth := hasTruth_joined?_and (v := v) (d := d) h he
  have hparts : ∀ ds ∈ es.map (Expr.disjuncts v d), some true ∈ ds := by
    rw [List.forall_mem_map]
    exact fun e he => Connective.or_total_eq_true.mp (htrue e he)
  cases es with
  | nil => cases he
  | cons first rest =>
    obtain ⟨hfirst, hrest⟩ := List.forall_mem_cons.mp hparts
    have hmem : some true ∈ (rest.map (Expr.disjuncts v d)).foldl glue (first.disjuncts v d) :=
      true_mem_foldl_glue hfirst hrest
    exact Connective.or_total_eq_true.mpr hmem ▸ htruth

/-- Without `OR` outside parentheses the conditions stay apart. -/
theorem hasTruth_joined?_and_of_inside (hinside : ∀ e ∈ es, Inside .or (significant (e.tokens d))) :
    HasTruth v (e.tokens d) (Connective.and.total (es.map (Expr.truthIn v d))) := by
  have hreads : List.Forall₂ (ReadsAt v d (.joined .and)) es (es.map (Expr.truthIn v d)) := by
    rw [List.forall₂_map_right_iff, List.forall₂_same]
    exact fun e he => (h e he).disjuncts.of_inside (hinside e he)
  cases hreads with
  | nil => cases he
  | cons hfirst hrest =>
    obtain rfl := Option.some.inj he
    exact (readsAt_foldl hfirst hrest).hasTruth

end

/-- A query to which conditions are added has the text that it had, but for the clause of its condition, and there the
texts of all its conditions stand as they are with `AND` between them. The text has one reading. In it the last part
that `OR` separates in a condition is joined with the first such part of the next one, so that it may be true where a
condition is not; where every condition is true, it is true. It has the truth of their conjunction where no condition
has `OR` outside parentheses. -/
theorem filters_read (v : List Token → Option Bool) (d : Dialect) (q : Query) (conditions : List Expr)
    (h : ∀ e ∈ q.condition.toList ++ conditions, e.IsCondition) :
    let all := q.condition.toList ++ conditions
    (∃ before after, q.tokens d = before ++ clauseTokens .where_ (optionalExprTokens d q.condition) ++ after ∧
        (conditions.foldl Query.filter q).tokens d =
          before ++ clauseTokens .where_ (optionalExprTokens d (Expr.joined? .and all)) ++ after) ∧
      (∀ e ∈ all, HasTruth v (e.tokens d) (e.truthIn v d)) ∧
      match Expr.joined? .and all with
      | none => all = []
      | some e =>
        HasTruth v (e.tokens d) (Connective.or.total ((all.map (Expr.disjuncts v d)).foldl glue [])) ∧
          ((∀ e ∈ all, e.truthIn v d = some true) → HasTruth v (e.tokens d) (some true)) ∧
          ((∀ e ∈ all, Inside .or (significant (e.tokens d))) →
            HasTruth v (e.tokens d) (Connective.and.total (all.map (Expr.truthIn v d)))) := by
  intro all
  obtain ⟨before, after, htokens, hclause⟩ := q.tokens_condition d
  refine ⟨⟨before, after, htokens, by rw [Query.foldl_filter, hclause]⟩, fun e he => (h e he).hasTruth, ?_⟩
  split
  · next hnone =>
    rcases hall : all with - | ⟨first, rest⟩
    · rfl
    · rw [hall] at hnone
      cases hnone
  · next e he =>
    exact ⟨hasTruth_joined?_and h he, hasTruth_joined?_and_of_true h he, hasTruth_joined?_and_of_inside h he⟩

/-- A comparison, and after it a disjunction that is negated. -/
theorem filters_read_negation :
    let v : List Token → Option Bool := fun tokens => if .isNull ∈ tokens then none else some (.gt ∈ tokens)
    let price : Expr := .binary .gt (.col "books" "price") (.param (.int 3))
    let title : Expr := .binary .eq (.column none "title") (.literal (.text "x"))
    let shelf : Expr := .isNull (.col "books" "shelf") false
    ∃ either chained, Expr.any? [title, shelf] = some either ∧
      ([either.negate].foldl Query.filter (Query.empty.filter price)).condition = some chained ∧
      HasTruth v (chained.tokens .mysql) none := by
  intro v price title shelf
  have hprice : price.IsTest := .binary rfl (.column _ _) (.param _)
  have htitle : title.IsTest := .binary rfl (.column _ _) (.literal _)
  have hshelf : shelf.IsTest := .isNull _ (.column _ _)
  obtain ⟨either, heither⟩ : ∃ either, Expr.any? [title, shelf] = some either := ⟨_, rfl⟩
  have hcondition : either.IsCondition := by
    refine isCondition_joined?_parenIf .or ?_ heither
    simp [Expr.IsCondition.test htitle, Expr.IsCondition.test hshelf]
  have hinside : ∀ e ∈ [price, either.negate], Inside .or (significant (e.tokens .mysql)) := by
    have hnot : ReadsAt v .mysql .negated either.negate _ := hcondition.disjuncts.readsAt.negate
    obtain ⟨c, hc, -⟩ := hnot
    have hor : Inside Connective.or.token (significant (either.negate.tokens .mysql)) := hc.inside rfl
    exact List.forall_mem_cons.mpr ⟨(hprice.compares .mysql).inside .or, List.forall_mem_singleton.mpr hor⟩
  obtain ⟨-, -, -, -, happly⟩ := filters_read v .mysql (Query.empty.filter price) [either.negate] (by
    simp [Query.filter, Query.empty, Expr.IsCondition.test hprice, hcondition.negate])
  have htruth := happly hinside
  cases heither
  exact ⟨_, _, rfl, rfl, htruth⟩

/-- With a disjunction first, the text is true of what the second condition does not hold of. -/
theorem filters_read_ne :
    let red : Expr := .binary .eq (.column none "color") (.param (.text "red"))
    let blue : Expr := .binary .eq (.column none "color") (.param (.text "blue"))
    let fast : Expr := .binary .gt (.column none "speed") (.param (.int 200))
    let either : Expr := .binary .or red blue
    let chained : Expr := .binary .and either fast
    let cars : Query := ⟨[⟨.column none "name", none⟩], some (.ofTable "cars"), [], none, [], [], none⟩
    let q := (cars.filter either).filter fast
    let v : List Token → Option Bool := fun tokens => some (.param (.text "red") ∈ tokens)
    Expr.any? [red, blue] = some either ∧ q.condition = some chained ∧
      (q.statement .postgres).sql =
        "SELECT\n  \"name\"\nFROM \"cars\"\nWHERE \"color\" = $1 OR \"color\" = $2 AND \"speed\" > $3" ∧
      HasTruth v (either.tokens .postgres) (some true) ∧ HasTruth v (fast.tokens .postgres) (some false) ∧
      HasTruth v (chained.tokens .postgres) (some true) ∧
      ¬ HasTruth v (chained.tokens .postgres) (and3 (some true) (some false)) := by
  intro red blue fast either chained cars q v
  have hcolor (name : String) : (Expr.binary .eq (.column none "color") (.param (.text name))).IsCondition :=
    .test (.binary rfl (.column _ _) (.param _))
  have hfast : fast.IsCondition := .test (.binary rfl (.column _ _) (.param _))
  have heither : either.IsCondition := .join .or (hcolor "red") (hcolor "blue")
  have hchained : HasTruth v (chained.tokens .postgres) (some true) := (heither.join .and hfast).hasTruth
  refine ⟨rfl, rfl, by decide, heither.hasTruth, hfast.hasTruth, hchained, fun hboth => ?_⟩
  have := hchained.unique hboth
  cases this

end

end RelQuery.Sql
