import Mathlib.Data.List.Forall2
import RelQuery.Proofs.Sql.Condition

/-!
# Reading expressions back

The text of an expression as a condition. Comparisons are read as they are, and what `AND` and `OR` join is read as
joined, since expressions among others get the parentheses that they need.
-/

namespace RelQuery.Sql

namespace Unjoined

theorem nil : Unjoined [] := ⟨.nil, fun _ => .nil⟩

theorem cons {t : Token} {rest : List Token} (h : Unjoined rest) (hparen : t ≠ .lparen ∧ t ≠ .rparen)
    (hop : ∀ op : Connective, t ≠ op.token) : Unjoined (t :: rest) :=
  ⟨h.balanced.cons hparen.1 hparen.2, fun op => (h.inside op).cons (hop op) hparen.1 hparen.2⟩

theorem append {a b : List Token} (ha : Unjoined a) (hb : Unjoined b) : Unjoined (a ++ b) :=
  ⟨ha.balanced.append hb.balanced, fun op => .append ha.balanced (ha.inside op) (hb.inside op)⟩

end Unjoined

theorem Balanced.unjoined {body : List Token} (h : Balanced body) : Unjoined (.lparen :: body ++ [.rparen]) :=
  ⟨h.enclosed, fun op => .enclosed op.token_ne_lparen h⟩

/-- Neither a parenthesis nor a connective. -/
def Token.isPlain : Token → Bool
  | .lparen | .rparen | .and | .or => false
  | _ => true

theorem Unjoined.plain {tokens : List Token} (h : ∀ t ∈ tokens, t.isPlain = true) : Unjoined tokens := by
  induction tokens with
  | nil => exact .nil
  | cons t rest ih =>
    have ht := h t List.mem_cons_self
    refine (ih fun t ht => h t (List.mem_cons_of_mem _ ht)).cons ⟨?_, ?_⟩ fun op => ?_
    · rintro rfl
      cases ht
    · rintro rfl
      cases ht
    · rintro rfl
      cases op <;> cases ht

theorem Unjoined.single {t : Token} (ht : t.isPlain = true) : Unjoined [t] := .plain (by simpa using ht)

theorem Unjoined.isComparison {t : Token} {rest : List Token} (h : Unjoined (t :: rest)) (ht : t ≠ .not ∧ t ≠ .lparen) :
    IsComparison (t :: rest) :=
  ⟨h, t, rest, rfl, ht⟩

theorem isComparison_singleton {t : Token} (ht : t.isPlain = true) (hnot : t ≠ .not) : IsComparison [t] :=
  (Unjoined.single ht).isComparison ⟨hnot, by rintro rfl; cases ht⟩

theorem IsComparison.append {a b : List Token} (ha : IsComparison a) (hb : Unjoined b) : IsComparison (a ++ b) where
  toUnjoined := ha.toUnjoined.append hb
  head := by
    obtain ⟨t, rest, rfl, ht⟩ := ha.head
    exact ⟨t, rest ++ b, rfl, ht⟩

theorem Laid.unjoined {body : List Token} (h : Laid body) :
    Unjoined (.lparen :: significant body ++ [.rparen]) := h.balanced.unjoined

/-- An expression whose text is read as a comparison, or as a side of one. -/
def Expr.Compares (d : Dialect) (e : Expr) : Prop := IsComparison (significant (e.tokens d))

section

variable {d : Dialect}

theorem compares_col (table column : String) : (Expr.col table column).Compares d :=
  (Unjoined.plain (by simp [Token.isPlain])).isComparison ⟨nofun, nofun⟩

theorem compares_param (v : Value) : (Expr.param v).Compares d :=
  isComparison_singleton rfl nofun

theorem IsComparison.lowered {tokens : List Token} (h : IsComparison (significant tokens)) (lowered : Bool) :
    IsComparison (significant (maybeLowered lowered tokens)) := by
  cases lowered with
  | false => exact h
  | true =>
    have hname : IsComparison [.function "LOWER"] := isComparison_singleton rfl nofun
    have hcall := hname.append h.balanced.unjoined
    rw [maybeLowered, if_pos rfl, significant_append, significant_cons rfl, significant_cons rfl]
    exact hcall

theorem Expr.Compares.lowered {e : Expr} (h : e.Compares d) : e.lowered.Compares d := by
  have htokens : e.lowered.tokens d = maybeLowered true (e.tokens d) := by
    simp [Expr.lowered, Expr.tokens, exprsTokens, moreExprsTokens, maybeLowered]
  rw [Expr.Compares, htokens]
  exact IsComparison.lowered h true

theorem compares_binary {op : BinaryOp} (hop : op.token.isPlain = true) {l r : Expr} (hl : l.Compares d)
    (hr : r.Compares d) : (Expr.binary op l r).Compares d := by
  have hright := (Unjoined.single hop).append hr.toUnjoined
  have hlayout : op.token.isLayout = false := by cases op <;> rfl
  rw [Expr.Compares, Expr.tokens, significant_append, significant_layout rfl, significant_cons hlayout,
    significant_layout rfl]
  exact IsComparison.append hl hright

theorem compares_isNull {e : Expr} (h : e.Compares d) (negated : Bool) : (Expr.isNull e negated).Compares d := by
  rw [Expr.Compares, Expr.tokens, significant_append, significant_layout rfl]
  cases negated <;> exact IsComparison.append h (.single rfl)

theorem unjoined_negationTokens (negated : Bool) : Unjoined (significant (negationTokens negated)) := by
  cases negated with
  | false => exact .nil
  | true => exact .single rfl

theorem IsComparison.membership {operand body : List Token} (h : IsComparison (significant operand)) (negated : Bool)
    (hbody : Laid body) : IsComparison (significant
      (operand ++ negationTokens negated ++ .space :: .in_ :: .space :: .lparen :: body ++ [.rparen])) := by
  have hin : Unjoined [.in_] := .single rfl
  have hall := (h.append (unjoined_negationTokens negated)).append (hin.append hbody.unjoined)
  rw [significant_append, significant_append, significant_append, significant_layout rfl, significant_cons rfl,
    significant_layout rfl, significant_cons rfl, List.append_assoc]
  exact hall

theorem compares_inList {e : Expr} (h : e.Compares d) (values : List Expr) (negated : Bool) :
    (Expr.inList e values negated).Compares d := by
  rw [Expr.Compares, Expr.tokens]
  split
  · cases negated <;> exact isComparison_singleton rfl nofun
  · exact IsComparison.membership h negated (exprsLaid d values)

theorem compares_inQuery {e : Expr} (h : e.Compares d) (q : Query) (negated : Bool) :
    (Expr.inQuery e q negated).Compares d :=
  IsComparison.membership h negated (Query.laid d q)

theorem compares_like {e pattern : Expr} (h : e.Compares d) (hpattern : pattern.Compares d) (escape : Char)
    (negated caseInsensitive : Bool) : (Expr.like e pattern escape negated caseInsensitive).Compares d := by
  have hleft := IsComparison.lowered h (caseInsensitive && !d.hasILike)
  have hright := IsComparison.lowered hpattern (caseInsensitive && !d.hasILike)
  have hescape : Unjoined [.escape, .litText (String.ofList [escape])] := .plain (by simp [Token.isPlain])
  have hmatch {t : Token} (ht : t.isPlain = true) := ((Unjoined.single ht).append hright.toUnjoined).append hescape
  simp only [Expr.Compares, Expr.tokens, significant_append]
  rw [significant_layout rfl, List.append_assoc]
  split <;> exact (hleft.append (unjoined_negationTokens negated)).append (hmatch rfl)

end

/-- The level on which the text of an expression is read. -/
def Expr.level : Expr → Level
  | .binary .and _ _ => .joined .and
  | .binary .or _ _ => .joined .or
  | _ => .negated

section

variable {v : List Token → Option Bool} {d : Dialect} {e : Expr} {t : Option Bool}

/-- The text of an expression is read on a level as a condition of the given truth. -/
def ReadsAt (v : List Token → Option Bool) (d : Dialect) (level : Level) (e : Expr) (t : Option Bool) : Prop :=
  ∃ c : Condition, Reading level (significant (e.tokens d)) c ∧ c.truth v = t

theorem ReadsAt.hasTruth {level : Level} (h : ReadsAt v d level e t) : HasTruth v (e.tokens d) t := by
  obtain ⟨c, hc, rfl⟩ := h
  exact hc.hasTruth v

theorem ReadsAt.paren {level : Level} (h : ReadsAt v d level e t) : ReadsAt v d .negated (.paren e) t := by
  obtain ⟨c, hc, htruth⟩ := h
  refine ⟨c, ?_, htruth⟩
  have hgroup := Reading.operand (.group hc.loosest)
  rwa [Expr.tokens, significant_append, significant_cons rfl]

theorem ReadsAt.negate {level : Level} (h : ReadsAt v d level e t) : ReadsAt v d .negated e.negate (t.map Bool.not) := by
  obtain ⟨c, hc, rfl⟩ := h.paren
  refine ⟨.not c, ?_, rfl⟩
  rw [Expr.negate, Expr.tokens, significant_cons rfl, significant_layout rfl]
  exact .not hc

theorem ReadsAt.binary {op : Connective} {e' : Expr} {t' : Option Bool} (h : ReadsAt v d (.joined op) e t)
    (h' : ReadsAt v d (.joined op) e' t') : ReadsAt v d (.joined op) (.binary op.binary e e') (op.apply t t') := by
  obtain ⟨c, hc, rfl⟩ := h
  obtain ⟨c', hc', rfl⟩ := h'
  obtain ⟨joined, hjoined, htruth⟩ := hc.append hc' v
  refine ⟨joined, ?_, htruth⟩
  have htoken : op.binary.token = op.token := by cases op <;> rfl
  have hlayout : op.token.isLayout = false := by cases op <;> rfl
  rw [Expr.tokens, significant_append, significant_layout rfl, htoken, significant_cons hlayout, significant_layout rfl]
  exact hjoined

/-- An expression among others that a connective joins is read as a part of it, once it has the parentheses it needs. -/
theorem readsAt_parenIf (op : Connective) (h : ReadsAt v d e.level e t) :
    ReadsAt v d (Expr.parenIf op.other.binary e).level (Expr.parenIf op.other.binary e) t ∧
      ReadsAt v d (.joined op) (Expr.parenIf op.other.binary e) t := by
  have negated {e : Expr} (h : ReadsAt v d .negated e t) : ReadsAt v d (.joined op) e t := by
    obtain ⟨c, hc, htruth⟩ := h
    exact ⟨c, hc.of_negated op, htruth⟩
  cases e with
  | binary o l r =>
    cases op <;> cases o <;>
      first | exact ⟨h, h⟩ | exact ⟨h, negated h⟩ | exact ⟨h.paren, negated h.paren⟩
  | _ => exact ⟨h, negated h⟩

theorem readsAt_foldl {op : Connective} {es : List Expr} {ts : List (Option Bool)} {first : Expr} {t : Option Bool}
    (hfirst : ReadsAt v d (.joined op) first t) (h : List.Forall₂ (ReadsAt v d (.joined op)) es ts) :
    ReadsAt v d (.joined op) (es.foldl (.binary op.binary) first) (op.apply t (ts.foldr op.apply op.unit)) := by
  induction h generalizing first t with
  | nil =>
    rw [List.foldr_nil, op.apply_unit]
    exact hfirst
  | cons he _ ih =>
    rw [List.foldl_cons, List.foldr_cons, ← op.apply_assoc]
    exact ih (hfirst.binary he)

theorem level_foldl (op : Connective) (es : List Expr) (l r : Expr) :
    (es.foldl (Expr.binary op.binary) (Expr.binary op.binary l r)).level = Level.joined op := by
  induction es generalizing l r with
  | nil => cases op <;> rfl
  | cons e es ih => exact ih _ e

/-- Expressions that a connective joins are read as the join of their conditions. -/
theorem readsAt_joined? (op : Connective) {es : List Expr} {ts : List (Option Bool)}
    (h : List.Forall₂ (fun e t => ReadsAt v d e.level e t) es ts) {e : Expr}
    (he : Expr.joined? op.binary (es.map (Expr.parenIf op.other.binary)) = some e) :
    ReadsAt v d e.level e (ts.foldr op.apply op.unit) := by
  cases h with
  | nil => cases he
  | @cons first t es ts hfirst hrest =>
    obtain rfl := Option.some.inj he
    have hrest' : List.Forall₂ (ReadsAt v d (.joined op)) (es.map (Expr.parenIf op.other.binary)) ts := by
      rw [List.forall₂_map_left_iff]
      exact hrest.imp fun e t h => (readsAt_parenIf op h).2
    -- one expression keeps its own level, and more are read on that of the connective
    cases hrest with
    | nil =>
      rw [List.foldr_cons, List.foldr_nil, op.apply_unit]
      exact (readsAt_parenIf op hfirst).1
    | @cons second t' es ts _ _ =>
      have hlevel : Expr.level ((List.map (Expr.parenIf op.other.binary) (second :: es)).foldl (Expr.binary op.binary)
          (Expr.parenIf op.other.binary first)) = .joined op := level_foldl op _ _ _
      rw [hlevel]
      exact readsAt_foldl (readsAt_parenIf op hfirst).2 hrest'

/-- The truth of the comparison that an expression is read as. -/
def Expr.comparisonTruth (v : List Token → Option Bool) (d : Dialect) (e : Expr) : Option Bool :=
  (Condition.comparison (significant (e.tokens d))).truth v

theorem Expr.Compares.readsAt {e : Expr} (h : e.Compares d) (hlevel : e.level = .negated) :
    ReadsAt v d e.level e (e.comparisonTruth v d) :=
  ⟨_, hlevel ▸ .operand (.comparison h), rfl⟩

theorem readsAt_literal (b : Bool) : ReadsAt v d .negated (.literal (.bool b)) (some b) :=
  ⟨.comparison [.litBool b], .operand (.comparison (isComparison_singleton rfl nofun)), rfl⟩

/-- Where nothing is joined, the literal stands for the truth of nothing joined. -/
theorem readsAt_joined?_getD (op : Connective) {b : Bool} (hb : op.unit = some b) {es : List Expr}
    {ts : List (Option Bool)} (h : List.Forall₂ (fun e t => ReadsAt v d e.level e t) es ts) :
    let e := (Expr.joined? op.binary (es.map (Expr.parenIf op.other.binary))).getD (.literal (.bool b))
    ReadsAt v d e.level e (ts.foldr op.apply op.unit) := by
  rcases he : Expr.joined? op.binary (es.map (Expr.parenIf op.other.binary)) with - | e
  · cases h with
    | nil => exact hb ▸ readsAt_literal b
    | cons => cases he
  · exact readsAt_joined? op h he

end

end RelQuery.Sql
