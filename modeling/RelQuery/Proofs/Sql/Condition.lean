import RelQuery.Proofs.Sql.Layout
import RelQuery.Proofs.Sql.Semantics

/-!
# Reading conditions

The grammar of the conditions in SQL text. `NOT` binds tighter than `AND`, and `AND` tighter than `OR`, and operators of
one kind group from the left; what stands between them is a comparison, or a condition in parentheses. No text is read
in two ways.
-/

namespace RelQuery.Sql

inductive Connective where
  | and
  | or
  deriving DecidableEq

namespace Connective

def token : Connective → Token
  | and => .and
  | or => .or

def binary : Connective → BinaryOp
  | and => .and
  | or => .or

def other : Connective → Connective
  | and => or
  | or => and

def apply : Connective → Option Bool → Option Bool → Option Bool
  | and => and3
  | or => or3

/-- The truth of no conditions joined. -/
def unit : Connective → Option Bool
  | and => some true
  | or => some false

theorem apply_assoc (op : Connective) (a b c : Option Bool) : op.apply (op.apply a b) c = op.apply a (op.apply b c) := by
  cases op with
  | and => exact and3_assoc a b c
  | or => exact or3_assoc a b c

theorem apply_unit (op : Connective) (a : Option Bool) : op.apply a op.unit = a := by
  cases op with
  | and => exact and3_true a
  | or => exact or3_false a

end Connective

inductive Condition where
  | comparison (tokens : List Token)
  | not (c : Condition)
  | join (op : Connective) (left right : Condition)

/-- The truth value that tokens spell, if they spell one. -/
def constant? : List Token → Option Bool
  | [.true_] => some true
  | [.false_] => some false
  | [.litBool b] => some b
  | _ => none

/-- The truth of a condition in three-valued logic, when the comparisons have the given truth. -/
def Condition.truth (v : List Token → Option Bool) : Condition → Option Bool
  | comparison tokens => (constant? tokens).or (v tokens)
  | not c => (c.truth v).map Bool.not
  | join op left right => op.apply (left.truth v) (right.truth v)

/-- How many parentheses are open after some tokens. -/
def height (tokens : List Token) : Int := (tokens.count .lparen : Int) - tokens.count .rparen

/-- Every parenthesis is closed, and none before it was opened. -/
structure Balanced (tokens : List Token) : Prop where
  height_eq : height tokens = 0
  nonneg : ∀ l r, tokens = l ++ r → 0 ≤ height l

/-- A token stands nowhere but inside parentheses. -/
def Inside (t : Token) (tokens : List Token) : Prop := ∀ l r, tokens = l ++ t :: r → height l ≠ 0

/-! ### The grammar -/

/-- No connective stands outside parentheses. -/
structure Unjoined (tokens : List Token) : Prop where
  balanced : Balanced tokens
  inside : ∀ op : Connective, Inside op.token tokens

/-- What a comparison may be: nothing that connectives join, nor in front what starts another condition. -/
structure IsComparison (tokens : List Token) : Prop extends Unjoined tokens where
  head : ∃ t rest, tokens = t :: rest ∧ t ≠ .not ∧ t ≠ .lparen

/-- How tightly a part of a condition is bound. -/
inductive Level where
  | operand
  | negated
  | joined (op : Connective)

/-- The level of the parts that a connective joins, the first one aside. -/
def Connective.below : Connective → Level
  | and => .negated
  | or => .joined .and

inductive Reading : Level → List Token → Condition → Prop
  | comparison {tokens : List Token} (h : IsComparison tokens) : Reading .operand tokens (.comparison tokens)
  | group {tokens : List Token} {c : Condition} (h : Reading (.joined .or) tokens c) :
    Reading .operand (.lparen :: tokens ++ [.rparen]) c
  | operand {tokens : List Token} {c : Condition} (h : Reading .operand tokens c) : Reading .negated tokens c
  | not {tokens : List Token} {c : Condition} (h : Reading .negated tokens c) :
    Reading .negated (.not :: tokens) (.not c)
  | tighter {tokens : List Token} {c : Condition} (op : Connective) (h : Reading op.below tokens c) :
    Reading (.joined op) tokens c
  | join {l r : List Token} {a b : Condition} (op : Connective) (hl : Reading (.joined op) l a)
    (hr : Reading op.below r b) : Reading (.joined op) (l ++ op.token :: r) (.join op a b)

theorem height_append (a b : List Token) : height (a ++ b) = height a + height b := by
  simp only [height, List.count_append]
  omega

theorem height_cons {t : Token} (hopen : t ≠ .lparen) (hclose : t ≠ .rparen) (rest : List Token) :
    height (t :: rest) = height rest := by
  rw [height, height, List.count_cons_of_ne hopen, List.count_cons_of_ne hclose]

theorem height_lparen (rest : List Token) : height (.lparen :: rest) = 1 + height rest := by
  have hclose : Token.lparen ≠ .rparen := by decide
  rw [height, height, List.count_cons_self, List.count_cons_of_ne hclose]
  omega

namespace Balanced

theorem nil : Balanced [] where
  height_eq := rfl
  nonneg l r h := by
    rw [(List.append_eq_nil_iff.mp h.symm).1]
    exact Int.le_refl 0

theorem append {a b : List Token} (ha : Balanced a) (hb : Balanced b) : Balanced (a ++ b) where
  height_eq := by rw [height_append, ha.height_eq, hb.height_eq, Int.add_zero]
  nonneg l r h := by
    rcases List.append_eq_append_iff.mp h with ⟨x, rfl, hr⟩ | ⟨x, rfl, -⟩
    · rw [height_append, ha.height_eq, Int.zero_add]
      exact hb.nonneg x r hr
    · exact ha.nonneg l x rfl

theorem cons {t : Token} {rest : List Token} (hopen : t ≠ .lparen) (hclose : t ≠ .rparen) (h : Balanced rest) :
    Balanced (t :: rest) where
  height_eq := by rw [height_cons hopen hclose, h.height_eq]
  nonneg l r hl := by
    cases l with
    | nil => exact Int.le_refl 0
    | cons t' l =>
      obtain ⟨rfl, hrest⟩ := List.cons.inj hl
      rw [height_cons hopen hclose]
      exact h.nonneg l r hrest

/-- Before something in parentheses is closed, at least its parenthesis is open. -/
theorem height_of_closed {body l r : List Token} (h : Balanced body) (hl : body ++ [.rparen] = l ++ r) :
    0 ≤ height l ∨ height l = -1 ∧ r = [] := by
  rcases List.append_eq_append_iff.mp hl with ⟨x, rfl, hx⟩ | ⟨x, rfl, -⟩
  · rw [height_append, h.height_eq, Int.zero_add]
    rcases List.cons_eq_append_iff.mp hx with ⟨rfl, -⟩ | ⟨y, rfl, hy⟩
    · exact .inl (Int.le_refl 0)
    · obtain ⟨rfl, rfl⟩ := List.append_eq_nil_iff.mp hy.symm
      exact .inr ⟨rfl, rfl⟩
  · exact .inl (h.nonneg l x rfl)

theorem enclosed {body : List Token} (h : Balanced body) : Balanced (.lparen :: body ++ [.rparen]) where
  height_eq := by
    rw [List.cons_append, height_lparen, height_append, h.height_eq]
    rfl
  nonneg l r hl := by
    rcases List.cons_eq_append_iff.mp hl with ⟨rfl, -⟩ | ⟨l, rfl, hbody⟩
    · exact Int.le_refl 0
    · have := h.height_of_closed hbody
      rw [height_lparen]
      omega

end Balanced

theorem Connective.token_ne_lparen (op : Connective) : op.token ≠ .lparen := by cases op <;> decide

theorem Connective.token_ne_rparen (op : Connective) : op.token ≠ .rparen := by cases op <;> decide

theorem Connective.token_ne_not (op : Connective) : op.token ≠ .not := by cases op <;> decide

namespace Inside

variable {t : Token}

theorem nil : Inside t [] := fun l r h => absurd h (by simp)

theorem append {a b : List Token} (hbalanced : Balanced a) (ha : Inside t a) (hb : Inside t b) : Inside t (a ++ b) := by
  intro l r h
  rcases List.append_eq_append_iff.mp h with ⟨x, rfl, hx⟩ | ⟨x, rfl, hx⟩
  · rw [height_append, hbalanced.height_eq, Int.zero_add]
    exact hb x r hx
  · rcases List.cons_eq_append_iff.mp hx with ⟨rfl, hx⟩ | ⟨y, rfl, -⟩
    · have := hb [] r (hx ▸ rfl)
      exact absurd rfl this
    · exact ha l y rfl

theorem cons {t' : Token} {rest : List Token} (hne : t' ≠ t) (hopen : t' ≠ .lparen) (hclose : t' ≠ .rparen)
    (h : Inside t rest) : Inside t (t' :: rest) := by
  intro l r hl
  rcases List.cons_eq_append_iff.mp hl with ⟨rfl, hx⟩ | ⟨l, rfl, hrest⟩
  · exact absurd (List.cons.inj hx).1.symm hne
  · rw [height_cons hopen hclose]
    exact h l r hrest

theorem enclosed {body : List Token} (hopen : t ≠ .lparen) (h : Balanced body) :
    Inside t (.lparen :: body ++ [.rparen]) := by
  intro l r hl
  rcases List.cons_eq_append_iff.mp hl with ⟨rfl, hx⟩ | ⟨l, rfl, hbody⟩
  · exact absurd (List.cons.inj hx).1 hopen
  · rw [height_lparen]
    rcases h.height_of_closed hbody with hl | ⟨-, hr⟩
    · omega
    · cases hr

/-- Where the first part holds all that is open, and the second one no connective outside parentheses, a text is split in
one way only. -/
theorem split {l r l' r' : List Token} (hopen : t ≠ .lparen) (hclose : t ≠ .rparen) (hl : height l = 0)
    (hl' : height l' = 0) (hr : Inside t r) (hr' : Inside t r') (h : l ++ t :: r = l' ++ t :: r') : l = l' ∧ r = r' := by
  -- in a longer left part the connective of the other text would stand outside parentheses
  have later {l r l' r' x : List Token} (hl : height l = 0) (hl' : height l' = 0) (hr : Inside t r)
      (hx : l' = l ++ x) (h : t :: r = x ++ t :: r') : x = [] := by
    rcases List.cons_eq_append_iff.mp h with ⟨rfl, -⟩ | ⟨y, rfl, hy⟩
    · rfl
    · subst hx
      rw [height_append, hl, height_cons hopen hclose, Int.zero_add] at hl'
      exact absurd hl' (hr y r' hy)
  rcases List.append_eq_append_iff.mp h with ⟨x, hx, hr₁⟩ | ⟨x, hx, hr₁⟩
  · obtain rfl := later hl hl' hr hx hr₁
    simp_all
  · obtain rfl := later hl' hl hr' hx hr₁
    simp_all

end Inside

/-! ### One reading -/

/-- Whether a connective may stand outside parentheses. -/
def Level.admits : Level → Connective → Bool
  | joined .or, _ => true
  | joined .and, op => op = .and
  | operand, _ | negated, _ => false

theorem Connective.admits_below {op op' : Connective} (h : (Level.joined op').admits op = false) :
    op'.below.admits op = false := by
  cases op' <;> cases op <;> first | rfl | cases h

theorem Connective.below_admits_self (op : Connective) : op.below.admits op = false := by
  cases op <;> rfl

namespace Reading

variable {level : Level} {tokens : List Token} {c : Condition}

theorem balanced (h : Reading level tokens c) : Balanced tokens := by
  induction h with
  | comparison h => exact h.balanced
  | group _ ih => exact ih.enclosed
  | operand _ ih => exact ih
  | not _ ih => exact ih.cons (by decide) (by decide)
  | tighter _ _ ih => exact ih
  | join op _ _ ihl ihr => exact ihl.append (ihr.cons op.token_ne_lparen op.token_ne_rparen)

theorem inside (h : Reading level tokens c) {op : Connective} (hop : level.admits op = false) :
    Inside op.token tokens := by
  induction h with
  | comparison h => exact h.inside op
  | group h _ => exact Inside.enclosed op.token_ne_lparen h.balanced
  | operand _ ih => exact ih rfl
  | not _ ih => exact (ih rfl).cons op.token_ne_not.symm (by decide) (by decide)
  | tighter op' _ ih => exact ih (Connective.admits_below hop)
  | join op' hl _ ihl ihr =>
    have hne : op'.token ≠ op.token := by
      cases op' <;> cases op <;> first | decide | cases hop
    have hr := (ihr (Connective.admits_below hop)).cons hne op'.token_ne_lparen op'.token_ne_rparen
    exact (ihl hop).append hl.balanced hr

theorem head_ne_not (h : Reading .operand tokens c) (rest : List Token) : tokens ≠ .not :: rest := by
  rintro rfl
  cases h with
  | comparison h =>
    obtain ⟨t, rest', heq, hne, -⟩ := h.head
    exact hne (List.cons.inj heq).1.symm

theorem of_operand (h : Reading .operand tokens c) :
    IsComparison tokens ∧ c = .comparison tokens ∨
      ∃ inner, tokens = .lparen :: inner ++ [.rparen] ∧ Reading (.joined .or) inner c := by
  cases h with
  | comparison h => exact .inl ⟨h, rfl⟩
  | group h => exact .inr ⟨_, rfl, h⟩

theorem of_joined {op : Connective} (h : Reading (.joined op) tokens c) :
    Reading op.below tokens c ∨
      ∃ l r a b, tokens = l ++ op.token :: r ∧ c = .join op a b ∧ Reading (.joined op) l a ∧ Reading op.below r b := by
  cases h with
  | tighter _ h => exact .inl h
  | join _ hl hr => exact .inr ⟨_, _, _, _, rfl, rfl, hl, hr⟩

/-- No tokens are read in two ways. -/
theorem unique {c' : Condition} (h : Reading level tokens c) (h' : Reading level tokens c') : c = c' := by
  -- on each level the second reading can only be of the same form as the first
  induction h generalizing c' with
  | @comparison tokens h =>
    rcases h'.of_operand with ⟨-, rfl⟩ | ⟨inner, rfl, -⟩
    · rfl
    · obtain ⟨t, rest, heq, -, hne⟩ := h.head
      exact absurd (List.cons.inj heq).1.symm hne
  | @group tokens c _ ih =>
    rcases h'.of_operand with ⟨hcomparison, -⟩ | ⟨inner, heq, hinner⟩
    · obtain ⟨t, rest, heq, -, hne⟩ := hcomparison.head
      exact absurd (List.cons.inj heq).1.symm hne
    · obtain rfl : tokens = inner := List.append_cancel_right (List.cons.inj heq).2
      exact ih hinner
  | operand h ih =>
    cases h' with
    | operand h' => exact ih h'
    | not _ => exact absurd rfl (h.head_ne_not _)
  | not _ ih =>
    cases h' with
    | operand h' => exact absurd rfl (h'.head_ne_not _)
    | not h' => rw [ih h']
  | @tighter tokens c op h ih =>
    rcases h'.of_joined with h' | ⟨l, r, a, b, rfl, -, hl, -⟩
    · exact ih h'
    · -- a tighter part has no such connective outside parentheses
      exact absurd hl.balanced.height_eq (h.inside op.below_admits_self l r rfl)
  | @join l r a b op hl hr ihl ihr =>
    rcases h'.of_joined with h' | ⟨l', r', a', b', heq, rfl, hl', hr'⟩
    · exact absurd hl.balanced.height_eq (h'.inside op.below_admits_self l r rfl)
    · have hsplit := Inside.split op.token_ne_lparen op.token_ne_rparen hl.balanced.height_eq hl'.balanced.height_eq
        (hr.inside op.below_admits_self) (hr'.inside op.below_admits_self) heq
      obtain ⟨rfl, rfl⟩ := hsplit
      rw [ihl hl', ihr hr']

end Reading

namespace Reading

variable {tokens : List Token} {c : Condition}

theorem of_negated (h : Reading .negated tokens c) (op : Connective) : Reading (.joined op) tokens c := by
  cases op with
  | and => exact .tighter .and h
  | or => exact .tighter .or (.tighter .and h)

/-- What is read on some level may stand in parentheses. -/
theorem loosest {level : Level} (h : Reading level tokens c) : Reading (.joined .or) tokens c := by
  cases level with
  | operand => exact of_negated (.operand h) .or
  | negated => exact of_negated h .or
  | joined op =>
    cases op with
    | and => exact .tighter .or h
    | or => exact h

/-- Operators of one kind group from the left, which does not change what is joined. -/
theorem append {op : Connective} {l r : List Token} {a b : Condition} (hl : Reading (.joined op) l a)
    (hr : Reading (.joined op) r b) (v : List Token → Option Bool) :
    ∃ c, Reading (.joined op) (l ++ op.token :: r) c ∧ c.truth v = op.apply (a.truth v) (b.truth v) := by
  -- the last part on the right stays the last one, and all before it joins the left
  generalize hlevel : Level.joined op = level at hr
  induction hr with
  | tighter op' hr =>
    cases hlevel
    exact ⟨_, .join op hl hr, rfl⟩
  | @join r₁ r₂ b₁ b₂ op' _ hr₂ ih _ =>
    cases hlevel
    obtain ⟨c, hc, htruth⟩ := ih rfl
    have hjoined := Reading.join op hc hr₂
    rw [List.append_assoc, List.cons_append] at hjoined
    refine ⟨_, hjoined, ?_⟩
    rw [Condition.truth, htruth, Connective.apply_assoc, Condition.truth]
  | _ => cases hlevel

end Reading

def Token.isLayout : Token → Bool
  | .space | .newline | .indent _ => true
  | _ => false

/-- The tokens of a text without its layout. -/
def significant (tokens : List Token) : List Token := tokens.filter (!·.isLayout)

/-- A text has exactly one reading as a condition, of the given truth when the comparisons have theirs. -/
def HasTruth (v : List Token → Option Bool) (tokens : List Token) (t : Option Bool) : Prop :=
  ∃ c : Condition, (∀ c', Reading (.joined .or) (significant tokens) c' ↔ c' = c) ∧ c.truth v = t

theorem HasTruth.unique {v : List Token → Option Bool} {tokens : List Token} {t t' : Option Bool}
    (h : HasTruth v tokens t) (h' : HasTruth v tokens t') : t = t' := by
  obtain ⟨c, hc, rfl⟩ := h
  obtain ⟨c', hc', rfl⟩ := h'
  rw [(hc c').mp ((hc' c').mpr rfl)]

theorem Reading.hasTruth {level : Level} {tokens : List Token} {c : Condition}
    (h : Reading level (significant tokens) c) (v : List Token → Option Bool) : HasTruth v tokens (c.truth v) := by
  refine ⟨c, fun c' => ⟨fun h' => h'.unique h.loosest, ?_⟩, rfl⟩
  rintro rfl
  exact h.loosest

@[simp] theorem significant_append (a b : List Token) : significant (a ++ b) = significant a ++ significant b :=
  List.filter_append a b

theorem significant_layout {t : Token} (ht : t.isLayout = true) (rest : List Token) :
    significant (t :: rest) = significant rest := by
  simp [significant, ht]

theorem significant_cons {t : Token} (ht : t.isLayout = false) (rest : List Token) :
    significant (t :: rest) = t :: significant rest := by
  simp [significant, ht]

theorem Laid.balanced {tokens : List Token} (h : Laid tokens) : Balanced (significant tokens) := by
  have cons (t : Token) {rest : List Token} (hopen : t ≠ .lparen) (hclose : t ≠ .rparen)
      (h : Balanced (significant rest)) : Balanced (significant (t :: rest)) := by
    by_cases hlayout : t.isLayout = true
    · rwa [significant_layout hlayout]
    · rw [significant_cons (by simpa using hlayout)]
      exact h.cons hopen hclose
  induction h with
  | nil => exact .nil
  | gap ht _ ih => exact cons _ (by rintro rfl; cases ht) (by rintro rfl; cases ht) ih
  | whole ht _ _ ih => exact cons _ (by rintro rfl; cases ht) (by rintro rfl; cases ht) ih
  | qualified _ _ ih => exact cons _ nofun nofun (cons _ nofun nofun (cons _ nofun nofun ih))
  | @group body rest _ _ ihbody ih =>
    have h := ihbody.enclosed.append ih
    rw [List.append_assoc] at h
    rw [List.cons_append, significant_cons rfl, significant_append, significant_cons rfl]
    exact h

end RelQuery.Sql
