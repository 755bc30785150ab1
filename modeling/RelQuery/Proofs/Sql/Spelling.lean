import RelQuery.Proofs.Sql.Lexer

/-!
# Reading statements back

The text of a query, read by the rules of its dialect, gives the lexemes of its tokens, in order: the tokens are laid
out so that no two of them run together. The placeholders among the lexemes are numbered as the parameters are.
-/

namespace RelQuery.Sql

theorem broken_renderFrom {tokens : List Token} (h : Fenced tokens) (d : Dialect) (count : Nat) :
    Broken (renderFrom d count tokens).toList := by
  cases tokens with
  | nil => exact broken_nil
  | cons t rest =>
    rw [renderFrom, String.toList_append]
    exact Token.broken_text (h t rfl) d _ _

/-- The number of parameters among tokens comes on top of the count. -/
theorem count_add_paramsOf (count : Nat) (t : Token) (rest : List Token) :
    count + (paramsOf (t :: rest)).length
      = (if t.param?.isSome then count + 1 else count) + (paramsOf rest).length := by
  cases h : t.param? with
  | none => simp [paramsOf, h]
  | some v => simp [paramsOf, h]; omega

theorem renderFrom_append (d : Dialect) (a b : List Token) (count : Nat) :
    renderFrom d count (a ++ b) = renderFrom d count a ++ renderFrom d (count + (paramsOf a).length) b := by
  induction a generalizing count with
  | nil => rw [List.nil_append, renderFrom, String.empty_append, paramsOf, List.filterMap_nil, List.length_nil, Nat.add_zero]
  | cons t rest ih => rw [List.cons_append, renderFrom, renderFrom, ih, count_add_paramsOf, String.append_assoc]

theorem lexemesFrom_append (d : Dialect) (a b : List Token) (count : Nat) :
    lexemesFrom d count (a ++ b) = lexemesFrom d count a ++ lexemesFrom d (count + (paramsOf a).length) b := by
  induction a generalizing count with
  | nil => rfl
  | cons t rest ih => rw [List.cons_append, lexemesFrom, lexemesFrom, ih, count_add_paramsOf, List.append_assoc]

theorem reads_cons {d : Dialect} {t : Token} {tokens : List Token} {count : Nat} {rest : List Char}
    (ht : ∀ index, Reads d (t.text d index).toList (t.lexemes d index)
      ((renderFrom d (if t.param?.isSome then count + 1 else count) tokens).toList ++ rest))
    (htokens : ∀ count, Reads d (renderFrom d count tokens).toList (lexemesFrom d count tokens) rest) :
    Reads d (renderFrom d count (t :: tokens)).toList (lexemesFrom d count (t :: tokens)) rest := by
  rw [renderFrom, lexemesFrom, String.toList_append]
  exact (ht _).append (htokens _)

/-- The text of tokens that are laid out is read as their lexemes, in order. -/
theorem reads_renderFrom {d : Dialect} {tokens : List Token} (h : Laid tokens)
    (hletters : ∀ t ∈ tokens, t.isLettered = true) {rest : List Char} (hrest : Broken rest) (count : Nat) :
    Reads d (renderFrom d count tokens).toList (lexemesFrom d count tokens) rest := by
  -- what comes after a group is closed by a parenthesis, so the rest of the text differs inside it
  induction h generalizing rest count with
  | nil => exact reads_nil
  | gap ht _ ih =>
    have hmore := ih (fun t ht => hletters t (List.mem_cons_of_mem _ ht)) hrest
    exact reads_cons (Token.reads_gap ht) hmore
  | whole ht hfence _ ih =>
    have hmore := ih (fun t ht => hletters t (List.mem_cons_of_mem _ ht)) hrest
    have hbroken (count : Nat) := forall_mem_head?_append (broken_renderFrom hfence d count) hrest
    exact reads_cons (fun index => Token.reads_whole ht (hletters _ List.mem_cons_self) index (hbroken _)) hmore
  | @qualified table name tokens hfence _ ih =>
    have hmore := ih (fun t ht => hletters t (by simp [ht])) hrest count
    have hbroken := forall_mem_head?_append (broken_renderFrom hfence d count) hrest
    have hdot : ".".toList = ['.'] := by decide
    have htext : (renderFrom d count (.ident table :: .dot :: .ident name :: tokens)).toList
        = Quotation.name.quote d table ++ '.' :: Quotation.name.quote d name ++ (renderFrom d count tokens).toList := by
      simp [renderFrom, Token.text, Token.param?, toList_quoteIdent, hdot]
    exact htext ▸ (reads_qualified table name hbroken).append hmore
  | @group body tokens hbody _ ihbody ih =>
    have hmore := ih (fun t ht => hletters t (by simp [ht])) hrest
    have hclosing (count : Nat) : Reads d (renderFrom d count (.rparen :: tokens)).toList
        (lexemesFrom d count (.rparen :: tokens)) rest := reads_cons Token.reads_rparen hmore
    have hbroken (count : Nat) : Broken ((renderFrom d count (.rparen :: tokens)).toList ++ rest) :=
      forall_mem_head?_append (broken_renderFrom (fenced_cons rfl) d count) hrest
    rw [List.cons_append]
    refine reads_cons Token.reads_lparen fun count => ?_
    have hinner : ∀ t ∈ body, t.isLettered = true := fun t ht => hletters t (by simp [ht])
    rw [renderFrom_append, lexemesFrom_append, String.toList_append]
    exact (ihbody hinner (hbroken _) count).append (hclosing _)

theorem filter_isPlaceholder_lexemes (d : Dialect) (index : Nat) (t : Token) :
    (t.lexemes d index).filter Lexeme.isPlaceholder = if t.param?.isSome then [d.placeholderLexeme index] else [] := by
  have hbool (b : Bool) : [d.boolLexeme b].filter Lexeme.isPlaceholder = [] := by cases d <;> rfl
  cases t with
  | true_ => exact hbool true
  | false_ => exact hbool false
  | litBool b => exact hbool b
  | function name =>
    rw [Token.lexemes]
    split <;> rfl
  | _ => rfl

/-- The placeholders among the lexemes are those of the parameters, numbered in order. -/
theorem filter_isPlaceholder_lexemesFrom (d : Dialect) (tokens : List Token) (count : Nat) :
    (lexemesFrom d count tokens).filter Lexeme.isPlaceholder
      = (List.range' (count + 1) (paramsOf tokens).length).map d.placeholderLexeme := by
  induction tokens generalizing count with
  | nil => rfl
  | cons t rest ih =>
    rw [lexemesFrom, List.filter_append, filter_isPlaceholder_lexemes, ih]
    cases h : t.param? with
    | none => simp [paramsOf, h]
    | some v => simp [paramsOf, h, List.range'_succ]

theorem lex_of_laid {d : Dialect} {tokens : List Token} (h : Laid tokens)
    (hletters : ∀ t ∈ tokens, t.isLettered = true) : lex d (render d tokens) = some (lexemesFrom d 0 tokens) := by
  have hread : Reads d (render d tokens).toList (lexemesFrom d 0 tokens) [] := reads_renderFrom h hletters broken_nil 0
  rw [Reads, List.append_nil] at hread
  rw [lex, hread]
  simp [lexFrom, Mode.finish_between]

/-- The text of a query whose functions have names of ASCII letters, read by the rules of the dialect, gives exactly the
lexemes of its tokens. Its placeholders are numbered in order, one for each parameter, and the parameters are those of the
tokens, in order. -/
theorem Query.lex_statement (d : Dialect) (q : Query) (hletters : ∀ t ∈ q.tokens d, t.isLettered = true) :
    lex d (q.statement d).sql = some (lexemesFrom d 0 (q.tokens d)) ∧
      (lexemesFrom d 0 (q.tokens d)).filter Lexeme.isPlaceholder
        = (List.range' 1 (q.statement d).params.length).map d.placeholderLexeme ∧
      (q.statement d).params = (q.tokens d).filterMap Token.param? :=
  ⟨lex_of_laid (Query.laid d q) hletters, filter_isPlaceholder_lexemesFrom d _ 0, rfl⟩

/-- A query over the rows of another one, with quotes and backslashes in its names and texts. -/
def quotesQuery : Query :=
  let rows : Query := ⟨[⟨.column none "\x60", none⟩], some (.ofTable "r"), [],
    some (.binary .eq (.column none "it's") (.param (.int 7))), [], [], none⟩
  ⟨[⟨.lowered (.col "a.b" "n\x60m\x60"), none⟩], some (.ofQuery rows "a.b"), [],
    some (.inList (.column none "y") [.literal (.text "\\'' ? \\"), .param (.text "'")] true), [], [],
    some ⟨some 1, none⟩⟩

theorem Query.lex_statement_quotes :
    (∀ t ∈ quotesQuery.tokens .mysql, t.isLettered = true) ∧
      lex .mysql (quotesQuery.statement .mysql).sql = some [
        .word "SELECT", .word "LOWER", .symbol "(", .name "a.b", .symbol ".", .name "n\x60m\x60", .symbol ")",
        .word "FROM", .symbol "(", .word "SELECT", .name "\x60", .word "FROM", .name "r", .word "WHERE", .name "it's",
        .symbol "=", .placeholder none, .symbol ")", .word "AS", .name "a.b", .word "WHERE", .name "y", .word "NOT",
        .word "IN", .symbol "(", .text "\\'' ? \\", .symbol ",", .placeholder none, .symbol ")", .word "LIMIT", .int 1] ∧
      (quotesQuery.statement .mysql).params = [.int 7, .text "'"] :=
  have hletters : ∀ t ∈ quotesQuery.tokens .mysql, t.isLettered = true := by decide
  have h := Query.lex_statement .mysql quotesQuery hletters
  ⟨hletters, h.1, h.2.2⟩

end RelQuery.Sql
