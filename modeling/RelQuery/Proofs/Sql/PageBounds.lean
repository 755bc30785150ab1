import RelQuery.Proofs.Sql.Spelling
import RelQuery.QuerySet

/-!
# Page bounds as they are written

The last clause of a statement holds the bounds of its page. A bound is a number of 64 bits, and what is written is the
signed number of the same bits: the bound itself below 2^63, and a negative number from there on.
-/

namespace RelQuery.Sql

/-- The number of the same 64 bits with a sign. -/
def signed (n : UInt64) : Int := if n.toNat < 2 ^ 63 then n.toNat else n.toNat - 2 ^ 64

theorem toInt_toInt64 (n : UInt64) : n.toInt64.toInt = signed n := by
  rw [← Int64.toInt_toBitVec, UInt64.toBitVec_toInt64, BitVec.toInt_eq_toNat_cond, UInt64.toNat_toBitVec, signed]
  split <;> split <;> omega

theorem signed_eq_toNat_iff {n : UInt64} : signed n = n.toNat ↔ n.toNat < 2 ^ 63 := by
  unfold signed
  split <;> omega

theorem signed_of_le {n : UInt64} (h : 2 ^ 63 ≤ n.toNat) : signed n = n.toNat - 2 ^ 64 ∧ signed n < 0 := by
  have hlt := n.toNat_lt
  unfold signed
  split <;> omega

def boundWords (keyword : String) : Option Int → List String
  | none => []
  | some n => [keyword, toString n]

/-- The limit that is written: the one asked for; in SQLite, which has no offset without a limit, -1 stands for none. -/
def writtenLimit (d : Dialect) (limit offset : Option UInt64) : Option Int :=
  match limit with
  | some l => some (signed l)
  | none => if d = .sqlite && offset.isSome then some (-1) else none

/-- The words of the clause that holds the bounds of a page. -/
def pageWords (d : Dialect) (limit offset : Option UInt64) : List String :=
  boundWords "LIMIT" (writtenLimit d limit offset) ++ boundWords "OFFSET" (offset.map signed)

/-- Tokens without parameters, with a space between each two, are written as their texts with blanks between them. -/
theorem renderFrom_intersperse (d : Dialect) (count : Nat) {tokens : List Token} (h : paramsOf tokens = []) :
    renderFrom d count (tokens.intersperse .space) = " ".intercalate (tokens.map (Token.text d count)) := by
  have hcons {t : Token} (ht : t.param? = none) (rest : List Token) :
      renderFrom d count (t :: rest) = t.text d count ++ renderFrom d count rest := by
    rw [renderFrom, ht, Option.isSome_none, if_neg Bool.false_ne_true]
  rw [paramsOf, List.filterMap_eq_nil_iff] at h
  induction tokens with
  | nil => rfl
  | cons t rest ih =>
    obtain ⟨ht, hrest⟩ := List.forall_mem_cons.mp h
    cases rest with
    | nil =>
      have hnil : renderFrom d count [] = "" := rfl
      rw [List.intersperse_singleton, List.map_singleton, String.intercalate_singleton, hcons ht, hnil,
        String.append_empty]
    | cons t' rest =>
      have hspace : Token.text d count .space = " " := rfl
      rw [List.intersperse_cons_cons, hcons ht, hcons rfl, ih hrest, hspace]
      simp only [List.map_cons, String.intercalate_cons_cons, String.append_assoc]

/-- Wherever it stands, the clause holds the keywords and numbers of its bounds. -/
theorem renderFrom_pageTokens (d : Dialect) (count : Nat) (limit offset : Option UInt64) :
    renderFrom d count (pageTokens d limit offset) = " ".intercalate (pageWords d limit offset) := by
  have written (tokens : List Token) (hparams : paramsOf tokens = [])
      (htokens : pageTokens d limit offset = tokens.intersperse .space)
      (hwords : tokens.map (Token.text d count) = pageWords d limit offset) :
      renderFrom d count (pageTokens d limit offset) = " ".intercalate (pageWords d limit offset) := by
    rw [htokens, renderFrom_intersperse d count hparams, hwords]
  have hbound (n : UInt64) : (boundToken n).text d count = toString (signed n) := by
    rw [← toInt_toInt64]
    rfl
  rcases limit with - | l <;> rcases offset with - | o
  · refine written [] rfl rfl ?_
    simp [pageWords, writtenLimit, boundWords]
  · by_cases hd : d = .sqlite
    · refine written [.limit, .litInt (-1), .offset, boundToken o] rfl (by simp [pageTokens, hd]) ?_
      rw [List.map_cons, List.map_cons, List.map_cons, List.map_singleton, hbound]
      simp [pageWords, writtenLimit, boundWords, hd, Token.text]
    · refine written [.offset, boundToken o] rfl (by simp [pageTokens, hd]) ?_
      rw [List.map_cons, List.map_singleton, hbound]
      simp [pageWords, writtenLimit, boundWords, hd, Token.text]
  · refine written [.limit, boundToken l] rfl rfl ?_
    rw [List.map_cons, List.map_singleton, hbound]
    rfl
  · refine written [.limit, boundToken l, .offset, boundToken o] rfl rfl ?_
    rw [List.map_cons, List.map_cons, List.map_cons, List.map_singleton, hbound, hbound]
    rfl

/-- The query without bounds. -/
def Query.unbounded (q : Query) : Query := { q with bounds := none }

theorem Query.tokens_eq_unbounded (d : Dialect) (q : Query) :
    q.tokens d = q.unbounded.tokens d ++
      if q.bounds.isSome then .newline :: pageTokens d q.limit q.offset else [] := by
  obtain ⟨select, table, joins, condition, groupBy, orderBy, bounds⟩ := q
  cases bounds <;> simp [Query.unbounded, Query.tokens, boundsTokens, Query.limit, Query.offset]

theorem Query.sql_eq_unbounded (d : Dialect) (q : Query) :
    (q.statement d).sql = (q.unbounded.statement d).sql ++
      if q.bounds.isSome then "\n" ++ " ".intercalate (pageWords d q.limit q.offset) else "" := by
  have hsql (q : Query) : (q.statement d).sql = renderFrom d 0 (q.tokens d) := rfl
  rw [hsql, hsql, Query.tokens_eq_unbounded, renderFrom_append]
  congr 1
  split
  · rw [renderFrom, renderFrom_pageTokens]
    rfl
  · rfl

end RelQuery.Sql

namespace RelQuery

open Sql

theorem QuerySet.toNat_saturatingMul (a b : UInt64) :
    (saturatingMul a b).toNat = min (a.toNat * b.toNat) (2 ^ 64 - 1) :=
  UInt64.toNat_ofNat_of_lt' (Nat.lt_of_le_of_lt (Nat.min_le_right _ _) (by decide))

/-- Pages are counted from one, and no page lies beyond the greatest number. -/
theorem QuerySet.toNat_offset_paginate (q : QuerySet) (page size : UInt64) :
    ∃ o, (q.paginate page size).offset = some o ∧
      o.toNat = min ((max page.toNat 1 - 1) * size.toNat) (2 ^ 64 - 1) := by
  have hpage : (max page 1 - 1).toNat = max page.toNat 1 - 1 := by
    have hmax : max page 1 = if page ≤ 1 then 1 else page := rfl
    rw [hmax]
    split
    · next hle =>
      have hone : page.toNat ≤ 1 := UInt64.le_iff_toNat_le.mp hle
      rw [UInt64.sub_self, max_eq_right hone]
      rfl
    · next hgt =>
      have hone : 1 < page.toNat := UInt64.lt_iff_toNat_lt.mp (UInt64.not_le.mp hgt)
      rw [UInt64.toNat_sub_of_le _ _ (UInt64.le_of_lt (UInt64.not_le.mp hgt)), max_eq_left hone.le]
      rfl
  exact ⟨_, rfl, by rw [toNat_saturatingMul, hpage]⟩

/-- The text of a query ends with the clause of its bounds, if it has any, and wherever that clause stands, in a query
of its own or for a page, it holds nothing but the keywords and the numbers: the limit, or -1 for none in SQLite, and
the offset. A bound below 2^63 is written as it is, and any other as the negative number of the same bits. The bounds
of a page by its number are its size and what the pages before it hold, as far as 64 bits go. -/
theorem page_bounds_written (d : Dialect) :
    (∀ q : Query, (q.statement d).sql = (q.unbounded.statement d).sql ++
        if q.bounds.isSome then "\n" ++ " ".intercalate (pageWords d q.limit q.offset) else "") ∧
      (∀ count limit offset,
        renderFrom d count (pageTokens d limit offset) = " ".intercalate (pageWords d limit offset)) ∧
      (∀ n : UInt64, (signed n = n.toNat ↔ n.toNat < 2 ^ 63) ∧
        (2 ^ 63 ≤ n.toNat → signed n = n.toNat - 2 ^ 64 ∧ signed n < 0)) ∧
      ∀ (q : QuerySet) (page size : UInt64), (q.paginate page size).limit = some size ∧
        ∃ o, (q.paginate page size).offset = some o ∧
          o.toNat = min ((max page.toNat 1 - 1) * size.toNat) (2 ^ 64 - 1) :=
  ⟨fun q => q.sql_eq_unbounded d, renderFrom_pageTokens d, fun _ => ⟨signed_eq_toNat_iff, signed_of_le⟩,
    fun q page size => ⟨rfl, q.toNat_offset_paginate page size⟩⟩

/-- From 2^63 on a bound is written with a minus sign, also one that a page by its number has. -/
theorem page_bounds_negative :
    render .postgres (pageTokens .postgres (some 9223372036854775808) none) = "LIMIT -9223372036854775808" ∧
      let q := (QuerySet.ofEntity ⟨0⟩).paginate 9223372036854775809 2
      q.offset = some 18446744073709551615 ∧
        render .sqlite (pageTokens .sqlite q.limit q.offset) = "LIMIT 2 OFFSET -1" := by
  decide

end RelQuery
