import Mathlib.Data.List.Infix
import RelQuery.Filter.Predicate

/-!
# Matching texts by patterns

In a pattern a percent sign stands for any run of characters and an underscore for any one. The escape character takes
that meaning from the character after it. Escaping a text puts it before every character that has one, so what is left
to match is the text itself, wherever it stands in the pattern.
-/

namespace RelQuery

/-- Whether a text matches a pattern, compared by case. An escape character that ends the pattern stands for itself. -/
def likeMatches : List Char → List Char → Bool
  | [], text => text.isEmpty
  | '%' :: pattern, text => text.tails.any (likeMatches pattern)
  | '_' :: pattern, text => text.tail?.any (likeMatches pattern)
  | '\\' :: c :: pattern, text => text.head? == some c && likeMatches pattern text.tail
  | c :: pattern, text => text.head? == some c && likeMatches pattern text.tail

theorem likeMatches_nil {text : List Char} : likeMatches [] text = true ↔ text = [] := by
  rw [likeMatches, List.isEmpty_iff]

/-- A percent sign skips any number of characters. -/
theorem likeMatches_run {pattern text : List Char} :
    likeMatches ('%' :: pattern) text = true ↔ ∃ rest, rest <:+ text ∧ likeMatches pattern rest = true := by
  simp only [likeMatches, List.any_eq_true, List.mem_tails]

theorem head?_and_tail {c : Char} {text : List Char} {p : List Char → Bool} :
    (text.head? == some c && p text.tail) = true ↔ ∃ rest, text = c :: rest ∧ p rest = true := by
  cases text with
  | nil => simp
  | cons d rest =>
    simp only [List.head?_cons, List.tail_cons, Bool.and_eq_true, beq_iff_eq, Option.some.injEq, List.cons.injEq]
    exact ⟨fun ⟨hd, hp⟩ => ⟨rest, ⟨hd, rfl⟩, hp⟩, fun ⟨_, ⟨hd, htail⟩, hp⟩ => ⟨hd, htail ▸ hp⟩⟩

/-- An escaped character stands for itself, and so does any other that has no meaning of its own. -/
theorem likeMatches_escaped {c : Char} {pattern text : List Char} :
    likeMatches (likeEscape :: c :: pattern) text = true ↔ ∃ rest, text = c :: rest ∧ likeMatches pattern rest = true := by
  rw [likeEscape, likeMatches, head?_and_tail]

theorem likeMatches_plain {c : Char} (hc : isPatternChar c = false) {pattern text : List Char} :
    likeMatches (c :: pattern) text = true ↔ ∃ rest, text = c :: rest ∧ likeMatches pattern rest = true := by
  have hplain : c ≠ '\\' ∧ c ≠ '%' ∧ c ≠ '_' := by
    refine ⟨?_, ?_, ?_⟩ <;> rintro rfl <;> exact absurd hc (by decide)
  obtain ⟨hescape, hrun, hone⟩ := hplain
  rw [likeMatches, head?_and_tail]
  · exact hrun
  · exact hone
  · exact fun _ _ he _ => hescape he

/-- An escaped text matches itself, whatever follows it in the pattern. -/
theorem likeMatches_escapeLikeChars {raw pattern text : List Char} :
    likeMatches (escapeLikeChars raw ++ pattern) text = true ↔
      ∃ rest, text = raw ++ rest ∧ likeMatches pattern rest = true := by
  induction raw generalizing text with
  | nil => simp [escapeLikeChars]
  | cons c raw ih =>
    have hstep : likeMatches (escapeLikeChars (c :: raw) ++ pattern) text = true ↔
        ∃ rest, text = c :: rest ∧ likeMatches (escapeLikeChars raw ++ pattern) rest = true := by
      rw [escapeLikeChars, List.flatMap_cons, List.append_assoc]
      cases hc : isPatternChar c with
      | true => exact likeMatches_escaped
      | false => exact likeMatches_plain hc
    rw [hstep]
    constructor
    · rintro ⟨rest, rfl, hrest⟩
      obtain ⟨after, rfl, hafter⟩ := ih.mp hrest
      exact ⟨after, rfl, hafter⟩
    · rintro ⟨after, rfl, hafter⟩
      exact ⟨raw ++ after, rfl, ih.mpr ⟨after, rfl, hafter⟩⟩

theorem likeMatches_any_rest {text : List Char} : likeMatches ['%'] text = true := by
  rw [likeMatches_run]
  exact ⟨[], List.nil_suffix, likeMatches_nil.mpr rfl⟩

theorem likeMatches_prefix_iff {raw text : List Char} :
    likeMatches (escapeLikeChars raw ++ ['%']) text = true ↔ raw <+: text := by
  rw [likeMatches_escapeLikeChars]
  simp only [likeMatches_any_rest, and_true]
  exact exists_congr fun _ => eq_comm

theorem likeMatches_whole_iff {raw text : List Char} : likeMatches (escapeLikeChars raw) text = true ↔ text = raw := by
  have h : likeMatches (escapeLikeChars raw ++ []) text = true ↔ _ := likeMatches_escapeLikeChars
  simpa [likeMatches_nil] using h

theorem likeMatches_suffix_iff {raw text : List Char} :
    likeMatches ('%' :: escapeLikeChars raw) text = true ↔ raw <:+ text := by
  simp only [likeMatches_run, likeMatches_whole_iff, exists_eq_right]

theorem likeMatches_infix_iff {raw text : List Char} :
    likeMatches ('%' :: escapeLikeChars raw ++ ['%']) text = true ↔ raw <:+: text := by
  rw [List.cons_append, likeMatches_run, List.infix_iff_prefix_suffix]
  simp only [likeMatches_prefix_iff, and_comm]

/-- Lookups by the operator find just the texts that the value stands in this relation to: the value is bound to a
pattern that they match and no others, and the column is compared with it as it is, under the same escape character. -/
def Operator.Finds (op : Operator) (Within : List Char → List Char → Prop) : Prop :=
  ∀ (s : Schema) (e : Entity) (lookup raw : String), ∃ pattern : String,
    ValueRef.bind s e lookup op (.scalar (.text raw)) = .ok (.one (.text pattern)) ∧
      (∀ path column expr, (⟨lookup, path, column, op, .one (.text pattern)⟩ : BoundCond).comparison? expr =
        some (.like expr (.param (.text pattern)) likeEscape false false)) ∧
      ∀ text : String, likeMatches pattern.toList text.toList = true ↔ Within raw.toList text.toList

/-- Text operators find a text literally: anywhere, at the start, or at the end. No character of it stands for others,
and none changes the meaning of what follows it in the pattern. -/
theorem text_found_literally :
    Operator.contains.Finds (· <:+: ·) ∧ Operator.startswith.Finds (· <+: ·) ∧ Operator.endswith.Finds (· <:+ ·) ∧
      ∀ raw text : String, ∀ pattern : List Char,
        likeMatches ((escapeLike raw).toList ++ pattern) text.toList = true ↔
          ∃ rest, text.toList = raw.toList ++ rest ∧ likeMatches pattern rest = true := by
  refine ⟨fun s e lookup raw => ⟨_, rfl, fun _ _ _ => rfl, fun text => ?_⟩,
    fun s e lookup raw => ⟨_, rfl, fun _ _ _ => rfl, fun text => ?_⟩,
    fun s e lookup raw => ⟨_, rfl, fun _ _ _ => rfl, fun text => ?_⟩, fun raw text pattern => ?_⟩
  · simp only [Operator.pattern, String.toList_ofList]
    exact likeMatches_infix_iff
  · simp only [Operator.pattern, String.toList_ofList]
    exact likeMatches_prefix_iff
  · simp only [Operator.pattern, String.toList_ofList]
    exact likeMatches_suffix_iff
  · rw [escapeLike, String.toList_ofList]
    exact likeMatches_escapeLikeChars

/-- A percent sign and an escape character in the text that is looked for are found as they are, and stand for nothing else. -/
example :
    likeMatches ('%' :: escapeLikeChars ['5', '%', '\\'] ++ ['%']) ['a', '5', '%', '\\', 'b'] = true ∧
      likeMatches ('%' :: escapeLikeChars ['5', '%', '\\'] ++ ['%']) ['a', '5', '0', '%', 'b'] = false := by
  decide

end RelQuery
