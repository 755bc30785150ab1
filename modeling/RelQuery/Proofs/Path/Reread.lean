import RelQuery.Proofs.Path

/-!
# Rereading paths

A path that was read from a text is written with two underscores between its segments, also where a point stood before.
A segment that ends with an underscore then runs into the separator after it: the first two underscores separate, and
the last one goes over to the next segment. This is the only way in which a path is not read back, and it takes a point
right after an underscore in what was read.
-/

namespace RelQuery

/-- A name as reading gives it: not empty, and without separators. It may end with an underscore. -/
structure Unsplit (name : String) : Prop where
  point : '.' ∉ name.toList
  underscores : ¬ ['_', '_'] <:+: name.toList
  ne_empty : name ≠ ""

theorem unsplit_segmentsOf {raw name : String} (h : name ∈ segmentsOf raw) : Unsplit name := by
  obtain ⟨⟨hpoint, hunder⟩, hne⟩ := unsplit_of_mem_segmentsOf h
  exact ⟨hpoint, hunder, hne⟩

/-- Such segments are read back exactly when none before the last ends with an underscore. -/
theorem segmentsOf_joinSegments_iff_getLast? {segments : List String} (hunsplit : ∀ name ∈ segments, Unsplit name) :
    segmentsOf (joinSegments segments) = segments ↔
      ∀ name ∈ segments.dropLast, name.toList.getLast? ≠ some '_' := by
  rcases List.eq_nil_or_concat' segments with rfl | ⟨init, last, rfl⟩
  · exact ⟨fun _ => List.forall_mem_nil _, fun _ => rfl⟩
  · rw [List.dropLast_concat]
    have hne : init ++ [last] ≠ [] := List.append_ne_nil_of_right_ne_nil _ (List.cons_ne_nil _ _)
    refine ⟨fun h => getLast?_of_pieces (pieces_of_segmentsOf hne h), fun h => ?_⟩
    have hinit : ∀ name ∈ init, Separable name := fun name hname =>
      have hname' := hunsplit name (List.mem_append_left _ hname)
      ⟨h name hname, hname'.underscores, hname'.point⟩
    have hlast := hunsplit last (List.mem_append_right _ (List.mem_singleton_self last))
    have hpieces := pieces_joinSegments_concat hinit hlast.underscores hlast.point
    exact segmentsOf_of_pieces hpieces fun name hname => (hunsplit name hname).ne_empty

theorem mem_dropLast_of_filter {α : Type} {keep : α → Bool} {l : List α} {a : α} (h : a ∈ (l.filter keep).dropLast) :
    a ∈ l.dropLast := by
  rcases List.eq_nil_or_concat' l with rfl | ⟨init, last, rfl⟩
  · cases h
  · rw [List.dropLast_concat]
    rw [List.filter_append, List.filter_singleton] at h
    cases hlast : keep last with
    | false =>
      rw [hlast, cond_false, List.append_nil] at h
      exact List.mem_of_mem_filter (List.mem_of_mem_dropLast h)
    | true =>
      rw [hlast, cond_true, List.dropLast_concat] at h
      exact List.mem_of_mem_filter h

/-- A piece before the last ends with an underscore only if a point comes after it. -/
theorem point_after_underscore {text piece : List Char} (h : piece ∈ (pieces text).dropLast)
    (hlast : piece.getLast? = some '_') : ['_', '.'] <:+: text := by
  induction hlen : text.length using Nat.strongRecOn generalizing text with
  | _ n ih =>
    obtain ⟨first, more, hpieces⟩ := List.exists_cons_of_ne_nil (pieces_ne_nil text)
    rw [hpieces] at h
    obtain ⟨-, ⟨-, rfl⟩ | ⟨rest, rfl, rfl⟩ | ⟨rest, rfl, hfirst, rfl⟩⟩ := pieces_eq_cons hpieces
    · cases h
    · rw [List.dropLast_cons_of_ne_nil (pieces_ne_nil rest)] at h
      rcases List.mem_cons.mp h with rfl | h
      · obtain ⟨init, rfl⟩ := List.getLast?_eq_some_iff.mp hlast
        exact ⟨init, rest, by simp⟩
      · have hrest := ih rest.length (by simp at hlen; omega) h rfl
        exact hrest.trans ⟨first ++ ['.'], [], by simp⟩
    · rw [List.dropLast_cons_of_ne_nil (pieces_ne_nil rest)] at h
      rcases List.mem_cons.mp h with rfl | h
      · exact absurd hlast hfirst
      · have hrest := ih rest.length (by simp at hlen; omega) h rfl
        exact hrest.trans ⟨first ++ ['_', '_'], [], by simp⟩

/-- Where no point follows an underscore, no segment before the last ends with an underscore. -/
theorem getLast?_of_mem_dropLast {raw name : String} (h : ¬ ['_', '.'] <:+: raw.toList)
    (hname : name ∈ (segmentsOf raw).dropLast) : name.toList.getLast? ≠ some '_' := by
  intro hlast
  rw [segmentsOf, ← List.map_dropLast] at hname
  obtain ⟨piece, hpiece, rfl⟩ := List.mem_map.mp hname
  rw [String.toList_ofList] at hlast
  exact h (point_after_underscore (mem_dropLast_of_filter hpiece) hlast)

namespace Path

/-- No segment before the last runs into the separator that is written after it. -/
def KeptApart (p : Path) : Prop := ∀ name ∈ p.segments.dropLast, name.toList.getLast? ≠ some '_'

instance (p : Path) : Decidable p.KeptApart :=
  inferInstanceAs (Decidable (∀ name ∈ p.segments.dropLast, name.toList.getLast? ≠ some '_'))

theorem parse_text_eq_iff {p : Path} (h : ∀ name ∈ p.segments, Unsplit name) : parse p.text = p ↔ p.KeptApart := by
  cases p with
  | mk segments =>
    rw [parse, mk.injEq]
    exact segmentsOf_joinSegments_iff_getLast? h

theorem keptApart_parse {raw : String} (h : ¬ ['_', '.'] <:+: raw.toList) : (parse raw).KeptApart := fun _ hname =>
  getLast?_of_mem_dropLast h hname

theorem unsplit_parse (raw : String) : ∀ name ∈ (parse raw).segments, Unsplit name := fun _ => unsplit_segmentsOf

/-- The text of a path that was read holds no point. -/
theorem point_not_mem_text_parse (raw : String) : '.' ∉ (parse raw).text.toList :=
  point_not_mem_joinSegments fun name hname => (unsplit_parse raw name hname).point

/-- The segments of a path that was read are not empty and hold no separator. The text of each path with such segments
is read as this path exactly when no segment before the last ends with an underscore. That is so whenever no point
follows an underscore in what was read, and so it is for the text of each path: reading and writing a second time
changes nothing. Paths that are read back are told apart by their texts. -/
theorem parse_text_parse (raw : String) :
    (∀ name ∈ (parse raw).segments, Unsplit name) ∧
      (∀ p : Path, (∀ name ∈ p.segments, Unsplit name) → (parse p.text = p ↔ p.KeptApart)) ∧
      (¬ ['_', '.'] <:+: raw.toList → parse (parse raw).text = parse raw) ∧
      parse (parse (parse raw).text).text = parse (parse raw).text ∧
      ∀ other, (parse raw).KeptApart → (parse other).KeptApart → (parse other).text = (parse raw).text →
        parse other = parse raw := by
  have hread (raw : String) : parse (parse raw).text = parse raw ↔ (parse raw).KeptApart :=
    parse_text_eq_iff (unsplit_parse raw)
  refine ⟨unsplit_parse raw, fun p => parse_text_eq_iff, fun h => (hread raw).mpr (keptApart_parse h), ?_,
    fun other h hother htext => ?_⟩
  · refine (hread _).mpr (keptApart_parse fun hin => point_not_mem_text_parse raw ?_)
    exact hin.subset (List.mem_cons_of_mem _ (List.mem_singleton_self '.'))
  · calc parse other = parse (parse other).text := ((hread other).mpr hother).symm
      _ = parse (parse raw).text := by rw [htext]
      _ = parse raw := (hread raw).mpr h

/-- Underscores at the start of a segment and at the end of the last one are no obstacle. -/
theorem parse_text_parse_underscores :
    ¬ ['_', '.'] <:+: "posts._tags.owner_".toList ∧
      parse (parse "posts._tags.owner_").text = parse "posts._tags.owner_" ∧
      (parse "posts___tags__.owner_").text = (parse "posts._tags.owner_").text ∧
      parse "posts___tags__.owner_" = parse "posts._tags.owner_" := by
  obtain ⟨hunsplit, hiff, hread, -, hapart⟩ := parse_text_parse "posts._tags.owner_"
  have hpoint : ¬ ['_', '.'] <:+: "posts._tags.owner_".toList := by decide
  have hkept : (parse "posts._tags.owner_").KeptApart := (hiff _ hunsplit).mp (hread hpoint)
  have hother : (parse "posts___tags__.owner_").KeptApart := by decide
  have htext : (parse "posts___tags__.owner_").text = (parse "posts._tags.owner_").text := by decide
  exact ⟨hpoint, hread hpoint, htext, hapart _ hkept hother htext⟩

/-- An underscore before a point goes over to the next segment, so that two paths have one text. -/
theorem parse_text_ne :
    parse (parse "a_.b").text ≠ parse "a_.b" ∧
      parse "a_.b" ≠ parse "a._b" ∧ (parse "a_.b").text = (parse "a._b").text := by
  decide

end Path

end RelQuery
