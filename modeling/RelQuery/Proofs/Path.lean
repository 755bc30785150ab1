import Mathlib.Data.List.Infix
import RelQuery.Path

/-!
# Written paths

Segments that hold no separator, and no underscore at an end, can be read back from the written path, and no others
before the last one can. So paths of such segments are told apart by how they are written.
-/

namespace RelQuery

/-- The name neither starts nor ends with an underscore, and holds nothing that separates the segments of a path. -/
structure PlainName (name : String) : Prop where
  start : name.toList.head? ≠ some '_'
  ending : name.toList.getLast? ≠ some '_'
  underscores : ¬ ['_', '_'] <:+: name.toList
  point : '.' ∉ name.toList

instance (name : String) : Decidable (PlainName name) :=
  decidable_of_iff
    (name.toList.head? ≠ some '_' ∧ name.toList.getLast? ≠ some '_' ∧ ¬ ['_', '_'] <:+: name.toList ∧ '.' ∉ name.toList)
    ⟨fun h => ⟨h.1, h.2.1, h.2.2.1, h.2.2.2⟩, fun h => ⟨h.start, h.ending, h.underscores, h.point⟩⟩

/-- The name holds nothing that separates the segments of a path, also not together with a separator after it. -/
structure Separable (name : String) : Prop where
  ending : name.toList.getLast? ≠ some '_'
  underscores : ¬ ['_', '_'] <:+: name.toList
  point : '.' ∉ name.toList

theorem PlainName.separable {name : String} (h : PlainName name) : Separable name := ⟨h.ending, h.underscores, h.point⟩

/-- The name is a single segment of a path and does not end with an underscore. -/
structure SegmentName (name : String) : Prop extends Separable name where
  ne_empty : name ≠ ""

instance (name : String) : Decidable (SegmentName name) :=
  decidable_of_iff
    ((name.toList.getLast? ≠ some '_' ∧ ¬ ['_', '_'] <:+: name.toList ∧ '.' ∉ name.toList) ∧ name ≠ "")
    ⟨fun h => ⟨⟨h.1.1, h.1.2.1, h.1.2.2⟩, h.2⟩, fun h => ⟨⟨h.ending, h.underscores, h.point⟩, h.ne_empty⟩⟩

/-! ### Pieces -/

/-- A character that does not begin a separator belongs to the next piece. -/
theorem pieces_cons {c : Char} {text piece : List Char} {more : List (List Char)} (hpoint : c ≠ '.')
    (hunder : c = '_' → text.head? ≠ some '_') (h : pieces text = piece :: more) :
    pieces (c :: text) = (c :: piece) :: more := by
  rw [pieces, h]
  · intro rest hc htext
    exact hunder hc (by rw [htext]; rfl)
  · exact hpoint

/-- What holds no separator belongs to the next piece, unless it makes one together with what comes next. -/
theorem pieces_append {name text piece : List Char} {more : List (List Char)}
    (hlast : name.getLast? = some '_' → text.head? ≠ some '_') (hunder : ¬ ['_', '_'] <:+: name) (hpoint : '.' ∉ name)
    (h : pieces text = piece :: more) : pieces (name ++ text) = (name ++ piece) :: more := by
  induction name with
  | nil => exact h
  | cons c rest ih =>
    rw [List.mem_cons, not_or] at hpoint
    refine pieces_cons (fun hc => hpoint.1 hc.symm) (fun hc => ?_) (ih ?_ ?_ hpoint.2)
    · cases rest with
      | nil => exact hlast (congrArg some hc)
      | cons d rest =>
        intro hd
        cases hd
        exact hunder ⟨[], rest, by rw [hc]; rfl⟩
    · cases rest with
      | nil => exact fun hnone => by cases hnone
      | cons d rest => rwa [List.getLast?_cons_cons] at hlast
    · exact fun hin => hunder (hin.trans (List.suffix_cons c rest).isInfix)

theorem pieces_eq_singleton {name : List Char} (hunder : ¬ ['_', '_'] <:+: name) (hpoint : '.' ∉ name) :
    pieces name = [name] := by
  have h : pieces (name ++ []) = (name ++ []) :: [] := pieces_append (fun _ => nofun) hunder hpoint rfl
  rwa [List.append_nil] at h

theorem joinSegments_cons {name : String} {rest : List String} (h : rest ≠ []) :
    (joinSegments (name :: rest)).toList = name.toList ++ '_' :: '_' :: (joinSegments rest).toList := by
  obtain ⟨next, rest, rfl⟩ := List.exists_cons_of_ne_nil h
  rw [joinSegments, String.intercalate_cons_cons, ← joinSegments, String.toList_append, String.toList_append,
    List.append_assoc]
  rfl

/-- The last segment may end with an underscore, since no separator comes after it. -/
theorem pieces_joinSegments_concat {segments : List String} {last : String}
    (hnames : ∀ name ∈ segments, Separable name) (hunder : ¬ ['_', '_'] <:+: last.toList) (hpoint : '.' ∉ last.toList) :
    pieces (joinSegments (segments ++ [last])).toList = (segments ++ [last]).map String.toList := by
  induction segments with
  | nil =>
    rw [List.nil_append, joinSegments, String.intercalate_singleton, pieces_eq_singleton hunder hpoint]
    rfl
  | cons name rest ih =>
    obtain ⟨hname, hrest⟩ := List.forall_mem_cons.mp hnames
    have hne : rest ++ [last] ≠ [] := List.append_ne_nil_of_right_ne_nil _ (List.cons_ne_nil _ _)
    have hsep : pieces ('_' :: '_' :: (joinSegments (rest ++ [last])).toList) =
        [] :: (rest ++ [last]).map String.toList := by
      rw [← ih hrest]
      rfl
    rw [List.cons_append, joinSegments_cons hne,
      pieces_append (fun h => absurd h hname.ending) hname.underscores hname.point hsep, List.append_nil]
    rfl

theorem pieces_joinSegments {segments : List String} (hne : segments ≠ [])
    (hplain : ∀ name ∈ segments, Separable name) :
    pieces (joinSegments segments).toList = segments.map String.toList := by
  obtain ⟨init, last, rfl⟩ := (List.eq_nil_or_concat' segments).resolve_left hne
  obtain ⟨hinit, hlast⟩ := List.forall_mem_append.mp hplain
  have hlast := hlast last (List.mem_singleton_self last)
  exact pieces_joinSegments_concat hinit hlast.underscores hlast.point

/-- Segments that are all pieces, and not empty, are read back. -/
theorem segmentsOf_of_pieces {segments : List String} (hpieces : pieces (joinSegments segments).toList =
    segments.map String.toList) (hnames : ∀ name ∈ segments, name ≠ "") :
    segmentsOf (joinSegments segments) = segments := by
  have hkept : ((segments.map String.toList).filter (!·.isEmpty)) = segments.map String.toList := by
    refine List.filter_eq_self.mpr (List.forall_mem_map.mpr fun name hname => ?_)
    rw [Bool.not_eq_true', List.isEmpty_eq_false_iff]
    exact fun h => hnames name hname (String.toList_eq_nil_iff.mp h)
  unfold segmentsOf
  rw [hpieces, hkept, List.map_map]
  exact (List.map_congr_left fun name _ => String.ofList_toList).trans (List.map_id' _)

theorem segmentsOf_joinSegments {segments : List String} (hne : segments ≠ [])
    (hnames : ∀ name ∈ segments, SegmentName name) : segmentsOf (joinSegments segments) = segments :=
  segmentsOf_of_pieces (pieces_joinSegments hne fun name hname => (hnames name hname).toSeparable) fun name hname =>
    (hnames name hname).ne_empty

/-- Paths of separable names are told apart by how they are written. -/
theorem Path.eq_of_text_eq {p q : Path} (hp : p ≠ .root) (hq : q ≠ .root) (hpp : ∀ name ∈ p.segments, Separable name)
    (hqp : ∀ name ∈ q.segments, Separable name) (h : p.text = q.text) : p = q := by
  obtain ⟨ps⟩ := p
  obtain ⟨qs⟩ := q
  have hps : ps ≠ [] := fun he => hp (congrArg Path.mk he)
  have hqs : qs ≠ [] := fun he => hq (congrArg Path.mk he)
  have hpieces := pieces_joinSegments hps hpp
  rw [show joinSegments ps = joinSegments qs from h, pieces_joinSegments hqs hqp] at hpieces
  exact congrArg Path.mk (List.map_injective_iff.mpr (fun _ _ => String.toList_inj.mp) hpieces).symm

theorem pieces_ne_nil (text : List Char) : pieces text ≠ [] := by
  induction text using pieces.induct with
  | case1 => simp [pieces]
  | case2 rest ih => simp [pieces]
  | case3 rest ih => simp [pieces]
  | case4 c rest hunder hpoint hnone ih => exact absurd hnone ih
  | case5 c rest hunder hpoint first others hfirst ih =>
    rw [pieces, hfirst]
    · exact List.cons_ne_nil _ _
    · exact hunder
    · exact hpoint

/-- How a text begins: with a piece, and then it ends or a separator comes. Of underscores the first two separate, so the
piece before them does not end with one. -/
theorem pieces_eq_cons {text piece : List Char} {more : List (List Char)} (h : pieces text = piece :: more) :
    ('.' ∉ piece ∧ ¬ ['_', '_'] <:+: piece) ∧
      ((text = piece ∧ more = []) ∨ (∃ rest, text = piece ++ '.' :: rest ∧ more = pieces rest) ∨
        ∃ rest, text = piece ++ '_' :: '_' :: rest ∧ piece.getLast? ≠ some '_' ∧ more = pieces rest) := by
  have hnil : '.' ∉ ([] : List Char) ∧ ¬ ['_', '_'] <:+: ([] : List Char) := by decide
  induction text using pieces.induct generalizing piece more with
  | case1 =>
    cases h
    exact ⟨hnil, .inl ⟨rfl, rfl⟩⟩
  | case2 rest ih =>
    cases h
    exact ⟨hnil, .inr (.inr ⟨rest, rfl, by simp, rfl⟩)⟩
  | case3 rest ih =>
    cases h
    exact ⟨hnil, .inr (.inl ⟨rest, rfl, rfl⟩)⟩
  | case4 c rest hunder hpoint hnone ih => exact absurd hnone (pieces_ne_nil rest)
  | case5 c rest hunder hpoint first others hfirst ih =>
    rw [pieces, hfirst] at h
    · cases h
      obtain ⟨⟨hdot, hdouble⟩, hrest⟩ := ih hfirst
      -- What a piece begins with is what the text begins with.
      have hhead : ∀ tail, c = '_' → first ≠ '_' :: tail := by
        rintro tail hc rfl
        rcases hrest with ⟨rfl, -⟩ | ⟨after, rfl, -⟩ | ⟨after, rfl, -⟩
        · exact hunder _ hc rfl
        · exact hunder _ hc rfl
        · exact hunder _ hc rfl
      refine ⟨⟨fun hmem => ?_, fun hin => ?_⟩, ?_⟩
      · rcases List.mem_cons.mp hmem with hc | hmem
        · exact hpoint hc.symm
        · exact hdot hmem
      · rcases List.infix_cons_iff.mp hin with hpre | hin
        · obtain ⟨hc, tail, htail⟩ := List.cons_prefix_cons.mp hpre
          exact hhead tail hc.symm htail.symm
        · exact hdouble hin
      · rcases hrest with ⟨rfl, hmore⟩ | ⟨after, rfl, hmore⟩ | ⟨after, rfl, hlast, hmore⟩
        · exact .inl ⟨rfl, hmore⟩
        · exact .inr (.inl ⟨after, rfl, hmore⟩)
        · refine .inr (.inr ⟨after, rfl, ?_, hmore⟩)
          cases first with
          | nil => exact fun hc => hunder _ (Option.some.inj hc) rfl
          | cons d tail => rwa [List.getLast?_cons_cons]
    · exact hunder
    · exact hpoint

theorem separators_not_mem_pieces {text piece : List Char} (h : piece ∈ pieces text) :
    '.' ∉ piece ∧ ¬ ['_', '_'] <:+: piece := by
  induction hlen : text.length using Nat.strongRecOn generalizing text with
  | _ n ih =>
    obtain ⟨first, more, hpieces⟩ := List.exists_cons_of_ne_nil (pieces_ne_nil text)
    obtain ⟨hfirst, hrest⟩ := pieces_eq_cons hpieces
    rw [hpieces] at h
    rcases List.mem_cons.mp h with rfl | h
    · exact hfirst
    · rcases hrest with ⟨-, rfl⟩ | ⟨rest, rfl, rfl⟩ | ⟨rest, rfl, -, rfl⟩
      · exact absurd h List.not_mem_nil
      · exact ih _ (by simp at hlen; omega) h rfl
      · exact ih _ (by simp at hlen; omega) h rfl

/-- Segments are not empty and hold no separator. -/
theorem unsplit_of_mem_segmentsOf {raw name : String} (h : name ∈ segmentsOf raw) :
    ('.' ∉ name.toList ∧ ¬ ['_', '_'] <:+: name.toList) ∧ name ≠ "" := by
  obtain ⟨piece, hpiece, rfl⟩ := List.mem_map.mp h
  obtain ⟨hpiece, hkept⟩ := List.mem_filter.mp hpiece
  rw [String.toList_ofList]
  refine ⟨separators_not_mem_pieces hpiece, fun hempty => ?_⟩
  rw [← String.toList_eq_nil_iff, String.toList_ofList] at hempty
  rw [hempty] at hkept
  cases hkept

/-- Without points, a text is as long as its pieces and the underscores between them. -/
theorem length_pieces {text : List Char} (h : '.' ∉ text) :
    (pieces text).flatten.length + 2 * (pieces text).length = text.length + 2 := by
  induction text using pieces.induct with
  | case1 => rfl
  | case2 rest ih =>
    have := ih fun hmem => h (List.mem_cons_of_mem _ (List.mem_cons_of_mem _ hmem))
    simp only [pieces, List.flatten_cons, List.nil_append, List.length_cons]
    omega
  | case3 rest ih => exact absurd List.mem_cons_self h
  | case4 c rest hunder hpoint hnone ih => exact absurd hnone (pieces_ne_nil rest)
  | case5 c rest hunder hpoint first others hfirst ih =>
    have := ih fun hmem => h (List.mem_cons_of_mem _ hmem)
    rw [hfirst] at this
    rw [pieces, hfirst]
    · simp only [List.flatten_cons, List.cons_append, List.length_cons] at this ⊢
      omega
    · exact hunder
    · exact hpoint

/-! ### Exactly which names can be read back -/

theorem length_joinSegments {segments : List String} (hne : segments ≠ []) :
    (joinSegments segments).toList.length + 2 =
      (segments.map String.toList).flatten.length + 2 * segments.length := by
  induction segments with
  | nil => exact absurd rfl hne
  | cons name rest ih =>
    cases rest with
    | nil =>
      rw [joinSegments, String.intercalate_singleton, List.map_cons, List.flatten_cons, List.map_nil, List.flatten_nil,
        List.append_nil, List.length_singleton]
    | cons next rest =>
      have := ih (List.cons_ne_nil _ _)
      rw [joinSegments_cons (List.cons_ne_nil _ _)]
      simp only [List.length_append, List.length_cons, List.map_cons, List.flatten_cons] at this ⊢
      omega

theorem point_not_mem_joinSegments {segments : List String} (h : ∀ name ∈ segments, '.' ∉ name.toList) :
    '.' ∉ (joinSegments segments).toList := by
  induction segments with
  | nil => decide
  | cons name rest ih =>
    obtain ⟨hname, hrest⟩ := List.forall_mem_cons.mp h
    cases rest with
    | nil => rwa [joinSegments, String.intercalate_singleton]
    | cons next rest =>
      rw [joinSegments_cons (List.cons_ne_nil _ _)]
      simp only [List.mem_append, List.mem_cons, not_or]
      exact ⟨hname, by decide, by decide, ih hrest⟩

/-- Segments that are read back are all the pieces: no piece between them is empty. -/
theorem pieces_of_segmentsOf {segments : List String} (hne : segments ≠ [])
    (h : segmentsOf (joinSegments segments) = segments) :
    pieces (joinSegments segments).toList = segments.map String.toList := by
  have hkept : (pieces (joinSegments segments).toList).filter (!·.isEmpty) = segments.map String.toList := by
    conv_rhs => rw [← h]
    rw [segmentsOf, List.map_map]
    exact ((List.map_congr_left fun piece _ => String.toList_ofList).trans (List.map_id' _)).symm
  have hflatten : (segments.map String.toList).flatten = (pieces (joinSegments segments).toList).flatten := by
    rw [← hkept, List.flatten_filter_not_isEmpty]
  have hpoint : ∀ name ∈ segments, '.' ∉ name.toList := fun name hname =>
    (separators_not_mem_pieces (List.mem_of_mem_filter (hkept ▸ List.mem_map_of_mem hname))).1
  have htext := length_joinSegments hne
  rw [hflatten] at htext
  have hpieces := length_pieces (point_not_mem_joinSegments hpoint)
  have hlength : ((pieces (joinSegments segments).toList).filter (!·.isEmpty)).length =
      (pieces (joinSegments segments).toList).length := by
    rw [hkept, List.length_map]
    omega
  rw [← hkept]
  exact (List.filter_eq_self.mpr (List.length_filter_eq_length_iff.mp hlength)).symm

/-- A name whose piece is followed by more does not end with an underscore. -/
theorem getLast?_of_pieces {segments : List String} {last : String}
    (h : pieces (joinSegments (segments ++ [last])).toList = (segments ++ [last]).map String.toList) :
    ∀ name ∈ segments, name.toList.getLast? ≠ some '_' := by
  induction segments with
  | nil => exact fun _ hname => absurd hname List.not_mem_nil
  | cons first rest ih =>
    have hne : rest ++ [last] ≠ [] := List.append_ne_nil_of_right_ne_nil _ (List.cons_ne_nil _ _)
    rw [List.cons_append, joinSegments_cons hne] at h
    obtain ⟨-, ⟨htext, -⟩ | ⟨after, htext, -⟩ | ⟨after, htext, hlast, hmore⟩⟩ := pieces_eq_cons h
    · simp at htext
    · have hc := List.append_cancel_left htext
      cases hc
    · have hafter := List.append_cancel_left htext
      cases hafter
      exact List.forall_mem_cons.mpr ⟨hlast, ih hmore.symm⟩

/-- Segments before a plain one are read back exactly when they are names of segments. -/
theorem segmentsOf_joinSegments_iff {segments : List String} {last : String} (hlast : SegmentName last) :
    segmentsOf (joinSegments (segments ++ [last])) = segments ++ [last] ↔ ∀ name ∈ segments, SegmentName name := by
  have hne : segments ++ [last] ≠ [] := List.append_ne_nil_of_right_ne_nil _ (List.cons_ne_nil _ _)
  constructor
  · intro h name hname
    have hpieces := pieces_of_segmentsOf hne h
    have hmem : name ∈ segmentsOf (joinSegments (segments ++ [last])) := by
      rw [h]
      exact List.mem_append_left _ hname
    obtain ⟨⟨hpoint, hdouble⟩, hempty⟩ := unsplit_of_mem_segmentsOf hmem
    exact ⟨⟨getLast?_of_pieces hpieces _ hname, hdouble, hpoint⟩, hempty⟩
  · intro h
    exact segmentsOf_joinSegments hne (List.forall_mem_append.mpr ⟨h, List.forall_mem_singleton.mpr hlast⟩)

end RelQuery
