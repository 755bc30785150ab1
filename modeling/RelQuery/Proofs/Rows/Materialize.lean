import RelQuery.Proofs.Join.Tree
import RelQuery.Proofs.Rows.FanOut

/-!
# Slicing the rows of a forest

Each row of a forest gives back one instance at each node, with one of the instances that every relation leads to, or
none where there is none. `JoinNode.slices` lists these in the order of the rows, without any row, and slicing the
rows succeeds with just them.
-/

namespace RelQuery

variable {s : Schema}

/-- What a stub for a key leads to: an instance of nothing but the key, or nothing for a null key. -/
def stubOf (s : Schema) (target : EntityId) (key : Value) : Related :=
  if key.isNull then .one none else .one (some ⟨target, [((s.entity target).pk, key)], []⟩)

/-- The stub of a relation of an instance, if it is a foreign key and its field is selected. -/
def Relation.stub? (s : Schema) (columns : List SelectedColumn) (i : Instance) (r : Relation) :
    Option (String × Related) :=
  match r.link with
  | .foreignKey key =>
    if columns.any (·.field == key) then some (r.name, stubOf s r.target ((i.get? key).getD .null)) else none
  | _ => none

def stubsOf (s : Schema) (columns : List SelectedColumn) (i : Instance) : List (String × Related) :=
  (s.relationsOf i.entity).filterMap (Relation.stub? s columns i)

/-- An instance with what its relations lead to, and with stubs for the other ones. -/
def Instance.loading (s : Schema) (columns : List SelectedColumn) (i : Instance) (joined : List (String × Related)) :
    Instance :=
  ⟨i.entity, i.fields, NameMap.ofFirst (joined ++ stubsOf s columns i)⟩

def standardOf (s : Schema) : Materializer := ⟨s, .standard⟩

theorem stub_standard (target : EntityId) (key : Value) : (standardOf s).stub target key = .ok (stubOf s target key) := by
  unfold Materializer.stub stubOf
  split <;> rfl

theorem addStubs_cons (columns : List SelectedColumn) (i : Instance) (r : Relation) (rest : List Relation)
    (relations : NameMap Related) :
    (standardOf s).addStubs columns i (r :: rest) relations =
      match r.stub? s columns i with
      | some (name, stub) =>
        if NameMap.has relations name then (standardOf s).addStubs columns i rest relations
        else (standardOf s).addStubs columns i rest (NameMap.put name stub relations)
      | none => (standardOf s).addStubs columns i rest relations := by
  rw [Materializer.addStubs, Relation.stub?]
  cases r.link with
  | foreignKey key =>
    by_cases hsel : columns.any (·.field == key) = true
    · simp only [hsel, Bool.not_true, Bool.or_false, if_true, stub_standard]
    · simp [hsel]
  | reverseForeignKey key => rfl
  | manyToMany through ownerKey targetKey => rfl

/-- What is joined hides stubs, and of stubs of one name the first counts. -/
theorem addStubs_standard {columns : List SelectedColumn} {i : Instance} (relations : List Relation)
    (joined : List (String × Related)) :
    (standardOf s).addStubs columns i relations (NameMap.ofFirst joined) =
      .ok (NameMap.ofFirst (joined ++ relations.filterMap (Relation.stub? s columns i))) := by
  induction relations generalizing joined with
  | nil => simp [Materializer.addStubs]
  | cons r rest ih =>
    rw [addStubs_cons, List.filterMap_cons]
    rcases r.stub? s columns i with - | ⟨name, stub⟩
    · exact ih joined
    · dsimp only
      by_cases hhas : (NameMap.get? joined name).isSome = true
      · rw [NameMap.has, NameMap.get?_ofFirst, if_pos hhas, ih joined, NameMap.ofFirst_append_cons hhas]
      · have hnone : NameMap.get? joined name = none := by simpa using hhas
        rw [NameMap.has, NameMap.get?_ofFirst, if_neg hhas, NameMap.put_ofFirst hnone, ih (joined ++ [(name, stub)]),
          List.append_assoc]
        rfl

/-! ### One instance -/

/-- The row has the values under their labels. -/
def Reads (row : Row) (cells : Cells) : Prop :=
  ∀ p ∈ cells, row.get? p.1 = some p.2

theorem reads_append {row : Row} {cells more : Cells} : Reads row (cells ++ more) ↔ Reads row cells ∧ Reads row more :=
  List.forall_mem_append

theorem rowValue?_of_reads {row : Row} {columns : List SelectedColumn} {i : Instance}
    (h : Reads row (cellsOf columns i)) (field : String) :
    rowValue? row columns field =
      if columns.any (·.field == field) = true then some ((i.get? field).getD .null) else none := by
  unfold rowValue?
  rcases hc : columns.find? (·.field == field) with - | c
  · have hany : ¬ columns.any (·.field == field) = true := by
      simpa using hc
    rw [if_neg hany, hc]
    rfl
  · have hfield : c.field = field := by simpa using List.find?_some hc
    have hmem := List.mem_of_find?_eq_some hc
    have hany : columns.any (·.field == field) = true := List.any_eq_true.mpr ⟨c, hmem, by simp [hfield]⟩
    rw [if_pos hany, hc, Option.bind_some, ← hfield]
    exact h (c.label, (i.get? c.field).getD .null) (List.mem_map_of_mem hmem)

theorem rowValue?_of_reads_nulls {row : Row} {columns : List SelectedColumn}
    (h : Reads row (columns.map fun c => (c.label, .null))) (field : String) :
    (rowValue? row columns field).getD .null = .null := by
  unfold rowValue?
  rcases hc : columns.find? (·.field == field) with - | c
  · rw [hc]
    rfl
  · rw [hc, Option.bind_some, h (c.label, .null) (List.mem_map_of_mem (List.mem_of_find?_eq_some hc))]
    rfl

namespace FieldsFit

variable {id : EntityId} {columns : List SelectedColumn} {i : Instance}

theorem value (h : FieldsFit s id columns i) {row : Row} (hr : Reads row (cellsOf columns i)) {field : String}
    (hf : field ∈ (s.entity id).columns.map (·.name)) :
    i.get? field = some ((rowValue? row columns field).getD .null) := by
  rw [rowValue?_of_reads hr]
  split
  · obtain ⟨v, hv⟩ := NameMap.exists_get?_of_mem ((h.names field).mpr hf)
    change i.get? field = some v at hv
    rw [hv]
    rfl
  · rename_i hsel
    obtain ⟨c, hc, rfl⟩ := List.mem_map.mp hf
    exact h.unselected c hc (Bool.eq_false_iff.mpr hsel)

theorem pk_mem (h : FieldsFit s id columns i) : (s.entity id).pk ∈ (s.entity id).columns.map (·.name) := by
  rw [← h.names]
  by_contra hnot
  have hnone := NameMap.get?_eq_none_iff.mpr hnot
  refine h.key ?_
  rw [Instance.pk, h.entity, Instance.get?, hnone]
  rfl

theorem pk_selected (h : FieldsFit s id columns i) : columns.any (·.field == (s.entity id).pk) = true := by
  obtain ⟨c, hc, hpk⟩ := List.mem_map.mp h.pk_mem
  by_contra hsel
  have hnull := h.unselected c hc (by rw [hpk]; exact Bool.eq_false_iff.mpr hsel)
  refine h.key ?_
  rw [Instance.pk, h.entity, ← hpk, hnull]
  rfl

theorem hasKey (h : FieldsFit s id columns i) {row : Row} (hr : Reads row (cellsOf columns i)) :
    hasKey row (s.entity id) columns = true := by
  have hkey := h.key
  unfold RelQuery.hasKey
  rw [rowValue?_of_reads hr, if_pos h.pk_selected]
  rw [Instance.pk, h.entity] at hkey
  simpa [Bool.eq_false_iff] using hkey

theorem rowValues (h : FieldsFit s id columns i) {row : Row} (hr : Reads row (cellsOf columns i)) :
    rowValues row (s.entity id) columns = i.fields := by
  refine NameMap.ordered_ext (NameMap.ordered_ofPairs _) h.ordered fun name => ?_
  rw [RelQuery.rowValues, NameMap.get?_ofPairs_map _ _ fun name => (rowValue? row columns name).getD .null]
  split
  · rename_i hmem
    exact (h.value hr hmem).symm
  · rename_i hmem
    rw [← h.names] at hmem
    exact (NameMap.get?_eq_none_iff.mpr hmem).symm

theorem missingColumn? (h : FieldsFit s id columns i) (hreq : HoldsRequired s id columns) :
    Factory.missingColumn? (s.entity id) i.fields = none := by
  refine List.find?_eq_none.mpr fun c hc => ?_
  obtain ⟨v, hv⟩ := NameMap.exists_get?_of_mem ((h.names c.name).mpr (List.mem_map_of_mem hc))
  rw [hv, Option.getD_some]
  by_cases hnull : c.nullable = true
  · simp [hnull]
  · have hnull' : c.nullable = false := Bool.eq_false_iff.mpr hnull
    have hsel : columns.any (·.field == c.name) = true := by
      by_cases hpk : c.name = (s.entity id).pk
      · rw [hpk]
        exact h.pk_selected
      · exact hreq c hc hnull' hpk
    have hvalue := h.required c hc hsel hnull'
    rw [Instance.get?, hv] at hvalue
    simpa [hnull'] using hvalue

end FieldsFit

/-- From a row that has its values an instance is assembled as it is, with stubs. -/
theorem assemble_standard {id : EntityId} {columns : List SelectedColumn} {i : Instance} (h : FieldsFit s id columns i)
    {row : Row} (hr : Reads row (cellsOf columns i)) {isPartial : Bool}
    (hreq : isPartial = false → HoldsRequired s id columns) (joined : List (String × Related)) :
    (standardOf s).assemble row id columns isPartial (.ok (NameMap.ofFirst joined)) =
      .ok (some (i.loading s columns joined)) := by
  have hconstruct : (standardOf s).construct id i.fields isPartial = .ok (.ofFields id i.fields) := by
    cases isPartial with
    | true => rfl
    | false =>
      unfold Materializer.construct
      simp [standardOf, Factory.standard, h.missingColumn? (hreq rfl)]
  have hstubs : (standardOf s).addStubs columns (.ofFields id i.fields) (s.relationsOf id) (NameMap.ofFirst joined) =
      .ok (i.loading s columns joined).relations := by
    rw [addStubs_standard, ← h.entity]
    rfl
  have hkey : RelQuery.hasKey row ((standardOf s).schema.entity id) columns = true := h.hasKey hr
  have hvalues : RelQuery.rowValues row ((standardOf s).schema.entity id) columns = i.fields := h.rowValues hr
  unfold Materializer.assemble
  simp only [hkey, hvalues, hconstruct, if_true, bind, Except.bind]
  rw [show (standardOf s).schema = s from rfl, hstubs]
  rw [Instance.loading, ← h.entity]
  rfl

/-! ### Slices -/

mutual

/-- The instances that the rows of an instance at a node give back. -/
def JoinNode.slices (s : Schema) : JoinNode → Instance → List Instance
  | ⟨_, _, _, _, _, _, _, columns, children⟩, i => (nodesSlices s children i).map (i.loading s columns)
termination_by structural node => node

/-- What the relations of nodes lead to in each of these rows. -/
def nodesSlices (s : Schema) : List JoinNode → Instance → List (List (String × Related))
  | [], _ => [[]]
  | node :: rest, i =>
    let found :=
      if (i.relatedBy node.name).isEmpty then [none] else ((i.relatedBy node.name).flatMap (node.slices s)).map some
    found.flatMap fun o => (nodesSlices s rest i).map ((node.name, Materializer.relatedOf node.toMany o) :: ·)
termination_by structural nodes => nodes

end

/-- The rows give back the instances, one by one, when they are sliced at a node. -/
def SlicesTo (s : Schema) (node : JoinNode) : List Cells → List Instance → Prop :=
  List.Forall₂ fun cells i => ∀ row, Reads row cells → (standardOf s).ofNode row node = .ok (some i)

theorem ofNode_nulls {node : JoinNode} {row : Row} (h : Reads row node.nulls) :
    (standardOf s).ofNode row node = .ok none := by
  obtain ⟨_, _, _, target, _, _, isPartial, columns, children⟩ := node
  rw [JoinNode.nulls, reads_append] at h
  have hnull := rowValue?_of_reads_nulls h.1 (s.entity target).pk
  have hkey : hasKey row ((standardOf s).schema.entity target) columns = false := by
    unfold hasKey
    change (rowValue? row columns (s.entity target).pk).getD .null = .null at hnull
    rw [show (standardOf s).schema = s from rfl]
    rcases hv : rowValue? row columns (s.entity target).pk with - | v
    · rfl
    · rw [hv, Option.getD_some] at hnull
      rw [hnull]
      rfl
  rw [Materializer.ofNode, Materializer.assemble]
  simp only [hkey, Bool.false_eq_true, if_false]

theorem ofNodes_cons {row : Row} {node : JoinNode} {rest : List JoinNode} {o : Option Instance}
    (h : (standardOf s).ofNode row node = .ok o) {joined : List (String × Related)}
    (hrest : (standardOf s).ofNodes row rest = .ok (NameMap.ofFirst joined)) :
    (standardOf s).ofNodes row (node :: rest) =
      .ok (NameMap.ofFirst ((node.name, Materializer.relatedOf node.toMany o) :: joined)) := by
  rw [Materializer.ofNodes, h, hrest]
  rfl

theorem ofNodes_slices {nodes : List JoinNode} {i : Instance}
    (h : ∀ node ∈ nodes, ∀ c ∈ i.relatedBy node.name, SlicesTo s node (node.fanOut c) (node.slices s c)) :
    List.Forall₂
      (fun cells joined => ∀ row, Reads row cells → (standardOf s).ofNodes row nodes = .ok (NameMap.ofFirst joined))
      (nodesFanOut nodes i) (nodesSlices s nodes i) := by
  induction nodes with
  | nil => exact .cons (fun _ _ => rfl) .nil
  | cons node rest ih =>
    have hrest := ih fun n hn => h n (List.mem_cons_of_mem _ hn)
    have hproduct : ∀ cells o, (∀ row, Reads row cells → (standardOf s).ofNode row node = .ok o) →
        List.Forall₂
          (fun cells joined => ∀ row, Reads row cells →
            (standardOf s).ofNodes row (node :: rest) = .ok (NameMap.ofFirst joined))
          ((nodesFanOut rest i).map (cells ++ ·))
          ((nodesSlices s rest i).map ((node.name, Materializer.relatedOf node.toMany o) :: ·)) := by
      intro cells o hnode
      rw [List.forall₂_map_left_iff, List.forall₂_map_right_iff]
      refine hrest.imp fun more joined hmore row hrow => ?_
      obtain ⟨hfirst, hmore'⟩ := reads_append.mp hrow
      exact ofNodes_cons (hnode row hfirst) (hmore row hmore')
    have hfound : List.Forall₂ (fun cells o => ∀ row, Reads row cells → (standardOf s).ofNode row node = .ok o)
        (if (i.relatedBy node.name).isEmpty then [node.nulls] else (i.relatedBy node.name).flatMap node.fanOut)
        (if (i.relatedBy node.name).isEmpty then [none]
          else ((i.relatedBy node.name).flatMap (node.slices s)).map some) := by
      split
      · exact .cons (fun _ hrow => ofNode_nulls hrow) .nil
      · rw [List.forall₂_map_right_iff]
        exact forall₂_flatMap_of_mem (h node (List.mem_cons_self ..))
    rw [nodesFanOut, nodesSlices]
    exact List.rel_flatMap hfound hproduct

/-- Slicing the rows of an instance at a node succeeds, row by row, with its slices. -/
theorem ofNode_slices {node : JoinNode} (hc : node.Complete s) {i : Instance}
    (hf : Fits s node.target node.columns node.children i) : SlicesTo s node (node.fanOut i) (node.slices s i) := by
  induction hc generalizing i with
  | @intro node required names below ih =>
    obtain ⟨_, _, _, target, _, _, isPartial, columns, children⟩ := node
    have hnodes := ofNodes_slices fun n hn c hc => ih n hn (hf.relatedBy hn c hc)
    unfold SlicesTo
    rw [JoinNode.fanOut, JoinNode.slices]
    rw [List.forall₂_map_left_iff, List.forall₂_map_right_iff]
    refine hnodes.imp fun cells joined hcells row hrow => ?_
    obtain ⟨hown, hbelow⟩ := reads_append.mp hrow
    rw [Materializer.ofNode, hcells row hbelow]
    exact assemble_standard hf.fieldsFit hown required joined

/-- The instances that the rows of a forest give back. -/
def JoinTree.slices (s : Schema) (t : JoinTree) (i : Instance) : List Instance :=
  (nodesSlices s t.children i).map (i.loading s t.columns)

theorem ofRow_slices {t : JoinTree} (hc : t.Complete s) {i : Instance} (hf : Fits s t.root t.columns t.children i) :
    List.Forall₂ (fun cells x => ∀ row, Reads row cells → (standardOf s).ofRow t row = .ok (some x))
      ((nodesFanOut t.children i).map (cellsOf t.columns i ++ ·)) (t.slices s i) := by
  have hnodes := ofNodes_slices fun n hn c hmem => ofNode_slices (hc.below n hn) (hf.relatedBy hn c hmem)
  rw [JoinTree.slices, List.forall₂_map_left_iff, List.forall₂_map_right_iff]
  refine hnodes.imp fun cells joined hcells row hrow => ?_
  obtain ⟨hown, hbelow⟩ := reads_append.mp hrow
  rw [Materializer.ofRow, hcells row hbelow]
  exact assemble_standard hf.fieldsFit hown (fun _ => hc.required) joined

theorem reads_ofPairs {cells : Cells} (h : (cells.map (·.1)).Nodup) : Reads (NameMap.ofPairs cells) cells :=
  fun _ hp => NameMap.get?_ofPairs_of_mem h hp

/-- Where no label is used twice, slicing the rows of a forest succeeds with the slices of its roots. -/
theorem ofRows_fanOut {t : JoinTree} (hc : t.Complete s) {table : String}
    (hlabels : ((t.selectList table).map (·.label)).Nodup) {forest : List Instance}
    (hf : ∀ i ∈ forest, Fits s t.root t.columns t.children i) :
    (standardOf s).ofRows t (t.fanOut forest) = .ok (forest.flatMap (t.slices s)) := by
  have hnodup : ∀ i, ∀ cells ∈ (nodesFanOut t.children i).map (cellsOf t.columns i ++ ·), (cells.map (·.1)).Nodup := by
    intro i cells hcells
    obtain ⟨below, hbelow, rfl⟩ := List.mem_map.mp hcells
    have hsome : (cellsOf t.columns i ++ below).map (fun p => some p.1) = (t.selectList table).map (·.label) := by
      rw [JoinTree.selectList, List.map_append, List.map_append, labels_cellsOf t.columns i table,
        labels_nodesFanOut (fun node _ c _ => labels_fanOut node c) below hbelow]
    rw [← hsome] at hlabels
    refine List.Nodup.of_map some ?_
    rwa [List.map_map]
  have hrows : List.Forall₂ (fun row x => (standardOf s).ofRow t row = .ok x) (t.fanOut forest)
      ((forest.flatMap (t.slices s)).map some) := by
    rw [JoinTree.fanOut, List.forall₂_map_left_iff, List.forall₂_map_right_iff]
    refine forall₂_flatMap_of_mem fun i hi => ?_
    have hslices := ofRow_slices hc (hf i hi)
    refine ((List.forall₂_and_left _ _).mpr ⟨hnodup i, hslices⟩).imp fun cells x h => ?_
    exact h.2 _ (reads_ofPairs h.1)
  rw [Materializer.ofRows, mapM_eq_ok.mpr hrows]
  simp [Except.map]

end RelQuery
