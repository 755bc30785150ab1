import RelQuery.Proofs.Plan
import RelQuery.Proofs.Rows.Materialize

/-!
# Rows of accepted projections

Planning refuses a projection that leaves out a column that instances need. So the only columns that can be missing
when rows are sliced are selected ones: where the rows have these, every instance of the tree can be constructed.
-/

namespace RelQuery

variable {s : Schema} {row : Row}

def HasValue (row : Row) (label : String) : Prop :=
  ∃ v, NameMap.get? row label = some v ∧ v ≠ .null

instance (row : Row) (label : String) : Decidable (HasValue row label) :=
  decidable_of_iff (NameMap.get? row label ≠ none ∧ NameMap.get? row label ≠ some .null) <| by
    unfold HasValue
    cases NameMap.get? row label <;> simp

/-- If the row has a primary key, it has all selected columns that must not be null. -/
def FillsColumns (row : Row) (e : Entity) (columns : List SelectedColumn) : Prop :=
  (∃ key ∈ columns, key.field = e.pk ∧ HasValue row key.label) →
    ∀ c ∈ e.columns, c.nullable = false → ∀ selected ∈ columns, selected.field = c.name → HasValue row selected.label

instance (row : Row) (e : Entity) (columns : List SelectedColumn) : Decidable (FillsColumns row e columns) :=
  inferInstanceAs (Decidable (_ → _))

/-- The row does so at the node and at all nodes below. -/
inductive JoinNode.FilledBy (s : Schema) (row : Row) : JoinNode → Prop where
  | intro {node : JoinNode} (own : FillsColumns row (s.entity node.target) node.columns)
      (below : ∀ child ∈ node.children, child.FilledBy s row) : node.FilledBy s row

structure JoinTree.FilledBy (s : Schema) (row : Row) (t : JoinTree) : Prop where
  own : FillsColumns row (s.entity t.root) t.columns
  below : ∀ child ∈ t.children, child.FilledBy s row

theorem exists_of_rowValue? {columns : List SelectedColumn} {field : String} {v : Value}
    (h : rowValue? row columns field = some v) :
    ∃ c ∈ columns, c.field = field ∧ NameMap.get? row c.label = some v := by
  obtain ⟨c, hc, hvalue⟩ := Option.bind_eq_some_iff.mp h
  have hfield : c.field = field := by simpa using List.find?_some hc
  exact ⟨c, List.mem_of_find?_eq_some hc, hfield, hvalue⟩

theorem exists_of_hasKey {e : Entity} {columns : List SelectedColumn} (h : hasKey row e columns = true) :
    ∃ v, rowValue? row columns e.pk = some v ∧ v ≠ .null := by
  unfold hasKey at h
  split at h
  · rename_i v hv
    refine ⟨v, hv, fun hnull => ?_⟩
    rw [hnull] at h
    cases h
  · cases h

theorem rowValue?_of_required {id : EntityId} {columns : List SelectedColumn} (hrequired : HoldsRequired s id columns)
    (hkey : hasKey row (s.entity id) columns = true) (hfills : FillsColumns row (s.entity id) columns) {c : Column}
    (hc : c ∈ (s.entity id).columns) (hnull : c.nullable = false) :
    ∃ v, rowValue? row columns c.name = some v ∧ v ≠ .null := by
  obtain ⟨key, hvalue, hne⟩ := exists_of_hasKey hkey
  by_cases hpk : c.name = (s.entity id).pk
  · rw [hpk]
    exact ⟨key, hvalue, hne⟩
  · obtain ⟨pk, hpkMem, hpkField, hpkValue⟩ := exists_of_rowValue? hvalue
    have hselected : (columns.find? (·.field == c.name)).isSome = true := by
      rw [List.find?_isSome]
      simpa using hrequired c hc hnull hpk
    obtain ⟨selected, hfind⟩ := Option.isSome_iff_exists.mp hselected
    have hfield : selected.field = c.name := by simpa using List.find?_some hfind
    obtain ⟨v, hv, hvne⟩ := hfills ⟨pk, hpkMem, hpkField, key, hpkValue, hne⟩ c hc hnull selected
      (List.mem_of_find?_eq_some hfind) hfield
    refine ⟨v, ?_, hvne⟩
    rw [rowValue?, hfind]
    exact hv

theorem missingColumn?_rowValues {id : EntityId} {columns : List SelectedColumn}
    (hrequired : HoldsRequired s id columns) (hkey : hasKey row (s.entity id) columns = true)
    (hfills : FillsColumns row (s.entity id) columns) :
    Factory.missingColumn? (s.entity id) (rowValues row (s.entity id) columns) = none := by
  apply List.find?_eq_none.mpr
  intro c hc hmissing
  simp only [Bool.and_eq_true, Bool.not_eq_true'] at hmissing
  obtain ⟨hnull, hvalue⟩ := hmissing
  obtain ⟨v, hv, hne⟩ := rowValue?_of_required hrequired hkey hfills hc hnull
  rw [rowValues, NameMap.get?_ofPairs_map _ _ fun name => (rowValue? row columns name).getD .null,
    if_pos (List.mem_map_of_mem hc), hv] at hvalue
  exact hne (Value.isNull_eq_true.mp hvalue)

theorem exists_construct {id : EntityId} {columns : List SelectedColumn} {isPartial : Bool}
    (hrequired : isPartial = false → HoldsRequired s id columns) (hkey : hasKey row (s.entity id) columns = true)
    (hfills : FillsColumns row (s.entity id) columns) :
    ∃ i, (standardOf s).construct id (rowValues row (s.entity id) columns) isPartial = .ok i := by
  refine ⟨.ofFields id (rowValues row (s.entity id) columns), ?_⟩
  cases isPartial with
  | true => rfl
  | false =>
    have hnone := missingColumn?_rowValues (hrequired rfl) hkey hfills
    simp [Materializer.construct, standardOf, Factory.standard, hnone]

theorem exists_addStubs (columns : List SelectedColumn) (i : Instance) (relations : List Relation)
    (joined : NameMap Related) : ∃ related, (standardOf s).addStubs columns i relations joined = .ok related := by
  induction relations generalizing joined with
  | nil => exact ⟨joined, rfl⟩
  | cons r rest ih =>
    rw [addStubs_cons]
    split
    · split
      · exact ih _
      · exact ih _
    · exact ih _

theorem exists_assemble {id : EntityId} {columns : List SelectedColumn} {isPartial : Bool}
    (hrequired : isPartial = false → HoldsRequired s id columns) (hfills : FillsColumns row (s.entity id) columns)
    (joined : NameMap Related) :
    ∃ found, (standardOf s).assemble row id columns isPartial (.ok joined) = .ok found := by
  unfold Materializer.assemble
  dsimp only
  split
  · rename_i hkey
    obtain ⟨i, hi⟩ := exists_construct hrequired hkey hfills
    obtain ⟨related, hrelated⟩ := exists_addStubs columns i (s.relationsOf id) joined
    exact ⟨some { i with relations := related },
      bind_eq_ok.mpr ⟨joined, rfl, bind_eq_ok.mpr ⟨i, hi, bind_eq_ok.mpr ⟨related, hrelated, rfl⟩⟩⟩⟩
  · exact ⟨none, rfl⟩

theorem exists_ofNodes {nodes : List JoinNode} (h : ∀ node ∈ nodes, ∃ found, (standardOf s).ofNode row node = .ok found) :
    ∃ joined, (standardOf s).ofNodes row nodes = .ok joined := by
  induction nodes with
  | nil => exact ⟨[], rfl⟩
  | cons node rest ih =>
    obtain ⟨hnode, hrest⟩ := List.forall_mem_cons.mp h
    obtain ⟨found, hfound⟩ := hnode
    obtain ⟨joined, hjoined⟩ := ih hrest
    refine ⟨NameMap.put node.name (Materializer.relatedOf node.toMany found) joined, ?_⟩
    rw [Materializer.ofNodes, hfound, hjoined]
    rfl

theorem exists_ofNode {node : JoinNode} (hc : node.Complete s) (hf : node.FilledBy s row) :
    ∃ found, (standardOf s).ofNode row node = .ok found := by
  induction hc with
  | @intro node hrequired hnames hbelow ih =>
    obtain ⟨hown, hchildren⟩ := hf
    obtain ⟨joined, hjoined⟩ := exists_ofNodes fun child hchild => ih child hchild (hchildren child hchild)
    obtain ⟨_, _, _, target, _, _, isPartial, columns, children⟩ := node
    rw [Materializer.ofNode, hjoined]
    exact exists_assemble hrequired hown joined

theorem exists_ofRow {t : JoinTree} (hc : t.Complete s) (hf : t.FilledBy s row) :
    ∃ found, (standardOf s).ofRow t row = .ok found := by
  obtain ⟨joined, hjoined⟩ := exists_ofNodes fun child hchild => exists_ofNode (hc.below child hchild) (hf.below child hchild)
  rw [Materializer.ofRow, hjoined]
  exact exists_assemble (fun _ => hc.required) hf.own joined

/-- Rows of a planned request can be sliced into instances, whatever the projection leaves out, if wherever they have a
primary key they have the selected columns that must not be null. -/
theorem exists_ofRows_of_plan {r : Request} {settings : Settings} {registry registry' : AliasRegistry}
    {planned : PlannedQuery} (h : r.plan s settings registry = (.ok planned, registry')) {rows : List Row}
    (hrows : ∀ row ∈ rows, planned.tree.FilledBy s row) :
    ∃ instances, (standardOf s).ofRows planned.tree rows = .ok instances := by
  obtain ⟨p, hp, hplan⟩ := prepared_of_plan h
  obtain ⟨_, _, _, htree, -⟩ := plan_eq_ok hplan
  have hcomplete := complete_of_tree hp htree
  obtain ⟨found, hfound⟩ := exists_mapM_eq_ok fun row hrow => exists_ofRow hcomplete (hrows row hrow)
  exact ⟨found.filterMap id, map_eq_ok.mpr ⟨found, hfound, rfl⟩⟩

def reviewSchema : Schema :=
  ⟨[⟨"Review", "reviews", "id", [⟨"id", "id", false⟩, ⟨"text", "text", false⟩, ⟨"book_id", "book_id", true⟩]⟩,
    ⟨"Book", "books", "id", [⟨"id", "id", false⟩, ⟨"title", "title", false⟩, ⟨"summary", "summary", true⟩]⟩],
   [⟨"book", .foreignKey "book_id", ⟨0⟩, ⟨1⟩, true, false, some "reviews", ⟨1⟩⟩,
    ⟨"reviews", .reverseForeignKey "book_id", ⟨1⟩, ⟨0⟩, true, true, some "book", ⟨0⟩⟩]⟩

/-- Reviews with their books, which come without summaries. -/
def reviewRequest : Request :=
  { root := ⟨0⟩, selectRelated := [⟨["book"]⟩], excludeFields := [.names ["book__summary"]] }

def reviewRegistry : AliasRegistry := ⟨6, [(.edge "reviews" "book", ⟨"b00c5a"⟩)]⟩

def reviewTree : JoinTree :=
  ⟨⟨0⟩, [⟨"id", "id", "id"⟩, ⟨"text", "text", "text"⟩, ⟨"book_id", "book_id", "book_id"⟩],
    [⟨⟨0⟩, "book", ⟨["book"]⟩, ⟨1⟩, ⟨"b00c5a"⟩, false, false,
      [⟨"id", "id", "b00c5a_id"⟩, ⟨"title", "title", "b00c5a_title"⟩], []⟩]⟩

/-- A review of a book, and one of none. -/
def reviewRows : List Row :=
  [[("b00c5a_id", .int 7), ("b00c5a_title", .text "t"), ("book_id", .int 7), ("id", .int 1), ("text", .text "a")],
   [("b00c5a_id", .null), ("b00c5a_title", .null), ("book_id", .null), ("id", .int 2), ("text", .text "b")]]

theorem filledBy_reviewRows : ∀ row ∈ reviewRows, reviewTree.FilledBy reviewSchema row := by
  intro row hrow
  have hown : ∀ row ∈ reviewRows, FillsColumns row (reviewSchema.entity reviewTree.root) reviewTree.columns := by decide
  have hbelow : ∀ row ∈ reviewRows, ∀ child ∈ reviewTree.children,
      FillsColumns row (reviewSchema.entity child.target) child.columns := by decide
  refine ⟨hown row hrow, fun child hchild => .intro (hbelow row hrow child hchild) ?_⟩
  rw [List.mem_singleton.mp hchild]
  exact fun _ h => absurd h List.not_mem_nil

theorem exists_ofRows_reviews :
    ∃ planned registry', reviewRequest.plan reviewSchema {} reviewRegistry = (.ok planned, registry') ∧
      (∀ row ∈ reviewRows, planned.tree.FilledBy reviewSchema row) ∧
        ∃ instances, (standardOf reviewSchema).ofRows planned.tree reviewRows = .ok instances := by
  have htree : (reviewRequest.plan reviewSchema {} reviewRegistry).1.map (·.tree) = .ok reviewTree := by rfl
  obtain ⟨planned, hok, htree⟩ := map_eq_ok.mp htree
  have hplan : reviewRequest.plan reviewSchema {} reviewRegistry =
      (.ok planned, (reviewRequest.plan reviewSchema {} reviewRegistry).2) := Prod.ext hok rfl
  have hrows : ∀ row ∈ reviewRows, planned.tree.FilledBy reviewSchema row := by
    rw [htree]
    exact filledBy_reviewRows
  exact ⟨planned, _, hplan, hrows, exists_ofRows_of_plan hplan hrows⟩

end RelQuery
