import RelQuery.Proofs.Prefetch.Linked
import RelQuery.Proofs.Prefetch.Load
import RelQuery.Proofs.Rows.Built

/-!
# Shares of parents

Attaching a loaded node to a parent sets the relation of its name and nothing else, and what it sets depends on nothing
that other nodes set. So siblings can be attached in any order. Each parent gets its share of what was loaded: just the
instances that its key links to it, each once, in the order in which they were loaded.
-/

namespace RelQuery

variable {s : Schema} {parent : Instance} {loaded : LoadedNode}

def LoadedNode.name : LoadedNode → String
  | .joined name _ => name
  | .fetched name .. => name

/-- What a loaded node sets the relation of its name to; a relation that was never joined stays unloaded. -/
def LoadedNode.gift (s : Schema) (parent : Instance) : LoadedNode → Option Related
  | .joined name children => (parent.related? name).map (·.mapInstances fun i => attachAll s i children)
  | .fetched _ r linked children =>
    let matched := (linked.filter (·.1 = r.ownerKey s parent)).map fun link => attachAll s link.2 children
    some (if r.isForeignKey then .one matched.head? else .many matched)

theorem entity_attach : (loaded.attach s parent).entity = parent.entity := by
  cases loaded with
  | joined name children =>
    rw [LoadedNode.attach]
    split <;> rfl
  | fetched name r linked children => rfl

theorem fields_attach : (loaded.attach s parent).fields = parent.fields := by
  cases loaded with
  | joined name children =>
    rw [LoadedNode.attach]
    split <;> rfl
  | fetched name r linked children => rfl

theorem related?_setRelated (i : Instance) (name : String) (related : Related) (key : String) :
    (i.setRelated name related).related? key = if key = name then some related else i.related? key :=
  NameMap.get?_put ..

theorem related?_attach (key : String) :
    (loaded.attach s parent).related? key = if key = loaded.name then loaded.gift s parent else parent.related? key := by
  cases loaded with
  | joined name children =>
    rw [LoadedNode.attach, LoadedNode.gift, LoadedNode.name]
    rcases hrelated : parent.related? name with - | related
    · dsimp only
      split
      · rename_i hkey
        rw [hkey, hrelated]
        rfl
      · rfl
    · exact related?_setRelated ..
  | fetched name r linked children => exact related?_setRelated ..

theorem ordered_relations_attach (h : NameMap.Ordered parent.relations) :
    NameMap.Ordered (loaded.attach s parent).relations := by
  cases loaded with
  | joined name children =>
    rw [LoadedNode.attach]
    split
    · exact h.put ..
    · exact h
  | fetched name r linked children => exact h.put ..

/-- Keys are fields, which attaching leaves alone. -/
theorem gift_attach {other : LoadedNode} (hne : loaded.name ≠ other.name) :
    loaded.gift s (other.attach s parent) = loaded.gift s parent := by
  cases loaded with
  | joined name children =>
    rw [LoadedNode.gift, related?_attach, if_neg (show name ≠ other.name from hne)]
    rfl
  | fetched name r linked children =>
    have hkey : r.ownerKey s (other.attach s parent) = r.ownerKey s parent := by
      unfold Relation.ownerKey Instance.pk Instance.get?
      rw [entity_attach, fields_attach]
    rw [LoadedNode.gift, hkey]
    rfl

theorem entity_attachAll (siblings : List LoadedNode) (parent : Instance) :
    (attachAll s parent siblings).entity = parent.entity := by
  induction siblings generalizing parent with
  | nil => rfl
  | cons node rest ih => rw [attachAll, ih, entity_attach]

theorem fields_attachAll (siblings : List LoadedNode) (parent : Instance) :
    (attachAll s parent siblings).fields = parent.fields := by
  induction siblings generalizing parent with
  | nil => rfl
  | cons node rest ih => rw [attachAll, ih, fields_attach]

theorem ordered_relations_attachAll (siblings : List LoadedNode) (h : NameMap.Ordered parent.relations) :
    NameMap.Ordered (attachAll s parent siblings).relations := by
  induction siblings generalizing parent with
  | nil => exact h
  | cons node rest ih => exact ih (ordered_relations_attach h)

theorem related?_attachAll_of_not_mem {siblings : List LoadedNode} {key : String}
    (hkey : key ∉ siblings.map (·.name)) : (attachAll s parent siblings).related? key = parent.related? key := by
  induction siblings generalizing parent with
  | nil => rfl
  | cons node rest ih =>
    rw [List.map_cons, List.mem_cons, not_or] at hkey
    rw [attachAll, ih hkey.2, related?_attach, if_neg hkey.1]

/-- Each of the siblings sets what it sets alone. -/
theorem related?_attachAll {siblings : List LoadedNode} (hnames : (siblings.map (·.name)).Nodup)
    (hmem : loaded ∈ siblings) : (attachAll s parent siblings).related? loaded.name = loaded.gift s parent := by
  induction siblings generalizing parent with
  | nil => cases hmem
  | cons node rest ih =>
    rw [List.map_cons, List.nodup_cons] at hnames
    rw [attachAll]
    rcases List.mem_cons.mp hmem with rfl | hrest
    · rw [related?_attachAll_of_not_mem hnames.1, related?_attach, if_pos rfl]
    · rw [ih hnames.2 hrest, gift_attach]
      intro he
      exact hnames.1 (he ▸ List.mem_map_of_mem hrest)

/-- Siblings can be attached in any order. -/
theorem related?_attachAll_perm {siblings order : List LoadedNode} (hnames : (siblings.map (·.name)).Nodup)
    (hperm : order.Perm siblings) (key : String) :
    (attachAll s parent order).related? key = (attachAll s parent siblings).related? key := by
  have hnames' : (order.map (·.name)).Nodup := (hperm.map _).nodup_iff.mpr hnames
  by_cases hkey : key ∈ siblings.map (·.name)
  · obtain ⟨node, hnode, rfl⟩ := List.mem_map.mp hkey
    rw [related?_attachAll hnames' (hperm.mem_iff.mpr hnode), related?_attachAll hnames hnode]
  · have hkey' : key ∉ order.map (·.name) := fun hmem => hkey ((hperm.map _).mem_iff.mp hmem)
    rw [related?_attachAll_of_not_mem hkey', related?_attachAll_of_not_mem hkey]

theorem attachAll_perm {siblings order : List LoadedNode} (hnames : (siblings.map (·.name)).Nodup)
    (hperm : order.Perm siblings) (hparent : NameMap.Ordered parent.relations) :
    attachAll s parent order = attachAll s parent siblings := by
  refine Instance.ext_related (ordered_relations_attachAll order hparent) (ordered_relations_attachAll siblings hparent)
    ?_ ?_ fun key => related?_attachAll_perm hnames hperm key
  · rw [entity_attachAll, entity_attachAll]
  · rw [fields_attachAll, fields_attachAll]

/-! ### Shares -/

/-- The instance with all that it has loaded but one relation. -/
def Instance.without (i : Instance) (name : String) : Instance :=
  { i with relations := i.relations.filter fun p => p.1 ≠ name }

/-- What a relation of the parent leads to among the instances of its target: for a foreign key the one that has it as
primary key, otherwise those that have a foreign key to the parent, or show the parent among their owners. -/
def Relation.share (r : Relation) (s : Schema) (found : List Instance) (parent : Instance) : Related :=
  match r.link with
  | .foreignKey key =>
    .one ((parent.get? key).bind fun v => if v = .null then none else found.find? fun child => child.pk s = v)
  | .reverseForeignKey key => .many (found.filter fun child => child.get? key = some (parent.pk s))
  | .manyToMany .. =>
    let linked := found.filter fun child => parent.pk s ∈ (child.relatedBy (s.mirrorName r)).map (·.pk s)
    .many (linked.map (·.without (s.mirrorName r)))

theorem dropRelated_eq_without {i : Instance} (h : NameMap.Ordered i.relations) (name : String) :
    i.dropRelated name = i.without name := by
  have hdrop : ∀ m : NameMap Related, NameMap.Ordered m → NameMap.drop name m = m.filter fun p => p.1 ≠ name := by
    intro m hm
    induction m with
    | nil => rfl
    | cons p rest ih =>
      obtain ⟨hlt, hrest⟩ := NameMap.ordered_cons.mp hm
      obtain ⟨key, related⟩ := p
      rw [NameMap.drop]
      split
      · rename_i hkey
        subst hkey
        rw [List.filter_cons_of_neg (by simp), List.filter_eq_self.mpr fun q hq => by simpa using (hlt q hq).ne']
      · rename_i hkey
        rw [List.filter_cons_of_pos (by simpa using hkey), ih hrest]
  rw [Instance.dropRelated, Instance.without, hdrop _ h]

theorem nodup_childKeys {found : List Instance} (h : KeysApart s found) (r : Relation) :
    ∀ child ∈ found, (r.childKeys s child).Nodup := by
  intro child hchild
  have howners := h.related child hchild (s.mirrorName r)
  unfold Relation.childKeys
  cases r.link with
  | foreignKey key => exact List.nodup_singleton _
  | reverseForeignKey key => exact (List.nodup_singleton _).filter _
  | manyToMany through ownerKey targetKey =>
    dsimp only
    unfold Instance.relatedBy at howners
    cases hrelated : child.related? (s.mirrorName r) with
    | none => exact List.nodup_nil
    | some owners =>
      rw [hrelated] at howners
      exact howners

theorem mem_childKeys_of_reverse {r : Relation} {key : String} (hlink : r.link = .reverseForeignKey key) {v : Value}
    (hv : v ≠ .null) (child : Instance) : v ∈ r.childKeys s child ↔ child.get? key = some v := by
  unfold Relation.childKeys
  rw [hlink, List.mem_filter, List.mem_singleton]
  rcases child.get? key with - | w
  · simp [hv]
  · rw [Option.getD_some, Option.some.injEq]
    constructor
    · exact fun h => h.1.symm
    · rintro rfl
      simpa [← Bool.not_eq_true, Value.isNull_eq_true] using hv

theorem childKeys_of_manyToMany {r : Relation} {through : EntityId} {ownerKey targetKey : String}
    (hlink : r.link = .manyToMany through ownerKey targetKey) (child : Instance) :
    r.childKeys s child = (child.relatedBy (s.mirrorName r)).map (·.pk s) := by
  unfold Relation.childKeys Instance.relatedBy
  rw [hlink]
  cases child.related? (s.mirrorName r) <;> rfl

theorem withoutOwners_of_single {r : Relation} (h : r.isManyToMany = false) : r.withoutOwners s = id := by
  funext child
  rw [Relation.withoutOwners, h]
  rfl

/-- The instances that the key of the parent links to it. -/
def Relation.picked (r : Relation) (s : Schema) (found : List Instance) (parent : Instance) : List Instance :=
  (found.filter fun child => r.ownerKey s parent ∈ r.childKeys s child).map (r.withoutOwners s)

section

variable {r : Relation} {found : List Instance}

theorem picked_of_foreignKey {key : String} (hlink : r.link = .foreignKey key)
    (hkeyed : ∀ child ∈ found, child.pk s ≠ .null) :
    (r.picked s found parent).head? =
      (parent.get? key).bind fun v => if v = .null then none else found.find? fun child => child.pk s = v := by
  have hkey : r.ownerKey s parent = (parent.get? key).getD .null := by rw [Relation.ownerKey, hlink]
  have hlinked : (found.filter fun child => r.ownerKey s parent ∈ r.childKeys s child) =
      found.filter fun child => child.pk s = (parent.get? key).getD .null := by
    refine List.filter_congr fun child _ => ?_
    rw [hkey, Relation.childKeys, hlink, decide_eq_decide, List.mem_singleton, eq_comm]
  have hnone : (found.find? fun child => child.pk s = .null) = none :=
    List.find?_eq_none.mpr fun child hchild => by simpa using hkeyed child hchild
  rw [Relation.picked, withoutOwners_of_single (by rw [Relation.isManyToMany, hlink]), List.map_id, hlinked,
    List.head?_filter]
  rcases parent.get? key with - | v
  · rw [Option.getD_none, hnone]
    rfl
  · rw [Option.getD_some, Option.bind_some]
    split
    · rename_i hv
      rw [hv, hnone]
    · rfl

theorem picked_of_reverse {key : String} (hlink : r.link = .reverseForeignKey key) (hparent : parent.pk s ≠ .null) :
    r.picked s found parent = found.filter fun child => child.get? key = some (parent.pk s) := by
  have hkey : r.ownerKey s parent = parent.pk s := by rw [Relation.ownerKey, hlink]
  rw [Relation.picked, withoutOwners_of_single (by rw [Relation.isManyToMany, hlink]), List.map_id, hkey]
  simp only [mem_childKeys_of_reverse hlink hparent]

theorem picked_of_manyToMany {through : EntityId} {ownerKey targetKey : String}
    (hlink : r.link = .manyToMany through ownerKey targetKey) (hfound : ∀ child ∈ found, child.Ordered) :
    r.picked s found parent =
      (found.filter fun child => parent.pk s ∈ (child.relatedBy (s.mirrorName r)).map (·.pk s)).map
        (·.without (s.mirrorName r)) := by
  have hkey : r.ownerKey s parent = parent.pk s := by rw [Relation.ownerKey, hlink]
  have hwithout : ∀ child ∈ found, r.withoutOwners s child = child.without (s.mirrorName r) := by
    intro child hchild
    rw [Relation.withoutOwners, Relation.isManyToMany, hlink]
    exact dropRelated_eq_without (hfound child hchild).relations _
  rw [Relation.picked, hkey, List.map_congr_left fun child hchild => hwithout child (List.mem_filter.mp hchild).1]
  simp only [childKeys_of_manyToMany hlink]

theorem share_eq_picked (r : Relation) (hfound : ∀ child ∈ found, child.Ordered)
    (hkeyed : ∀ child ∈ found, child.pk s ≠ .null) (hparent : parent.pk s ≠ .null) :
    r.share s found parent =
      if r.isForeignKey then .one (r.picked s found parent).head? else .many (r.picked s found parent) := by
  unfold Relation.share Relation.isForeignKey
  cases hlink : r.link with
  | foreignKey key => rw [picked_of_foreignKey hlink hkeyed, if_pos rfl]
  | reverseForeignKey key => rw [picked_of_reverse hlink hparent, if_neg Bool.false_ne_true]
  | manyToMany through ownerKey targetKey => rw [picked_of_manyToMany hlink hfound, if_neg Bool.false_ne_true]

/-- A parent gets its share, with all that is below attached to the instances in it. -/
theorem gift_eq_share (hfound : KeysApart s found) (hkeyed : ∀ child ∈ found, child.pk s ≠ .null)
    (hparent : parent.pk s ≠ .null) (r : Relation) (name : String) (below : List LoadedNode) :
    (LoadedNode.fetched name r (r.linkAll s found) below).gift s parent =
      some ((r.share s found parent).mapInstances fun i => attachAll s i below) := by
  have hmatched : ((r.linkAll s found).filter (·.1 = r.ownerKey s parent)).map (fun link => attachAll s link.2 below) =
      (r.picked s found parent).map fun i => attachAll s i below := by
    rw [Relation.picked, ← filter_linkAll r (nodup_childKeys hfound r), List.map_map]
    rfl
  rw [LoadedNode.gift, hmatched, share_eq_picked r hfound.ordered hkeyed hparent]
  split
  · rw [List.head?_map]
    rfl
  · rfl

end

/-! ### What loading has found -/

section

variable {σ : Type} {e : Engine σ} {parents : List Instance} {node : PrefetchNode}

/-- Loading a node for these parents finished with these instances, and for them with what is loaded below. -/
inductive PrefetchNode.Loads (e : Engine σ) (parents : List Instance) (node : PrefetchNode) :
    List Instance → List LoadedNode → Prop where
  | joined {below : List LoadedNode} {session session' : Session σ} (hjoined : node.isJoined = true)
      (hbelow : (loadNodes e (parents.flatMap (·.relatedBy node.name)) node.children).exec session =
        (.ok below, session')) :
      node.Loads e parents (parents.flatMap (·.relatedBy node.name)) below
  | unasked (hpending : node.isJoined = false)
      (hkeys : (e.schema.relation node.relation).parentKeys e.schema parents = []) : node.Loads e parents [] []
  | nothing {planned : PlannedQuery} {session session' : Session σ} (hpending : node.isJoined = false)
      (hfetch : (e.fetch (node.request e.schema ((e.schema.relation node.relation).parentKeys e.schema parents))).exec
        session = (.ok ([], planned), session')) :
      node.Loads e parents [] []
  | found {found : List Instance} {planned : PlannedQuery} {below : List LoadedNode} {session next session' : Session σ}
      (hpending : node.isJoined = false)
      (hfetch : (e.fetch (node.request e.schema ((e.schema.relation node.relation).parentKeys e.schema parents))).exec
        session = (.ok (found, planned), next))
      (hbelow : (loadNodes e (found.map ((e.schema.relation node.relation).withoutOwners e.schema)) node.children).exec
        next = (.ok below, session')) :
      node.Loads e parents found below

theorem PrefetchNode.name_kept (found : List Instance) (below : List LoadedNode) :
    (node.kept s found below).name = node.name := by
  unfold kept
  split <;> rfl

theorem loads_of_loadNode {session session' : Session σ} {loaded : LoadedNode}
    (h : (loadNode e parents node).exec session = (.ok loaded, session')) :
    ∃ found below, node.Loads e parents found below ∧ loaded = node.kept e.schema found below := by
  unfold PrefetchNode.kept
  cases hjoined : node.isJoined with
  | true =>
    rw [loadNode_of_joined hjoined] at h
    obtain ⟨below, next, hbelow, h⟩ := Run.exec_bind_eq_ok.mp h
    cases h
    exact ⟨_, below, .joined hjoined hbelow, rfl⟩
  | false =>
    by_cases hkeys : (e.schema.relation node.relation).parentKeys e.schema parents = []
    · rw [loadNode_of_unasked hjoined hkeys] at h
      cases h
      exact ⟨[], [], .unasked hjoined hkeys, rfl⟩
    · rw [loadNode_of_asked hjoined rfl hkeys] at h
      obtain ⟨⟨found, planned⟩, next, hfetch, h⟩ := Run.exec_bind_eq_ok.mp h
      dsimp only at h
      split at h
      · rename_i hempty
        cases h
        rw [List.isEmpty_iff.mp hempty] at hfetch
        exact ⟨[], [], .nothing hjoined hfetch, rfl⟩
      · obtain ⟨below, last, hbelow, h⟩ := Run.exec_bind_eq_ok.mp h
        cases h
        exact ⟨found, below, .found hjoined hfetch hbelow, rfl⟩

theorem loads_of_loadNodes {nodes : List PrefetchNode} : ∀ {session session' : Session σ} {loaded : List LoadedNode},
    (loadNodes e parents nodes).exec session = (.ok loaded, session') →
      List.Forall₂ (fun node l => ∃ found below, node.Loads e parents found below ∧ l = node.kept e.schema found below)
        nodes loaded := by
  induction nodes with
  | nil =>
    intro session session' loaded h
    cases h
    exact .nil
  | cons node rest ih =>
    intro session session' loaded h
    rw [loadNodes_cons] at h
    obtain ⟨first, next, hfirst, h⟩ := Run.exec_bind_eq_ok.mp h
    obtain ⟨more, last, hmore, h⟩ := Run.exec_bind_eq_ok.mp h
    cases h
    exact .cons (loads_of_loadNode hfirst) (ih hmore)

theorem PrefetchNode.Loads.keysApart (hplain : e.factory.Plain) (hpending : node.isJoined = false)
    {found : List Instance} {below : List LoadedNode} (h : node.Loads e parents found below) :
    KeysApart e.schema found := by
  cases h with
  | joined hjoined => exact absurd hjoined (by rw [hpending]; exact Bool.false_ne_true)
  | unasked => exact keysApart_nil
  | nothing => exact keysApart_nil
  | found _ hfetch => exact keysApart_fetch hplain hfetch

/-- What a relation leads to once a node for it is attached: what was joined stays, and otherwise the parent gets its share
of what was found. -/
def PrefetchNode.gives (s : Schema) (node : PrefetchNode) (found : List Instance) (parent : Instance) : Option Related :=
  if node.isJoined then parent.related? node.name else some ((s.relation node.relation).share s found parent)

theorem PrefetchNode.Loads.gift_eq (hplain : e.factory.Plain) {found : List Instance} {below : List LoadedNode}
    (h : node.Loads e parents found below)
    (hkeyed : node.isJoined = false → parent.pk e.schema ≠ .null ∧ ∀ child ∈ found, child.pk e.schema ≠ .null) :
    (node.kept e.schema found below).gift e.schema parent =
      (node.gives e.schema found parent).map (·.mapInstances fun i => attachAll e.schema i below) := by
  unfold PrefetchNode.kept PrefetchNode.gives
  cases hjoined : node.isJoined with
  | true => rfl
  | false =>
    obtain ⟨hparent, hfound⟩ := hkeyed hjoined
    exact gift_eq_share (h.keysApart hplain hjoined) hfound hparent _ _ below

/-- Attached in any order to any parent, loaded nodes give it its share of what each of them found, with what is loaded
below attached in turn. All else of the parent stays as it is, so all orders have the same result. -/
structure AttachesShares (e : Engine σ) (parents : List Instance) (nodes : List PrefetchNode)
    (loaded : List LoadedNode) : Prop where
  shares : ∀ node ∈ nodes, ∃ found below, node.Loads e parents found below ∧
    (node.isJoined = false → (found.map (·.pk e.schema)).Nodup) ∧
      ∀ order, order.Perm loaded → ∀ parent : Instance,
        (node.isJoined = false → parent.pk e.schema ≠ .null ∧ ∀ child ∈ found, child.pk e.schema ≠ .null) →
          (attachAll e.schema parent order).related? node.name =
            (node.gives e.schema found parent).map (·.mapInstances fun i => attachAll e.schema i below)
  rest : ∀ order, order.Perm loaded → ∀ parent : Instance,
    (attachAll e.schema parent order).entity = parent.entity ∧
      (attachAll e.schema parent order).fields = parent.fields ∧
        ∀ name, name ∉ nodes.map (·.name) → (attachAll e.schema parent order).related? name = parent.related? name
  anyOrder : ∀ order, order.Perm loaded → ∀ parent : Instance,
    (∀ name, (attachAll e.schema parent order).related? name = (attachAll e.schema parent loaded).related? name) ∧
      (NameMap.Ordered parent.relations → attachAll e.schema parent order = attachAll e.schema parent loaded)

theorem attachesShares_of_loadNodes (hplain : e.factory.Plain) {nodes : List PrefetchNode}
    (hnames : (nodes.map (·.name)).Nodup) {session session' : Session σ} {loaded : List LoadedNode}
    (hload : (loadNodes e parents nodes).exec session = (.ok loaded, session')) :
    AttachesShares e parents nodes loaded := by
  have hloads := loads_of_loadNodes hload
  have hsame : loaded.map (·.name) = nodes.map (·.name) := by
    rw [← List.forall₂_eq_eq_eq, List.forall₂_map_left_iff, List.forall₂_map_right_iff]
    refine hloads.flip.imp fun l node h => ?_
    obtain ⟨found, below, -, rfl⟩ := h
    exact PrefetchNode.name_kept found below
  have hloaded : (loaded.map (·.name)).Nodup := hsame ▸ hnames
  refine ⟨fun node hnode => ?_, fun order hperm parent => ⟨entity_attachAll .., fields_attachAll .., fun name hname => ?_⟩,
    fun order hperm parent => ⟨related?_attachAll_perm hloaded hperm, attachAll_perm hloaded hperm⟩⟩
  · obtain ⟨l, hl, found, below, hfound, rfl⟩ := exists_of_mem_forall₂ hloads.flip hnode
    refine ⟨found, below, hfound, fun hpending => (hfound.keysApart hplain hpending).keys,
      fun order hperm parent hkeyed => ?_⟩
    have hnames' : (order.map (·.name)).Nodup := (hperm.map _).nodup_iff.mpr hloaded
    have hset : (attachAll e.schema parent order).related? _ = _ := related?_attachAll hnames' (hperm.mem_iff.mpr hl)
    rw [PrefetchNode.name_kept] at hset
    rw [hset, hfound.gift_eq hplain hkeyed]
  · refine related?_attachAll_of_not_mem fun hmem => hname ?_
    rw [← hsame]
    exact (hperm.map _).mem_iff.mp hmem

end

theorem attachesShares_books :
    (scripted authorSchema).factory.Plain ∧ ([booksNode].map (·.name)).Nodup ∧
      ∃ loaded session',
        (loadNodes (scripted authorSchema) someAuthors [booksNode]).exec ⟨authorRegistry, bookAnswers, []⟩ =
            (.ok loaded, session') ∧
          AttachesShares (scripted authorSchema) someAuthors [booksNode] loaded := by
  have hnames : ([booksNode].map (·.name)).Nodup := by decide
  have hrun : ((loadNodes (scripted authorSchema) someAuthors [booksNode]).exec
      ⟨authorRegistry, bookAnswers, []⟩).1.map List.length = .ok 1 := by decide +kernel
  rcases hexec : (loadNodes (scripted authorSchema) someAuthors [booksNode]).exec ⟨authorRegistry, bookAnswers, []⟩
    with ⟨result, session'⟩
  rw [hexec] at hrun
  obtain ⟨loaded, rfl, -⟩ := map_eq_ok.mp hrun
  exact ⟨Factory.plain_standard, hnames, loaded, session', rfl,
    attachesShares_of_loadNodes Factory.plain_standard hnames hexec⟩

end RelQuery
