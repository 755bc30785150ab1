import RelQuery.Proofs.Engine.Slice
import RelQuery.Proofs.Prefetch.Plan

/-!
# Orderings of follow-up statements

An ordering that is left to the follow-up statements goes to the deepest node with a statement of its own that it goes
on below. There is one such node at most, and one unless the main statement joins all the relations before the ordered
field or leaves them out; then no statement applies the ordering.
-/

namespace RelQuery

variable {s : Schema} {tree : JoinTree} {projection : Projection} {paths : List Path}

/-! ### Which node takes an ordering -/

/-- Whether the ordering goes on below a path. -/
def OrderSpec.goesBelow (o : OrderSpec) (path : Path) : Bool :=
  decide (path.length < o.path.length) && path.isPrefixOf o.path

theorem OrderSpec.goesBelow_iff {o : OrderSpec} {path : Path} :
    o.goesBelow path = true ↔ ∃ name rest, path.segments ++ name :: rest = o.parts := by
  unfold OrderSpec.goesBelow
  rw [Bool.and_eq_true, decide_eq_true_iff, Path.isPrefixOf_iff]
  constructor
  · rintro ⟨hlt, more, hmore⟩
    have hlength : path.length + more.length = o.parts.length := by
      rw [← show o.path.segments = o.parts from rfl, ← hmore, List.length_append]
      rfl
    obtain ⟨name, rest, rfl⟩ := List.exists_cons_of_length_pos (l := more) (by
      change path.length < o.parts.length at hlt
      omega)
    exact ⟨name, rest, hmore⟩
  · rintro ⟨name, rest, hparts⟩
    refine ⟨?_, _, hparts⟩
    change path.length < o.parts.length
    rw [← hparts, List.length_append, List.length_cons]
    exact Nat.lt_add_of_pos_right (Nat.succ_pos _)

/-- An ordering that goes on below a path goes on below those that the path begins with. -/
theorem OrderSpec.goesBelow_of_isPrefix {o : OrderSpec} {path longer : Path} (h : o.goesBelow longer = true)
    (hpre : path.segments <+: longer.segments) : o.goesBelow path = true := by
  obtain ⟨hlt, hparts⟩ := Bool.and_eq_true_iff.mp h
  have hle := hpre.length_le
  refine Bool.and_eq_true_iff.mpr ⟨decide_eq_true ?_, Path.isPrefixOf_iff.mpr (hpre.trans (Path.isPrefixOf_iff.mp hparts))⟩
  exact Nat.lt_of_le_of_lt hle (of_decide_eq_true hlt)

namespace PrefetchNode

/-- Whether the node has a statement of its own, for a relation that the ordering goes on below. -/
def canTake (o : OrderSpec) (node : PrefetchNode) : Bool := !node.isJoined && o.goesBelow node.path

/-- Whether the node is the deepest one that can take the ordering. -/
def takes (o : OrderSpec) (node : PrefetchNode) : Bool :=
  node.canTake o && !(nodesListed node.children).any (canTake o)

theorem canTake_iff {o : OrderSpec} {node : PrefetchNode} :
    node.canTake o = true ↔ node.isJoined = false ∧ o.goesBelow node.path = true := by
  unfold canTake
  rw [Bool.and_eq_true, Bool.not_eq_true']

end PrefetchNode

/-- An ordering as seen from the far side of a path. -/
def OrderSpec.below (o : OrderSpec) (path : Path) : OrderSpec := ⟨o.parts.drop path.length, o.descending⟩

variable {parent : Path} {id : EntityId} {node : PrefetchNode} {nodes : List PrefetchNode} (o : OrderSpec)

/-- Nothing below a node can take an ordering that does not go on below the node. -/
theorem PrefetchNode.Covers.goesBelow_of_any (h : node.Covers s tree projection paths parent id)
    (hany : node.listed.any (·.canTake o) = true) : o.goesBelow node.path = true := by
  obtain ⟨below, hbelow, htake⟩ := List.any_eq_true.mp hany
  have hpre := h.prefix_of_mem_listed below hbelow
  exact OrderSpec.goesBelow_of_isPrefix (PrefetchNode.canTake_iff.mp htake).2 hpre

/-- An ordering goes on below one of the nodes of a level at most. -/
theorem NodesCover.pairwise_goesBelow (h : NodesCover s tree projection paths parent id nodes) :
    nodes.Pairwise fun a b => ¬(o.goesBelow a.path = true ∧ o.goesBelow b.path = true) := by
  refine (List.pairwise_map.mp h.names).imp_of_mem ?_
  intro a b ha hb hne ⟨hgoesA, hgoesB⟩
  have hstarts : ∀ n ∈ nodes, o.goesBelow n.path = true → (parent.child n.name).segments <+: o.path.segments := by
    intro n hn hgoes
    rw [← (h.below n hn).follows.path]
    exact Path.isPrefixOf_iff.mp (Bool.and_eq_true_iff.mp hgoes).2
  exact hne (Path.eq_of_child_isPrefix (hstarts a ha hgoesA) (hstarts b hb hgoesB))

/-- The search for the node of an ordering finds out whether some node can take it. -/
theorem nodesReach_eq (hbelow : ∀ n ∈ nodes, n.reaches o.path = n.listed.any (·.canTake o)) :
    nodesReach o.path nodes = (nodesListed nodes).any (·.canTake o) := by
  induction nodes with
  | nil => rfl
  | cons first rest ih =>
    obtain ⟨hfirst, hrest⟩ := List.forall_mem_cons.mp hbelow
    rw [nodesReach, nodesListed, List.any_append, hfirst, ih hrest]

theorem PrefetchNode.Covers.reaches_eq (h : node.Covers s tree projection paths parent id) :
    node.reaches o.path = node.listed.any (·.canTake o) := by
  induction h with
  | @intro parent id node follows names complete below ih =>
    have hchildren := nodesReach_eq o ih
    have hany := (Covers.intro follows names complete below).goesBelow_of_any o
    have hunfold : node.reaches o.path = (o.goesBelow node.path && (!node.isJoined || nodesReach o.path node.children)) := by
      obtain ⟨path, name, relation, isJoined, projection, orderBy, children⟩ := node
      rfl
    rw [node.listed_eq, List.any_cons] at hany ⊢
    rw [hunfold, hchildren]
    unfold canTake at hany ⊢
    cases hbelow : o.goesBelow node.path
    · rw [hbelow] at hany
      simpa using hany
    · simp

theorem NodesCover.nodesReach_eq (h : NodesCover s tree projection paths parent id nodes) :
    nodesReach o.path nodes = (nodesListed nodes).any (·.canTake o) :=
  RelQuery.nodesReach_eq o fun n hn => (h.below n hn).reaches_eq o

/-- How many of the nodes take the ordering. -/
def countTaking (o : OrderSpec) (nodes : List PrefetchNode) : Nat := (nodes.filter (·.takes o)).length

theorem countTaking_append (a b : List PrefetchNode) : countTaking o (a ++ b) = countTaking o a + countTaking o b := by
  rw [countTaking, List.filter_append, List.length_append]
  rfl

/-- Where the node of a level that can take the ordering, or has one below that can, has one node that takes it, the
level has one. -/
theorem NodesCover.countTaking_eq (h : NodesCover s tree projection paths parent id nodes)
    (heach : ∀ n ∈ nodes, countTaking o n.listed = if n.listed.any (·.canTake o) then 1 else 0) :
    countTaking o (nodesListed nodes) = if (nodesListed nodes).any (·.canTake o) then 1 else 0 := by
  have hone := h.pairwise_goesBelow o
  have hgoes := fun n (hn : n ∈ nodes) => (h.below n hn).goesBelow_of_any o
  clear h
  induction nodes with
  | nil => rfl
  | cons first rest ih =>
    obtain ⟨hfirst, hrest⟩ := List.forall_mem_cons.mp heach
    obtain ⟨hgoesFirst, hgoesRest⟩ := List.forall_mem_cons.mp hgoes
    obtain ⟨hother, hone⟩ := List.pairwise_cons.mp hone
    rw [nodesListed, countTaking_append, hfirst, ih hrest hone hgoesRest, List.any_append]
    cases hany : first.listed.any (·.canTake o)
    · simp
    · have hnone : (nodesListed rest).any (·.canTake o) = false := by
        refine List.any_eq_false.mpr fun m hm htake => ?_
        obtain ⟨above, habove, hm⟩ := mem_nodesListed.mp hm
        exact hother above habove ⟨hgoesFirst hany, hgoesRest above habove (List.any_eq_true.mpr ⟨m, hm, htake⟩)⟩
      rw [hnone]
      simp

theorem PrefetchNode.Covers.countTaking_eq (h : node.Covers s tree projection paths parent id) :
    countTaking o node.listed = if node.listed.any (·.canTake o) then 1 else 0 := by
  induction h with
  | @intro parent id node follows names complete below ih =>
    have hchildren := NodesCover.countTaking_eq o (Covers.intro follows names complete below).children ih
    have hcons : countTaking o (node :: nodesListed node.children) =
        (if node.takes o then 1 else 0) + countTaking o (nodesListed node.children) := by
      unfold countTaking
      rw [List.filter_cons]
      split
      · rw [List.length_cons, Nat.add_comm]
      · rw [Nat.zero_add]
    rw [node.listed_eq, hcons, hchildren, List.any_cons, takes]
    cases node.canTake o <;> cases (nodesListed node.children).any (canTake o) <;> rfl

/-- In a plan one node takes an ordering if any can, and none otherwise. -/
theorem NodesCover.countTaking (h : NodesCover s tree projection paths parent id nodes) :
    countTaking o (nodesListed nodes) = if (nodesListed nodes).any (·.canTake o) then 1 else 0 :=
  h.countTaking_eq o fun n hn => (h.below n hn).countTaking_eq o

/-- Where a node is and whether it has a statement of its own. -/
def PrefetchNode.shape (node : PrefetchNode) : Path × Bool := (node.path, node.isJoined)

/-- A node of a plan and the same one after orderings have been added. -/
structure PrefetchNode.Ordered (later : List OrderSpec) (new old : PrefetchNode) : Prop where
  shape : new.shape = old.shape
  below : (nodesListed new.children).map PrefetchNode.shape = (nodesListed old.children).map PrefetchNode.shape
  orderBy : new.orderBy = old.orderBy ++ (later.filter (old.takes ·)).map (·.below old.path)

theorem canTake_of_shape {a b : PrefetchNode} (h : a.shape = b.shape) : a.canTake o = b.canTake o := by
  obtain ⟨hpath, hjoined⟩ := Prod.mk.inj h
  unfold PrefetchNode.canTake
  rw [hpath, hjoined]

theorem any_canTake_eq (nodes : List PrefetchNode) :
    nodes.any (·.canTake o) = (nodes.map (·.shape)).any fun shape => !shape.2 && o.goesBelow shape.1 := by
  rw [List.any_map]
  rfl

theorem PrefetchNode.Ordered.takes_eq {later : List OrderSpec} {new old : PrefetchNode}
    (h : new.Ordered later old) : new.takes o = old.takes o := by
  unfold takes
  rw [canTake_of_shape o h.shape, any_canTake_eq, any_canTake_eq, h.below]

theorem map_shape_of_ordered {later : List OrderSpec} {new old : List PrefetchNode}
    (h : List.Forall₂ (·.Ordered later ·) new old) : new.map (·.shape) = old.map (·.shape) := by
  induction h with
  | nil => rfl
  | cons hfirst _ ih => rw [List.map_cons, List.map_cons, hfirst.shape, ih]

theorem takes_eq_false {nodes : List PrefetchNode} (h : nodes.any (·.canTake o) = false) :
    ∀ n ∈ nodes, n.takes o = false := by
  intro n hn
  have hcan : n.canTake o = false := by simpa using List.any_eq_false.mp h n hn
  rw [PrefetchNode.takes, hcan, Bool.false_and]

theorem forall₂_ordered_refl {nodes : List PrefetchNode} (h : nodes.any (·.canTake o) = false) :
    List.Forall₂ (·.Ordered [o] ·) nodes nodes := by
  refine List.forall₂_same.mpr fun n hn => ⟨rfl, rfl, ?_⟩
  rw [List.filter_singleton, takes_eq_false o h n hn, cond_false, List.map_nil, List.append_nil]

theorem NodesCover.forall₂_addOrderBelow (h : NodesCover s tree projection paths parent id nodes)
    (heach : ∀ n ∈ nodes, o.goesBelow n.path = true → List.Forall₂ (·.Ordered [o] ·) (n.addOrder o).listed n.listed) :
    List.Forall₂ (·.Ordered [o] ·) (nodesListed (addOrderBelow o nodes)) (nodesListed nodes) := by
  have hone := h.pairwise_goesBelow o
  have hany := fun n (hn : n ∈ nodes) => (h.below n hn).goesBelow_of_any o
  -- the rest of the nodes does not cover the paths, so the induction keeps only that one node is on the way
  clear h
  induction nodes with
  | nil => exact .nil
  | cons first rest ih =>
    obtain ⟨hfirst, hrest⟩ := List.forall_mem_cons.mp heach
    obtain ⟨hanyFirst, hanyRest⟩ := List.forall_mem_cons.mp hany
    obtain ⟨hother, hone⟩ := List.pairwise_cons.mp hone
    rw [addOrderBelow, show first.isAbove o.path = o.goesBelow first.path from rfl]
    cases hgoes : o.goesBelow first.path with
    | true =>
      refine List.rel_append (hfirst hgoes) (forall₂_ordered_refl o ?_)
      refine List.any_eq_false.mpr fun n hn htake => ?_
      obtain ⟨above, habove, hn⟩ := mem_nodesListed.mp hn
      exact hother above habove ⟨hgoes, hanyRest above habove (List.any_eq_true.mpr ⟨n, hn, htake⟩)⟩
    | false =>
      refine List.rel_append (forall₂_ordered_refl o (Bool.eq_false_iff.mpr fun htake => ?_)) (ih hrest hone hanyRest)
      rw [hanyFirst htake] at hgoes
      cases hgoes

theorem PrefetchNode.Covers.forall₂_addOrder (h : node.Covers s tree projection paths parent id)
    (hgoes : o.goesBelow node.path = true) :
    List.Forall₂ (·.Ordered [o] ·) (node.addOrder o).listed node.listed := by
  induction h with
  | @intro parent id node follows names complete below ih =>
    have hchildren := (Covers.intro follows names complete below).children
    have hreach := hchildren.nodesReach_eq o
    have hlevel := hchildren.forall₂_addOrderBelow o ih
    clear follows names complete below ih hchildren
    obtain ⟨path, name, relation, isJoined, projection, orderBy, children⟩ := node
    simp only at hreach hlevel
    rw [addOrder, hreach]
    cases hany : (nodesListed children).any (·.canTake o) with
    | true =>
      refine .cons ⟨rfl, map_shape_of_ordered hlevel, ?_⟩ hlevel
      simp [takes, hany]
    | false =>
      cases isJoined with
      | true =>
        have hnone : (listed ⟨path, name, relation, true, projection, orderBy, children⟩).any (·.canTake o) = false := by
          rw [listed_eq, List.any_cons, hany]
          rfl
        exact forall₂_ordered_refl o hnone
      | false =>
        refine .cons ⟨rfl, rfl, ?_⟩ (forall₂_ordered_refl o hany)
        have hpre : path.isPrefixOf o.path = true := (Bool.and_eq_true_iff.mp hgoes).2
        have htakes : takes o ⟨path, name, relation, false, projection, orderBy, children⟩ = true := by
          simp only [takes, canTake, hgoes, hany, Bool.not_false, Bool.and_self]
        rw [List.filter_singleton, htakes, Path.stripFrom?, if_pos hpre]
        rfl

theorem PrefetchNode.Ordered.trans {later : List OrderSpec} {a b c : PrefetchNode} (h : a.Ordered later b)
    (hfirst : b.Ordered [o] c) : a.Ordered (o :: later) c := by
  have hpath : b.path = c.path := (Prod.mk.inj hfirst.shape).1
  have htakes : (fun more => b.takes more) = fun more => c.takes more := funext fun more => hfirst.takes_eq more
  refine ⟨h.shape.trans hfirst.shape, h.below.trans hfirst.below, ?_⟩
  rw [h.orderBy, hfirst.orderBy, hpath, htakes, List.append_assoc, ← List.map_append, ← List.filter_append,
    List.singleton_append]

theorem forall₂_ordered_trans {later : List OrderSpec} {a b c : List PrefetchNode}
    (h : List.Forall₂ (·.Ordered later ·) a b) (hfirst : List.Forall₂ (·.Ordered [o] ·) b c) :
    List.Forall₂ (·.Ordered (o :: later) ·) a c := by
  induction h generalizing c with
  | nil =>
    cases hfirst
    exact .nil
  | cons hab _ ih =>
    obtain ⟨z, c, hbc, hrest, rfl⟩ := List.forall₂_cons_left_iff.mp hfirst
    exact .cons (hab.trans o hbc) (ih hrest)

/-- Adding orderings to a plan gives each to the node that takes it, after those that the node has. -/
theorem NodesCover.forall₂_addOrders (later : List OrderSpec)
    (h : NodesCover s tree projection paths parent id nodes) :
    List.Forall₂ (·.Ordered later ·) (nodesListed (later.foldl (fun nodes o => addOrderBelow o nodes) nodes))
      (nodesListed nodes) := by
  induction later generalizing nodes with
  | nil => exact List.forall₂_same.mpr fun n _ => ⟨rfl, rfl, (List.append_nil _).symm⟩
  | cons o rest ih =>
    have hfirst := h.forall₂_addOrderBelow o fun n hn hgoes => (h.below n hn).forall₂_addOrder o hgoes
    have hrest := ih (nodesCover_addOrders [o] h)
    exact forall₂_ordered_trans o hrest hfirst

/-! ### Orderings of built plans -/

theorem orderBy_insertSteps {steps : List (Path × RelationId)}
    (h : ∀ n ∈ nodesListed nodes, n.orderBy = []) :
    ∀ n ∈ nodesListed (insertSteps tree projection steps nodes), n.orderBy = [] := by
  induction steps generalizing nodes with
  | nil => exact h
  | cons step rest ih =>
    -- a step adds to the children of a node that is there, or of a fresh one without any
    have hadded (children : List PrefetchNode) (hchildren : ∀ n ∈ nodesListed children, n.orderBy = [])
        (node : PrefetchNode) (hnode : node.orderBy = []) :
        ∀ n ∈ PrefetchNode.listed { node with children := insertSteps tree projection rest children },
          n.orderBy = [] := by
      intro n hn
      rcases PrefetchNode.mem_listed.mp hn with rfl | hn
      · exact hnode
      · exact ih hchildren n hn
    rw [insertSteps]
    intro n hn
    split at hn
    · obtain ⟨above, habove, hn⟩ := mem_nodesListed.mp hn
      obtain ⟨old, hold, rfl⟩ := List.mem_map.mp habove
      have hlisted : ∀ m ∈ old.listed, m.orderBy = [] := fun m hm => h m (mem_nodesListed.mpr ⟨old, hold, hm⟩)
      split at hn
      · refine hadded old.children (fun m hm => hlisted m ?_) old (hlisted old ?_) n hn
        · exact PrefetchNode.mem_listed.mpr (.inr hm)
        · exact PrefetchNode.mem_listed.mpr (.inl rfl)
      · exact hlisted n hn
    · obtain ⟨above, habove, hn⟩ := mem_nodesListed.mp hn
      rcases List.mem_append.mp habove with hold | hnew
      · exact h n (mem_nodesListed.mpr ⟨above, hold, hn⟩)
      · obtain rfl := List.mem_singleton.mp hnew
        exact hadded [] (fun m hm => absurd hm List.not_mem_nil) _ rfl n hn

theorem orderBy_unordered (tree : JoinTree) (projection : Projection) (resolved : List ResolvedPath) :
    ∀ n ∈ nodesListed (PrefetchPlan.unordered tree projection resolved), n.orderBy = [] := by
  unfold PrefetchPlan.unordered
  generalize hnodes : ([] : List PrefetchNode) = nodes
  have hnone : ∀ n ∈ nodesListed nodes, n.orderBy = [] := by
    rw [← hnodes]
    exact fun n hn => absurd hn List.not_mem_nil
  clear hnodes
  induction resolved generalizing nodes with
  | nil => exact hnone
  | cons r rest ih => exact ih _ (orderBy_insertSteps hnone)

variable {root : EntityId} {later : List OrderSpec} {plan : PrefetchPlan}

/-- The nodes of a built plan have the orderings that they take, in the order given. -/
theorem orderBy_of_build (h : PrefetchPlan.build s root paths tree projection later = .ok plan) :
    ∀ node ∈ nodesListed plan, node.orderBy = (later.filter (node.takes ·)).map (·.below node.path) := by
  intro node hnode
  obtain ⟨resolved, hresolved, rfl⟩ := build_eq_ok h
  have hcover : NodesCover s tree projection _ .root root (PrefetchPlan.unordered tree projection resolved) :=
    nodesCover_unordered hresolved
  have hordered := hcover.forall₂_addOrders later
  obtain ⟨old, hold, hnode⟩ := exists_of_mem_forall₂ hordered.flip hnode
  have htakes : (fun o => node.takes o) = fun o => old.takes o := funext fun o => hnode.takes_eq o
  rw [hnode.orderBy, orderBy_unordered tree projection resolved old hold, List.nil_append, htakes,
    (Prod.mk.inj hnode.shape).1]

/-- Some node of a built plan can take an ordering if a path that the projection keeps goes, before the ordered field,
through a relation that the tree does not join. -/
theorem any_canTake_of_build (h : PrefetchPlan.build s root paths tree projection later = .ok plan) :
    (nodesListed plan).any (·.canTake o) = true ↔
      ∃ path ∈ paths, projection.excludesPath path = false ∧
        ∃ step ∈ path.prefixes, o.goesBelow step = true ∧ tree.contains step = false := by
  have hcover := nodesCover_build h
  constructor
  · intro hany
    obtain ⟨node, hnode, htake⟩ := List.any_eq_true.mp hany
    obtain ⟨hunjoined, hgoes⟩ := PrefetchNode.canTake_iff.mp htake
    obtain ⟨parent, id, -, -, hcovers⟩ := hcover.of_mem_listed hnode
    obtain ⟨path, hpath, hpre⟩ := goThrough_iff.mp (hcover.goThrough_listed hnode)
    obtain ⟨hpath, hkept⟩ := List.mem_filter.mp hpath
    have hroot : node.path ≠ .root := fun hroot => by
      have hchild := hcovers.follows.path.symm.trans hroot
      simp [Path.child, Path.root] at hchild
    refine ⟨path, hpath, (Bool.not_eq_true' _).mp (Bool.and_eq_true_iff.mp hkept).2, node.path, ?_, hgoes, ?_⟩
    · exact Path.mem_prefixes.mpr ⟨hroot, hpre⟩
    · exact hcovers.follows.joined.symm.trans hunjoined
  · rintro ⟨path, hpath, hexcludes, step, hstep, hgoes, hjoined⟩
    obtain ⟨hroot, hpre⟩ := Path.mem_prefixes.mp hstep
    have hnames : step.segments ≠ [] := fun hnil => hroot (Path.mk.injEq .. ▸ hnil)
    have hlong : path.isRoot = false := Bool.eq_false_iff.mpr fun hroot' => by
      rw [Path.isRoot_iff.mp hroot'] at hpre
      exact hnames (List.prefix_nil.mp hpre)
    have hkept : path ∈ PrefetchPlan.keptPaths projection paths := by
      refine List.mem_filter.mpr ⟨hpath, ?_⟩
      rw [hlong, hexcludes]
      rfl
    obtain ⟨node, hnode, he⟩ := hcover.exists_listed hnames (goThrough_iff.mpr ⟨path, hkept, hpre⟩)
    obtain ⟨parent, id, -, -, hcovers⟩ := hcover.of_mem_listed hnode
    have hnode' : node.path = step := he
    refine List.any_eq_true.mpr ⟨node, hnode, PrefetchNode.canTake_iff.mpr ⟨?_, ?_⟩⟩
    · rw [hcovers.follows.joined, hnode', hjoined]
    · rw [hnode', hgoes]

namespace QuerySet

/-- Whether an ordering is left to the follow-up statements: it goes on below a prefetched path that is not one of
those asked to be joined. -/
def defers (q : QuerySet) (o : OrderSpec) : Bool :=
  q.prefetchRelated.any fun path => path.prefixes.any fun step => o.goesBelow step && !goThrough q.selectRelated step

/-- An ordering by a field of the root is not left to follow-up statements. -/
theorem defers_eq_false {o : OrderSpec} (h : o.parts.length ≤ 1) (q : QuerySet) : q.defers o = false := by
  refine List.any_eq_false.mpr fun path _ hany => ?_
  obtain ⟨step, hstep, hdefers⟩ := List.any_eq_true.mp hany
  obtain ⟨name, rest, hparts⟩ := OrderSpec.goesBelow_iff.mp (Bool.and_eq_true_iff.mp hdefers).1
  obtain ⟨hne, -⟩ := Path.mem_prefixes.mp hstep
  have hstepPos : step.segments.length ≠ 0 := fun he => hne (congrArg Path.mk (List.length_eq_zero_iff.mp he))
  rw [← hparts, List.length_append, List.length_cons] at h
  omega

/-- Where the orderings of a query set are applied: by the main statement, or, as seen from there, by the node that
takes them. -/
structure OrdersAt (q : QuerySet) (request : Request) (planned : PlannedQuery) (plan : PrefetchPlan) : Prop where
  main : request.orderBy = q.orderBy.filter (!q.defers ·)
  below : ∀ node ∈ nodesListed plan, node.orderBy =
    (q.orderBy.filter fun o => q.defers o && node.takes o).map (·.below node.path)
  taken : ∀ node ∈ nodesListed plan, ∀ o : OrderSpec, node.takes o = true →
    node.isJoined = false ∧ node.path.segments ++ (o.below node.path).parts = o.parts
  /-- One node takes a deferred ordering if a prefetched relation before its field is loaded by a statement of its own,
  and none otherwise. -/
  once : ∀ o : OrderSpec,
    if ∃ path ∈ q.prefetchRelated, planned.projection.excludesPath path = false ∧
        ∃ step ∈ path.prefixes, o.goesBelow step = true ∧ planned.tree.contains step = false
    then ∃ node, (nodesListed plan).filter (·.takes o) = [node]
    else (nodesListed plan).filter (·.takes o) = []

/-- The request of the main statement of a query set whose prefetched paths resolve. -/
def mainRequest (q : QuerySet) (s : Schema) : Request :=
  { root := q.root, filters := q.filters, selectRelated := q.selectRelated, prefetchRelated := q.prefetchRelated
    fields := q.fields, excludeFields := q.excludeFields, orderBy := q.orderBy.filter (!q.defers ·)
    limit := q.limit, offset := q.offset, limitRawSql := q.limitRawSql
    required := PrefetchPlan.requiredKeys s q.root q.prefetchRelated }

theorem request_eq_ok {q : QuerySet} {request : Request} (h : q.request s = .ok (request, later)) :
    (∀ path ∈ q.prefetchRelated, ∃ r, s.resolve q.root path = .ok r) ∧ request = q.mainRequest s ∧
      later = q.orderBy.filter q.defers := by
  obtain ⟨⟨⟩, hpaths, h⟩ := bind_eq_ok.mp h
  refine ⟨fun path hpath => ?_, ?_⟩
  · obtain ⟨r, hr, -⟩ := map_eq_ok.mp (forM_eq_ok.mp hpaths path hpath)
    exact ⟨r, hr⟩
  · cases h
    exact ⟨rfl, rfl⟩

theorem ordersAt_of_prefetchPlan {q : QuerySet} {request : Request} {planned : PlannedQuery}
    (hrequest : q.request s = .ok (request, later)) (hplan : prefetchPlan s request planned later = .ok plan) :
    q.OrdersAt request planned plan := by
  obtain ⟨-, rfl, rfl⟩ := request_eq_ok hrequest
  have hbuild : PrefetchPlan.build s q.root q.prefetchRelated planned.tree planned.projection
      (q.orderBy.filter q.defers) = .ok plan := hplan
  refine ⟨rfl, fun node hnode => ?_, fun node _ o htakes => ?_, fun o => ?_⟩
  · rw [orderBy_of_build hbuild node hnode, List.filter_filter]
    simp only [Bool.and_comm]
  · have hcan : node.canTake o = true := (Bool.and_eq_true_iff.mp htakes).1
    obtain ⟨hunjoined, hgoes⟩ := PrefetchNode.canTake_iff.mp hcan
    obtain ⟨name, rest, hparts⟩ := OrderSpec.goesBelow_iff.mp hgoes
    refine ⟨hunjoined, ?_⟩
    rw [OrderSpec.below, ← hparts, Path.length, List.drop_left]
  · have hcount := (nodesCover_build hbuild).countTaking o
    rw [countTaking] at hcount
    split
    case isTrue hsome =>
      rw [(any_canTake_of_build o hbuild).mpr hsome, if_pos rfl] at hcount
      exact List.length_eq_one_iff.mp hcount
    case isFalse hnone =>
      rw [if_neg fun hany => hnone ((any_canTake_of_build o hbuild).mp hany)] at hcount
      exact List.length_eq_zero_iff.mp hcount

variable {σ : Type}

/-- A compiled query set comes from a plan in which every ordering of the query set has its place: in the main request,
or with the node that takes it. An ordering that the main request leaves to the others has none when the main statement
joins, or the projection leaves out, the prefetched relations before its field. -/
theorem ordersAt_of_compile {q : QuerySet} {e : Engine σ} {session session' : Session σ} {compiled : CompiledQuery}
    (h : (q.compile e).exec session = (.ok compiled, session')) :
    ∃ request later planned plan,
      q.request e.schema = .ok (request, later) ∧
        (e.plan request).exec session = (.ok planned, session') ∧
        prefetchPlan e.schema request planned later = .ok plan ∧
        compiled = ⟨planned.statement e.settings.dialect, nodesOutline e.schema plan⟩ ∧
        q.OrdersAt request planned plan := by
  obtain ⟨⟨request, later⟩, start, hask, h⟩ := Run.exec_bind_eq_ok.mp h
  obtain ⟨planned, next, hplanned, h⟩ := Run.exec_bind_eq_ok.mp h
  obtain ⟨plan, last, hbuild, h⟩ := Run.exec_bind_eq_ok.mp h
  obtain ⟨hrequest, rfl⟩ := Run.exec_ofExcept_eq_ok.mp hask
  obtain ⟨hplan, rfl⟩ := Run.exec_ofExcept_eq_ok.mp hbuild
  cases h
  exact ⟨request, later, planned, plan, hrequest, hplanned, hplan, rfl, ordersAt_of_prefetchPlan hrequest hplan⟩

/-- The authors, with their books, longest first. -/
def booksLongestFirst : QuerySet :=
  { root := ⟨0⟩, prefetchRelated := [⟨["books"]⟩], orderBy := [⟨["books", "pages"], true⟩, ⟨["id"], false⟩] }

theorem ordersAt_of_compile_books :
    ∃ compiled session',
      (booksLongestFirst.compile (authorDatabase.engine .plain authorSchema {})).exec ⟨authorRegistry, (), []⟩ =
          (.ok compiled, session') ∧
        compiled.prefetch = [⟨"books", "Author.books", false, ["-pages"]⟩] ∧
        ∃ request later planned plan,
          booksLongestFirst.request authorSchema = .ok (request, later) ∧
            prefetchPlan authorSchema request planned later = .ok plan ∧
            compiled.prefetch = nodesOutline authorSchema plan ∧
            booksLongestFirst.OrdersAt request planned plan := by
  have hcompiled : ((booksLongestFirst.compile (authorDatabase.engine .plain authorSchema {})).exec
      ⟨authorRegistry, (), []⟩).1.map (·.prefetch) = .ok [⟨"books", "Author.books", false, ["-pages"]⟩] := by
    decide +kernel
  obtain ⟨compiled, hok, hprefetch⟩ := map_eq_ok.mp hcompiled
  have hpair : (booksLongestFirst.compile (authorDatabase.engine .plain authorSchema {})).exec
      ⟨authorRegistry, (), []⟩ = (.ok compiled, _) := Prod.ext hok rfl
  obtain ⟨request, later, planned, plan, hrequest, -, hplan, he, horders⟩ := ordersAt_of_compile hpair
  have houtline : compiled.prefetch = nodesOutline authorSchema plan := by
    rw [he]
    rfl
  exact ⟨compiled, _, hpair, hprefetch, request, later, planned, plan, hrequest, hplan, houtline, horders⟩

/-- With a filter on the books the main statement joins them, without their ordering, and their node has nothing to
load. -/
theorem ordering_dropped_by_filter :
    let filtered := booksLongestFirst.filter (.lookup "books__year" (.scalar (.int 1990)))
    filtered.orderBy = [⟨["books", "pages"], true⟩, ⟨["id"], false⟩] ∧
      (filtered.request authorSchema).map (fun asked => asked.1.orderBy) = .ok [⟨["id"], false⟩] ∧
      ((filtered.compile (authorDatabase.engine .plain authorSchema {})).exec ⟨authorRegistry, (), []⟩).1.map
        (·.prefetch) = .ok [⟨"books", "Author.books", true, []⟩] :=
  ⟨rfl, by decide +kernel, by decide +kernel⟩

end QuerySet

end RelQuery
