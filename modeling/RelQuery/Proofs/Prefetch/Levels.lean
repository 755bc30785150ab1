import RelQuery.Prefetch.Load
import RelQuery.Proofs.Prefetch.Keys

/-!
# Levels of a prefetch plan

A prefetch plan has instances at each of its paths: the roots at the root, what was joined below a joined relation, and
otherwise what was loaded for the instances above. A request is needed for every relation that is not joined and that
has parents with keys, for just these keys. The levels of a tree are those of its subtrees, put together.
-/

namespace RelQuery

variable {s : Schema}

/-- A request for the instances that a node links to some keys. -/
structure FollowUp where
  node : PrefetchNode
  keys : List Value

/-- The path of the instances that a node is loaded for. -/
def PrefetchNode.above (node : PrefetchNode) : Path := node.path.parent?.getD .root

/-- The keys by which a node links the instances above it: each once, without nulls, in order of first appearance. -/
def PrefetchNode.keysAbove (s : Schema) (level : Path → List Instance) (node : PrefetchNode) : List Value :=
  (((level node.above).map ((s.relation node.relation).ownerKey s)).filter (!·.isNull)).eraseDups

def PrefetchNode.followUp? (s : Schema) (level : Path → List Instance) (node : PrefetchNode) : Option FollowUp :=
  if node.isJoined || (node.keysAbove s level).isEmpty then none else some ⟨node, node.keysAbove s level⟩

/-- There is one request for each node that is not joined, if the instances above it have keys, in the order of the tree. -/
def PrefetchPlan.followUps (s : Schema) (level : Path → List Instance) (plan : PrefetchPlan) : List FollowUp :=
  (nodesListed plan).filterMap (·.followUp? s level)

/-- Where nodes are joined the instances below are with those above, and where nothing is asked for there are none. -/
structure Levels (s : Schema) (level : Path → List Instance) (listed : List PrefetchNode) : Prop where
  joined : ∀ node ∈ listed, node.isJoined = true →
    level node.path = (level node.above).flatMap (·.relatedBy node.name)
  unasked : ∀ node ∈ listed, node.isJoined = false → node.keysAbove s level = [] → level node.path = []

variable {tree : JoinTree} {projection : Projection} {paths : List Path} {parent : Path} {id : EntityId}
  {node : PrefetchNode} {level level' : Path → List Instance}

theorem PrefetchNode.keysAbove_congr (h : level' node.above = level node.above) :
    node.keysAbove s level' = node.keysAbove s level := by
  rw [keysAbove, h, keysAbove]

theorem PrefetchNode.followUp?_congr (h : level' node.above = level node.above) :
    node.followUp? s level' = node.followUp? s level := by
  rw [followUp?, keysAbove_congr h, followUp?]

/-- The same instances at the paths of some nodes and above them. -/
def SameLevels (listed : List PrefetchNode) (level' level : Path → List Instance) : Prop :=
  ∀ node ∈ listed, level' node.path = level node.path ∧ level' node.above = level node.above

theorem Levels.congr {listed : List PrefetchNode} (h : Levels s level listed) (hsame : SameLevels listed level' level) :
    Levels s level' listed where
  joined node hnode hjoined := by
    rw [(hsame node hnode).1, (hsame node hnode).2, h.joined node hnode hjoined]
  unasked node hnode hpending hnone := by
    rw [PrefetchNode.keysAbove_congr (hsame node hnode).2] at hnone
    rw [(hsame node hnode).1, h.unasked node hnode hpending hnone]

theorem levels_nil (level : Path → List Instance) : Levels s level [] :=
  ⟨fun _ h => absurd h List.not_mem_nil, fun _ h => absurd h List.not_mem_nil⟩

theorem Levels.mono {listed more : List PrefetchNode} (h : Levels s level more) (hsub : listed ⊆ more) :
    Levels s level listed :=
  ⟨fun node hnode => h.joined node (hsub hnode), fun node hnode => h.unasked node (hsub hnode)⟩

theorem Levels.append {listed more : List PrefetchNode} (h : Levels s level listed) (h' : Levels s level more) :
    Levels s level (listed ++ more) where
  joined := List.forall_mem_append.mpr ⟨h.joined, h'.joined⟩
  unasked := List.forall_mem_append.mpr ⟨h.unasked, h'.unasked⟩

theorem followUps_congr {listed : List PrefetchNode} (hsame : SameLevels listed level' level) :
    listed.filterMap (·.followUp? s level') = listed.filterMap (·.followUp? s level) :=
  List.filterMap_congr fun node hnode => PrefetchNode.followUp?_congr (hsame node hnode).2

theorem node_mem_of_followUp {listed : List PrefetchNode} {ask : FollowUp}
    (h : ask ∈ listed.filterMap (·.followUp? s level)) : ask.node ∈ listed := by
  obtain ⟨node, hnode, hask⟩ := List.mem_filterMap.mp h
  unfold PrefetchNode.followUp? at hask
  split at hask
  · cases hask
  · cases hask
    exact hnode

theorem PrefetchNode.Covers.above_eq (h : node.Covers s tree projection paths parent id) : node.above = parent := by
  rw [above, h.follows.path, Path.parent?_child]
  rfl

/-- What is above the nodes below a node lies below it, too. -/
theorem PrefetchNode.Covers.isPrefixOf_above (h : node.Covers s tree projection paths parent id) :
    ∀ below ∈ nodesListed node.children, node.path.isPrefixOf below.above = true := by
  induction h with
  | @intro parent id node follows names complete below ih =>
    intro m hm
    obtain ⟨child, hchild, hm⟩ := mem_nodesListed.mp hm
    refine Path.isPrefixOf_iff.mpr ?_
    rcases PrefetchNode.mem_listed.mp hm with rfl | hm
    · rw [(below m hchild).above_eq]
    · have hstart : node.path.segments <+: child.path.segments := by
        rw [(below child hchild).follows.path]
        exact List.prefix_append _ _
      exact hstart.trans (Path.isPrefixOf_iff.mp (ih child hchild m hm))

theorem PrefetchNode.keysAbove_of_empty (h : level node.above = []) : node.keysAbove s level = [] := by
  rw [keysAbove, h]
  rfl

theorem PrefetchNode.followUp?_of_empty (h : level node.above = []) : node.followUp? s level = none := by
  rw [followUp?, keysAbove_of_empty h, List.isEmpty_nil, Bool.or_true, if_pos rfl]

/-- Where there are no instances there are none below, and nothing is asked for. -/
theorem PrefetchNode.Covers.nothing_below (h : node.Covers s tree projection paths parent id)
    (hlevels : Levels s level (nodesListed node.children)) (hempty : level node.path = []) :
    ∀ below ∈ nodesListed node.children, below.followUp? s level = none := by
  induction h with
  | @intro parent id node follows names complete below ih =>
    intro m hm
    obtain ⟨child, hchild, hm⟩ := mem_nodesListed.mp hm
    have habove : level child.above = [] := by rw [(below child hchild).above_eq, hempty]
    rcases PrefetchNode.mem_listed.mp hm with rfl | hm
    · exact followUp?_of_empty habove
    · have hmem : child ∈ nodesListed node.children :=
        mem_nodesListed.mpr ⟨child, hchild, PrefetchNode.mem_listed.mpr (.inl rfl)⟩
      have hpath : level child.path = [] := by
        cases hjoined : child.isJoined with
        | true => rw [hlevels.joined child hmem hjoined, habove, List.flatMap_nil]
        | false => exact hlevels.unasked child hmem hjoined (keysAbove_of_empty habove)
      exact ih child hchild (hlevels.mono fun m hm => mem_nodesListed_of_below hmem hm) hpath m hm

theorem not_isPrefixOf_parent (h : node.Covers s tree projection paths parent id) :
    node.path.isPrefixOf parent = false := by
  refine Bool.eq_false_iff.mpr fun hpre => ?_
  have hlength := (Path.isPrefixOf_iff.mp hpre).length_le
  rw [h.follows.path, Path.child, List.length_append, List.length_singleton] at hlength
  omega

theorem not_isPrefixOf_sibling {other : PrefetchNode} (h : node.Covers s tree projection paths parent id)
    (hother : other.Covers s tree projection paths parent id) (hne : node.name ≠ other.name) {path : Path}
    (hpath : other.path.isPrefixOf path = true) : node.path.isPrefixOf path = false := by
  refine Bool.eq_false_iff.mpr fun hpre => hne ?_
  have hnode := Path.isPrefixOf_iff.mp hpre
  have hsibling := Path.isPrefixOf_iff.mp hpath
  rw [h.follows.path] at hnode
  rw [hother.follows.path] at hsibling
  have hlength : (parent.child node.name).segments.length ≤ (parent.child other.name).segments.length := by
    simp [Path.child]
  have hboth := List.prefix_of_prefix_length_le hnode hsibling hlength
  exact (List.cons_prefix_cons.mp ((List.prefix_append_right_inj _).mp hboth)).1

/-- The instances of one family of levels below a path, and of another everywhere else. -/
def levelsBelow (path : Path) (inside outside : Path → List Instance) : Path → List Instance := fun p =>
  if path.isPrefixOf p then inside p else outside p

theorem levelsBelow_inside {path p : Path} (h : path.isPrefixOf p = true) (inside outside : Path → List Instance) :
    levelsBelow path inside outside p = inside p := if_pos h

theorem levelsBelow_outside {path p : Path} (h : path.isPrefixOf p = false) (inside outside : Path → List Instance) :
    levelsBelow path inside outside p = outside p := if_neg (by rw [h]; exact Bool.false_ne_true)

theorem levelsBelow_self (path : Path) (inside outside : Path → List Instance) :
    levelsBelow path inside outside path = inside path :=
  levelsBelow_inside (Path.isPrefixOf_iff.mpr List.prefix_rfl) ..

section

variable (h : node.Covers s tree projection paths parent id) (inside outside : Path → List Instance)
include h

theorem sameLevels_children : SameLevels (nodesListed node.children) (levelsBelow node.path inside outside) inside := by
  intro below hbelow
  have hpath := h.prefix_of_mem_listed below (PrefetchNode.mem_listed.mpr (.inr hbelow))
  exact ⟨levelsBelow_inside (Path.isPrefixOf_iff.mpr hpath) .., levelsBelow_inside (h.isPrefixOf_above below hbelow) ..⟩

theorem levelsBelow_parent : levelsBelow node.path inside outside parent = outside parent :=
  levelsBelow_outside (not_isPrefixOf_parent h) ..

/-- In the subtree of a node the levels inside count, if both families have the same instances above it. -/
theorem sameLevels_inside (hparent : outside parent = inside parent) :
    SameLevels node.listed (levelsBelow node.path inside outside) inside := by
  have hown : levelsBelow node.path inside outside node.above = inside node.above := by
    rw [h.above_eq, levelsBelow_parent h, hparent]
  rw [node.listed_eq]
  exact List.forall_mem_cons.mpr ⟨⟨levelsBelow_self .., hown⟩, sameLevels_children h inside outside⟩

theorem sameLevels_outside {siblings : List PrefetchNode}
    (hsiblings : ∀ other ∈ siblings, other.Covers s tree projection paths parent id)
    (hnew : node.name ∉ siblings.map (·.name)) :
    SameLevels (nodesListed siblings) (levelsBelow node.path inside outside) outside := by
  intro below hbelow
  obtain ⟨other, hother, hbelow⟩ := mem_nodesListed.mp hbelow
  have hne : node.name ≠ other.name := fun he => hnew (he ▸ List.mem_map_of_mem hother)
  have hcovers := hsiblings other hother
  have hpath := Path.isPrefixOf_iff.mpr (hcovers.prefix_of_mem_listed below hbelow)
  refine ⟨levelsBelow_outside (not_isPrefixOf_sibling h hcovers hne hpath) .., ?_⟩
  rcases PrefetchNode.mem_listed.mp hbelow with rfl | hbelow
  · rw [hcovers.above_eq, levelsBelow_parent h]
  · exact levelsBelow_outside (not_isPrefixOf_sibling h hcovers hne (hcovers.isPrefixOf_above below hbelow)) ..

end

theorem followUps_nothing (listed : List PrefetchNode) : listed.filterMap (·.followUp? s fun _ => []) = [] :=
  List.filterMap_eq_nil_iff.mpr fun _ _ => PrefetchNode.followUp?_of_empty rfl

theorem levels_nothing (listed : List PrefetchNode) : Levels s (fun _ => []) listed :=
  ⟨fun _ _ _ => rfl, fun _ _ _ _ => rfl⟩

theorem keysAbove_eq {parents : List Instance} (h : level node.above = parents) :
    node.keysAbove s level = (s.relation node.relation).parentKeys s parents := by
  rw [PrefetchNode.keysAbove, h, Relation.parentKeys, distinct_eq_eraseDups]

theorem followUps_listed (level : Path → List Instance) (node : PrefetchNode) :
    node.listed.filterMap (·.followUp? s level) =
      (node.followUp? s level).toList ++ (nodesListed node.children).filterMap (·.followUp? s level) := by
  rw [node.listed_eq]
  cases hask : node.followUp? s level with
  | none => rw [List.filterMap_cons_none hask, Option.toList_none, List.nil_append]
  | some ask => rw [List.filterMap_cons_some hask, Option.toList_some, List.singleton_append]

/-- The levels of a node are those of its children, with the given instances above it. -/
theorem exists_levels_node (h : node.Covers s tree projection paths parent id) (parents : List Instance)
    {inside : Path → List Instance} (hinside : Levels s inside (nodesListed node.children))
    (hjoined : node.isJoined = true → inside node.path = parents.flatMap (·.relatedBy node.name))
    (hunasked : node.isJoined = false → (s.relation node.relation).parentKeys s parents = [] → inside node.path = []) :
    ∃ level, level parent = parents ∧ level node.path = inside node.path ∧
      SameLevels (nodesListed node.children) level inside ∧ Levels s level node.listed := by
  refine ⟨levelsBelow node.path inside fun _ => parents, levelsBelow_parent h .., levelsBelow_self ..,
    sameLevels_children h inside fun _ => parents, ?_⟩
  have habove : levelsBelow node.path inside (fun _ => parents) node.above = parents := by
    rw [h.above_eq]
    exact levelsBelow_parent h ..
  have hown : Levels s (levelsBelow node.path inside fun _ => parents) [node] := by
    refine ⟨List.forall_mem_singleton.mpr fun hnode => ?_, List.forall_mem_singleton.mpr fun hnode hnone => ?_⟩
    · rw [habove, levelsBelow_self, hjoined hnode]
    · rw [keysAbove_eq habove] at hnone
      rw [levelsBelow_self, hunasked hnode hnone]
  rw [node.listed_eq]
  exact hown.append (hinside.congr (sameLevels_children h inside fun _ => parents))

end RelQuery
