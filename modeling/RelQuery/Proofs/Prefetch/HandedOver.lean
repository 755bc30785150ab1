import Mathlib.Data.List.Perm.Subperm
import RelQuery.Proofs.Prefetch.Polls
import RelQuery.Proofs.Prefetch.Tree

/-!
# What is handed over to a backend that answers later

Whatever the backend answers and when, a plan asks at most once for every relation that is not joined and that has
parents with keys, for just these keys, and once for each when all is loaded. It asks for a relation only after the
relations above have been answered. One poll asks in the order of the tree; over several polls the order differs from it
only where siblings are loaded concurrently.
-/

namespace RelQuery

open Sql

variable {σ τ : Type} {s : Schema} {tree : JoinTree} {projection : Projection} {paths : List Path} {parent : Path}
  {id : EntityId} {node : PrefetchNode}

namespace PrefetchNode.Covers

theorem not_mem_below (h : node.Covers s tree projection paths parent id) {above : PrefetchNode}
    (habove : above ∈ node.listed) : node ∉ nodesListed above.children := by
  intro hmem
  rcases PrefetchNode.mem_listed.mp habove with rfl | hbelow
  · exact Nat.lt_irrefl _ (h.length_lt _ hmem)
  · exact Nat.lt_irrefl _ (h.length_lt _ (mem_nodesListed_of_below hbelow hmem))

theorem not_mem_siblings (h : node.Covers s tree projection paths parent id) {siblings : List PrefetchNode}
    (hsiblings : ∀ other ∈ siblings, other.Covers s tree projection paths parent id)
    (hnew : node.name ∉ siblings.map (·.name)) {below : PrefetchNode} (hbelow : below ∈ node.listed) :
    below ∉ nodesListed siblings := by
  intro hmem
  obtain ⟨other, hother, hlisted⟩ := mem_nodesListed.mp hmem
  have hne : node.name ≠ other.name := fun he => hnew (he ▸ List.mem_map_of_mem hother)
  have hpath := Path.isPrefixOf_iff.mpr ((hsiblings other hother).prefix_of_mem_listed below hlisted)
  have hnot := not_isPrefixOf_sibling h (hsiblings other hother) hne hpath
  rw [Path.isPrefixOf_iff.mpr (h.prefix_of_mem_listed below hbelow)] at hnot
  cases hnot

end PrefetchNode.Covers

/-! ### Levels of what is loaded -/

/-- A node has been answered. -/
def Event.Answers (node : PrefetchNode) (event : Event τ) : Prop :=
  ∃ keys ticket planned found, event = .answered ⟨node, keys⟩ ticket planned found

theorem exists_answers_mono {events more : List (Event τ)} (h : ∃ event ∈ events, event.Answers node)
    (hsub : events ⊆ more) : ∃ event ∈ more, event.Answers node := by
  obtain ⟨event, hevent, hanswers⟩ := h
  exact ⟨event, hsub hevent, hanswers⟩

/-- Every node that waits for answers above a node has got its answer. -/
def AnsweredAbove (listed : List PrefetchNode) (events : List (Event τ)) (node : PrefetchNode) : Prop :=
  ∀ above ∈ listed, above.isJoined = false → node ∈ nodesListed above.children → ∃ event ∈ events, event.Answers above

/-- Events ask for what nodes need for the instances above them: for each at most once, for all of them, with answers to
all, once everything is loaded, and for all that can be asked for once this is current. -/
structure AsksFor (e : Engine σ) (level : Path → List Instance) (listed : List PrefetchNode) (isDone isCurrent : Bool)
    (events : List (Event τ)) : Prop where
  levels : Levels e.schema level listed
  once : (asksOf events).Subperm (listed.filterMap (·.followUp? e.schema level))
  all : isDone = true → (asksOf events).Perm (listed.filterMap (·.followUp? e.schema level))
  answered : isDone = true → ∀ ask ∈ asksOf events, ∃ event ∈ events, event.Answers ask.node
  inTurn : e.settings.concurrentSiblings = false → asksOf events <+: listed.filterMap (·.followUp? e.schema level)
  ready : isCurrent = true → ∀ ask ∈ listed.filterMap (·.followUp? e.schema level),
    AnsweredAbove listed events ask.node → ask ∈ asksOf events
  within : ∀ event ∈ events, event.ask.node ∈ listed
  found : ∀ ask ticket planned found, Event.answered ask ticket planned found ∈ events →
    level ask.node.path = found.map ((e.schema.relation ask.node.relation).withoutOwners e.schema)
  answeredFirst : ∀ before ask ticket planned after, events = before ++ .asked ask ticket planned :: after →
    AnsweredAbove listed before ask.node

namespace AsksFor

variable {e : Engine σ} {level level' inside outside : Path → List Instance} {listed : List PrefetchNode}
  {isDone isCurrent : Bool} {events mine theirs : List (Event τ)}

theorem congr (h : AsksFor e level listed isDone isCurrent events) (hsame : SameLevels listed level' level) :
    AsksFor e level' listed isDone isCurrent events where
  levels := h.levels.congr hsame
  once := by rw [followUps_congr hsame]; exact h.once
  all := by rw [followUps_congr hsame]; exact h.all
  answered := h.answered
  inTurn := by rw [followUps_congr hsame]; exact h.inTurn
  ready := by rw [followUps_congr hsame]; exact h.ready
  within := h.within
  found ask ticket planned found hevent := by
    rw [(hsame ask.node (h.within _ hevent)).1, h.found ask ticket planned found hevent]
  answeredFirst := h.answeredFirst

theorem nil (hlevels : Levels e.schema level listed)
    (hdone : isDone = true → listed.filterMap (·.followUp? e.schema level) = [])
    (hcurrent : isCurrent = true → listed.filterMap (·.followUp? e.schema level) = []) :
    AsksFor e level listed isDone isCurrent ([] : List (Event τ)) where
  levels := hlevels
  once := List.nil_subperm
  all h := by rw [hdone h]; exact .refl []
  answered _ _ h := absurd h List.not_mem_nil
  inTurn _ := List.nil_prefix
  ready h ask hask := by rw [hcurrent h] at hask; cases hask
  within _ h := absurd h List.not_mem_nil
  found _ _ _ _ h := absurd h List.not_mem_nil
  answeredFirst before _ _ _ _ h := by cases before <;> cases h

end AsksFor

theorem Event.Answers.ask_node {event : Event τ} (h : event.Answers node) : event.ask.node = node := by
  obtain ⟨_, _, _, _, rfl⟩ := h
  rfl

section

variable {e : Engine σ} {level inside outside : Path → List Instance} {isDone isCurrent : Bool} {inner : List (Event τ)}
  {keys : List Value}

theorem asksFor_joined (h : AsksFor e inside (nodesListed node.children) isDone isCurrent inner)
    (hjoined : node.isJoined = true) (hsame : SameLevels (nodesListed node.children) level inside)
    (hlevels : Levels e.schema level node.listed) : AsksFor e level node.listed isDone isCurrent inner := by
  have hbelow := h.congr hsame
  have hnone : node.followUp? e.schema level = none := by
    rw [PrefetchNode.followUp?, hjoined, Bool.true_or, if_pos rfl]
  have hasks : node.listed.filterMap (·.followUp? e.schema level) =
      (nodesListed node.children).filterMap (·.followUp? e.schema level) := by
    rw [followUps_listed, hnone, Option.toList_none, List.nil_append]
  refine ⟨hlevels, ?_, ?_, h.answered, ?_, ?_, fun event hevent => ?_, hbelow.found, ?_⟩
  · rw [hasks]
    exact hbelow.once
  · rw [hasks]
    exact hbelow.all
  · rw [hasks]
    exact hbelow.inTurn
  · rw [hasks]
    exact fun hcurrent ask hask habove => hbelow.ready hcurrent ask hask fun above h =>
      habove above (PrefetchNode.mem_listed.mpr (.inr h))
  · exact PrefetchNode.mem_listed.mpr (.inr (h.within event hevent))
  · intro before ask ticket planned after hsplit above habove hpending hmem
    rcases PrefetchNode.mem_listed.mp habove with rfl | habove
    · rw [hjoined] at hpending
      cases hpending
    · exact h.answeredFirst before ask ticket planned after hsplit above habove hpending hmem

section

variable (hcovers : node.Covers e.schema tree projection paths parent id)
include hcovers

theorem asksFor_unanswered (hask : node.followUp? e.schema level = some ⟨node, keys⟩)
    (hlevels : Levels e.schema level node.listed)
    (hnothing : (nodesListed node.children).filterMap (·.followUp? e.schema level) = []) (ticket : τ)
    (planned : PlannedQuery) :
    AsksFor e level node.listed false true [.asked ⟨node, keys⟩ ticket planned] := by
  have hasks : node.listed.filterMap (·.followUp? e.schema level) = [⟨node, keys⟩] := by
    rw [followUps_listed, hask, hnothing, Option.toList_some, List.append_nil]
  refine ⟨hlevels, ?_, nofun, nofun, fun _ => ?_, fun _ ask hmem _ => ?_, ?_, fun _ _ _ _ hmem => ?_, ?_⟩
  · rw [hasks]
    exact .refl _
  · rw [hasks]
    exact List.prefix_rfl
  · rwa [hasks] at hmem
  · exact List.forall_mem_singleton.mpr (PrefetchNode.mem_listed.mpr (.inl rfl))
  · cases List.mem_singleton.mp hmem
  · intro before ask ticket' planned' after hsplit
    cases before with
    | nil =>
      cases hsplit
      exact fun above habove _ hmem => absurd hmem (hcovers.not_mem_below habove)
    | cons event before => cases before <;> cases hsplit

theorem asksFor_answered (h : AsksFor e inside (nodesListed node.children) isDone isCurrent inner)
    (hask : node.followUp? e.schema level = some ⟨node, keys⟩)
    (hsame : SameLevels (nodesListed node.children) level inside) (hlevels : Levels e.schema level node.listed)
    {found : List Instance}
    (hfound : level node.path = found.map ((e.schema.relation node.relation).withoutOwners e.schema))
    (hends : node.goesOn found = false → (nodesListed node.children).filterMap (·.followUp? e.schema level) = [])
    (ticket : τ) (planned : PlannedQuery) :
    AsksFor e level node.listed (!node.goesOn found || isDone) (!node.goesOn found || isCurrent)
      (.asked ⟨node, keys⟩ ticket planned :: .answered ⟨node, keys⟩ ticket planned found :: inner) := by
  have hbelow := h.congr hsame
  have hasks : node.listed.filterMap (·.followUp? e.schema level) =
      ⟨node, keys⟩ :: (nodesListed node.children).filterMap (·.followUp? e.schema level) := by
    rw [followUps_listed, hask, Option.toList_some, List.singleton_append]
  have hown : node ∉ nodesListed node.children := hcovers.not_mem_below (PrefetchNode.mem_listed.mpr (.inl rfl))
  have hall : asksOf (.asked ⟨node, keys⟩ ticket planned :: .answered ⟨node, keys⟩ ticket planned found :: inner) =
      ⟨node, keys⟩ :: asksOf inner := rfl
  -- where nothing was found, nothing below was asked for
  have hinner : node.goesOn found = false → asksOf inner = [] := fun hends' =>
    List.subperm_nil.mp (hends hends' ▸ hbelow.once)
  refine ⟨hlevels, ?_, fun hdone => ?_, fun hdone ask hmem => ?_, fun hseq => ?_, fun hcurrent ask hmem habove => ?_, ?_,
    fun ask ticket' planned' found' hmem => ?_, ?_⟩
  · rw [hasks, hall]
    exact (List.subperm_cons _).mpr hbelow.once
  · rw [hasks, hall]
    refine List.Perm.cons _ ?_
    rcases Bool.or_eq_true_iff.mp hdone with hends' | hdone
    · rw [hends (by simpa using hends'), hinner (by simpa using hends')]
    · exact hbelow.all hdone
  · rw [hall] at hmem
    rcases List.mem_cons.mp hmem with rfl | hmem
    · exact ⟨_, List.mem_cons_of_mem _ List.mem_cons_self, keys, ticket, planned, found, rfl⟩
    rcases Bool.or_eq_true_iff.mp hdone with hends' | hdone
    · rw [hinner (by simpa using hends')] at hmem
      cases hmem
    · exact exists_answers_mono (h.answered hdone ask hmem)
        (List.subset_cons_of_subset _ (List.subset_cons_self _ inner))
  · rw [hasks, hall]
    exact List.cons_prefix_cons.mpr ⟨rfl, hbelow.inTurn hseq⟩
  · rw [hasks] at hmem
    rw [hall]
    rcases List.mem_cons.mp hmem with rfl | hmem
    · exact List.mem_cons_self
    refine List.mem_cons_of_mem _ ?_
    rcases Bool.or_eq_true_iff.mp hcurrent with hends' | hcurrent
    · rw [hends (by simpa using hends')] at hmem
      cases hmem
    refine hbelow.ready hcurrent ask hmem fun above hlisted hpending hunder => ?_
    obtain ⟨event, hevent, hanswers⟩ := habove above (PrefetchNode.mem_listed.mpr (.inr hlisted)) hpending hunder
    -- the answer to the node itself is none to a node below
    rcases List.mem_cons.mp hevent with rfl | hevent
    · obtain ⟨_, _, _, _, hanswers⟩ := hanswers
      cases hanswers
    rcases List.mem_cons.mp hevent with rfl | hevent
    · have hsame : node = above := hanswers.ask_node
      exact absurd (hsame ▸ hlisted) hown
    · exact ⟨event, hevent, hanswers⟩
  · have hself : node ∈ node.listed := PrefetchNode.mem_listed.mpr (.inl rfl)
    refine List.forall_mem_cons.mpr ⟨hself, List.forall_mem_cons.mpr ⟨hself, fun event hevent => ?_⟩⟩
    exact PrefetchNode.mem_listed.mpr (.inr (h.within event hevent))
  · rcases List.mem_cons.mp hmem with hmem | hmem
    · cases hmem
    rcases List.mem_cons.mp hmem with hmem | hmem
    · cases hmem
      exact hfound
    · exact hbelow.found ask ticket' planned' found' hmem
  · rintro (_ | ⟨first, _ | ⟨second, before⟩⟩) ask ticket' planned' after hsplit
    · cases hsplit
      exact fun above habove _ hmem => absurd hmem (hcovers.not_mem_below habove)
    · cases hsplit
    · simp only [List.cons_append, List.cons.injEq] at hsplit
      obtain ⟨rfl, rfl, hsplit⟩ := hsplit
      intro above habove hpending hmem
      rcases PrefetchNode.mem_listed.mp habove with rfl | habove
      · exact ⟨_, List.mem_cons_of_mem _ List.mem_cons_self, keys, ticket, planned, found, rfl⟩
      · exact exists_answers_mono (h.answeredFirst before ask ticket' planned' after hsplit above habove hpending hmem)
          (List.subset_cons_of_subset _ (List.subset_cons_self _ before))

theorem followUps_below_of_empty (hlevels : Levels e.schema level node.listed) (hempty : level node.path = []) :
    (nodesListed node.children).filterMap (·.followUp? e.schema level) = [] :=
  List.filterMap_eq_nil_iff.mpr <| hcovers.nothing_below
    (hlevels.mono fun _ hbelow => PrefetchNode.mem_listed.mpr (.inr hbelow)) hempty

theorem exists_levels_asked {parents : List Instance} (hpending : node.isJoined = false)
    (hkeys : (e.schema.relation node.relation).parentKeys e.schema parents = keys) (hne : keys ≠ [])
    (hinside : Levels e.schema inside (nodesListed node.children)) :
    ∃ level, level parent = parents ∧ level node.path = inside node.path ∧
      SameLevels (nodesListed node.children) level inside ∧ Levels e.schema level node.listed ∧
        node.followUp? e.schema level = some ⟨node, keys⟩ := by
  obtain ⟨level, hparent, hpath, hsame, hlevels⟩ := exists_levels_node hcovers parents hinside
    (fun hjoined => by rw [hpending] at hjoined; cases hjoined) fun _ hnone => absurd (hkeys.symm.trans hnone) hne
  refine ⟨level, hparent, hpath, hsame, hlevels, ?_⟩
  rw [PrefetchNode.followUp?, keysAbove_eq (hcovers.above_eq ▸ hparent), hkeys, hpending, Bool.false_or,
    if_neg (by simpa using hne)]

/-- The levels of a node, with its own request or none, come from those of its children. -/
theorem PrefetchNode.Covers.asksFor_node
    (hbelow : ∀ start (children : List (Loading τ)) events, LevelTraced e start node.children children events →
      ∃ inside, inside node.path = start ∧
        AsksFor e inside (nodesListed node.children) (allDone children) (allCurrent children) events)
    {parents : List Instance} {loading : Loading τ} {events : List (Event τ)}
    (h : Traced e parents node loading events) :
    ∃ level, level parent = parents ∧ AsksFor e level node.listed loading.isDone loading.isCurrent events := by
  have habove : node.above = parent := hcovers.above_eq
  cases h with
  | unstarted =>
    -- nothing is asked for yet, so any levels will do that have the parents above
    obtain ⟨inside, hstart, hinside⟩ := hbelow (if node.isJoined then parents.flatMap (·.relatedBy node.name) else [])
      (startAll node.children) [] (levelTraced_startAll node.children)
    obtain ⟨level, hparent, -, -, hlevels⟩ := exists_levels_node hcovers parents hinside.levels
      (fun hjoined => by rw [hstart, if_pos hjoined]) fun hpending _ => by rw [hstart, hpending]; rfl
    exact ⟨level, hparent, .nil hlevels nofun nofun⟩
  | joined hjoined hchildren =>
    obtain ⟨inside, hstart, hinside⟩ := hbelow _ _ _ hchildren
    obtain ⟨level, hparent, -, hsame, hlevels⟩ := exists_levels_node hcovers parents hinside.levels (fun _ => hstart)
      fun hpending => by rw [hjoined] at hpending; cases hpending
    have hon : node.goesOn (parents.flatMap (·.relatedBy node.name)) = true := by simp [PrefetchNode.goesOn, hjoined]
    refine ⟨level, hparent, ?_⟩
    rw [isDone_of_loaded, Loading.isCurrent, hon]
    exact asksFor_joined hinside hjoined hsame hlevels
  | unasked hpending hkeys =>
    obtain ⟨inside, hstart, hinside⟩ := hbelow [] _ _ (levelTraced_startAll node.children)
    obtain ⟨level, hparent, hpath, -, hlevels⟩ := exists_levels_node hcovers parents hinside.levels
      (fun hjoined => by rw [hpending] at hjoined; cases hjoined) fun _ _ => hstart
    have hnothing : node.listed.filterMap (·.followUp? e.schema level) = [] := by
      rw [followUps_listed, followUps_below_of_empty hcovers hlevels (hpath.trans hstart), List.append_nil,
        PrefetchNode.followUp?, keysAbove_eq (habove ▸ hparent), hkeys, List.isEmpty_nil, Bool.or_true, if_pos rfl,
        Option.toList_none]
    exact ⟨level, hparent, .nil hlevels (fun _ => hnothing) fun _ => hnothing⟩
  | asked hpending hkeys hne ticket planned =>
    obtain ⟨inside, hstart, hinside⟩ := hbelow [] _ _ (levelTraced_startAll node.children)
    obtain ⟨level, hparent, hpath, -, hlevels, hask⟩ := exists_levels_asked hcovers hpending hkeys hne hinside.levels
    have hnothing := followUps_below_of_empty hcovers hlevels (hpath.trans hstart)
    exact ⟨level, hparent, asksFor_unanswered hcovers hask hlevels hnothing ticket planned⟩
  | answered hpending hkeys hne ticket planned hchildren =>
    obtain ⟨inside, hstart, hinside⟩ := hbelow _ _ _ hchildren
    obtain ⟨level, hparent, hpath, hsame, hlevels, hask⟩ :=
      exists_levels_asked hcovers hpending hkeys hne hinside.levels
    refine ⟨level, hparent, ?_⟩
    rw [isDone_of_loaded, Loading.isCurrent]
    refine asksFor_answered hcovers hinside hask hsame hlevels (hpath.trans hstart) (fun hends => ?_) ticket planned
    refine followUps_below_of_empty hcovers hlevels (hpath.trans (hstart.trans ?_))
    rw [PrefetchNode.goesOn, hpending, Bool.false_or, Bool.not_eq_false', List.isEmpty_iff] at hends
    rw [hends, List.map_nil]

end

/-- The levels of siblings are put together from those of each. -/
theorem AsksFor.cons (hcovers : node.Covers e.schema tree projection paths parent id) {siblings : List PrefetchNode}
    (hsiblings : ∀ other ∈ siblings, other.Covers e.schema tree projection paths parent id)
    (hnew : node.name ∉ siblings.map (·.name)) {first : Loading τ} {rest : List (Loading τ)}
    {mine theirs events : List (Event τ)} (h : AsksFor e inside node.listed first.isDone first.isCurrent mine)
    (h' : AsksFor e outside (nodesListed siblings) (allDone rest) (allCurrent rest) theirs)
    (hparent : outside parent = inside parent) (hmerge : Interleave mine theirs events)
    (hturn : e.settings.concurrentSiblings = false → events = mine ++ theirs ∧ (first.isDone = false → theirs = [])) :
    AsksFor e (levelsBelow node.path inside outside) (nodesListed (node :: siblings)) (allDone (first :: rest))
      (allCurrent (first :: rest)) events := by
  have hmine := h.congr (sameLevels_inside hcovers inside outside hparent)
  have htheirs := h'.congr (sameLevels_outside hcovers inside outside hsiblings hnew)
  have hasks : (asksOf events).Perm (asksOf mine ++ asksOf theirs) := by
    rw [← asksOf_append]
    exact (hmerge.perm.filterMap _).map _
  have hapart : ∀ below ∈ node.listed, below ∉ nodesListed siblings := fun below hbelow =>
    hcovers.not_mem_siblings hsiblings hnew hbelow
  refine ⟨hmine.levels.append htheirs.levels, ?_, fun hdone => ?_, fun hdone ask hmem => ?_, fun hseq => ?_,
    fun hcurrent ask hmem habove => ?_, fun event hevent => ?_, fun ask ticket planned found hevent => ?_, fun before ask ticket planned after hsplit => ?_⟩
  · rw [nodesListed, List.filterMap_append]
    exact hasks.subperm.trans (List.Subperm.append hmine.once htheirs.once)
  · obtain ⟨hfirst, hrest⟩ := Bool.and_eq_true_iff.mp hdone
    rw [nodesListed, List.filterMap_append]
    exact hasks.trans ((hmine.all hfirst).append (htheirs.all hrest))
  · obtain ⟨hfirst, hrest⟩ := Bool.and_eq_true_iff.mp hdone
    rcases List.mem_append.mp (hasks.mem_iff.mp hmem) with hmem | hmem
    · exact exists_answers_mono (h.answered hfirst ask hmem) hmerge.left_subset
    · exact exists_answers_mono (h'.answered hrest ask hmem) hmerge.right_subset
  · obtain ⟨hevents, hnone⟩ := hturn hseq
    rw [hevents, asksOf_append, nodesListed, List.filterMap_append]
    cases hdone : first.isDone with
    | true =>
      have hfirst := (hmine.inTurn hseq).eq_of_length (hmine.all hdone).length_eq
      rw [hfirst]
      exact (List.prefix_append_right_inj _).mpr (htheirs.inTurn hseq)
    | false =>
      rw [hnone hdone, show asksOf ([] : List (Event τ)) = [] from rfl, List.append_nil]
      exact (hmine.inTurn hseq).trans (List.prefix_append _ _)
  · obtain ⟨hfirst, hrest⟩ := Bool.and_eq_true_iff.mp hcurrent
    rw [nodesListed, List.filterMap_append, List.mem_append] at hmem
    rw [hasks.mem_iff, List.mem_append]
    refine hmem.imp (fun hmem => hmine.ready hfirst ask hmem fun above hlisted hpending hunder => ?_)
      fun hmem => htheirs.ready hrest ask hmem fun above hlisted hpending hunder => ?_
    · obtain ⟨event, hevent, hanswers⟩ := habove above (List.mem_append_left _ hlisted) hpending hunder
      refine ⟨event, (hmerge.mem_iff.mp hevent).resolve_right fun htheir => hapart above hlisted ?_, hanswers⟩
      rw [← hanswers.ask_node]
      exact h'.within event htheir
    · obtain ⟨event, hevent, hanswers⟩ := habove above (List.mem_append_right _ hlisted) hpending hunder
      refine ⟨event, (hmerge.mem_iff.mp hevent).resolve_left fun hmine => hapart above ?_ hlisted, hanswers⟩
      rw [← hanswers.ask_node]
      exact h.within event hmine
  · rw [nodesListed, List.mem_append]
    exact (hmerge.mem_iff.mp hevent).imp (h.within event) (h'.within event)
  · exact (hmerge.mem_iff.mp hevent).elim (hmine.found ask ticket planned found) (htheirs.found ask ticket planned found)
  · intro above hlisted hpending hunder
    rcases hmerge.split hsplit with ⟨own, after', howns, hown⟩ | ⟨own, after', howns, hown⟩
    · have hnode : ask.node ∈ node.listed := h.within (.asked ask ticket planned) (by simp [howns])
      rcases List.mem_append.mp hlisted with hlisted | hlisted
      · exact exists_answers_mono (h.answeredFirst own ask ticket planned after' howns above hlisted hpending hunder) hown
      · exact absurd (mem_nodesListed_of_below hlisted hunder) (hapart _ hnode)
    · have hnode : ask.node ∈ nodesListed siblings := h'.within (.asked ask ticket planned) (by simp [howns])
      rcases List.mem_append.mp hlisted with hlisted | hlisted
      · exact absurd hnode (hapart _ (PrefetchNode.mem_listed.mpr (.inr (PrefetchNode.listed_below hlisted hunder))))
      · exact exists_answers_mono (h'.answeredFirst own ask ticket planned after' howns above hlisted hpending hunder) hown

theorem asksFor_each {nodes : List PrefetchNode} (hnames : (nodes.map (·.name)).Nodup)
    (hcovers : ∀ node ∈ nodes, node.Covers e.schema tree projection paths parent id) {parents : List Instance}
    (heach : ∀ node ∈ nodes, ∀ (loading : Loading τ) events, Traced e parents node loading events →
      ∃ level, level parent = parents ∧ AsksFor e level node.listed loading.isDone loading.isCurrent events) :
    ∀ {loadings : List (Loading τ)} {events : List (Event τ)}, LevelTraced e parents nodes loadings events →
      ∃ level, level parent = parents ∧
        AsksFor e level (nodesListed nodes) (allDone loadings) (allCurrent loadings) events := by
  induction nodes with
  | nil =>
    intro loadings events h
    cases h
    exact ⟨fun _ => parents, rfl, .nil (levels_nil _) (fun _ => rfl) fun _ => rfl⟩
  | cons node rest ih =>
    intro loadings events h
    rw [List.map_cons, List.nodup_cons] at hnames
    obtain ⟨hnode, hrest⟩ := List.forall_mem_cons.mp hcovers
    obtain ⟨hfirst, hothers⟩ := List.forall_mem_cons.mp heach
    cases h with
    | cons htraced htracedRest hmerge hturn =>
      obtain ⟨inside, hinParent, hinside⟩ := hfirst _ _ htraced
      obtain ⟨outside, houtParent, houtside⟩ := ih hnames.2 hrest hothers htracedRest
      refine ⟨levelsBelow node.path inside outside, (levelsBelow_parent hnode ..).trans houtParent, ?_⟩
      exact hinside.cons hnode hrest hnames.1 houtside (houtParent.trans hinParent.symm) hmerge hturn

theorem PrefetchNode.Covers.asksFor (h : node.Covers e.schema tree projection paths parent id) :
    ∀ (parents : List Instance) (loading : Loading τ) (events : List (Event τ)), Traced e parents node loading events →
      ∃ level, level parent = parents ∧ AsksFor e level node.listed loading.isDone loading.isCurrent events := by
  induction h with
  | @intro parent id node follows names complete below ih =>
    intro parents loading events htraced
    refine asksFor_node (.intro follows names complete below) (fun start children inner hinner => ?_) htraced
    exact asksFor_each names below (fun child hchild => ih child hchild start) hinner

end

/-! ### Plans -/

/-- What polling a plan hands over, and gets answers to. -/
structure PrefetchPlan.HandsOver (e : Engine σ) (svc : Service σ τ) (plan : PrefetchPlan) (roots : List Instance)
    (polls : Nat) (session last : Session σ) (result : Except NoResult (Option (List Instance)))
    (level : Path → List Instance) (rounds : List (List (Event τ))) : Prop where
  run : (prefetchWithin e svc polls plan roots).exec session = (result, last)
  start : level .root = roots
  levels : Levels e.schema level (nodesListed plan)
  happened : Happened e svc [] session rounds.flatten (faultOf result) last
  executed : last.executed = session.executed ++ statementsOf e.settings.dialect rounds.flatten
  params : (statementsOf e.settings.dialect rounds.flatten).map (·.params) = (asksOf rounds.flatten).map (·.keys)
  /-- Nothing is asked for that is not needed, and nothing twice. -/
  once : (asksOf rounds.flatten).Subperm (plan.followUps e.schema level)
  /-- When all is loaded, all that is needed was asked for, and all of it answered. -/
  all : ∀ found, result = .ok (some found) → (asksOf rounds.flatten).Perm (plan.followUps e.schema level)
  answered : ∀ found, result = .ok (some found) →
    ∀ ask ∈ asksOf rounds.flatten, ∃ event ∈ rounds.flatten, event.Answers ask.node
  /-- Siblings that are not loaded concurrently are asked for in the order of the tree. -/
  inTurn : e.settings.concurrentSiblings = false → asksOf rounds.flatten <+: plan.followUps e.schema level
  /-- Where siblings are loaded concurrently, a poll that does not fail asks for all that needs no more answers. -/
  ready : e.settings.concurrentSiblings = true → polls ≠ 0 → faultOf result = none →
    ∀ ask ∈ plan.followUps e.schema level, AnsweredAbove (nodesListed plan) rounds.flatten ask.node →
      ask ∈ asksOf rounds.flatten
  /-- Each poll asks in the order of the tree. -/
  inOrder : rounds.length ≤ polls ∧ ∀ round ∈ rounds, ((asksOf round).map (·.node)).Sublist (nodesListed plan)
  found : ∀ ask ticket planned found, Event.answered ask ticket planned found ∈ rounds.flatten →
    level ask.node.path = found.map ((e.schema.relation ask.node.relation).withoutOwners e.schema)
  answeredFirst : ∀ before ask ticket planned after,
    rounds.flatten = before ++ .asked ask ticket planned :: after → AnsweredAbove (nodesListed plan) before ask.node
  nothingBelow : ∀ node ∈ nodesListed plan, level node.path = [] →
    ∀ below ∈ nodesListed node.children, below.followUp? e.schema level = none
  stopped : ∀ n, result = .error n → ∀ more,
    (prefetchWithin e svc (polls + more) plan roots).exec session = (.error n, last)

section

variable {e : Engine σ} {plan : PrefetchPlan} {root : EntityId}

section

variable {svc : Service σ τ} {roots : List Instance} {polls : Nat} {session last : Session σ}
  {result : Except NoResult (Option (List Instance))} (hcover : NodesCover e.schema tree projection paths .root root plan)
  (hrun : (prefetchWithin e svc polls plan roots).exec session = (result, last))
include hcover hrun

theorem AsksFor.handsOver {level : Path → List Instance} {isDone isCurrent : Bool} {rounds : List (List (Event τ))}
    (h : AsksFor e level (nodesListed plan) isDone isCurrent rounds.flatten) (hstart : level .root = roots)
    (hhappened : Happened e svc [] session rounds.flatten (faultOf result) last)
    (hdone : ∀ found, result = .ok (some found) → isDone = true)
    (hcurrent : e.settings.concurrentSiblings = true → polls ≠ 0 → faultOf result = none → isCurrent = true)
    (horder : rounds.length ≤ polls ∧ ∀ round ∈ rounds, ((asksOf round).map (·.node)).Sublist (nodesListed plan)) :
    plan.HandsOver e svc roots polls session last result level rounds where
  run := hrun
  start := hstart
  levels := h.levels
  happened := hhappened
  executed := hhappened.executed
  params := hhappened.params
  once := h.once
  all found hfound := h.all (hdone found hfound)
  answered found hfound := h.answered (hdone found hfound)
  inTurn := h.inTurn
  ready hsiblings hpolled hnone := h.ready (hcurrent hsiblings hpolled hnone)
  inOrder := horder
  found := h.found
  answeredFirst := h.answeredFirst
  nothingBelow node hnode hempty := by
    obtain ⟨parent, id, -, -, hcovers⟩ := hcover.of_mem_listed hnode
    exact hcovers.nothing_below (h.levels.mono fun _ hbelow => mem_nodesListed_of_below hnode hbelow) hempty
  stopped n hn more := by
    subst hn
    exact prefetchWithin_stopped hrun more

/-- A plan without nodes, or without instances to load for, asks for nothing. -/
theorem handsOver_of_nothing (hnothing : (plan.isEmpty || roots.isEmpty) = true) :
    ∃ level, plan.HandsOver e svc roots polls session last result level [] := by
  have hsame := hrun
  rw [prefetchWithin, if_pos hnothing] at hsame
  cases hsame
  have hlevels : ∃ level, level Path.root = roots ∧ Levels e.schema level (nodesListed plan) ∧
      (nodesListed plan).filterMap (·.followUp? e.schema level) = [] := by
    rcases Bool.or_eq_true_iff.mp hnothing with hplan | hroots
    · rw [List.isEmpty_iff.mp hplan]
      exact ⟨fun _ => roots, rfl, levels_nil _, rfl⟩
    · rw [List.isEmpty_iff.mp hroots]
      exact ⟨fun _ => [], rfl, levels_nothing _, followUps_nothing _⟩
  obtain ⟨level, hstart, hlevels, hnone⟩ := hlevels
  have hasks : AsksFor e level (nodesListed plan) true true ([] : List (List (Event τ))).flatten :=
    .nil hlevels (fun _ => hnone) fun _ => hnone
  exact ⟨level, hasks.handsOver hcover hrun hstart (.done [] session) (fun _ _ => rfl) (fun _ _ _ => rfl)
    ⟨Nat.zero_le polls, fun _ h => absurd h List.not_mem_nil⟩⟩

theorem exists_handsOver :
    ∃ level rounds, plan.HandsOver e svc roots polls session last result level rounds := by
  by_cases hnothing : (plan.isEmpty || roots.isEmpty) = true
  · obtain ⟨level, h⟩ := handsOver_of_nothing hcover hrun hnothing
    exact ⟨level, [], h⟩
  have hsame := hrun
  rw [prefetchWithin, if_neg hnothing, Run.exec_bind] at hsame
  rcases hpolled : (pollTimes e svc roots polls (startAll plan)).exec session with ⟨polled, next⟩
  rw [hpolled] at hsame
  obtain ⟨rounds, hlength, horder, hhappened, hok, herror⟩ :=
    (levelTraced_startAll plan).pollTimes (List.Subset.refl _) hpolled
  have hasks : ∀ {loadings : List (Loading τ)}, LevelTraced e roots plan loadings rounds.flatten →
      ∃ level, level .root = roots ∧
        AsksFor e level (nodesListed plan) (allDone loadings) (allCurrent loadings) rounds.flatten := fun htraced =>
    asksFor_each hcover.names hcover.below (fun node hnode => (hcover.below node hnode).asksFor roots) htraced
  rcases polled with n | loadings
  · cases hsame
    obtain ⟨standing, htraced⟩ := herror n rfl
    obtain ⟨level, hstart, h⟩ := hasks htraced
    exact ⟨level, rounds, h.handsOver hcover hrun hstart hhappened nofun nofun ⟨hlength, horder⟩⟩
  · obtain ⟨htraced, hcurrent⟩ := hok loadings rfl
    obtain ⟨level, hstart, h⟩ := hasks htraced
    refine ⟨level, rounds, h.handsOver hcover hrun hstart ?_ ?_ ?_ ⟨hlength, horder⟩⟩
    all_goals
      dsimp only at hsame
      split at hsame <;> cases hsame
    · exact hhappened
    · exact hhappened
    · rename_i hdone
      exact fun _ _ => hdone
    · exact nofun
    · exact fun hsiblings hne _ => hcurrent hsiblings hne
    · exact fun hsiblings hne _ => hcurrent hsiblings hne

end

end

/-- Books with an author and an editor. -/
def editedSchema : Schema :=
  ⟨[⟨"Author", "authors", "id", [⟨"id", "id", false⟩]⟩,
    ⟨"Book", "books", "id",
      [⟨"id", "id", false⟩, ⟨"author_id", "author_id", true⟩, ⟨"editor_id", "editor_id", true⟩]⟩],
   [⟨"author", .foreignKey "author_id", ⟨1⟩, ⟨0⟩, true, false, some "books", ⟨1⟩⟩,
    ⟨"books", .reverseForeignKey "author_id", ⟨0⟩, ⟨1⟩, true, true, some "author", ⟨0⟩⟩,
    ⟨"editor", .foreignKey "editor_id", ⟨1⟩, ⟨0⟩, true, false, some "edited", ⟨3⟩⟩,
    ⟨"edited", .reverseForeignKey "editor_id", ⟨0⟩, ⟨1⟩, true, true, some "editor", ⟨2⟩⟩]⟩

/-- The authors of some books with all their books, and the editors. -/
def editedPlan : PrefetchPlan :=
  [⟨⟨["author"]⟩, "author", ⟨0⟩, false, .empty, [],
      [⟨⟨["author", "books"]⟩, "books", ⟨1⟩, false, .empty, [], []⟩]⟩,
    ⟨⟨["editor"]⟩, "editor", ⟨2⟩, false, .empty, [], []⟩]

/-- A book of the first author, edited by the second. -/
def editedBook : Instance := ⟨⟨1⟩, [("author_id", .int 1), ("editor_id", .int 2), ("id", .int 10)], []⟩

/-- What polls are answered with, one after the other: nothing yet, rows, or a failure. -/
abbrev Replies := List (Option (Except String (List Row)))

def replying : Service Replies Unit where
  submit _ replies := ((), replies)
  poll _ replies := (replies.headD (some (.ok [])), replies.tail)

def editedEngine (factory : Factory) : Engine Replies where
  schema := editedSchema
  settings := {}
  factory
  backend := ⟨fun _ replies => ((replies.headD none).getD (.ok []), replies.tail)⟩

def editedSession (replies : Replies) : Session Replies := ⟨.empty 6, replies, []⟩

/-- Polls for what is loaded for the book, until it is there. -/
def editedRun (factory : Factory) (replies : Replies) : Except NoResult (Option (List Instance)) × Session Replies :=
  (prefetchWithin (editedEngine factory) replying 3 editedPlan [editedBook]).exec (editedSession replies)

/-- The author, and then the editor and the book, each of them when polled again. -/
def lateReplies : Replies :=
  [none, none, some (.ok [[("id", .int 1)]]), none, some (.ok [[("id", .int 2)]]),
    some (.ok [[("id", .int 10), ("author_id", .int 1), ("editor_id", .int 2)]])]

/-- Refuses to construct an entity. -/
def Factory.refusing (refused : EntityId) : Factory where
  construct e id values skipValidation :=
    if id = refused then .error (.custom e.name "refused") else standard.construct e id values skipValidation

end RelQuery
