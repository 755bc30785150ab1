import RelQuery.Instance.Merge
import RelQuery.Proofs.NameMap

/-!
# Instances as trees

Instances are trees whose children are reached by relations. This layer holds what all proofs about them share: the
depth bounds the children strictly, induction goes from the related instances to the instance
(`Instance.related_induction`), and a property of all instances within one (`Instance.Within`) is one of the instance
itself and of all instances within those it leads to (`Instance.forall_within`).
-/

namespace RelQuery

theorem instancesDepth_le_iff {l : List Instance} {n : Nat} : instancesDepth l ≤ n ↔ ∀ i ∈ l, i.depth ≤ n := by
  induction l with
  | nil => simp [instancesDepth]
  | cons i rest ih => simp [instancesDepth, ih]

theorem Related.depth_le_iff {r : Related} {n : Nat} : r.depth ≤ n ↔ ∀ c ∈ r.instances, c.depth ≤ n := by
  cases r with
  | many l => exact instancesDepth_le_iff
  | one o => cases o <;> simp [Related.depth, optionalDepth, Related.instances]

theorem relationsDepth_le_iff {m : List (String × Related)} {n : Nat} :
    relationsDepth m ≤ n ↔ ∀ p ∈ m, p.2.depth + 1 ≤ n := by
  induction m with
  | nil => simp [relationsDepth]
  | cons p rest ih =>
    obtain ⟨name, r⟩ := p
    simp [relationsDepth, ih]

theorem Instance.depth_eq (i : Instance) : i.depth = relationsDepth i.relations := by
  cases i
  rfl

theorem Related.depth_lt {i : Instance} {p : String × Related} (hp : p ∈ i.relations) : p.2.depth < i.depth := by
  rw [Instance.depth_eq]
  exact relationsDepth_le_iff.mp (Nat.le_refl _) p hp

theorem Instance.depth_lt {i c : Instance} {p : String × Related} (hp : p ∈ i.relations)
    (hc : c ∈ p.2.instances) : c.depth < i.depth :=
  Nat.lt_of_le_of_lt (Related.depth_le_iff.mp (Nat.le_refl _) c hc) (Related.depth_lt hp)

namespace Instance

theorem depth_le_of_mem {l : List Instance} {i : Instance} (h : i ∈ l) : i.depth ≤ instancesDepth l :=
  instancesDepth_le_iff.mp (Nat.le_refl _) i h

/-- What holds of an instance whenever it holds of the instances that its relations lead to holds of all. -/
theorem related_induction {P : Instance → Prop}
    (step : ∀ i : Instance, (∀ p ∈ i.relations, ∀ c ∈ p.2.instances, P c) → P i) (i : Instance) : P i := by
  have key : ∀ n (i : Instance), i.depth < n → P i := by
    intro n
    induction n with
    | zero =>
      intro i hi
      omega
    | succ n ih =>
      intro i hi
      refine step i fun p hp c hc => ih c ?_
      have hlt := depth_lt hp hc
      omega
  exact key _ i (Nat.lt_succ_self _)

/-- The instances that a relation of the instance leads to. -/
def relatedBy (i : Instance) (name : String) : List Instance :=
  ((i.related? name).map Related.instances).getD []

theorem relatedBy_of_related? {i : Instance} {name : String} {r : Related} (h : i.related? name = some r) :
    i.relatedBy name = r.instances := by
  rw [relatedBy, h]
  rfl

/-- `Within j i`: the instance `j` is `i` or within an instance that a relation of `i` leads to. -/
inductive Within : Instance → Instance → Prop where
  | self (i : Instance) : Within i i
  | related {i c j : Instance} {p : String × Related} (hp : p ∈ i.relations) (hc : c ∈ p.2.instances)
      (hj : Within j c) : Within j i

theorem forall_within {P : Instance → Prop} {i : Instance} :
    (∀ j, Within j i → P j) ↔ P i ∧ ∀ p ∈ i.relations, ∀ c ∈ p.2.instances, ∀ j, Within j c → P j := by
  constructor
  · intro h
    exact ⟨h i (.self i), fun p hp c hc j hj => h j (.related hp hc hj)⟩
  · rintro ⟨hi, hbelow⟩ j hj
    cases hj with
    | self => exact hi
    | related hp hc hj => exact hbelow _ hp _ hc j hj

/-- The names of fields and relations ascend in all instances within an instance. This is what makes a list of pairs
a map. -/
def Ordered (i : Instance) : Prop :=
  ∀ j, Within j i → NameMap.Ordered j.fields ∧ NameMap.Ordered j.relations

theorem ordered_iff {i : Instance} :
    i.Ordered ↔ NameMap.Ordered i.fields ∧ NameMap.Ordered i.relations ∧
      ∀ p ∈ i.relations, ∀ c ∈ p.2.instances, c.Ordered := by
  unfold Ordered
  rw [forall_within, and_assoc]

@[simp] theorem ordered_mk {entity : EntityId} {fields : List (String × Value)} {relations : List (String × Related)} :
    (⟨entity, fields, relations⟩ : Instance).Ordered ↔ NameMap.Ordered fields ∧ NameMap.Ordered relations ∧
      ∀ p ∈ relations, ∀ c ∈ p.2.instances, c.Ordered :=
  ordered_iff

theorem Ordered.fields {i : Instance} (h : i.Ordered) : NameMap.Ordered i.fields := (ordered_iff.mp h).1

theorem Ordered.relations {i : Instance} (h : i.Ordered) : NameMap.Ordered i.relations := (ordered_iff.mp h).2.1

theorem Ordered.related {i c : Instance} (h : i.Ordered) {p : String × Related} (hp : p ∈ i.relations)
    (hc : c ∈ p.2.instances) : c.Ordered :=
  (ordered_iff.mp h).2.2 p hp c hc

theorem eta (i : Instance) : (⟨i.entity, i.fields, i.relations⟩ : Instance) = i := by
  cases i
  rfl

/-- Instances with the same entity, fields and look-ups of relations are the same. -/
theorem ext_related {i j : Instance} (hi : NameMap.Ordered i.relations) (hj : NameMap.Ordered j.relations)
    (entity : i.entity = j.entity) (fields : i.fields = j.fields)
    (related : ∀ name, i.related? name = j.related? name) : i = j := by
  obtain ⟨e, f, r⟩ := i
  obtain ⟨e', f', r'⟩ := j
  have hr : r = r' := NameMap.ordered_ext hi hj related
  cases entity
  cases fields
  cases hr
  rfl

end Instance

end RelQuery
