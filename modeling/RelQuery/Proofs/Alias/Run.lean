import RelQuery.Distinct
import RelQuery.Proofs.Alias.Registry

/-!
# Runs of a registry

However a registry is called, the aliases that it has given stay, differ, and have the length that was set. A scope
gets the first of its candidates that no other scope has at that moment, so the history of clashes decides between
them; where first candidates do not clash, the order of calls plays no part.
-/

namespace RelQuery

namespace Sha256

theorem length_round {state : List UInt32} (h : state.length = 8) (step : UInt32 × UInt32) :
    (round state step).length = 8 := by
  unfold round
  split
  · rfl
  · exact h

theorem length_foldl_round {state : List UInt32} (h : state.length = 8) (steps : List (UInt32 × UInt32)) :
    (steps.foldl round state).length = 8 := by
  induction steps generalizing state with
  | nil => exact h
  | cons step rest ih => exact ih (length_round h step)

theorem length_absorb {state : List UInt32} (h : state.length = 8) (block : List UInt32) :
    (absorb state block).length = 8 := by
  simp [absorb, h, length_foldl_round h]

theorem length_absorbAll {state : List UInt32} (h : state.length = 8) (count : Nat) (ws : List UInt32) :
    (absorbAll count state ws).length = 8 := by
  induction count generalizing state ws with
  | zero => exact h
  | succ count ih => exact ih (length_absorb h _) _

theorem length_hexDigest (message : List UInt8) : (hexDigest message).length = 64 := by
  have hwords : (digest message).length = 8 := length_absorbAll rfl _ _
  simp [hexDigest, List.length_flatMap, hexWord, hwords]

end Sha256

theorem AliasScope.length_candidate (scope : AliasScope) {length : Nat} (h : length ≤ 64) (attempt : UInt32) :
    (scope.candidate length attempt).text.length = length := by
  simp [AliasScope.candidate, Sha256.length_hexDigest, h]

theorem clampAliasLength_le (length : Nat) : clampAliasLength length ≤ maxAliasLength := by
  unfold clampAliasLength minAliasLength maxAliasLength
  omega

namespace AliasRegistry

variable {r r' : AliasRegistry} {scope : AliasScope} {a : Alias}

theorem exists_resolve?_iff : (∃ a, r.resolve? scope = some a) ↔ scope ∈ r.entries.map (·.1) := by
  rw [← Option.isSome_iff_exists, resolve?, Option.isSome_map, List.find?_isSome, List.mem_map]
  simp only [beq_iff_eq]

theorem resolve?_of_mem (h : r.Sound) (hmem : (scope, a) ∈ r.entries) : r.resolve? scope = some a := by
  obtain ⟨b, hb⟩ := exists_resolve?_iff.mpr (List.mem_map_of_mem hmem)
  have hentry := List.inj_on_of_nodup_map h.scopes hmem (mem_of_resolve? hb) rfl
  rw [hb, (Prod.mk.inj hentry).2]

theorem isTaken_iff (h : r.Sound) : r.isTaken a = true ↔ ∃ scope, r.resolve? scope = some a := by
  rw [isTaken, List.any_eq_true]
  constructor
  · rintro ⟨⟨scope, b⟩, hmem, heq⟩
    obtain rfl : b = a := eq_of_beq heq
    exact ⟨scope, resolve?_of_mem h hmem⟩
  · rintro ⟨scope, hscope⟩
    exact ⟨(scope, a), mem_of_resolve? hscope, beq_self_eq_true a⟩

theorem exists_resolve?_register {other : AliasScope} (h : r.register scope = some (a, r')) :
    (∃ b, r'.resolve? other = some b) ↔ (∃ b, r.resolve? other = some b) ∨ other = scope := by
  rcases register_cases h with ⟨hold, rfl⟩ | ⟨-, -, rfl⟩
  · refine (or_iff_left_of_imp ?_).symm
    rintro rfl
    exact ⟨a, hold⟩
  · rw [exists_resolve?_iff, exists_resolve?_iff, List.map_append, List.mem_append, List.map_singleton,
      List.mem_singleton]

/-- After a registration, what a scope has it had before, or it is what was registered. -/
theorem resolve?_register_cases {other : AliasScope} {b : Alias} (h : r.register scope = some (a, r'))
    (hb : r'.resolve? other = some b) :
    r.resolve? other = some b ∨ other = scope ∧ b = a ∧ r.resolve? scope = none := by
  rcases hold : r.resolve? other with - | c
  · rcases (exists_resolve?_register h).mp ⟨b, hb⟩ with ⟨c, hc⟩ | rfl
    · rw [hold] at hc
      cases hc
    · rw [resolve?_register h] at hb
      exact .inr ⟨rfl, (Option.some.inj hb).symm, hold⟩
  · rw [extends_register h other c hold] at hb
    exact .inl hb

/-- The alias is the candidate of this attempt, which no scope has. At every earlier attempt another scope has it. -/
structure FirstFree (r : AliasRegistry) (scope : AliasScope) (a : Alias) (attempt : UInt32) : Prop where
  candidate : a = scope.candidate r.length attempt
  free : ∀ other, r.resolve? other ≠ some a
  earlier : ∀ before < attempt, ∃ other ≠ scope, r.resolve? other = some (scope.candidate r.length before)

theorem mintFrom_eq_some {left : Nat} {attempt : UInt32} (h : r.mintFrom scope left attempt = some a) :
    ∃ n < left, a = scope.candidate r.length (attempt + UInt32.ofNat n) ∧
      ∀ m < n, r.isTaken (scope.candidate r.length (attempt + UInt32.ofNat m)) = true := by
  induction left generalizing attempt with
  | zero => cases h
  | succ left ih =>
    unfold mintFrom at h
    dsimp only at h
    split at h
    · rename_i htaken
      obtain ⟨n, hn, ha, hbefore⟩ := ih h
      have hnext : ∀ k : Nat, attempt + 1 + UInt32.ofNat k = attempt + UInt32.ofNat (k + 1) := by
        intro k
        rw [UInt32.add_assoc, UInt32.add_comm 1, ← UInt32.ofNat_one, ← UInt32.ofNat_add]
      refine ⟨n + 1, by omega, by rw [ha, hnext], fun m hm => ?_⟩
      cases m with
      | zero => simpa using htaken
      | succ m =>
        rw [← hnext]
        exact hbefore m (by omega)
    · cases h
      exact ⟨0, by omega, by simp, by simp⟩

theorem exists_firstFree (hs : r.Sound) (hnone : r.resolve? scope = none) (h : r.register scope = some (a, r')) :
    ∃ attempt, r.FirstFree scope a attempt := by
  have hmint : r.mint scope = some a := by
    unfold AliasRegistry.register at h
    rw [hnone] at h
    dsimp only at h
    split at h
    · rename_i b hb
      cases h
      exact hb
    · cases h
  obtain ⟨n, hn, ha, hbefore⟩ := mintFrom_eq_some hmint
  rw [UInt32.zero_add] at ha
  refine ⟨UInt32.ofNat n, ha, fun other hother => ?_, fun before hlt => ?_⟩
  · have hfree := isTaken_of_mintFrom hmint
    rw [(isTaken_iff hs).mpr ⟨other, hother⟩] at hfree
    cases hfree
  · have hlt : before.toNat < n := by
      rw [UInt32.lt_iff_toNat_lt, UInt32.toNat_ofNat_of_lt' hn] at hlt
      exact hlt
    have htaken := hbefore before.toNat hlt
    rw [UInt32.zero_add, UInt32.ofNat_toNat] at htaken
    obtain ⟨other, hother⟩ := (isTaken_iff hs).mp htaken
    refine ⟨other, ?_, hother⟩
    rintro rfl
    rw [hnone] at hother
    cases hother

theorem register_of_free (hs : r.Sound) (hnone : r.resolve? scope = none)
    (hfree : ∀ other, r.resolve? other ≠ some (scope.candidate r.length 0)) :
    ∃ r', r.register scope = some (scope.candidate r.length 0, r') := by
  rcases hregister : r.register scope with - | ⟨a, r'⟩
  · obtain ⟨other, hother⟩ := (isTaken_iff hs).mp ((exhausted_of_register hregister).taken 0)
    exact absurd hother (hfree other)
  · obtain ⟨attempt, hfirst⟩ := exists_firstFree hs hnone hregister
    by_cases hzero : attempt = 0
    · rw [hfirst.candidate, hzero]
      exact ⟨r', rfl⟩
    · obtain ⟨other, -, hother⟩ := hfirst.earlier 0 (UInt32.pos_iff_ne_zero.mpr hzero)
      exact absurd hother (hfree other)

end AliasRegistry

/-! ### Calls -/

inductive RegistryCall where
  | register (scope : AliasScope)
  | resolve (scope : AliasScope)

/-- The scopes that calls register, repeated ones included. -/
def registeredScopes (calls : List RegistryCall) : List AliasScope :=
  calls.filterMap fun
    | .register scope => some scope
    | .resolve _ => none

namespace AliasRegistry

/-- The answer to a call, and the registry after it. -/
def call (r : AliasRegistry) : RegistryCall → Option (Option Alias × AliasRegistry)
  | .register scope => (r.register scope).map fun (a, r') => (some a, r')
  | .resolve scope => some (r.resolve? scope, r)

/-- The answers to calls made one after the other, and the registry after them, if all of them return. -/
def run (r : AliasRegistry) : List RegistryCall → Option (List (Option Alias) × AliasRegistry)
  | [] => some ([], r)
  | c :: rest =>
    match r.call c with
    | none => none
    | some (answer, r') => (r'.run rest).map fun (answers, last) => (answer :: answers, last)

/-- An answer that still holds: the alias that was given for the scope is the one that it has. -/
def Upholds (r : AliasRegistry) : RegistryCall → Option Alias → Prop
  | .register scope, answer => ∃ a, answer = some a ∧ r.resolve? scope = some a
  | .resolve scope, answer => ∀ a, answer = some a → r.resolve? scope = some a

variable {r r' : AliasRegistry} {c : RegistryCall} {calls : List RegistryCall} {answer : Option Alias}
  {answers : List (Option Alias)}

theorem call_cases (h : r.call c = some (answer, r')) :
    (∃ scope a, c = .register scope ∧ answer = some a ∧ r.register scope = some (a, r')) ∨
      ∃ scope, c = .resolve scope ∧ answer = r.resolve? scope ∧ r' = r := by
  cases c with
  | register scope =>
    obtain ⟨⟨a, r₁⟩, hregister, he⟩ := Option.map_eq_some_iff.mp h
    cases he
    exact .inl ⟨scope, a, rfl, rfl, hregister⟩
  | resolve scope =>
    cases h
    exact .inr ⟨scope, rfl, rfl, rfl⟩

theorem run_cons (h : r.run (c :: calls) = some (answers, r')) :
    ∃ answer r₁ rest, r.call c = some (answer, r₁) ∧ r₁.run calls = some (rest, r') ∧ answers = answer :: rest := by
  unfold run at h
  split at h
  · cases h
  · rename_i answer r₁ hcall
    obtain ⟨⟨rest, last⟩, hrest, he⟩ := Option.map_eq_some_iff.mp h
    cases he
    exact ⟨answer, r₁, rest, hcall, hrest, rfl⟩

theorem Upholds.extend (h : r.Upholds c answer) (hext : r.Extends r') : r'.Upholds c answer := by
  cases c with
  | register scope =>
    obtain ⟨a, ha, hscope⟩ := h
    exact ⟨a, ha, hext scope a hscope⟩
  | resolve scope => exact fun a ha => hext scope a (h a ha)

/-- What calls have done to a registry. -/
structure Grown (r : AliasRegistry) (calls : List RegistryCall) (r' : AliasRegistry) : Prop where
  kept : r.Extends r'
  reachable : r.Reachable → r'.Reachable
  length : r'.length = r.length
  registered : ∀ scope, (∃ a, r'.resolve? scope = some a) ↔
    (∃ a, r.resolve? scope = some a) ∨ scope ∈ registeredScopes calls

theorem grown_call (h : r.call c = some (answer, r')) : r.Grown [c] r' ∧ r'.Upholds c answer := by
  rcases call_cases h with ⟨scope, a, rfl, rfl, hregister⟩ | ⟨scope, rfl, rfl, rfl⟩
  · refine ⟨⟨extends_register hregister, fun hr => .register hr hregister, length_register hregister, fun other => ?_⟩,
      a, rfl, resolve?_register hregister⟩
    rw [exists_resolve?_register hregister]
    simp [registeredScopes]
  · refine ⟨⟨.refl r', id, rfl, fun other => ?_⟩, fun a ha => ha⟩
    simp [registeredScopes]

theorem grown_run (h : r.run calls = some (answers, r')) :
    r.Grown calls r' ∧ List.Forall₂ r'.Upholds calls answers := by
  induction calls generalizing r answers with
  | nil =>
    cases h
    exact ⟨⟨.refl _, id, rfl, by simp [registeredScopes]⟩, .nil⟩
  | cons c rest ih =>
    obtain ⟨answer, r₁, more, hcall, hrest, rfl⟩ := run_cons h
    obtain ⟨hstep, hanswer⟩ := grown_call hcall
    obtain ⟨hmore, hanswers⟩ := ih hrest
    refine ⟨⟨hstep.kept.trans hmore.kept, fun hr => hmore.reachable (hstep.reachable hr),
      hmore.length.trans hstep.length, fun scope => ?_⟩, .cons (hanswer.extend hmore.kept) hanswers⟩
    have hsplit : registeredScopes (c :: rest) = registeredScopes [c] ++ registeredScopes rest :=
      List.filterMap_append (l := [c])
    rw [hmore.registered, hstep.registered, hsplit, List.mem_append, or_assoc]

theorem Reachable.length_le (hr : r.Reachable) : r.length ≤ maxAliasLength := by
  induction hr with
  | empty length => exact clampAliasLength_le length
  | register _ step ih => exact length_register step ▸ ih

/-- The aliases that a registry keeps are candidates of their scopes. -/
theorem Reachable.exists_candidate (hr : r.Reachable) :
    ∀ scope a, r.resolve? scope = some a → ∃ attempt, a = scope.candidate r.length attempt := by
  induction hr with
  | empty length =>
    intro scope a h
    cases h
  | @register r r' scope a before step ih =>
    rw [length_register step]
    intro other b hb
    rcases resolve?_register_cases step hb with hold | ⟨rfl, rfl, hnone⟩
    · exact ih other b hold
    · obtain ⟨attempt, hfirst⟩ := exists_firstFree before.sound hnone step
      exact ⟨attempt, hfirst.candidate⟩

theorem Reachable.text_length (hr : r.Reachable) (h : r.resolve? scope = some a) : a.text.length = r.length := by
  obtain ⟨attempt, rfl⟩ := hr.exists_candidate scope a h
  exact scope.length_candidate (Nat.le_trans hr.length_le (by decide)) attempt

/-- What holds of a registry after calls that returned, from an empty one on. -/
structure KeepsAliases (r : AliasRegistry) (length : Nat) (calls : List RegistryCall) (answers : List (Option Alias)) :
    Prop where
  setting : r.length = clampAliasLength length
  injective : ∀ scope other a, r.resolve? scope = some a → r.resolve? other = some a → scope = other
  width : ∀ scope a, r.resolve? scope = some a → a.text.length = clampAliasLength length
  registered : ∀ scope, (∃ a, r.resolve? scope = some a) ↔ scope ∈ registeredScopes calls
  answers : List.Forall₂ r.Upholds calls answers
  again : ∀ scope a, r.resolve? scope = some a → r.register scope = some (a, r)
  size : r.size = (distinct (registeredScopes calls)).length
  kept : ∀ later more r', r.run later = some (more, r') → r.Extends r'
  minted : ∀ scope a r', scope ∉ registeredScopes calls → r.register scope = some (a, r') →
    ∃ attempt, r.FirstFree scope a attempt
  refused : ∀ scope, r.register scope = none → r.Exhausted scope

theorem keepsAliases_of_run {length : Nat} (h : (empty length).run calls = some (answers, r)) :
    r.KeepsAliases length calls answers := by
  obtain ⟨hgrown, hanswers⟩ := grown_run h
  have hr := hgrown.reachable (.empty length)
  have hregistered : ∀ scope, (∃ a, r.resolve? scope = some a) ↔ scope ∈ registeredScopes calls := by
    intro scope
    rw [hgrown.registered]
    refine or_iff_right ?_
    rintro ⟨a, ha⟩
    cases ha
  refine ⟨hgrown.length, fun _ _ _ => hr.sound.scope_eq, fun scope a ha => ?_, hregistered, hanswers,
    fun _ _ => register_of_resolve?, ?_, fun _ _ _ hlater => (grown_run hlater).1.kept, fun scope a r' hnew => ?_,
    fun _ => exhausted_of_register⟩
  · rw [hr.text_length ha, hgrown.length]
    rfl
  · have hsame : (r.entries.map (·.1)).Perm (distinct (registeredScopes calls)) := by
      refine (List.perm_ext_iff_of_nodup hr.sound.scopes (distinct_nodup _)).mpr fun scope => ?_
      rw [mem_distinct, ← hregistered, exists_resolve?_iff]
    rw [size, ← hsame.length_eq, List.length_map]
  · have hnone : r.resolve? scope = none :=
      Option.eq_none_iff_forall_ne_some.mpr fun b hb => hnew ((hregistered scope).mp ⟨b, hb⟩)
    exact exists_firstFree hr.sound hnone

/-! ### First candidates -/

/-- No two of the scopes have the same first candidate. -/
def FirstsDiffer (length : Nat) (scopes : List AliasScope) : Prop :=
  ∀ scope ∈ scopes, ∀ other ∈ scopes, scope.candidate length 0 = other.candidate length 0 → scope = other

/-- Of the scopes, those that are registered have their first candidates, and no other scope is registered. -/
def FirstNamed (r : AliasRegistry) (scopes : List AliasScope) : Prop :=
  ∀ scope a, r.resolve? scope = some a → scope ∈ scopes ∧ a = scope.candidate r.length 0

theorem FirstNamed.register {scopes : List AliasScope} (hr : r.Reachable) (hdiffer : FirstsDiffer r.length scopes)
    (hnamed : r.FirstNamed scopes) {scope : AliasScope} (hscope : scope ∈ scopes) :
    ∃ a r', r.register scope = some (a, r') ∧ r'.FirstNamed scopes := by
  rcases hold : r.resolve? scope with - | a
  · have hfree : ∀ other, r.resolve? other ≠ some (scope.candidate r.length 0) := by
      intro other hother
      obtain ⟨hmem, hsame⟩ := hnamed other _ hother
      rw [← hdiffer scope hscope other hmem hsame, hold] at hother
      cases hother
    obtain ⟨r', hregister⟩ := register_of_free hr.sound hold hfree
    refine ⟨_, r', hregister, fun other b hb => ?_⟩
    rw [length_register hregister]
    rcases resolve?_register_cases hregister hb with hold' | ⟨rfl, rfl, -⟩
    · exact hnamed other b hold'
    · exact ⟨hscope, rfl⟩
  · exact ⟨a, r, register_of_resolve? hold, hnamed⟩

theorem FirstNamed.run {scopes : List AliasScope} (hr : r.Reachable) (hdiffer : FirstsDiffer r.length scopes)
    (hnamed : r.FirstNamed scopes) (hcalls : ∀ scope ∈ registeredScopes calls, scope ∈ scopes) :
    ∃ answers r', r.run calls = some (answers, r') ∧ r'.FirstNamed scopes := by
  induction calls generalizing r with
  | nil => exact ⟨[], r, rfl, hnamed⟩
  | cons c rest ih =>
    have hstep : ∃ answer r₁, r.call c = some (answer, r₁) ∧ r₁.FirstNamed scopes ∧
        ∀ scope ∈ registeredScopes rest, scope ∈ scopes := by
      cases c with
      | register scope =>
        obtain ⟨hscope, hrest⟩ := List.forall_mem_cons.mp hcalls
        obtain ⟨a, r₁, hregister, hnamed₁⟩ := hnamed.register hr hdiffer hscope
        exact ⟨some a, r₁, by rw [call, hregister]; rfl, hnamed₁, hrest⟩
      | resolve scope => exact ⟨_, r, rfl, hnamed, hcalls⟩
    obtain ⟨answer, r₁, hcall, hnamed₁, hrest⟩ := hstep
    obtain ⟨hgrown, -⟩ := grown_call hcall
    obtain ⟨answers, last, hrun, hlast⟩ := ih (hgrown.reachable hr) (hgrown.length ▸ hdiffer) hnamed₁ hrest
    exact ⟨answer :: answers, last, by rw [AliasRegistry.run, hcall]; simp [hrun], hlast⟩

theorem firstNamed_empty (length : Nat) (scopes : List AliasScope) : (empty length).FirstNamed scopes := by
  intro scope a ha
  cases ha

/-- After any calls that register scopes whose first candidates differ, these have their first candidates. -/
theorem resolve?_of_firstsDiffer {length : Nat}
    (hdiffer : FirstsDiffer (clampAliasLength length) (registeredScopes calls))
    (h : (empty length).run calls = some (answers, r)) (scope : AliasScope) :
    r.resolve? scope =
      if scope ∈ registeredScopes calls then some (scope.candidate (clampAliasLength length) 0) else none := by
  have hkeeps := keepsAliases_of_run h
  obtain ⟨_, _, hrun, hnamed⟩ := (firstNamed_empty length _).run (.empty length) hdiffer fun _ hscope => hscope
  rw [h] at hrun
  cases hrun
  split
  · rename_i hmem
    obtain ⟨a, ha⟩ := (hkeeps.registered scope).mpr hmem
    rw [ha, (hnamed scope a ha).2, hkeeps.setting]
  · rename_i hmem
    exact Option.eq_none_iff_forall_ne_some.mpr fun a ha => hmem ((hkeeps.registered scope).mp ⟨a, ha⟩)

theorem exists_run_of_firstsDiffer (length : Nat)
    (hdiffer : FirstsDiffer (clampAliasLength length) (registeredScopes calls)) :
    ∃ answers r, (empty length).run calls = some (answers, r) := by
  obtain ⟨answers, r, hrun, -⟩ := (firstNamed_empty length _).run (.empty length) hdiffer fun _ hscope => hscope
  exact ⟨answers, r, hrun⟩

/-- Whatever calls return, the registry keeps its aliases. If the first candidates of the scopes differ, all calls
return, and another registry of the same length into which just these scopes are registered gives the same aliases. -/
theorem run_keepsAliases (length : Nat) :
    (∀ calls answers r, (empty length).run calls = some (answers, r) → r.KeepsAliases length calls answers) ∧
      ∀ calls, FirstsDiffer (clampAliasLength length) (registeredScopes calls) →
        ∃ answers r, (empty length).run calls = some (answers, r) ∧
          ∀ length' calls' answers' r', clampAliasLength length' = clampAliasLength length →
            (∀ scope, scope ∈ registeredScopes calls' ↔ scope ∈ registeredScopes calls) →
            (empty length').run calls' = some (answers', r') → ∀ scope, r'.resolve? scope = r.resolve? scope := by
  refine ⟨fun _ _ _ => keepsAliases_of_run, fun calls hdiffer => ?_⟩
  obtain ⟨answers, r, hrun⟩ := exists_run_of_firstsDiffer length hdiffer
  refine ⟨answers, r, hrun, fun length' calls' answers' r' hlength hscopes hrun' scope => ?_⟩
  have hdiffer' : FirstsDiffer (clampAliasLength length') (registeredScopes calls') := by
    intro scope hscope other hother
    rw [hlength]
    exact hdiffer scope ((hscopes scope).mp hscope) other ((hscopes other).mp hother)
  rw [resolve?_of_firstsDiffer hdiffer hrun, resolve?_of_firstsDiffer hdiffer' hrun', hlength]
  simp only [hscopes]

/-- Two relations whose digests begin with the same four digits. -/
def clashingCalls : List RegistryCall :=
  [.register (.edge "stores" "city"), .register (.edge "people" "tags"), .resolve (.edge "people" "tags"),
    .register (.edge "stores" "city")]

/-- Calls for two relations whose digests differ, in one order and in the other. -/
def plainCalls : List RegistryCall :=
  [.register (.edge "stores" "city"), .register (.edge "books" "author")]

theorem run_keepsAliases_clash :
    (∃ answers r, (empty 1).run clashingCalls = some (answers, r) ∧
      answers = [some ⟨"d8de"⟩, some ⟨"a4e1"⟩, some ⟨"a4e1"⟩, some ⟨"d8de"⟩] ∧
      r.KeepsAliases 1 clashingCalls answers) ∧
    FirstsDiffer (clampAliasLength 1) (registeredScopes plainCalls) ∧
      ∃ answers r answers' r', (empty 1).run plainCalls = some (answers, r) ∧
        (empty 4).run plainCalls.reverse = some (answers', r') ∧ ∀ scope, r'.resolve? scope = r.resolve? scope := by
  have hclash : ((empty 1).run clashingCalls).map (·.1) =
      some [some ⟨"d8de"⟩, some ⟨"a4e1"⟩, some ⟨"a4e1"⟩, some ⟨"d8de"⟩] := by decide +kernel
  have hdiffer : FirstsDiffer (clampAliasLength 1) (registeredScopes plainCalls) := by
    unfold FirstsDiffer
    decide +kernel
  have hreverse : ((empty 4).run plainCalls.reverse).isSome = true := by decide +kernel
  obtain ⟨⟨answers, r⟩, hrun, hanswers⟩ := Option.map_eq_some_iff.mp hclash
  obtain ⟨⟨answers', r'⟩, hrun'⟩ := Option.isSome_iff_exists.mp hreverse
  obtain ⟨hkeeps, hagree⟩ := run_keepsAliases 1
  obtain ⟨plainAnswers, plain, hplain, hsame⟩ := hagree plainCalls hdiffer
  exact ⟨⟨answers, r, hrun, hanswers, hkeeps _ _ _ hrun⟩, hdiffer, plainAnswers, plain, answers', r', hplain, hrun',
    hsame 4 plainCalls.reverse answers' r' (by decide) (fun _ => by simp [registeredScopes, plainCalls, or_comm]) hrun'⟩

end AliasRegistry

end RelQuery
