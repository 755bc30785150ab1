import Mathlib.Data.List.Nodup
import RelQuery.Alias

/-!
# What a registry keeps

A registry only grows: an alias that was given stays with its scope. However it was filled, no scope has two aliases
and no alias two scopes. The one way in which a scope gets no alias is that all its candidates belong to other scopes.

Aliases are written in hexadecimal digits, so a label tells the alias from the field.
-/

namespace RelQuery

namespace AliasRegistry

/-- The registry comes from an empty one by registering scopes. -/
inductive Reachable : AliasRegistry → Prop where
  | empty (length : Nat) : Reachable (.empty length)
  | register {r r' : AliasRegistry} {scope : AliasScope} {a : Alias} (before : Reachable r)
      (step : r.register scope = some (a, r')) : Reachable r'

/-- No scope has two aliases, and no alias two scopes. -/
structure Sound (r : AliasRegistry) : Prop where
  scopes : (r.entries.map (·.1)).Nodup
  aliases : (r.entries.map (·.2)).Nodup

/-- Every scope that has an alias in the first registry has the same in the second. -/
def Extends (r r' : AliasRegistry) : Prop :=
  ∀ scope a, r.resolve? scope = some a → r'.resolve? scope = some a

/-- The scope has no alias, and every alias that it could get belongs to another scope. -/
structure Exhausted (r : AliasRegistry) (scope : AliasScope) : Prop where
  unregistered : r.resolve? scope = none
  taken : ∀ attempt : UInt32, r.isTaken (scope.candidate r.length attempt) = true

variable {r r' r'' : AliasRegistry} {scope : AliasScope} {a : Alias}

theorem Extends.refl (r : AliasRegistry) : r.Extends r := fun _ _ h => h

theorem Extends.trans (h : r.Extends r') (h' : r'.Extends r'') : r.Extends r'' :=
  fun scope a ha => h' scope a (h scope a ha)

theorem mintFrom_eq_none {left : Nat} {attempt : UInt32} (h : r.mintFrom scope left attempt = none) :
    ∀ n < left, r.isTaken (scope.candidate r.length (attempt + UInt32.ofNat n)) = true := by
  induction left generalizing attempt with
  | zero => simp
  | succ left ih =>
    unfold mintFrom at h
    dsimp only at h
    split at h
    · rename_i htaken
      intro n hn
      cases n with
      | zero => simpa using htaken
      | succ n =>
        have hnext := ih h n (by omega)
        rwa [UInt32.add_assoc, UInt32.add_comm 1, ← UInt32.ofNat_one, ← UInt32.ofNat_add] at hnext
    · cases h

theorem isTaken_of_mintFrom {left : Nat} {attempt : UInt32} (h : r.mintFrom scope left attempt = some a) :
    r.isTaken a = false := by
  induction left generalizing attempt with
  | zero => cases h
  | succ left ih =>
    unfold mintFrom at h
    dsimp only at h
    split at h
    · exact ih h
    · rename_i hfree
      cases h
      simpa using hfree

/-- What registering a scope does: nothing if it has an alias, and otherwise it adds one that is free. -/
theorem register_cases (h : r.register scope = some (a, r')) :
    (r.resolve? scope = some a ∧ r' = r) ∨
      (r.resolve? scope = none ∧ r.isTaken a = false ∧ r' = { r with entries := r.entries ++ [(scope, a)] }) := by
  unfold register at h
  split at h
  · rename_i b hb
    cases h
    exact .inl ⟨hb, rfl⟩
  · rename_i hnone
    split at h
    · rename_i b hb
      cases h
      exact .inr ⟨hnone, isTaken_of_mintFrom hb, rfl⟩
    · cases h

theorem exhausted_of_register (h : r.register scope = none) : r.Exhausted scope := by
  unfold register at h
  split at h
  · cases h
  · rename_i hnone
    split at h
    · cases h
    · rename_i hmint
      refine ⟨hnone, fun attempt => ?_⟩
      have htaken := mintFrom_eq_none hmint attempt.toNat attempt.toNat_lt
      rwa [UInt32.zero_add, UInt32.ofNat_toNat] at htaken

theorem resolve?_register (h : r.register scope = some (a, r')) : r'.resolve? scope = some a := by
  rcases register_cases h with ⟨hold, rfl⟩ | ⟨hnone, -, rfl⟩
  · exact hold
  · unfold resolve? at hnone ⊢
    rw [Option.map_eq_none_iff] at hnone
    simp [List.find?_append, hnone]

theorem extends_register (h : r.register scope = some (a, r')) : r.Extends r' := by
  rcases register_cases h with ⟨-, rfl⟩ | ⟨-, -, rfl⟩
  · exact .refl _
  · intro other b hb
    unfold resolve? at hb ⊢
    obtain ⟨entry, hentry, rfl⟩ := Option.map_eq_some_iff.mp hb
    simp [List.find?_append, hentry]

theorem length_register (h : r.register scope = some (a, r')) : r'.length = r.length := by
  rcases register_cases h with ⟨-, rfl⟩ | ⟨-, -, rfl⟩ <;> rfl

theorem mem_of_resolve? (h : r.resolve? scope = some a) : (scope, a) ∈ r.entries := by
  unfold resolve? at h
  obtain ⟨⟨other, b⟩, hentry, rfl⟩ := Option.map_eq_some_iff.mp h
  have hscope : other = scope := by simpa using List.find?_some hentry
  exact hscope ▸ List.mem_of_find?_eq_some hentry

theorem Sound.register (hs : r.Sound) (h : r.register scope = some (a, r')) : r'.Sound := by
  rcases register_cases h with ⟨-, rfl⟩ | ⟨hnone, hfree, rfl⟩
  · exact hs
  · have hscope : scope ∉ r.entries.map (·.1) := by
      unfold resolve? at hnone
      rw [Option.map_eq_none_iff, List.find?_eq_none] at hnone
      intro hmem
      obtain ⟨entry, hentry, rfl⟩ := List.mem_map.mp hmem
      exact hnone entry hentry (by simp)
    have halias : a ∉ r.entries.map (·.2) := by
      intro hmem
      obtain ⟨entry, hentry, rfl⟩ := List.mem_map.mp hmem
      have htaken : r.isTaken entry.2 = true := List.any_eq_true.mpr ⟨entry, hentry, by simp⟩
      rw [hfree] at htaken
      cases htaken
    constructor
    · rw [List.map_append]
      exact List.nodup_append_comm.mp (List.nodup_cons.mpr ⟨hscope, hs.scopes⟩)
    · rw [List.map_append]
      exact List.nodup_append_comm.mp (List.nodup_cons.mpr ⟨halias, hs.aliases⟩)

theorem Reachable.sound (h : r.Reachable) : r.Sound := by
  induction h with
  | empty length => exact ⟨List.nodup_nil, List.nodup_nil⟩
  | register _ step ih => exact ih.register step

theorem Sound.scope_eq (h : r.Sound) {other : AliasScope} (hs : r.resolve? scope = some a)
    (ho : r.resolve? other = some a) : scope = other :=
  congrArg Prod.fst (List.inj_on_of_nodup_map h.aliases (mem_of_resolve? hs) (mem_of_resolve? ho) rfl)

end AliasRegistry

/-- The alias holds no underscore, which is what separates it from the field in a label. -/
def Alias.IsPlain (a : Alias) : Prop := '_' ∉ a.text.toList

theorem exists_digit_of_mem_hexDigest {message : List UInt8} {c : Char} (h : c ∈ Sha256.hexDigest message) :
    ∃ n < 16, Nat.digitChar n = c := by
  unfold Sha256.hexDigest Sha256.hexWord at h
  obtain ⟨w, -, h⟩ := List.mem_flatMap.mp h
  obtain ⟨i, -, hchar⟩ := List.mem_map.mp h
  exact ⟨_, Nat.mod_lt _ (by decide), hchar⟩

theorem underscore_notMem_hexDigest (message : List UInt8) : '_' ∉ Sha256.hexDigest message := by
  have hdigit : ∀ n < 16, Nat.digitChar n ≠ '_' := by decide
  intro hmem
  obtain ⟨n, hn, hchar⟩ := exists_digit_of_mem_hexDigest hmem
  exact hdigit n hn hchar

theorem AliasScope.isPlain_candidate (scope : AliasScope) (length : Nat) (attempt : UInt32) :
    (scope.candidate length attempt).IsPlain := by
  unfold AliasScope.candidate Alias.IsPlain
  rw [String.toList_ofList]
  exact fun hmem => underscore_notMem_hexDigest _ (List.mem_of_mem_take hmem)

namespace AliasRegistry

variable {r r' : AliasRegistry} {scope : AliasScope} {a : Alias}

theorem isPlain_of_mintFrom {left : Nat} {attempt : UInt32} (h : r.mintFrom scope left attempt = some a) : a.IsPlain := by
  induction left generalizing attempt with
  | zero => cases h
  | succ left ih =>
    unfold mintFrom at h
    dsimp only at h
    split at h
    · exact ih h
    · cases h
      exact scope.isPlain_candidate r.length attempt

theorem Reachable.isPlain (h : r.Reachable) : ∀ entry ∈ r.entries, entry.2.IsPlain := by
  induction h with
  | empty length => exact fun entry hentry => absurd hentry List.not_mem_nil
  | register before step ih =>
    unfold AliasRegistry.register at step
    split at step
    · cases step
      exact ih
    · split at step
      · rename_i b hmint
        cases step
        exact List.forall_mem_append.mpr ⟨ih, List.forall_mem_singleton.mpr (isPlain_of_mintFrom hmint)⟩
      · cases step

end AliasRegistry

theorem eq_of_append_cons {c : Char} {before before' after after' : List Char} (hc : c ∉ before) (hc' : c ∉ before')
    (h : before ++ c :: after = before' ++ c :: after') : before = before' ∧ after = after' := by
  have hindex := congrArg (List.idxOf c) h
  rw [List.idxOf_append_of_notMem hc, List.idxOf_append_of_notMem hc', List.idxOf_cons_self, List.idxOf_cons_self] at hindex
  obtain ⟨hbefore, hafter⟩ := List.append_inj h hindex
  exact ⟨hbefore, List.tail_eq_of_cons_eq hafter⟩

theorem Alias.label_inj {a b : Alias} (ha : a.IsPlain) (hb : b.IsPlain) {field field' : String}
    (h : a.label field = b.label field') : a = b ∧ field = field' := by
  have hchars := congrArg String.toList h
  unfold Alias.label at hchars
  simp only [String.toList_append, List.append_assoc] at hchars
  obtain ⟨htext, hfield⟩ := eq_of_append_cons ha hb hchars
  refine ⟨?_, String.toList_inj.mp hfield⟩
  cases a
  cases b
  exact congrArg Alias.mk (String.toList_inj.mp htext)

end RelQuery
