import Mathlib.Data.List.Perm.Subperm
import RelQuery.Proofs.Alias.Assign
import RelQuery.Proofs.Alias.Run
import RelQuery.Proofs.Path

/-!
# Registries that run out of aliases

The aliases of a registry are hexadecimal words of one length, so there are no more than `16 ^ length` of them. When a
statement needs more scopes than that, the search for a free alias goes on for ever at one of them.
-/

namespace RelQuery

/-- All words of a length over an alphabet. -/
def wordsOver {α : Type} (alphabet : List α) : Nat → List (List α)
  | 0 => [[]]
  | n + 1 => (wordsOver alphabet n).flatMap fun w => alphabet.map (· :: w)

section Words

variable {α : Type} {alphabet : List α}

theorem mem_wordsOver {n : Nat} {w : List α} : w ∈ wordsOver alphabet n ↔ w.length = n ∧ ∀ c ∈ w, c ∈ alphabet := by
  induction n generalizing w with
  | zero =>
    rw [wordsOver, List.mem_singleton, List.length_eq_zero_iff]
    refine ⟨?_, And.left⟩
    rintro rfl
    exact ⟨rfl, fun _ hc => absurd hc List.not_mem_nil⟩
  | succ n ih =>
    simp only [wordsOver, List.mem_flatMap, List.mem_map, ih]
    constructor
    · rintro ⟨v, ⟨hlength, hv⟩, c, hc, rfl⟩
      exact ⟨congrArg Nat.succ hlength, List.forall_mem_cons.mpr ⟨hc, hv⟩⟩
    · rintro ⟨hlength, hw⟩
      cases w with
      | nil => cases hlength
      | cons c v =>
        obtain ⟨hc, hv⟩ := List.forall_mem_cons.mp hw
        exact ⟨v, ⟨Nat.succ.inj hlength, hv⟩, c, hc, rfl⟩

theorem length_wordsOver (alphabet : List α) (n : Nat) : (wordsOver alphabet n).length = alphabet.length ^ n := by
  induction n with
  | zero => rfl
  | succ n ih => simp [wordsOver, List.length_flatMap, ih, Nat.pow_succ]

theorem nodup_wordsOver (h : alphabet.Nodup) (n : Nat) : (wordsOver alphabet n).Nodup := by
  induction n with
  | zero => exact List.nodup_singleton []
  | succ n ih =>
    refine List.nodup_flatMap.mpr ⟨fun w _ => h.map fun c d he => (List.cons.inj he).1, ih.imp ?_⟩
    intro v w hne u hu hu'
    obtain ⟨c, -, rfl⟩ := List.mem_map.mp hu
    obtain ⟨d, -, he⟩ := List.mem_map.mp hu'
    exact hne (List.cons.inj he).2.symm

end Words

def hexDigits : List Char := (List.range 16).map Nat.digitChar

theorem AliasScope.candidate_mem_wordsOver (scope : AliasScope) {length : Nat} (h : length ≤ 64) (attempt : UInt32) :
    (scope.candidate length attempt).text.toList ∈ wordsOver hexDigits length := by
  refine mem_wordsOver.mpr ⟨scope.length_candidate h attempt, fun c hc => ?_⟩
  rw [AliasScope.candidate, String.toList_ofList] at hc
  obtain ⟨n, hn, hchar⟩ := exists_digit_of_mem_hexDigest (List.mem_of_mem_take hc)
  exact List.mem_map.mpr ⟨n, List.mem_range.mpr hn, hchar⟩

variable {s : Schema} {rootTable : String} {paths : List ResolvedPath} {r r' : AliasRegistry}

/-- No registry holds more aliases than there are words of its length. -/
theorem AliasRegistry.Reachable.size_le (hr : r.Reachable) : r.size ≤ 16 ^ r.length := by
  have hwords : r.entries.map (·.2.text.toList) ⊆ wordsOver hexDigits r.length := by
    intro word hword
    obtain ⟨⟨scope, a⟩, hentry, rfl⟩ := List.mem_map.mp hword
    obtain ⟨attempt, rfl⟩ := hr.exists_candidate scope a (AliasRegistry.resolve?_of_mem hr.sound hentry)
    exact scope.candidate_mem_wordsOver (Nat.le_trans hr.length_le (by decide)) attempt
  have hnodup : (r.entries.map (·.2.text.toList)).Nodup := by
    have hinj : Function.Injective fun a : Alias => a.text.toList := by
      rintro ⟨text⟩ ⟨text'⟩ he
      exact congrArg Alias.mk (String.toList_inj.mp he)
    have hmap := hr.sound.aliases.map hinj
    rwa [List.map_map] at hmap
  calc r.size = (r.entries.map (·.2.text.toList)).length := (List.length_map _).symm
    _ ≤ (wordsOver hexDigits r.length).length := (List.subperm_of_subset hnodup hwords).length_le
    _ = 16 ^ r.length := length_wordsOver hexDigits r.length

theorem length_le_of_registerScopes {scopes : List JoinScopes} {entries : List (String × JoinAlias)} (hr : r.Reachable)
    (hnodup : (scopes.flatMap JoinScopes.all).Nodup) (h : registerScopes r scopes = (.ok entries, r')) :
    (scopes.flatMap JoinScopes.all).length ≤ 16 ^ r.length := by
  obtain ⟨-, hreach, hlength⟩ := registerScopes_keeps r scopes
  rw [h] at hreach hlength
  have hkept : scopes.flatMap JoinScopes.all ⊆ r'.entries.map (·.1) := fun scope hscope =>
    AliasRegistry.exists_resolve?_iff.mp (exists_resolve?_of_registered (registerScopes_ok h) scope hscope)
  calc (scopes.flatMap JoinScopes.all).length ≤ (r'.entries.map (·.1)).length :=
        (List.subperm_of_subset hnodup hkept).length_le
    _ = r'.size := List.length_map _
    _ ≤ 16 ^ r'.length := (hreach hr).size_le
    _ = 16 ^ r.length := congrArg (16 ^ ·) hlength

theorem length_le_neededScopes (rootTable : String) {root : EntityId} (hres : ∀ t ∈ paths, t.Resolves s root)
    (hroot : ∀ t ∈ paths, t.path.isRoot = false) (htext : (paths.map (·.path.text)).Nodup) :
    paths.length ≤ ((neededScopes s rootTable paths).flatMap JoinScopes.all).length := by
  have htexts : paths.map (·.path.text) ⊆ (neededScopes s rootTable paths).map (·.path) := by
    intro text hmem
    obtain ⟨t, ht, rfl⟩ := List.mem_map.mp hmem
    obtain ⟨id, hid⟩ := exists_lastHop (hres t ht) (hroot t ht)
    obtain ⟨w, hw, hpath⟩ := exists_mem_neededScopes rootTable ht hid
    exact List.mem_map.mpr ⟨w, hw, hpath⟩
  have hone : ∀ scopes : List JoinScopes, scopes.length ≤ (scopes.flatMap JoinScopes.all).length := by
    intro scopes
    induction scopes with
    | nil => exact Nat.le_refl 0
    | cons w rest ih =>
      rw [List.flatMap_cons, List.length_append, JoinScopes.all, List.length_append, List.length_singleton,
        List.length_cons]
      omega
  calc paths.length = (paths.map (·.path.text)).length := (List.length_map _).symm
    _ ≤ ((neededScopes s rootTable paths).map (·.path)).length := (List.subperm_of_subset htext htexts).length_le
    _ = (neededScopes s rootTable paths).length := List.length_map _
    _ ≤ ((neededScopes s rootTable paths).flatMap JoinScopes.all).length := hone _

/-- When there are more paths than aliases, neither a plan nor an error comes back. -/
theorem endless_of_many_paths (rootTable : String) {root : EntityId} (hr : r.Reachable)
    (hres : ∀ t ∈ paths, t.Resolves s root) (hroot : ∀ t ∈ paths, t.path.isRoot = false)
    (htext : (paths.map (·.path.text)).Nodup)
    (hmany : 16 ^ r.length < paths.length) :
    ∃ scope, (AliasPlan.assign r s rootTable paths).1 = .error (.endless scope) := by
  have hunregistered : ∀ entries r', registerScopes r (neededScopes s rootTable paths) ≠ (.ok entries, r') := by
    intro entries r' hentries
    have hgiven := length_le_of_registerScopes hr (nodup_neededScopes rootTable htext) hentries
    exact absurd hmany (Nat.not_lt.mpr ((length_le_neededScopes rootTable hres hroot htext).trans hgiven))
  rcases houtcome : AliasPlan.assign r s rootTable paths with ⟨n | p, r'⟩
  · rcases assign_eq_error houtcome with hscopes | ⟨entries, -, hentries, -⟩
    · obtain ⟨-, -, scope, -, rfl, -⟩ := registerScopes_error hscopes
      exact ⟨scope, rfl⟩
    · exact absurd hentries (hunregistered entries r')
  · obtain ⟨entries, hentries, -⟩ := assign_eq_ok houtcome
    exact absurd hentries (hunregistered entries r')

/-- The relations of a task, by their names. -/
def taskHop (name : String) : RelationId :=
  if name = "parent" then ⟨0⟩ else ⟨1⟩

/-- All paths of a length from a task to its relatives. -/
def kinPaths (length : Nat) : List ResolvedPath :=
  (wordsOver ["parent", "children"] length).map fun names => ⟨⟨names⟩, names.map taskHop, ⟨0⟩⟩

theorem walk_kin {names : List String} (h : ∀ name ∈ names, name ∈ ["parent", "children"]) :
    taskSchema.walk ⟨0⟩ names = .ok (names.map taskHop, ⟨0⟩) := by
  induction names with
  | nil => rfl
  | cons name rest ih =>
    obtain ⟨hname, hrest⟩ := List.forall_mem_cons.mp h
    have hstep : ∀ name ∈ ["parent", "children"], taskSchema.findRelation? ⟨0⟩ name = some (taskHop name) ∧
        (taskSchema.relation (taskHop name)).target = ⟨0⟩ := by
      decide
    obtain ⟨hfound, htarget⟩ := hstep name hname
    exact walk_cons.mpr ⟨taskHop name, rest.map taskHop, hfound, htarget ▸ ih hrest, rfl⟩

theorem resolves_of_mem_kinPaths {length : Nat} {t : ResolvedPath} (h : t ∈ kinPaths length) :
    t.Resolves taskSchema ⟨0⟩ := by
  obtain ⟨names, hnames, rfl⟩ := List.mem_map.mp h
  exact walk_kin (mem_wordsOver.mp hnames).2

theorem length_of_mem_kinPaths {length : Nat} {t : ResolvedPath} (h : t ∈ kinPaths length) : t.path.length = length := by
  obtain ⟨names, hnames, rfl⟩ := List.mem_map.mp h
  exact (mem_wordsOver.mp hnames).1

theorem nodup_text_kinPaths {length : Nat} (h : 0 < length) : ((kinPaths length).map (·.path.text)).Nodup := by
  rw [kinPaths, List.map_map]
  refine (nodup_wordsOver (by decide) length).map_on fun names hnames names' hnames' he => ?_
  obtain ⟨hlength, hmem⟩ := mem_wordsOver.mp hnames
  obtain ⟨hlength', hmem'⟩ := mem_wordsOver.mp hnames'
  have hplain : ∀ name ∈ ["parent", "children"], PlainName name := by decide
  have hroot : ∀ names : List String, names.length = length → (⟨names⟩ : Path) ≠ .root := by
    intro names hlength hroot
    have hnil : names = [] := congrArg Path.segments hroot
    rw [hnil] at hlength
    exact Nat.ne_of_lt h hlength
  exact congrArg Path.segments (Path.eq_of_text_eq (hroot names hlength) (hroot names' hlength')
    (fun name hname => (hplain name (hmem name hname)).separable)
    (fun name hname => (hplain name (hmem' name hname)).separable) he)

/-- There are more paths of seventeen steps than aliases of four digits. -/
theorem assign_endless_kin :
    (AliasRegistry.empty 4).Reachable ∧ (∀ t ∈ kinPaths 17, taskSchema.resolve ⟨0⟩ t.path = .ok t) ∧
      ((kinPaths 17).map (·.path.text)).Nodup ∧
        let outcome := AliasPlan.assign (.empty 4) taskSchema "tasks" (kinPaths 17)
        (∃ scope, outcome.1 = .error (.endless scope)) ∧
          ¬((∃ p, outcome.1 = .ok p) ∨ ∃ name texts, outcome.1 = .error (.failed (.ambiguousAlias name texts))) := by
  have hr := AliasRegistry.Reachable.empty 4
  have hres : ∀ t ∈ kinPaths 17, t.Resolves taskSchema ⟨0⟩ := fun t => resolves_of_mem_kinPaths
  have hroot : ∀ t ∈ kinPaths 17, t.path.isRoot = false := by
    intro t ht
    have hlength := length_of_mem_kinPaths ht
    refine List.isEmpty_eq_false_iff.mpr fun hnil => ?_
    rw [Path.length, hnil] at hlength
    cases hlength
  have htext := nodup_text_kinPaths (show 0 < 17 by decide)
  have hmany : 16 ^ (AliasRegistry.empty 4).length < (kinPaths 17).length := by
    rw [kinPaths, List.length_map, length_wordsOver]
    decide
  obtain ⟨scope, hendless⟩ := endless_of_many_paths "tasks" hr hres hroot htext hmany
  refine ⟨hr, fun t ht => resolve_eq_ok.mpr ⟨rfl, hres t ht⟩, htext, ⟨scope, hendless⟩, ?_⟩
  rintro (⟨p, hp⟩ | ⟨name, texts, he⟩)
  · rw [hendless] at hp
    cases hp
  · rw [hendless] at he
    cases he

end RelQuery
