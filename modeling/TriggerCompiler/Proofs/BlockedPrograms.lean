import TriggerCompiler.Proofs.CycleSearch

/-! The programs that are blocked before the levels are built. The cycles found block their programs, and
passes over the graph block the dependants of blocked programs until nothing changes. The result is
closed under dependants, so a program is blocked exactly if it reaches a cycle; and each blocked program
stands with a cycle all of whose programs it reaches. -/

open Relation

namespace TriggerCompiler

namespace SortedMap

variable {β : Type} {m : SortedMap β}

theorem get?_of_get?_insertNew {k j : String} {v w : β}
    (h : (m.insertNew k v).get? j = some w) : (j = k ∧ w = v) ∨ m.get? j = some w := by
  unfold insertNew at h
  split at h
  · exact Or.inr h
  · rw [get?_insert] at h
    split at h
    · rename_i heq
      cases h
      exact Or.inl ⟨heq.symm, rfl⟩
    · exact Or.inr h

theorem contains_foldl_insertNew (es : List (String × β)) (m : SortedMap β) (k : String) :
    (es.foldl (fun m e => m.insertNew e.1 e.2) m).contains k = true ↔
      k ∈ es.map Prod.fst ∨ m.contains k = true := by
  induction es generalizing m with
  | nil => simp
  | cons e es ih => rw [List.foldl_cons, ih, contains_insertNew, List.map_cons, List.mem_cons]; tauto

theorem get?_of_get?_foldl_insertNew {es : List (String × β)} {k : String} {v : β}
    (h : (es.foldl (fun m e => m.insertNew e.1 e.2) m).get? k = some v) :
    (k, v) ∈ es ∨ m.get? k = some v := by
  induction es generalizing m with
  | nil => exact Or.inr h
  | cons e es ih =>
    rcases ih h with hmem | hget
    · exact Or.inl (List.mem_cons_of_mem _ hmem)
    · rcases get?_of_get?_insertNew hget with ⟨rfl, rfl⟩ | hget
      · exact Or.inl List.mem_cons_self
      · exact Or.inr hget

theorem keys_subperm {m' : SortedMap β} (h : ∀ k, m.contains k = true → m'.contains k = true) :
    m.keys.Subperm m'.keys :=
  List.subperm_of_subset m.nodup_keys fun k hk => mem_keys_iff.mpr (h k (mem_keys_iff.mp hk))

theorem length_keys (m : SortedMap β) : m.keys.length = m.size := List.length_map _

end SortedMap

variable {blocked : SortedMap (List String)} {key : String}

namespace DependencyGraph

variable {g : DependencyGraph}

/-- Every program of the map stands with a cycle of which it reaches every program. -/
def Blocks (g : DependencyGraph) (blocked : SortedMap (List String)) : Prop :=
  ∀ key cycle, blocked.get? key = some cycle →
    g.IsCycle cycle ∧ ∀ k ∈ cycle, ReflTransGen g.DependsOn key k

theorem Blocks.reachesCycle (h : g.Blocks blocked)
    (hkey : blocked.contains key = true) : g.ReachesCycle key := by
  rw [SortedMap.contains_eq_isSome_get?, Option.isSome_iff_exists] at hkey
  obtain ⟨cycle, hget⟩ := hkey
  obtain ⟨hcycle, hreach⟩ := h key cycle hget
  exact hcycle.reachesCycle hreach

theorem onCycles_eq (g : DependencyGraph) :
    g.onCycles = (g.cycles.flatMap fun cycle => cycle.map (·, cycle)).foldl
      (fun blocked e => blocked.insertNew e.1 e.2) .empty := by
  rw [onCycles, List.foldl_flatMap]
  simp only [List.foldl_map]

theorem blocks_onCycles (g : DependencyGraph) : g.Blocks g.onCycles := by
  intro key cycle hget
  rw [onCycles_eq] at hget
  rcases SortedMap.get?_of_get?_foldl_insertNew hget with hmem | hempty
  · obtain ⟨c, hc, hin⟩ := List.mem_flatMap.mp hmem
    obtain ⟨k, hk, heq⟩ := List.mem_map.mp hin
    cases heq
    have hcycle := isCycle_of_mem_cycles hc
    exact ⟨hcycle, fun dep hdep => hcycle.reaches hk hdep⟩
  · cases hempty

theorem contains_onCycles {cycle : List String} (hcycle : cycle ∈ g.cycles)
    (hkey : key ∈ cycle) : g.onCycles.contains key = true := by
  rw [onCycles_eq, SortedMap.contains_foldl_insertNew]
  have hmem : (key, cycle) ∈ g.cycles.flatMap fun cycle => cycle.map (·, cycle) :=
    List.mem_flatMap.mpr ⟨cycle, hcycle, List.mem_map_of_mem hkey⟩
  exact Or.inl (List.mem_map_of_mem hmem)

theorem blocks_inherit (h : g.Blocks blocked) (key : String) : g.Blocks (g.inherit blocked key) := by
  intro j cycle hget
  unfold inherit at hget
  split at hget
  · rename_i inherited hsome
    rcases SortedMap.get?_of_get?_insertNew hget with ⟨rfl, rfl⟩ | hget
    · obtain ⟨dep, hdep, hblocked⟩ := List.exists_of_findSome?_eq_some hsome
      obtain ⟨hcycle, hreach⟩ := h dep _ hblocked
      exact ⟨hcycle, fun k hk => (hreach k hk).head hdep⟩
    · exact h j cycle hget
  · exact h j cycle hget

theorem contains_inherit_of_contains {j : String}
    (h : blocked.contains j = true) (key : String) : (g.inherit blocked key).contains j = true := by
  unfold inherit
  split
  · exact (blocked.contains_insertNew ..).mpr (Or.inr h)
  · exact h

theorem contains_inherit_self {dep : String}
    (hedge : g.DependsOn key dep) (h : blocked.contains dep = true) :
    (g.inherit blocked key).contains key = true := by
  rw [SortedMap.contains_eq_isSome_get?] at h
  have hsome : ((g.inside key).findSome? blocked.get?).isSome = true :=
    List.findSome?_isSome_iff.mpr ⟨dep, hedge, h⟩
  obtain ⟨cycle, hcycle⟩ := Option.isSome_iff_exists.mp hsome
  rw [inherit, hcycle]
  exact (blocked.contains_insertNew ..).mpr (Or.inl rfl)

/-- One pass over a list of programs. -/
def pass (g : DependencyGraph) (keys : List String) (blocked : SortedMap (List String)) :
    SortedMap (List String) := keys.foldl g.inherit blocked

theorem blocks_pass (keys : List String) (h : g.Blocks blocked) : g.Blocks (g.pass keys blocked) := by
  induction keys generalizing blocked with
  | nil => exact h
  | cons key keys ih => exact ih (blocks_inherit h key)

theorem contains_pass_of_contains (keys : List String) {j : String}
    (h : blocked.contains j = true) : (g.pass keys blocked).contains j = true := by
  induction keys generalizing blocked with
  | nil => exact h
  | cons key keys ih => exact ih (contains_inherit_of_contains h key)

/-- A pass blocks every dependant of what was blocked before it. -/
theorem contains_pass_of_dependsOn {keys : List String}
    {dep : String} (hkey : key ∈ keys) (hedge : g.DependsOn key dep)
    (h : blocked.contains dep = true) : (g.pass keys blocked).contains key = true := by
  induction keys generalizing blocked with
  | nil => cases hkey
  | cons first keys ih =>
    rcases List.mem_cons.mp hkey with rfl | hkey
    · exact contains_pass_of_contains keys (contains_inherit_self hedge h)
    · exact ih hkey (contains_inherit_of_contains h first)

/-- Whether the dependants of blocked programs are blocked. -/
def IsClosed (g : DependencyGraph) (blocked : SortedMap (List String)) : Prop :=
  ∀ key dep, g.DependsOn key dep → blocked.contains dep = true → blocked.contains key = true

theorem IsClosed.contains_of_reaches (h : g.IsClosed blocked)
    {dep : String} (hreach : ReflTransGen g.DependsOn key dep)
    (hdep : blocked.contains dep = true) : blocked.contains key = true := by
  induction hreach using ReflTransGen.head_induction_on with
  | refl => exact hdep
  | head hedge _ ih => exact h _ _ hedge ih

/-- A pass that adds no program finds everything blocked that has to be. -/
theorem isClosed_of_size_eq (h : (g.pass g.keys blocked).size = blocked.size) : g.IsClosed blocked := by
  intro key dep hedge hdep
  have hsub : blocked.keys.Subperm (g.pass g.keys blocked).keys :=
    SortedMap.keys_subperm fun _ hk => contains_pass_of_contains g.keys hk
  have hperm := hsub.perm_of_length_le (by rw [SortedMap.length_keys, SortedMap.length_keys, h])
  have hnext := contains_pass_of_dependsOn (mem_keys_of_dependsOn_left hedge) hedge hdep
  exact SortedMap.mem_keys_iff.mp (hperm.mem_iff.mpr (SortedMap.mem_keys_iff.mpr hnext))

theorem ReachesCycle.mem_keys (h : g.ReachesCycle key) : key ∈ g.keys := by
  obtain ⟨c, hreach, hself⟩ := h
  obtain ⟨dep, hedge, -⟩ := TransGen.head'_iff.mp (hself.trans_right hreach)
  exact mem_keys_of_dependsOn_left hedge

/-- The passes keep what is blocked and add programs that reach a cycle. There are enough passes: each one
that changes something blocks a further program. -/
theorem spread_spec (bound : Nat) (h : g.Blocks blocked) (hbound : g.size ≤ blocked.size + bound) :
    g.Blocks (g.spread bound blocked) ∧ g.IsClosed (g.spread bound blocked) ∧
      ∀ key, blocked.contains key = true → (g.spread bound blocked).contains key = true := by
  induction bound generalizing blocked with
  | zero =>
    refine ⟨h, fun key dep hedge _ => ?_, fun _ hkey => hkey⟩
    have hsub : blocked.keys.Subperm g.keys :=
      List.subperm_of_subset blocked.nodup_keys fun k hk =>
        (h.reachesCycle (SortedMap.mem_keys_iff.mp hk)).mem_keys
    have hperm := hsub.perm_of_length_le
      (by rw [SortedMap.length_keys, SortedMap.length_keys]; exact hbound)
    exact SortedMap.mem_keys_iff.mp (hperm.mem_iff.mpr (mem_keys_of_dependsOn_left hedge))
  | succ bound ih =>
    have hkeeps : ∀ key, blocked.contains key = true → (g.pass g.keys blocked).contains key = true :=
      fun _ hkey => contains_pass_of_contains g.keys hkey
    have hle := (SortedMap.keys_subperm hkeeps).length_le
    rw [SortedMap.length_keys, SortedMap.length_keys] at hle
    rw [spread, ← pass]
    split
    · rename_i hsize
      exact ⟨h, isClosed_of_size_eq hsize, fun _ hkey => hkey⟩
    · rename_i hsize
      obtain ⟨hblocks, hclosed, hmono⟩ := ih (blocks_pass g.keys h) (by omega)
      exact ⟨hblocks, hclosed, fun key hkey => hmono key (hkeeps key hkey)⟩

/-- The programs that are blocked before the levels are built. -/
def blockedByCycles (g : DependencyGraph) : SortedMap (List String) := g.spread g.size g.onCycles

theorem blocks_blockedByCycles (g : DependencyGraph) : g.Blocks g.blockedByCycles :=
  (spread_spec g.size g.blocks_onCycles (Nat.le_add_left _ _)).1

/-- A program is blocked exactly if it reaches a cycle. -/
theorem contains_blockedByCycles : g.blockedByCycles.contains key = true ↔ g.ReachesCycle key := by
  obtain ⟨hblocks, hclosed, hmono⟩ :=
    spread_spec g.size g.blocks_onCycles (Nat.le_add_left _ _)
  constructor
  · exact hblocks.reachesCycle
  · intro h
    obtain ⟨k, hreach, cycle, hcycle, hk⟩ := exists_reaches_of_reachesCycle h
    exact hclosed.contains_of_reaches hreach (hmono k (contains_onCycles hcycle hk))

end DependencyGraph

end TriggerCompiler
