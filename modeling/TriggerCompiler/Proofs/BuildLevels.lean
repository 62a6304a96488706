import Mathlib.Data.List.Permutation
import TriggerCompiler.Proofs.BuildOrder

/-! Which level a program is built in, and which programs are not built at all. A program waits for no
longer than it must: when it is passed over for a level, one of its dependencies stands in that level or
behind it. So the number of its level is the length of the longest way along its dependencies. A program
is left out exactly if it reaches a cycle. -/

open Relation

namespace TriggerCompiler

/-- The number of the level that holds a program. -/
def BuildOrder.levelOf (o : BuildOrder) (key : String) : Nat :=
  o.levels.findIdx fun level => decide (key ∈ level)

variable {earlier later : List (List String)} {level : List String} {key : String}

/-- The level of a program in levels that repeat no program. -/
theorem BuildOrder.levelOf_eq {o : BuildOrder} (hlevels : o.levels = earlier ++ level :: later)
    (hnodup : o.levels.flatten.Nodup) (hkey : key ∈ level) : o.levelOf key = earlier.length := by
  have hbefore : ∀ l ∈ earlier, decide (key ∈ l) = false := by
    intro l hl
    refine decide_eq_false fun hin => ?_
    rw [hlevels, List.flatten_append, List.flatten_cons] at hnodup
    exact List.disjoint_of_nodup_append hnodup (List.mem_flatten_of_mem hl hin)
      (List.mem_append_left _ hkey)
  rw [levelOf, hlevels, List.findIdx_append, List.findIdx_eq_length_of_false hbefore,
    if_neg (Nat.lt_irrefl _), List.findIdx_cons, decide_eq_true hkey]
  simp

variable {placed : List String}

namespace DependencyGraph

variable {g : DependencyGraph}

/-- Levels such that a program behind a level misses a dependency when the level is built. -/
def Waits (g : DependencyGraph) : List String → List (List String) → Prop
  | _, [] => True
  | placed, level :: rest =>
      (∀ key ∈ rest.flatten, ∃ dep, g.DependsOn key dep ∧ dep ∉ placed) ∧
        g.Waits (placed ++ level) rest

theorem levels_waits (placed remaining : List String) :
    g.Waits placed (g.levels placed remaining).1 := by
  fun_induction levels g placed remaining with
  | case1 placed remaining h level rest stuck hrec ih =>
    rw [hrec] at ih
    refine ⟨fun key hkey => ?_, ih⟩
    have hperm := levels_perm (g := g) (placed ++ level) (g.waiting placed remaining)
    rw [hrec] at hperm
    have hwaits := (List.mem_filter.mp (hperm.mem_iff.mp (List.mem_append_left _ hkey))).2
    rw [Bool.not_eq_true', ← Bool.not_eq_true, isReady_iff] at hwaits
    push Not at hwaits
    exact hwaits
  | case2 => trivial

theorem Ordered.mem_of_dependsOn (h : g.Ordered placed (earlier ++ level :: later)) {dep : String}
    (hkey : key ∈ level) (hedge : g.DependsOn key dep) : dep ∈ placed ++ earlier.flatten := by
  induction earlier generalizing placed with
  | nil =>
    rw [List.flatten_nil, List.append_nil]
    exact h.1 key hkey dep hedge
  | cons first earlier ih =>
    rw [List.flatten_cons, ← List.append_assoc]
    exact ih h.2

theorem Waits.exists_missing (h : g.Waits placed (earlier ++ level :: later))
    (hkey : key ∈ later.flatten) : ∃ dep, g.DependsOn key dep ∧ dep ∉ placed ++ earlier.flatten := by
  induction earlier generalizing placed with
  | nil =>
    rw [List.flatten_nil, List.append_nil]
    exact h.1 key hkey
  | cons first earlier ih =>
    rw [List.flatten_cons, ← List.append_assoc]
    exact ih h.2

/-- Every level is a part of the remaining programs in their order, and none is empty. -/
theorem sublist_of_mem_levels {remaining : List String}
    (h : level ∈ (g.levels placed remaining).1) : level.Sublist remaining ∧ level ≠ [] := by
  fun_induction levels g placed remaining with
  | case1 placed remaining hready first rest stuck hrec ih =>
    rw [hrec] at ih
    rcases List.mem_cons.mp h with rfl | h
    · exact ⟨List.filter_sublist, hready⟩
    · exact ⟨(ih h).1.trans List.filter_sublist, (ih h).2⟩
  | case2 => cases h

/-- A program depends on programs of earlier levels, and unless its level is the first one, on a program
of the level before it. -/
theorem levelOf_of_mem (hkey : key ∈ g.unblocked) :
    (∀ dep, g.DependsOn key dep → g.buildOrder.levelOf dep < g.buildOrder.levelOf key) ∧
      (0 < g.buildOrder.levelOf key →
        ∃ dep, g.DependsOn key dep ∧ g.buildOrder.levelOf dep + 1 = g.buildOrder.levelOf key) := by
  obtain ⟨level, hlevel, hin⟩ := List.mem_flatten.mp (g.perm_levels.mem_iff.mpr hkey)
  obtain ⟨earlier, later, hsplit⟩ := List.append_of_mem hlevel
  have hordered := g.buildOrder_ordered
  have hwaits : g.Waits [] g.buildOrder.levels := levels_waits [] _
  have hnodup := g.nodup_levels
  have hkeyLevel := BuildOrder.levelOf_eq hsplit hnodup hin
  have hearlier : ∀ dep, g.DependsOn key dep → dep ∈ earlier.flatten := by
    intro dep hedge
    rw [hsplit] at hordered
    simpa using hordered.mem_of_dependsOn hin hedge
  constructor
  · intro dep hedge
    obtain ⟨depLevel, hdepLevel, hdep⟩ := List.mem_flatten.mp (hearlier dep hedge)
    obtain ⟨before, between, rfl⟩ := List.append_of_mem hdepLevel
    rw [List.append_assoc, List.cons_append] at hsplit
    rw [BuildOrder.levelOf_eq hsplit hnodup hdep, hkeyLevel, List.length_append, List.length_cons]
    omega
  · intro hpos
    rw [hkeyLevel] at hpos ⊢
    -- The last of the earlier levels was built without the program, so a dependency was missing.
    obtain ⟨before, last, rfl⟩ :=
      (List.eq_nil_or_concat' earlier).resolve_left (List.ne_nil_of_length_pos hpos)
    rw [List.append_assoc, List.singleton_append] at hsplit
    rw [hsplit] at hwaits
    obtain ⟨dep, hedge, hmissing⟩ := hwaits.exists_missing
      (List.mem_flatten_of_mem List.mem_cons_self hin)
    have hdep := hearlier dep hedge
    rw [List.flatten_concat] at hdep
    have hlast := (List.mem_append.mp hdep).resolve_left hmissing
    refine ⟨dep, hedge, ?_⟩
    rw [BuildOrder.levelOf_eq hsplit hnodup hlast, List.length_append, List.length_singleton]

/-- The level of a program that is built is the first one if it has no dependencies in the graph, and
else one more than the greatest level of its dependencies. -/
theorem levelOf_eq_depth (hkey : key ∈ g.unblocked) : g.buildOrder.levelOf key =
      ((g.inside key).map g.buildOrder.levelOf).max?.elim 0 (1 + ·) := by
  obtain ⟨hbelow, hlast⟩ := levelOf_of_mem hkey
  cases hmax : ((g.inside key).map g.buildOrder.levelOf).max? with
  | none =>
    have hnone : g.inside key = [] := List.map_eq_nil_iff.mp (List.max?_eq_none_iff.mp hmax)
    refine Nat.eq_zero_of_not_pos fun hpos => ?_
    obtain ⟨dep, hedge, -⟩ := hlast hpos
    rw [DependsOn, hnone] at hedge
    cases hedge
  | some greatest =>
    obtain ⟨hmem, hgreatest⟩ := List.max?_eq_some_iff.mp hmax
    obtain ⟨deepest, hdeepest, rfl⟩ := List.mem_map.mp hmem
    have hlt := hbelow deepest hdeepest
    obtain ⟨dep, hedge, hlevel⟩ := hlast (by omega)
    have hle := hgreatest _ (List.mem_map_of_mem hedge)
    show g.buildOrder.levelOf key = 1 + g.buildOrder.levelOf deepest
    omega

theorem mem_unblocked_iff :
    key ∈ g.unblocked ↔ key ∈ g.keys ∧ g.buildOrder.blocked.contains key = false := by
  rw [buildOrder_blocked, unblocked, List.mem_filter]
  simp

/-- The programs of the levels and the blocked programs are the programs of the graph. -/
theorem perm_levels_blocked (g : DependencyGraph) :
    (g.buildOrder.levels.flatten ++ g.buildOrder.blocked.keys).Perm g.keys := by
  have hblocked : g.buildOrder.blocked.keys.Perm
      (g.keys.filter fun key => g.blockedByCycles.contains key) := by
    refine (List.perm_ext_iff_of_nodup (SortedMap.nodup_keys _) (g.nodup_keys.filter _)).mpr fun k => ?_
    rw [List.mem_filter, buildOrder_blocked, SortedMap.mem_keys_iff]
    exact ⟨fun h => ⟨(contains_blockedByCycles.mp h).mem_keys, h⟩, And.right⟩
  have hsplit := (g.perm_levels.append hblocked).trans List.perm_append_comm
  exact hsplit.trans (List.filter_append_perm (fun key => g.blockedByCycles.contains key) g.keys)

/-- The levels and the blocked programs hold every program of the graph once. The number of a program's
level is the depth of its dependencies, which stand in earlier levels; a level lists its programs in
ascending order and none is empty; and no program is left over behind the last level, so nothing is
blocked for want of a program that is ready. -/
theorem buildOrder_levels_exact (g : DependencyGraph) :
    (g.buildOrder.levels.flatten ++ g.buildOrder.blocked.keys).Perm g.keys ∧
    (g.buildOrder.levels.flatten ++ g.buildOrder.blocked.keys).Nodup ∧
    (∀ key ∈ g.keys, g.buildOrder.blocked.contains key = false →
      (∃ level, g.buildOrder.levels[g.buildOrder.levelOf key]? = some level ∧ key ∈ level) ∧
      (∀ dep ∈ g.inside key, g.buildOrder.blocked.contains dep = false ∧
        g.buildOrder.levelOf dep < g.buildOrder.levelOf key) ∧
      g.buildOrder.levelOf key =
        ((g.inside key).map g.buildOrder.levelOf).max?.elim 0 (1 + ·)) ∧
    (∀ level ∈ g.buildOrder.levels, level.Pairwise (· < ·) ∧ level ≠ []) ∧
    (g.levels [] g.unblocked).2 = [] := by
  refine ⟨g.perm_levels_blocked, g.perm_levels_blocked.nodup_iff.mpr g.nodup_keys, ?_, ?_,
    g.stuck_eq_nil⟩
  · intro key hkey hfree
    have hunblocked := mem_unblocked_iff.mpr ⟨hkey, hfree⟩
    refine ⟨?_, fun dep hdep => ⟨?_, (levelOf_of_mem hunblocked).1 dep hdep⟩,
      levelOf_eq_depth hunblocked⟩
    · obtain ⟨level, hlevel, hin⟩ := List.mem_flatten.mp (g.perm_levels.mem_iff.mpr hunblocked)
      obtain ⟨earlier, later, hsplit⟩ := List.append_of_mem hlevel
      refine ⟨level, ?_, hin⟩
      rw [BuildOrder.levelOf_eq hsplit g.nodup_levels hin, hsplit]
      simp
    · exact (mem_unblocked_iff.mp (unblocked_of_dependsOn hunblocked hdep)).2
  · intro level hlevel
    obtain ⟨hsub, hne⟩ := sublist_of_mem_levels hlevel
    exact ⟨g.sorted.sublist (hsub.trans List.filter_sublist), hne⟩

/-- A graph with a program of depth two, a missing program, a program that depends on itself and a user
of it. -/
def layeredGraph : DependencyGraph := .ofList
  [("app", ["lib", "base"]), ("lib", ["base", "missing"]), ("base", []), ("loop", ["loop"]),
    ("user", ["base", "loop"])]

theorem buildOrder_levels_exact_layeredGraph :
    layeredGraph.buildOrder.levels = [["base"], ["lib"], ["app"]] ∧
    layeredGraph.buildOrder.blocked.keys = ["loop", "user"] ∧
    layeredGraph.buildOrder.levelOf "app" =
      ((layeredGraph.inside "app").map layeredGraph.buildOrder.levelOf).max?.elim 0 (1 + ·) :=
  ⟨by cbv, by cbv,
    ((buildOrder_levels_exact layeredGraph).2.2.1 "app" (by decide +kernel) (by cbv)).2.2⟩

/-- A program is blocked exactly if a path of dependencies leads from it to a program that depends on
itself, and it is blocked with a cycle all of whose programs it reaches. -/
theorem buildOrder_blocked_exact (g : DependencyGraph) (key : String) :
    (g.buildOrder.blocked.contains key = true ↔ g.ReachesCycle key) ∧
    ∀ cycle, g.buildOrder.blocked.get? key = some cycle →
      g.IsCycle cycle ∧ ∀ k ∈ cycle, ReflTransGen g.DependsOn key k := by
  rw [buildOrder_blocked]
  exact ⟨contains_blockedByCycles, g.blocks_blockedByCycles key⟩

/-- Two cycles, of which the search closes only one: the other one leads through a program that it has
left before. -/
def knottedGraph : DependencyGraph := .ofList
  [("a", ["b", "c"]), ("b", ["a"]), ("c", ["b"]), ("d", ["c"])]

theorem buildOrder_blocked_exact_knottedGraph :
    knottedGraph.buildOrder.blocked.get? "d" = some ["a", "b", "a"] ∧
    knottedGraph.ReachesCycle "d" ∧ knottedGraph.IsCycle ["a", "b", "a"] := by
  have hget : knottedGraph.buildOrder.blocked.get? "d" = some ["a", "b", "a"] := by cbv
  have hblocked : knottedGraph.buildOrder.blocked.contains "d" = true := by cbv
  exact ⟨hget, (buildOrder_blocked_exact knottedGraph "d").1.mp hblocked,
    ((buildOrder_blocked_exact knottedGraph "d").2 _ hget).1⟩

end DependencyGraph

end TriggerCompiler
