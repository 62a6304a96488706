import Mathlib.Data.Fintype.Card
import Mathlib.Data.Set.Finite.List
import TriggerCompiler.Proofs.BlockedPrograms

/-! The build order of a dependency graph. A program that is not blocked reaches no cycle, so its
dependencies come to an end and it has exactly one level, behind the levels of the programs it depends
on; no program is left over when the levels have been built. -/

open Relation

namespace TriggerCompiler

namespace DependencyGraph

variable {g : DependencyGraph}

/-- Levels such that every program depends only on programs that have been placed before its level. -/
def Ordered (g : DependencyGraph) : List String → List (List String) → Prop
  | _, [] => True
  | placed, level :: rest =>
      (∀ key ∈ level, ∀ dep, g.DependsOn key dep → dep ∈ placed) ∧ g.Ordered (placed ++ level) rest

theorem isReady_iff {placed : List String} {key : String} :
    g.isReady placed key = true ↔ ∀ dep, g.DependsOn key dep → dep ∈ placed := by
  simp [isReady, DependsOn]

theorem levels_ordered (placed remaining : List String) :
    g.Ordered placed (g.levels placed remaining).1 := by
  fun_induction levels g placed remaining with
  | case1 placed remaining h level rest stuck hrec ih =>
    rw [hrec] at ih
    exact ⟨fun key hkey => isReady_iff.mp (List.mem_filter.mp hkey).2, ih⟩
  | case2 => trivial

/-- Every program is placed in one level or left over. -/
theorem levels_perm (placed remaining : List String) :
    ((g.levels placed remaining).1.flatten ++ (g.levels placed remaining).2).Perm remaining := by
  fun_induction levels g placed remaining with
  | case1 placed remaining h level rest stuck hrec ih =>
    rw [hrec] at ih
    rw [List.flatten_cons, List.append_assoc]
    exact (ih.append_left level).trans (List.filter_append_perm (g.isReady placed) remaining)
  | case2 => exact List.Perm.refl _

/-- A program is left over only for want of a dependency. -/
theorem exists_missing_of_mem_stuck {placed remaining : List String} {key : String}
    (hkey : key ∈ (g.levels placed remaining).2) :
    ∃ dep, g.DependsOn key dep ∧ dep ∉ placed ++ (g.levels placed remaining).1.flatten := by
  fun_induction levels g placed remaining with
  | case1 placed remaining h level rest stuck hrec ih =>
    rw [hrec] at ih
    obtain ⟨dep, hdep, hmissing⟩ := ih hkey
    rw [List.append_assoc] at hmissing
    exact ⟨dep, hdep, hmissing⟩
  | case2 placed remaining h =>
    have hnone : g.ready placed remaining = [] := Classical.not_not.mp h
    have hwaits : ¬g.isReady placed key = true := fun hready => by
      have hmem : key ∈ g.ready placed remaining := List.mem_filter.mpr ⟨hkey, hready⟩
      rw [hnone] at hmem
      cases hmem
    rw [isReady_iff] at hwaits
    push Not at hwaits
    simpa using hwaits

/-- The programs that are not blocked. -/
def unblocked (g : DependencyGraph) : List String :=
  g.keys.filter fun key => !g.blockedByCycles.contains key

theorem mem_unblocked {key : String} : key ∈ g.unblocked ↔ key ∈ g.keys ∧ ¬g.ReachesCycle key := by
  rw [unblocked, List.mem_filter, ← contains_blockedByCycles]
  simp

theorem unblocked_of_dependsOn {key dep : String} (hkey : key ∈ g.unblocked)
    (hedge : g.DependsOn key dep) : dep ∈ g.unblocked :=
  mem_unblocked.mpr ⟨mem_keys_of_dependsOn hedge, fun hdep =>
    (mem_unblocked.mp hkey).2 (.of_dependsOn hedge hdep)⟩

/-- No program is left over: it would miss a dependency, which would be left over as well, but among
finitely many programs without a cycle the dependencies come to an end. -/
theorem stuck_eq_nil (g : DependencyGraph) : (g.levels [] g.unblocked).2 = [] := by
  have hperm := levels_perm (g := g) [] g.unblocked
  have hstuck : ∀ k ∈ (g.levels [] g.unblocked).2, k ∈ g.unblocked := fun k hk =>
    hperm.mem_iff.mp (List.mem_append_right _ hk)
  let Left := { k // k ∈ (g.levels [] g.unblocked).2 }
  have hfinite : Finite Left := (List.finite_toSet (g.levels [] g.unblocked).2).to_subtype
  have htrans : IsTrans Left fun a b => TransGen g.DependsOn b.1 a.1 :=
    ⟨fun _ _ _ hab hbc => hbc.trans hab⟩
  have hirrefl : Std.Irrefl fun a b : Left => TransGen g.DependsOn b.1 a.1 :=
    ⟨fun a ha => (mem_unblocked.mp (hstuck a.1 a.2)).2 ⟨a.1, ReflTransGen.refl, ha⟩⟩
  have hwf := Finite.wellFounded_of_trans_of_irrefl fun a b : Left => TransGen g.DependsOn b.1 a.1
  have hnone : ∀ a : Left, False := fun a => by
    induction a using hwf.induction with
    | _ a ih =>
      obtain ⟨dep, hdep, hmissing⟩ := exists_missing_of_mem_stuck a.2
      have hmem := hperm.mem_iff.mpr (unblocked_of_dependsOn (hstuck a.1 a.2) hdep)
      exact ih ⟨dep, (List.mem_append.mp hmem).resolve_left hmissing⟩ (TransGen.single hdep)
  exact List.eq_nil_iff_forall_not_mem.mpr fun k hk => hnone ⟨k, hk⟩

/-- Only the programs that reach a cycle are blocked. -/
theorem buildOrder_blocked (g : DependencyGraph) : g.buildOrder.blocked = g.blockedByCycles := by
  show (g.levels [] g.unblocked).2.foldl (fun b key => b.insert key [key]) g.blockedByCycles = _
  rw [stuck_eq_nil]
  rfl

/-- The levels hold every program that is not blocked. -/
theorem perm_levels (g : DependencyGraph) : g.buildOrder.levels.flatten.Perm g.unblocked := by
  have hperm := levels_perm (g := g) [] g.unblocked
  rw [stuck_eq_nil, List.append_nil] at hperm
  exact hperm

/-- Everything that does not reach a cycle has a level. -/
theorem mem_levels_of_not_reachesCycle {key : String} (hkey : key ∈ g.keys)
    (h : ¬g.ReachesCycle key) : key ∈ g.buildOrder.levels.flatten :=
  g.perm_levels.mem_iff.mpr (mem_unblocked.mpr ⟨hkey, h⟩)

/-- No program has two levels. -/
theorem nodup_levels (g : DependencyGraph) : g.buildOrder.levels.flatten.Nodup :=
  g.perm_levels.nodup_iff.mpr (g.nodup_keys.filter _)

theorem buildOrder_ordered (g : DependencyGraph) : g.Ordered [] g.buildOrder.levels :=
  levels_ordered [] _

end DependencyGraph

end TriggerCompiler
