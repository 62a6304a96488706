import TriggerCompiler.Proofs.EmissionStep

/-! Merges that fail. The modules nested in a module are merged before it, and the module itself is checked
before the caller is changed. So a merge that fails, at whatever depth, leaves the state behind the merges
that succeeded before it, all of them of modules nested in the one that failed. -/

open Relation

namespace TriggerCompiler

namespace Linker

variable {includeHooks : Bool}

/-- Merges of modules that succeed, one after the other. -/
inductive MergesAll (includeHooks : Bool) : Linkage → List Linkable → Linkage → Prop
  | nil (s : Linkage) : MergesAll includeHooks s [] s
  | cons {s s₁ s' : Linkage} {m : Linkable} {ms : List Linkable} {t : Renaming}
      (h : (merge includeHooks m).run s = (.ok t, s₁)) (hrest : MergesAll includeHooks s₁ ms s') :
      MergesAll includeHooks s (m :: ms) s'

/-- Modules that are added to the caller one after the other, each without those nested in it. -/
inductive AddsAll (includeHooks : Bool) : Linkage → List Linkable → Linkage → Prop
  | nil (s : Linkage) : AddsAll includeHooks s [] s
  | cons {s s₁ s' : Linkage} {m : Linkable} {ms : List Linkable} {aliases : List Renaming.Alias}
      {t : Renaming} (h : (mergeOwn m includeHooks aliases).run s = (.ok t, s₁))
      (hrest : AddsAll includeHooks s₁ ms s') : AddsAll includeHooks s (m :: ms) s'

theorem AddsAll.append {s s₁ s' : Linkage} {ms ns : List Linkable} (h : AddsAll includeHooks s ms s₁)
    (h' : AddsAll includeHooks s₁ ns s') : AddsAll includeHooks s (ms ++ ns) s' := by
  induction h with
  | nil s => exact h'
  | cons h _ ih => exact .cons h (ih h')

/-- What is recorded when a module is added. -/
theorem linker_of_mergeOwn {m : Linkable} {aliases : List Renaming.Alias} {t : Renaming}
    {s s' : Linkage} (h : (mergeOwn m includeHooks aliases).run s = (.ok t, s')) :
    s'.linker = { s.linker with
      merged := s.linker.merged.insert m.key t
      nextOrdinal := s.linker.nextOrdinal + 1 } := by
  rcases run_mergeOwn m includeHooks aliases s with ⟨failure, -, hrun⟩ | ⟨-, hrun⟩
  · rw [hrun] at h
    cases h
  · rw [hrun] at h
    cases h
    rfl

theorem AddsAll.nextOrdinal {s s' : Linkage} {ms : List Linkable} (h : AddsAll includeHooks s ms s') :
    s'.linker.nextOrdinal = s.linker.nextOrdinal + ms.length := by
  induction h with
  | nil s => rfl
  | cons h _ ih =>
    rw [ih, linker_of_mergeOwn h, List.length_cons]
    exact Nat.add_right_comm _ _ _

/-- A key that is recorded was recorded before, or is that of a module that has been added. -/
theorem AddsAll.merged_cases {s s' : Linkage} {ms : List Linkable} (h : AddsAll includeHooks s ms s')
    {key : String} {t : Renaming} (ht : s'.linker.merged.get? key = some t) :
    s.linker.merged.get? key = some t ∨ ∃ n ∈ ms, n.key = key := by
  induction h with
  | nil s => exact Or.inl ht
  | @cons s s₁ s' m ms aliases u h _ ih =>
    rcases ih ht with hbefore | ⟨n, hn, hkey⟩
    · rw [linker_of_mergeOwn h] at hbefore
      dsimp only at hbefore
      rw [OrderedMap.get?_insert] at hbefore
      by_cases hkey : m.key = key
      · exact Or.inr ⟨m, List.mem_cons_self, hkey⟩
      · rw [if_neg hkey] at hbefore
        exact Or.inl hbefore
    · exact Or.inr ⟨n, List.mem_cons_of_mem _ hn, hkey⟩

theorem AddsAll.contains_iff {s s' : Linkage} {ms : List Linkable} (h : AddsAll includeHooks s ms s')
    (key : String) : s'.linker.merged.contains key = true ↔
      s.linker.merged.contains key = true ∨ ∃ n ∈ ms, n.key = key := by
  induction h with
  | nil s => simp
  | cons h _ ih =>
    rw [ih, linker_of_mergeOwn h, OrderedMap.contains_insert]
    simp only [List.exists_mem_cons_iff, @eq_comm _ key, or_assoc, or_left_comm]

/-! ### The merges inside a merge -/

/-- The modules in a list of nested ones, at any depth. -/
def Within (nested : List (String × Linkable)) (n : Linkable) : Prop := ∃ p ∈ nested, p.2.Part n

mutual

/-- A merge is a sequence of merges of nested modules that succeed. Behind them the module itself is
added if the merge succeeds, unless it has been merged before. -/
theorem merge_cases {m : Linkable} {s s' : Linkage} {result : Except Failure Renaming}
    (h : (merge includeHooks m).run s = (result, s')) :
    ∃ ms s₁, (∀ n ∈ ms, TransGen Linkable.Nests m n) ∧ MergesAll includeHooks s ms s₁ ∧
      (s' = s₁ ∨ ∃ aliases t, result = .ok t ∧
        (mergeOwn m includeHooks aliases).run s₁ = (.ok t, s')) := by
  match m with
  | ⟨key, interface, program, nested⟩ =>
    rw [merge, Attempt.run_get_bind] at h
    split at h
    · cases h
      exact ⟨[], s, nofun, .nil s, Or.inl rfl⟩
    · rw [Attempt.run_bind] at h
      rcases hrun : (mergeNested includeHooks nested).run s with ⟨first, s₁⟩
      obtain ⟨ms, hms, hmerges⟩ := exists_mergesAll hrun
      refine ⟨ms, s₁, fun n hn => ?_, hmerges, ?_⟩
      · obtain ⟨⟨start, k⟩, hk, hpart⟩ := hms n hn
        exact .head' ⟨start, hk⟩ hpart
      · rw [hrun] at h
        cases first with
        | error failure =>
          cases h
          exact Or.inl rfl
        | ok aliases =>
          dsimp only at h
          rcases run_mergeOwn ⟨key, interface, program, nested⟩ includeHooks aliases s₁ with
            ⟨failure, -, hown⟩ | ⟨-, hown⟩
          · rw [hown] at h
            cases h
            exact Or.inl rfl
          · rw [hown] at h
            cases h
            exact Or.inr ⟨aliases, _, rfl, hown⟩

theorem exists_mergesAll {nested : List (String × Linkable)} {s s' : Linkage}
    {result : Except Failure (List Renaming.Alias)}
    (h : (mergeNested includeHooks nested).run s = (result, s')) :
    ∃ ms, (∀ n ∈ ms, Within nested n) ∧ MergesAll includeHooks s ms s' := by
  match nested with
  | [] =>
    cases h
    exact ⟨[], nofun, .nil s⟩
  | (start, m) :: rest =>
    rw [mergeNested, Attempt.run_bind] at h
    rcases hrun : (merge includeHooks m).run s with ⟨first, s₁⟩
    rw [hrun] at h
    cases first with
    | error failure =>
      cases h
      obtain ⟨ms, s₂, hms, hmerges, hcases⟩ := merge_cases hrun
      rcases hcases with rfl | ⟨_, _, hok, -⟩
      · exact ⟨ms, fun n hn => ⟨_, List.mem_cons_self, (hms n hn).to_reflTransGen⟩, hmerges⟩
      · cases hok
    | ok t =>
      dsimp only at h
      rw [Attempt.run_bind] at h
      rcases hrun' : (mergeNested includeHooks rest).run s₁ with ⟨second, s₂⟩
      obtain ⟨ms, hms, hmerges⟩ := exists_mergesAll hrun'
      have hs₂ : s₂ = s' := by
        rw [hrun'] at h
        cases second with
        | error failure => cases h; rfl
        | ok tail => cases h; rfl
      refine ⟨m :: ms, fun n hn => ?_, .cons hrun (hs₂ ▸ hmerges)⟩
      rcases List.mem_cons.mp hn with rfl | hn
      · exact ⟨_, List.mem_cons_self, .refl⟩
      · obtain ⟨p, hp, hpart⟩ := hms n hn
        exact ⟨p, List.mem_cons_of_mem _ hp, hpart⟩

end

/-- If each merge of a sequence adds parts of its module, the sequence adds parts of its modules. -/
theorem MergesAll.exists_addsAll {s s' : Linkage} {ms : List Linkable}
    (h : MergesAll includeHooks s ms s')
    (hparts : ∀ n ∈ ms, ∀ s t s', (merge includeHooks n).run s = (.ok t, s') →
      ∃ added, (∀ k ∈ added, n.Part k) ∧ AddsAll includeHooks s added s') :
    ∃ added, (∀ k ∈ added, ∃ n ∈ ms, n.Part k) ∧ AddsAll includeHooks s added s' := by
  induction h with
  | nil s => exact ⟨[], nofun, .nil s⟩
  | @cons s s₁ s' m ms t h _ ih =>
    obtain ⟨first, hfirst, hadds⟩ := hparts m List.mem_cons_self s t s₁ h
    obtain ⟨rest, hrest, hadds'⟩ := ih fun n hn => hparts n (List.mem_cons_of_mem _ hn)
    refine ⟨first ++ rest, fun k hk => ?_, hadds.append hadds'⟩
    rcases List.mem_append.mp hk with hk | hk
    · exact ⟨m, List.mem_cons_self, hfirst k hk⟩
    · obtain ⟨n, hn, hpart⟩ := hrest k hk
      exact ⟨n, List.mem_cons_of_mem _ hn, hpart⟩

/-- A merge that succeeds adds parts of its module. -/
theorem exists_addsAll {m : Linkable} {s s' : Linkage} {t : Renaming}
    (h : (merge includeHooks m).run s = (.ok t, s')) :
    ∃ added, (∀ k ∈ added, m.Part k) ∧ AddsAll includeHooks s added s' := by
  obtain ⟨ms, s₁, hms, hmerges, hcases⟩ := merge_cases h
  obtain ⟨added, hparts, hadds⟩ := hmerges.exists_addsAll fun n hn s t s' h => by
    have := Linkable.sizeOf_lt_of_transGen (hms n hn)
    exact exists_addsAll h
  have hdeep (k : Linkable) (hk : k ∈ added) : m.Part k := by
    obtain ⟨n, hn, hpart⟩ := hparts k hk
    exact (hms n hn).to_reflTransGen.trans hpart
  rcases hcases with rfl | ⟨aliases, u, -, hown⟩
  · exact ⟨added, hdeep, hadds⟩
  · refine ⟨added ++ [m], fun k hk => ?_, hadds.append (.cons hown (.nil s'))⟩
    rcases List.mem_append.mp hk with hk | hk
    · exact hdeep k hk
    · rw [List.mem_singleton.mp hk]
      exact .refl
termination_by sizeOf m

/-- A merge that fails leaves no trace of its own. The state behind it is the one behind merges of modules
nested in the module, all of which succeed. The module itself is not among those that they add, each of
which takes one ordinal, and no key but theirs is recorded: nothing stands under the key of the module
unless one of them has it. -/
theorem failed_merge_adds_only_nested (m : Linkable) (s s' : Linkage) (failure : Failure)
    (h : (merge includeHooks m).run s = (.error failure, s')) :
    ∃ ms added : List Linkable, (∀ n ∈ ms, TransGen Linkable.Nests m n) ∧
      MergesAll includeHooks s ms s' ∧
      (∀ n ∈ added, TransGen Linkable.Nests m n) ∧ m ∉ added ∧ AddsAll includeHooks s added s' ∧
      s'.linker.nextOrdinal = s.linker.nextOrdinal + added.length ∧
      (∀ key t, s'.linker.merged.get? key = some t →
        s.linker.merged.get? key = some t ∨ ∃ n ∈ added, n.key = key) ∧
      (s'.linker.merged.get? m.key = none ↔ ∀ n ∈ added, n.key ≠ m.key) := by
  have hnew : s.linker.merged.get? m.key = none := by
    obtain ⟨key, interface, program, nested⟩ := m
    rw [merge, Attempt.run_get_bind] at h
    split at h
    · cases h
    · assumption
  obtain ⟨ms, s₁, hms, hmerges, rfl | ⟨_, _, hok, -⟩⟩ := merge_cases h
  · obtain ⟨added, hparts, hadds⟩ := hmerges.exists_addsAll fun n _ s t s' h => exists_addsAll h
    have hdeep (k : Linkable) (hk : k ∈ added) : TransGen Linkable.Nests m k := by
      obtain ⟨n, hn, hpart⟩ := hparts k hk
      exact (hms n hn).trans_left hpart
    refine ⟨ms, added, hms, hmerges, hdeep,
      fun hm => Nat.lt_irrefl _ (Linkable.sizeOf_lt_of_transGen (hdeep m hm)), hadds,
      hadds.nextOrdinal, fun key t ht => hadds.merged_cases ht, ?_⟩
    have hrecorded := hadds.contains_iff m.key
    rw [OrderedMap.contains, OrderedMap.contains, hnew] at hrecorded
    rw [← Option.not_isSome_iff_eq_none, hrecorded]
    simp
  · cases hok

/-- A module with one method. -/
def helper : Linkable where
  key := "helper"
  interface := {}
  program.methods := ({} : MethodTable).merge { name := "Help", code := [.nop] }
  nested := []

/-- A module whose code uses a variable that it does not declare, around one that is in order. -/
def careless (key : String) : Linkable where
  key
  interface := {}
  program.methods := (({} : MethodTable).merge { name := "__m0_Help", code := [.nop] }).merge
    { name := "Run", code := [.push "count"] }
  nested := [("__m0_", helper)]

theorem eq_helper_of_nests {key : String} {n : Linkable} (h : TransGen Linkable.Nests (careless key) n) :
    n = helper := by
  induction h with
  | single h =>
    obtain ⟨start, h⟩ := h
    exact (Prod.mk.inj (List.mem_singleton.mp h)).2
  | tail _ h ih =>
    subst ih
    obtain ⟨_, h⟩ := h
    cases h

theorem failed_merge_keeps_helper :
    let s' := ((merge false (careless "careless")).run {}).2
    (merge false (careless "careless")).run {} =
        (.error (.undeclaredSymbol "careless" "Run" "count"), s') ∧
      s'.program.methods.toList = [{ name := "__m0_Help", code := [.nop] }] ∧
      ∃ ms added : List Linkable, MergesAll false {} ms s' ∧ AddsAll false {} added s' ∧
        (∀ n ∈ added, TransGen Linkable.Nests (careless "careless") n) ∧ added.length = 1 ∧
        s'.linker.merged.get? "careless" = none := by
  have hrun : (merge false (careless "careless")).run {} =
      (.error (.undeclaredSymbol "careless" "Run" "count"),
        ((merge false (careless "careless")).run {}).2) := Attempt.run_eq_of_fst rfl
  obtain ⟨ms, added, -, hmerges, hnested, -, hadds, hordinal, -, hkey⟩ :=
    failed_merge_adds_only_nested (careless "careless") {} _ _ hrun
  refine ⟨hrun, by decide +kernel, ms, added, hmerges, hadds, hnested, ?_, hkey.mpr fun n hn => ?_⟩
  · have hone : ((merge false (careless "careless")).run {}).2.linker.nextOrdinal = 1 := by
      decide +kernel
    rw [hone] at hordinal
    exact (Nat.zero_add _).symm.trans hordinal.symm
  · rw [eq_helper_of_nests (hnested n hn)]
    decide

/-- If the nested module has the key of the module that fails, it stands under that key. -/
theorem failed_merge_records_nested_key :
    let s' := ((merge false (careless "helper")).run {}).2
    (merge false (careless "helper")).run {} = (.error (.undeclaredSymbol "helper" "Run" "count"), s') ∧
      s'.linker.merged.get? (careless "helper").key ≠ none := by
  refine ⟨Attempt.run_eq_of_fst rfl, ?_⟩
  decide +kernel

end Linker

end TriggerCompiler
