import Mathlib.Data.List.Chain
import Mathlib.Data.List.Perm.Subperm
import Mathlib.Logic.Relation
import TriggerCompiler.Batch.Order
import TriggerCompiler.Proofs.Basic

/-! The walk that looks for cycles among the dependencies. `Walk.Step` says all that the walk can do:
it enters a program, closes a cycle, or leaves a program whose dependencies have been dealt with. What a
step keeps, the whole search keeps: the cycles it closes are cycles of the graph without repetition, and
a program it has left is on one of them or depends only on programs left before it. So no cycle of the
graph can avoid the cycles that were found. -/

open Relation

namespace TriggerCompiler

variable {dep key : String} {cycles : List (List String)} {cycle keys rest : List String} {w : Walk}

namespace DependencyGraph

variable {g : DependencyGraph}

/-- A program of the graph that a program needs before it. -/
def DependsOn (g : DependencyGraph) (key dep : String) : Prop := dep ∈ g.inside key

/-- Whether some path of dependencies leads from a program to one that depends on itself. -/
def ReachesCycle (g : DependencyGraph) (key : String) : Prop :=
  ∃ c, ReflTransGen g.DependsOn key c ∧ TransGen g.DependsOn c c

theorem ReachesCycle.of_dependsOn (h : g.DependsOn key dep)
    (hdep : g.ReachesCycle dep) : g.ReachesCycle key := by
  obtain ⟨c, hreach, hcycle⟩ := hdep
  exact ⟨c, hreach.head h, hcycle⟩

theorem mem_keys_of_dependsOn (h : g.DependsOn key dep) : dep ∈ g.keys :=
  SortedMap.mem_keys_iff.mpr (List.mem_filter.mp h).2

/-- Programs that lead from one dependency to the next and back to the first program, which is also the
last one; no other program stands twice. -/
structure IsCycle (g : DependencyGraph) (cycle : List String) : Prop where
  two_le_length : 2 ≤ cycle.length
  head?_eq_getLast? : cycle.head? = cycle.getLast?
  edges : cycle.IsChain g.DependsOn
  nodup_tail : cycle.tail.Nodup

/-- The first program of a chain of dependencies reaches all of them. -/
theorem reaches_of_isChain {first : String}
    (h : (first :: rest).IsChain g.DependsOn) (hkey : key ∈ first :: rest) :
    ReflTransGen g.DependsOn first key := by
  induction rest generalizing first with
  | nil =>
    rw [List.mem_singleton] at hkey
    rw [hkey]
  | cons second rest ih =>
    obtain ⟨hedge, hrest⟩ := List.isChain_cons_cons.mp h
    rcases List.mem_cons.mp hkey with rfl | hkey
    · exact ReflTransGen.refl
    · exact (ih hrest hkey).head hedge

/-- A program that reaches all programs of a cycle reaches a cycle. -/
theorem IsCycle.reachesCycle (h : g.IsCycle cycle)
    (hkey : ∀ k ∈ cycle, ReflTransGen g.DependsOn key k) : g.ReachesCycle key := by
  match cycle, h with
  | [], h => exact absurd h.two_le_length (by simp)
  | [_], h => exact absurd h.two_le_length (by simp)
  | first :: second :: rest, h =>
    obtain ⟨hedge, hrest⟩ := List.isChain_cons_cons.mp h.edges
    have hlast : first ∈ second :: rest := by
      have hsame := h.head?_eq_getLast?
      rw [List.head?_cons, List.getLast?_cons_cons] at hsame
      exact List.mem_of_getLast? hsame.symm
    exact ⟨first, hkey first List.mem_cons_self,
      TransGen.head' hedge (reaches_of_isChain hrest hlast)⟩

/-- Every program of a cycle reaches every other one. -/
theorem IsCycle.reaches (h : g.IsCycle cycle)
    (hkey : key ∈ cycle) (hdep : dep ∈ cycle) : ReflTransGen g.DependsOn key dep := by
  obtain ⟨before, after, rfl⟩ := List.append_of_mem hkey
  have hafter : (key :: after).IsChain g.DependsOn := h.edges.right_of_append
  -- The way leads on to the last program, which is the first one, and from there to any program.
  have hfirst : ∃ first rest, before ++ key :: after = first :: rest := by
    cases before with
    | nil => exact ⟨key, after, rfl⟩
    | cons first before => exact ⟨first, before ++ key :: after, rfl⟩
  obtain ⟨first, rest, heq⟩ := hfirst
  have hlast : first ∈ key :: after := by
    have hsame := h.head?_eq_getLast?
    rw [List.getLast?_append_cons, heq, List.head?_cons] at hsame
    exact List.mem_of_getLast? hsame.symm
  have hedges := h.edges
  rw [heq] at hedges hdep
  exact (reaches_of_isChain hafter hlast).trans (reaches_of_isChain hedges hdep)

/-- A path with its innermost program first: each program depends on the one before it. -/
def IsPath (g : DependencyGraph) (path : List String) : Prop :=
  path.IsChain fun inner outer => g.DependsOn outer inner

/-- A dependency of the innermost program on a program of the path closes a cycle. -/
theorem IsPath.isCycle_closeCycle {path : List String} {next : String} (h : g.IsPath path)
    (hnodup : path.Nodup) (hedge : ∀ head, path.head? = some head → g.DependsOn head next)
    (hnext : next ∈ path) : g.IsCycle (closeCycle path next) := by
  obtain ⟨inner, outer, rfl, hinner⟩ := List.eq_append_cons_of_mem hnext
  have htaken : (inner ++ next :: outer).takeWhile (· ≠ next) = inner := by
    have hpos : ∀ k ∈ inner, decide (k ≠ next) = true := fun k hk =>
      decide_eq_true (ne_of_mem_of_not_mem hk hinner)
    rw [List.takeWhile_append_of_pos hpos]
    simp
  rw [closeCycle, htaken]
  rw [List.append_cons] at h hnodup
  have hturned : (next :: (inner ++ [next])).IsChain fun inner outer => g.DependsOn outer inner := by
    refine List.isChain_cons.mpr ⟨fun head hhead => hedge head ?_, h.left_of_append⟩
    cases inner with
    | nil => exact hhead
    | cons first inner => exact hhead
  refine ⟨by simp, ?_, ?_, ?_⟩
  · rw [← List.cons_append, List.getLast?_append]
    rfl
  · have hchain := List.isChain_reverse.mpr hturned
    simpa using hchain
  · exact (inner.reverse_perm.append_right [next]).nodup_iff.mpr hnodup.of_append_left

/-- What a walk can do next: enter a program that it has not met, which the innermost program of the
path depends on if there is one; close a cycle; or leave a program each dependency of which has been
left, if no cycle has been closed through the program. -/
inductive Walk.Step (g : DependencyGraph) (w : Walk) : Walk → Prop
  | enter {key : String} (hkey : key ∈ g.keys) (hnew : key ∉ w.path ++ w.done)
      (hfrom : ∀ p, w.path.head? = some p → g.DependsOn p key) :
      Step g w { w with path := key :: w.path }
  | close {head next : String} {rest : List String} (hpath : w.path = head :: rest)
      (hedge : g.DependsOn head next) (hnext : next ∈ w.path) :
      Step g w { w with cycles := w.cycles ++ [closeCycle w.path next] }
  | leave {key : String} {rest : List String} (hpath : w.path = key :: rest)
      (hdeps : ∀ dep, g.DependsOn key dep → dep ∈ w.done ∨ ∃ cycle ∈ w.cycles, key ∈ cycle) :
      Step g w { w with path := rest, done := key :: w.done }

/-- Several steps of a walk. -/
abbrev Walk.Steps (g : DependencyGraph) : Walk → Walk → Prop := ReflTransGen (Walk.Step g)

namespace Walk

theorem Step.mono {w' : Walk} (h : Step g w w') : w.done ⊆ w'.done ∧ w.cycles ⊆ w'.cycles := by
  cases h with
  | enter => exact ⟨List.Subset.refl _, List.Subset.refl _⟩
  | close => exact ⟨List.Subset.refl _, List.subset_append_left _ _⟩
  | leave => exact ⟨List.subset_cons_self _ _, List.Subset.refl _⟩

theorem Steps.mono {w' : Walk} (h : Steps g w w') : w.done ⊆ w'.done ∧ w.cycles ⊆ w'.cycles := by
  induction h with
  | refl => exact ⟨List.Subset.refl _, List.Subset.refl _⟩
  | tail _ hstep ih => exact ⟨List.Subset.trans ih.1 hstep.mono.1, List.Subset.trans ih.2 hstep.mono.2⟩

/-- Every program of a list is on one of the cycles or depends only on programs behind it. -/
def Finished (g : DependencyGraph) (cycles : List (List String)) : List String → Prop
  | [] => True
  | key :: rest =>
      ((∃ cycle ∈ cycles, key ∈ cycle) ∨ ∀ dep, g.DependsOn key dep → dep ∈ rest) ∧
        Finished g cycles rest

theorem Finished.mono {cycles' : List (List String)} (hsub : cycles ⊆ cycles')
    (h : Finished g cycles keys) : Finished g cycles' keys := by
  induction keys with
  | nil => trivial
  | cons key rest ih =>
    refine ⟨h.1.imp_left ?_, ih h.2⟩
    rintro ⟨cycle, hcycle, hkey⟩
    exact ⟨cycle, hsub hcycle, hkey⟩

/-- What holds of a walk after any number of steps. -/
structure IsSound (g : DependencyGraph) (w : Walk) : Prop where
  path : g.IsPath w.path
  inKeys : ∀ key ∈ w.path, key ∈ g.keys
  nodup : (w.path ++ w.done).Nodup
  cycles : ∀ cycle ∈ w.cycles, g.IsCycle cycle
  finished : Finished g w.cycles w.done

theorem isSound_start (g : DependencyGraph) : IsSound g {} where
  path := List.IsChain.nil
  inKeys := by simp
  nodup := List.nodup_nil
  cycles := by simp
  finished := trivial

theorem IsSound.step {w' : Walk} (h : w.IsSound g) (hstep : Step g w w') : w'.IsSound g := by
  cases hstep with
  | @enter key hkey hnew hfrom =>
    refine ⟨List.isChain_cons.mpr ⟨fun p hp => hfrom p hp, h.path⟩, ?_, ?_, h.cycles, h.finished⟩
    · exact List.forall_mem_cons.mpr ⟨hkey, h.inKeys⟩
    · exact List.nodup_cons.mpr ⟨hnew, h.nodup⟩
  | @close head next rest hpath hedge hnext =>
    refine ⟨h.path, h.inKeys, h.nodup, fun cycle hcycle => ?_,
      h.finished.mono (List.subset_append_left _ _)⟩
    rcases List.mem_append.mp hcycle with hcycle | hcycle
    · exact h.cycles cycle hcycle
    · rw [List.mem_singleton.mp hcycle]
      refine h.path.isCycle_closeCycle h.nodup.of_append_left (fun p hp => ?_) hnext
      rw [hpath] at hp
      cases hp
      exact hedge
  | @leave key rest hpath hdeps =>
    have hchain := h.path
    have hin := h.inKeys
    have hnodup := h.nodup
    rw [hpath] at hchain hin hnodup
    refine ⟨hchain.tail, fun k hk => hin k (List.mem_cons_of_mem _ hk), ?_, h.cycles, ?_, h.finished⟩
    · exact List.perm_middle.nodup_iff.mpr hnodup
    · by_cases hon : ∃ cycle ∈ w.cycles, key ∈ cycle
      · exact Or.inl hon
      · exact Or.inr fun dep hdep => (hdeps dep hdep).resolve_right hon

theorem IsSound.steps {w' : Walk} (h : w.IsSound g) (hsteps : Steps g w w') : w'.IsSound g := by
  induction hsteps with
  | refl => exact h
  | tail _ hstep ih => exact ih.step hstep

end Walk

/-- The step of a visit for one dependency. -/
private def visitNext (g : DependencyGraph) (bound : Nat) (w : Walk) (next : String) : Walk :=
  if next ∈ w.path then { w with cycles := w.cycles ++ [closeCycle w.path next] }
  else if next ∈ w.done then w
  else visit g bound w next

theorem head_mem_closeCycle (head : String) (rest : List String) (next : String) :
    head ∈ closeCycle (head :: rest) next := by
  by_cases h : head = next
  · simp [closeCycle, h]
  · simp [closeCycle, h]

/-- A visit is a sequence of steps that leaves the path as it was and the program for good. -/
def Visits (g : DependencyGraph) (bound : Nat) : Prop :=
  ∀ (w : Walk) (key : String), w.IsSound g → key ∈ g.keys → key ∉ w.path ++ w.done →
    (∀ p, w.path.head? = some p → g.DependsOn p key) → g.size ≤ w.path.length + bound →
    Walk.Steps g w (visit g bound w key) ∧ (visit g bound w key).path = w.path ∧
      key ∈ (visit g bound w key).done

private theorem visitNext_steps {bound : Nat} (hvisit : g.Visits bound) (hw : w.IsSound g)
    {next : String} (hpath : w.path = key :: rest)
    (hbound : g.size ≤ w.path.length + bound) (hedge : g.DependsOn key next) :
    Walk.Steps g w (visitNext g bound w next) ∧ (visitNext g bound w next).path = w.path ∧
      (next ∈ (visitNext g bound w next).done ∨
        ∃ cycle ∈ (visitNext g bound w next).cycles, key ∈ cycle) := by
  unfold visitNext
  split
  · rename_i hmem
    refine ⟨.single (.close hpath hedge hmem), rfl, Or.inr ⟨closeCycle w.path next, ?_, ?_⟩⟩
    · exact List.mem_append_right _ (List.mem_singleton_self _)
    · rw [hpath]
      exact head_mem_closeCycle key rest next
  · rename_i hpathNot
    split
    · rename_i hdone
      exact ⟨.refl, rfl, Or.inl hdone⟩
    · rename_i hdoneNot
      have hnew : next ∉ w.path ++ w.done := by
        rw [List.mem_append, not_or]
        exact ⟨hpathNot, hdoneNot⟩
      have hfrom : ∀ p, w.path.head? = some p → g.DependsOn p next := by
        intro p hp
        rw [hpath] at hp
        cases hp
        exact hedge
      obtain ⟨hsteps, hsame, hleft⟩ :=
        hvisit w next hw (mem_keys_of_dependsOn hedge) hnew hfrom hbound
      exact ⟨hsteps, hsame, Or.inl hleft⟩

/-- The dependencies of a program are dealt with one by one; the path is the same before each of them. -/
private theorem visitDeps_steps {bound : Nat} (hvisit : g.Visits bound)
    (hbound : g.size ≤ (key :: rest).length + bound) (deps : List String)
    (hdeps : ∀ dep ∈ deps, g.DependsOn key dep) (hw : w.IsSound g) (hpath : w.path = key :: rest) :
    Walk.Steps g w (deps.foldl (visitNext g bound) w) ∧
      (deps.foldl (visitNext g bound) w).path = key :: rest ∧
      ∀ dep ∈ deps, dep ∈ (deps.foldl (visitNext g bound) w).done ∨
        ∃ cycle ∈ (deps.foldl (visitNext g bound) w).cycles, key ∈ cycle := by
  induction deps generalizing w with
  | nil => exact ⟨.refl, hpath, by simp⟩
  | cons dep deps ih =>
    obtain ⟨hfirst, hsame, hdealt⟩ := visitNext_steps hvisit hw hpath (hpath ▸ hbound)
      (hdeps dep List.mem_cons_self)
    obtain ⟨hrest, hend, hothers⟩ := ih (fun d hd => hdeps d (List.mem_cons_of_mem _ hd))
      (hw.steps hfirst) (hsame.trans hpath)
    refine ⟨hfirst.trans hrest, hend, List.forall_mem_cons.mpr ⟨?_, hothers⟩⟩
    refine hdealt.imp (fun hdone => hrest.mono.1 hdone) ?_
    rintro ⟨cycle, hcycle, hkey⟩
    exact ⟨cycle, hrest.mono.2 hcycle, hkey⟩

theorem visits (g : DependencyGraph) (bound : Nat) : g.Visits bound := by
  induction bound with
  | zero =>
    intro w key hw hkey hnew _ hbound
    -- A path without repetition that misses a program is shorter than the number of programs.
    have hnodup : (key :: w.path).Nodup :=
      List.nodup_cons.mpr ⟨fun h => hnew (List.mem_append_left _ h), hw.nodup.of_append_left⟩
    have hsub : key :: w.path ⊆ g.keys := List.cons_subset.mpr ⟨hkey, hw.inKeys⟩
    have hle := (List.subperm_of_subset hnodup hsub).length_le
    rw [SortedMap.keys, List.length_map, List.length_cons] at hle
    exact absurd hle (by rw [SortedMap.size] at hbound; omega)
  | succ bound ih =>
    intro w key hw hkey hnew hfrom hbound
    have henter : Walk.Step g w { w with path := key :: w.path } := .enter hkey hnew hfrom
    have hbound : g.size ≤ (key :: w.path).length + bound := by
      rw [List.length_cons]
      omega
    obtain ⟨hdeps, hpath, hdealt⟩ :=
      visitDeps_steps ih hbound (g.inside key) (fun _ h => h) (hw.step henter) rfl
    refine ⟨(ReflTransGen.head henter hdeps).tail ?_, rfl, List.mem_cons_self⟩
    exact .leave hpath hdealt

/-- The walk from every program. -/
def search (g : DependencyGraph) : Walk :=
  g.keys.foldl (fun (w : Walk) key => if key ∈ w.done then w else visit g g.size w key) {}

theorem search_steps (g : DependencyGraph) :
    Walk.Steps g {} g.search ∧ ∀ key ∈ g.keys, key ∈ g.search.done := by
  have hfold : ∀ (keys : List String) (w : Walk), keys ⊆ g.keys → w.IsSound g → w.path = [] →
      Walk.Steps g w
        (keys.foldl (fun (w : Walk) key => if key ∈ w.done then w else visit g g.size w key) w) ∧
      ∀ key ∈ keys, key ∈
        (keys.foldl (fun (w : Walk) key => if key ∈ w.done then w else visit g g.size w key) w).done := by
    intro keys
    induction keys with
    | nil => exact fun w _ _ _ => ⟨.refl, by simp⟩
    | cons key keys ih =>
      intro w hkeys hw hpath
      obtain ⟨hkey, hkeys⟩ := List.cons_subset.mp hkeys
      rw [List.foldl_cons]
      split
      · rename_i hdone
        obtain ⟨hsteps, hall⟩ := ih w hkeys hw hpath
        exact ⟨hsteps, List.forall_mem_cons.mpr ⟨hsteps.mono.1 hdone, hall⟩⟩
      · rename_i hdone
        obtain ⟨hvisit, hsame, hleft⟩ := visits g g.size w key hw hkey
          (by rw [hpath]; exact hdone) (by simp [hpath]) (Nat.le_add_left _ _)
        obtain ⟨hsteps, hall⟩ := ih _ hkeys (hw.steps hvisit) (hsame.trans hpath)
        exact ⟨hvisit.trans hsteps, List.forall_mem_cons.mpr ⟨hsteps.mono.1 hleft, hall⟩⟩
  exact hfold g.keys {} (List.Subset.refl _) (Walk.isSound_start g) rfl

theorem search_isSound (g : DependencyGraph) : g.search.IsSound g :=
  (Walk.isSound_start g).steps g.search_steps.1

/-- The cycles that the search closes are cycles of the graph. -/
theorem isCycle_of_mem_cycles (h : cycle ∈ g.cycles) : g.IsCycle cycle :=
  g.search_isSound.cycles cycle h

/-- Whether no program that can be reached is on one of the cycles. -/
def Avoids (g : DependencyGraph) (cycles : List (List String)) (key : String) : Prop :=
  ∀ k, ReflTransGen g.DependsOn key k → ∀ cycle ∈ cycles, k ∉ cycle

theorem Avoids.of_reaches (h : g.Avoids cycles key)
    (hdep : ReflTransGen g.DependsOn key dep) : g.Avoids cycles dep :=
  fun k hk => h k (hdep.trans hk)

/-- What an avoiding program of a finished list reaches is in the list. -/
theorem Walk.Finished.mem_of_reaches (h : Walk.Finished g cycles keys) (hkey : key ∈ keys)
    (havoids : g.Avoids cycles key) (hdep : ReflTransGen g.DependsOn key dep) : dep ∈ keys := by
  induction hdep with
  | refl => exact hkey
  | @tail mid dep hmid hedge ih =>
    clear hkey
    induction keys with
    | nil => cases ih
    | cons first rest ihk =>
      rcases List.mem_cons.mp ih with rfl | hrest
      · rcases h.1 with ⟨cycle, hcycle, hon⟩ | hbehind
        · exact absurd hon (havoids _ hmid cycle hcycle)
        · exact List.mem_cons_of_mem _ (hbehind dep hedge)
      · exact List.mem_cons_of_mem _ (ihk h.2 hrest)

/-- An avoiding program of a finished list does not depend on itself: it would stand behind itself. -/
theorem Walk.Finished.not_dependsOn_self
    (h : Walk.Finished g cycles keys) (hnodup : keys.Nodup) (hkey : key ∈ keys)
    (havoids : g.Avoids cycles key) : ¬TransGen g.DependsOn key key := by
  intro hself
  induction keys with
  | nil => cases hkey
  | cons first rest ih =>
    obtain ⟨hfirst, hrest⟩ := List.nodup_cons.mp hnodup
    rcases List.mem_cons.mp hkey with rfl | hkey
    · obtain ⟨dep, hedge, hback⟩ := TransGen.head'_iff.mp hself
      rcases h.1 with ⟨cycle, hcycle, hon⟩ | hbehind
      · exact havoids key .refl cycle hcycle hon
      · exact hfirst
          (h.2.mem_of_reaches (hbehind dep hedge) (havoids.of_reaches (.single hedge)) hback)
    · exact ih h.2 hrest hkey

theorem mem_keys_of_dependsOn_left (h : g.DependsOn key dep) : key ∈ g.keys := by
  rw [SortedMap.mem_keys_iff, SortedMap.contains_eq_isSome_get?]
  cases hget : g.get? key with
  | some deps => rfl
  | none =>
    rw [DependsOn, inside, hget] at h
    cases h

/-- A program that reaches a cycle of the graph reaches a program on one of the cycles found. -/
theorem exists_reaches_of_reachesCycle (h : g.ReachesCycle key) :
    ∃ k, ReflTransGen g.DependsOn key k ∧ ∃ cycle ∈ g.cycles, k ∈ cycle := by
  obtain ⟨c, hreach, hself⟩ := h
  by_contra hnone
  have havoids : g.Avoids g.cycles c := fun k hk cycle hcycle hon =>
    hnone ⟨k, hreach.trans hk, cycle, hcycle, hon⟩
  obtain ⟨dep, hedge, -⟩ := TransGen.head'_iff.mp hself
  have hdone : c ∈ g.search.done := g.search_steps.2 c (mem_keys_of_dependsOn_left hedge)
  exact g.search_isSound.finished.not_dependsOn_self
    g.search_isSound.nodup.of_append_right hdone havoids hself

end DependencyGraph

end TriggerCompiler
