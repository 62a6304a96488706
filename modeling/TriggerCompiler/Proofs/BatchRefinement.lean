import TriggerCompiler.Batch.Basic
import TriggerCompiler.Proofs.BuildOrder
import TriggerCompiler.Proofs.ModuleAccess

/-! What a batch compiles to. The outcome of a program is given by recursion along the dependencies: the
program is compiled against the outcomes of the programs that it depends on, and against nothing else.
The levels, the groups and the cache that is shared between them are one way to get there; compiling one
program after the other in any order that respects the dependencies is another. -/

open Relation

namespace TriggerCompiler

variable {s : ProgramSource} {o : CompileOutcome} {done order : List ProgramSource}
  {outcomes : List CompileOutcome} {k : String} {cache : ModuleCache}

namespace Batch

/-- A program of the batch needs a program, which may stand outside the batch. -/
def DependsOn (sources : List ProgramSource) (key dep : String) : Prop :=
  ∃ s ∈ sources, s.key = key ∧ dep ∈ s.dependencies

/-- A program is in the batch. -/
def Present (sources : List ProgramSource) (key : String) : Prop := ∃ s ∈ sources, s.key = key

/-- A program of the batch that another one depends on, directly or not. -/
def Dependency (sources : List ProgramSource) (key dep : String) : Prop :=
  TransGen (DependsOn sources) key dep ∧ Present sources dep

/-- Whether a path of dependencies leads from a program to one that depends on itself. -/
def ReachesCycle (sources : List ProgramSource) (key : String) : Prop :=
  ∃ c, ReflTransGen (DependsOn sources) key c ∧ TransGen (DependsOn sources) c c

/-- The outcome of a program: what it compiles to against a cache that holds exactly the modules among
the outcomes of its dependencies. -/
inductive Specified (catalogue : Catalogue) (settings : Settings) (sources : List ProgramSource) :
    String → CompileOutcome → Prop
  | intro {s : ProgramSource} {outcomes : String → CompileOutcome} {cache : ModuleCache}
      (hs : s ∈ sources)
      (houtcomes : ∀ d, Dependency sources s.key d →
        Specified catalogue settings sources d (outcomes d))
      (hcache : ∀ d m, cache.get? d = some m ↔
        Dependency sources s.key d ∧ (outcomes d).linkable = some m) :
      Specified catalogue settings sources s.key (compileProgram s catalogue cache settings)

variable {catalogue : Catalogue} {settings : Settings} {sources : List ProgramSource}

theorem Dependency.trans {d d' : String} (h : Dependency sources k d)
    (h' : Dependency sources d d') : Dependency sources k d' := ⟨h.1.trans h'.1, h'.2⟩

theorem key_compileProgram (s : ProgramSource) (cache : ModuleCache) :
    (compileProgram s catalogue cache settings).compiled.key = s.key := Context.key_compile _

theorem Specified.key (h : Specified catalogue settings sources k o) : o.compiled.key = k := by
  cases h with
  | intro => exact key_compileProgram _ _

/-- A compiled module has the key of its program, and its parts are dependencies of the program. -/
theorem Specified.parts
    (h : Specified catalogue settings sources k o) {m : Linkable} (hm : o.linkable = some m) :
    m.key = k ∧ ∀ n, m.Part n → n.key = k ∨ Dependency sources k n.key := by
  induction h generalizing m with
  | @intro s outcomes cache hs _ hcache ih =>
    obtain ⟨e, -, -, he⟩ := Context.linkable_compile hm
    have hkey : m.key = s.key := Context.key_of_linkable he
    refine ⟨hkey, fun n hn => ?_⟩
    rcases ReflTransGen.cases_head hn with rfl | ⟨n', hnests, hn⟩
    · exact Or.inl hkey
    · obtain ⟨t, -, hget⟩ := Context.nested_of_linkable he hnests
      obtain ⟨hdep, hlinkable⟩ := (hcache _ _).mp hget
      rcases (ih _ hdep hlinkable).2 n hn with heq | hpart
      · exact Or.inr (heq ▸ hdep)
      · exact Or.inr (hdep.trans hpart)

theorem mem_dependencies {key : String} : key ∈ s.dependencies ↔
      (key ∈ (s.interface?.map ModuleInterface.dependencies).getD [] ∨ key ∈ s.calledModules) ∧
        key ≠ s.key := by
  unfold ProgramSource.dependencies
  rw [List.mem_mergeSort, List.mem_eraseDups, List.mem_filter, List.mem_append, decide_eq_true_iff]

/-- A cache that holds the same modules for a program and everything it depends on gives the same
outcome, whatever the number of workers. -/
theorem compileProgram_congr (hs : s ∈ sources) {outcomes : String → CompileOutcome}
    (houtcomes : ∀ d, Dependency sources s.key d →
      Specified catalogue settings sources d (outcomes d)) (hcache : ∀ d m, cache.get? d = some m ↔
      Dependency sources s.key d ∧ (outcomes d).linkable = some m)
    {cache' : ModuleCache} {threads : Option Nat}
    (hsame : ∀ d, ReflTransGen (DependsOn sources) s.key d → cache'.get? d = cache.get? d) :
    compileProgram s catalogue cache' { settings with threads } =
      compileProgram s catalogue cache settings := by
  apply Context.compile_congr
  · refine ⟨rfl, rfl, rfl, rfl, fun key hkey => ?_⟩
    by_cases heq : key = s.key
    · exact hsame key (heq ▸ .refl)
    · exact hsame key (.single ⟨s, hs, rfl, mem_dependencies.mpr ⟨Or.inr hkey, heq⟩⟩)
  · rintro n ⟨key, -, m, hm, hpart⟩
    obtain ⟨hdep, hlinkable⟩ := (hcache key m).mp hm
    refine hsame _ ?_
    rcases ((houtcomes key hdep).parts hlinkable).2 n hpart with heq | hnested
    · exact heq ▸ hdep.1.to_reflTransGen
    · exact (hdep.trans hnested).1.to_reflTransGen

/-! ### Uniqueness -/

section
variable (hkeys : (sources.map ProgramSource.key).Nodup)
include hkeys

theorem eq_of_key_eq {s' : ProgramSource} (hs : s ∈ sources) (hs' : s' ∈ sources)
    (h : s.key = s'.key) : s = s' := List.inj_on_of_nodup_map hkeys hs hs' h

/-- A program has at most one outcome. -/
theorem Specified.unique {o' : CompileOutcome}
    (h : Specified catalogue settings sources k o) (h' : Specified catalogue settings sources k o') :
    o = o' := by
  induction h generalizing o' with
  | @intro s outcomes cache hs houtcomes hcache ih =>
    generalize hk : s.key = k at h'
    cases h' with
    | @intro s' outcomes' cache' hs' houtcomes' hcache' =>
      obtain rfl := eq_of_key_eq hkeys hs hs' hk
      symm
      refine compileProgram_congr hs houtcomes hcache fun d _ => ?_
      apply Option.ext
      intro m
      rw [hcache', hcache]
      constructor
      · rintro ⟨hdep, hm⟩
        exact ⟨hdep, ih d hdep (houtcomes' d hdep) ▸ hm⟩
      · rintro ⟨hdep, hm⟩
        exact ⟨hdep, ih d hdep (houtcomes' d hdep) ▸ hm⟩

end

/-- A program with an outcome reaches no cycle. -/
theorem Specified.not_reachesCycle
    (h : Specified catalogue settings sources k o) : ¬ReachesCycle sources k := by
  induction h with
  | @intro s outcomes cache hs _ _ ih =>
    rintro ⟨c, hreach, hcycle⟩
    have hpresent : Present sources c := by
      obtain ⟨-, ⟨s', hs', hkey, -⟩, -⟩ := TransGen.head'_iff.mp hcycle
      exact ⟨s', hs', hkey⟩
    have hdep : Dependency sources s.key c := ⟨TransGen.trans_right hreach hcycle, hpresent⟩
    exact ih c hdep ⟨c, .refl, hcycle⟩

/-- Dependencies along which a number descends close no cycle. -/
theorem not_reachesCycle_of_descends (rank : String → Nat)
    (h : ∀ a b, DependsOn sources a b → rank b < rank a) (k : String) :
    ¬ReachesCycle sources k := by
  rintro ⟨c, -, hcycle⟩
  have hdescends : ∀ a b, TransGen (DependsOn sources) a b → rank b < rank a := by
    intro a b hab
    induction hab with
    | single hab => exact h _ _ hab
    | tail _ hbc ih => exact (h _ _ hbc).trans ih
  exact Nat.lt_irrefl _ (hdescends c c hcycle)

/-! ### Schedules -/

/-- The programs of the batch that a program needs directly are among the given ones. -/
def DependenciesIn (sources done : List ProgramSource) (s : ProgramSource) : Prop :=
  ∀ d ∈ s.dependencies, Present sources d → Present done d

/-- A cache that holds exactly the modules among the outcomes of some programs, which include
everything that they depend on. -/
structure Ready (catalogue : Catalogue) (settings : Settings) (sources done : List ProgramSource)
    (cache : ModuleCache) : Prop where
  subset : ∀ s ∈ done, s ∈ sources
  closed : ∀ s ∈ done, DependenciesIn sources done s
  specified : ∀ s ∈ done, ∃ o, Specified catalogue settings sources s.key o
  holds : ∀ d m, cache.get? d = some m ↔
    Present done d ∧ ∃ o, Specified catalogue settings sources d o ∧ o.linkable = some m

theorem ready_empty : Ready catalogue settings sources [] .empty := by
  refine ⟨by simp, by simp, by simp, fun d m => ⟨fun h => ?_, fun h => ?_⟩⟩
  · cases h
  · obtain ⟨⟨s, hs, -⟩, -⟩ := h
    cases hs

section
variable (hkeys : (sources.map ProgramSource.key).Nodup) {done : List ProgramSource}
  {cache : ModuleCache}
include hkeys

/-- Whatever a program depends on has been compiled, if this is so for its direct dependencies. -/
theorem Ready.present (h : Ready catalogue settings sources done cache)
    (hs : s ∈ sources) (hdeps : DependenciesIn sources done s) {d : String}
    (hd : Dependency sources s.key d) : Present done d := by
  obtain ⟨hreach, hpresent⟩ := hd
  induction hreach with
  | single hedge =>
    obtain ⟨s', hs', hkey, hmem⟩ := hedge
    obtain rfl := eq_of_key_eq hkeys hs' hs hkey
    exact hdeps _ hmem hpresent
  | tail _ hedge ih =>
    obtain ⟨s', hs', hkey, hmem⟩ := hedge
    obtain ⟨s'', hs'', hkey'⟩ := ih ⟨s', hs', hkey⟩
    obtain rfl := eq_of_key_eq hkeys hs' (h.subset _ hs'') (hkey.trans hkey'.symm)
    exact h.closed _ hs'' _ hmem hpresent

/-- One compilation: the cache may hold more than the dependencies of the program. -/
theorem Ready.specified_compileProgram (h : Ready catalogue settings sources done cache)
    (hs : s ∈ sources) (hdeps : DependenciesIn sources done s)
    (hnew : ¬Present done s.key) (threads : Option Nat) : Specified catalogue settings sources s.key
      (compileProgram s catalogue cache { settings with threads }) := by
  classical
  have hready : ∀ d, Dependency sources s.key d →
      ∃ o, Specified catalogue settings sources d o := fun d hd => by
    obtain ⟨s', hs', rfl⟩ := h.present hkeys hs hdeps hd
    exact h.specified s' hs'
  let outcomes (d : String) : CompileOutcome :=
    if hd : ∃ o, Specified catalogue settings sources d o then hd.choose
    else compileProgram s catalogue cache settings
  have houtcomes : ∀ d, Dependency sources s.key d →
      Specified catalogue settings sources d (outcomes d) := fun d hd => by
    simp only [outcomes, dif_pos (hready d hd)]
    exact (hready d hd).choose_spec
  -- The part of the cache that the recursion is about.
  let needed : ModuleCache := cache.filter fun d _ => decide (Dependency sources s.key d)
  have hneeded : ∀ d m, needed.get? d = some m ↔
      Dependency sources s.key d ∧ (outcomes d).linkable = some m := fun d m => by
    rw [OrderedMap.get?_filter, Option.filter_eq_some_iff, h.holds, decide_eq_true_iff]
    constructor
    · rintro ⟨⟨-, o, ho, hm⟩, hd⟩
      exact ⟨hd, ho.unique hkeys (houtcomes d hd) ▸ hm⟩
    · rintro ⟨hd, hm⟩
      exact ⟨⟨h.present hkeys hs hdeps hd, outcomes d, houtcomes d hd, hm⟩, hd⟩
  have hsame : ∀ d, ReflTransGen (DependsOn sources) s.key d → cache.get? d = needed.get? d := by
    intro d hreach
    apply Option.ext
    intro m
    rw [OrderedMap.get?_filter, Option.filter_eq_some_iff, decide_eq_true_iff]
    refine ⟨fun hget => ⟨hget, ?_⟩, And.left⟩
    have hpresent := ((h.holds d m).mp hget).1
    rcases reflTransGen_iff_eq_or_transGen.mp hreach with rfl | htrans
    · exact absurd hpresent hnew
    · obtain ⟨s', hs', hkey⟩ := hpresent
      exact ⟨htrans, s', h.subset s' hs', hkey⟩
  have heq : compileProgram s catalogue cache { settings with threads } =
      compileProgram s catalogue needed settings := compileProgram_congr hs houtcomes hneeded hsame
  rw [heq]
  exact Specified.intro hs houtcomes hneeded

/-- The cache with the module of an outcome, if it has one. -/
theorem Ready.publish (h : Ready catalogue settings sources done cache)
    (hs : s ∈ sources) (hdeps : DependenciesIn sources done s)
    (ho : Specified catalogue settings sources s.key o) :
    Ready catalogue settings sources (done ++ [s]) (publishAll cache [o]) := by
  have hmem {s' : ProgramSource} : s' ∈ done ++ [s] ↔ s' ∈ done ∨ s' = s := by simp
  have hgrow {d : String} (hd : Present done d) : Present (done ++ [s]) d := by
    obtain ⟨s', hs', hkey⟩ := hd
    exact ⟨s', hmem.mpr (Or.inl hs'), hkey⟩
  refine ⟨fun s' hs' => ?_, fun s' hs' d hd hpresent => ?_, fun s' hs' => ?_, fun d m => ?_⟩
  · rcases hmem.mp hs' with hs' | rfl
    · exact h.subset s' hs'
    · exact hs
  · rcases hmem.mp hs' with hs' | rfl
    · exact hgrow (h.closed s' hs' d hd hpresent)
    · exact hgrow (hdeps d hd hpresent)
  · rcases hmem.mp hs' with hs' | rfl
    · exact h.specified s' hs'
    · exact ⟨o, ho⟩
  · have hpresent : Present (done ++ [s]) d ↔ s.key = d ∨ Present done d := by
      constructor
      · rintro ⟨s', hs', hkey⟩
        rcases hmem.mp hs' with hs' | rfl
        · exact Or.inr ⟨s', hs', hkey⟩
        · exact Or.inl hkey
      · rintro (hkey | hd)
        · exact ⟨s, hmem.mpr (Or.inr rfl), hkey⟩
        · exact hgrow hd
    cases hlinkable : o.linkable with
    | none =>
      have hpublish : publishAll cache [o] = cache := by simp [publishAll, hlinkable]
      rw [hpublish, h.holds, hpresent]
      refine and_congr_left fun hspecified => (or_iff_right ?_).symm
      rintro rfl
      obtain ⟨o', ho', hm⟩ := hspecified
      rw [ho'.unique hkeys ho, hlinkable] at hm
      cases hm
    | some m' =>
      have hpublish : publishAll cache [o] = cache.insert s.key m' := by
        simp [publishAll, hlinkable, ModuleCache.publish, (ho.parts hlinkable).1]
      rw [hpublish, OrderedMap.get?_insert, hpresent]
      by_cases hkey : s.key = d
      · subst hkey
        rw [if_pos rfl]
        constructor
        · rintro heq
          exact ⟨Or.inl rfl, o, ho, hlinkable.trans heq⟩
        · rintro ⟨-, o', ho', hm⟩
          rw [ho'.unique hkeys ho, hlinkable] at hm
          exact hm
      · rw [if_neg hkey, h.holds, or_iff_right hkey]

end

/-- Groups of programs such that every program depends only on programs of earlier groups. -/
def Scheduled (sources : List ProgramSource) :
    List ProgramSource → List (List ProgramSource) → Prop
  | _, [] => True
  | done, group :: rest =>
      (∀ s ∈ group, s ∈ sources ∧ DependenciesIn sources done s) ∧
        Scheduled sources (done ++ group) rest

theorem DependenciesIn.mono {later : List ProgramSource}
    (h : DependenciesIn sources done s) : DependenciesIn sources (done ++ later) s := by
  intro d hd hpresent
  obtain ⟨s', hs', hkey⟩ := h d hd hpresent
  exact ⟨s', List.mem_append_left _ hs', hkey⟩

section
variable (hkeys : (sources.map ProgramSource.key).Nodup)
include hkeys

theorem Ready.publishAll (h : Ready catalogue settings sources done cache) {group : List ProgramSource}
    (hgroup : ∀ s ∈ group, s ∈ sources ∧ DependenciesIn sources done s)
    (houtcomes : List.Forall₂ (fun s o => Specified catalogue settings sources s.key o) group
      outcomes) :
    Ready catalogue settings sources (done ++ group) (Batch.publishAll cache outcomes) := by
  induction houtcomes generalizing done cache with
  | nil =>
    rw [List.append_nil]
    exact h
  | @cons s o group outcomes ho _ ih =>
    obtain ⟨hs, hdeps⟩ := hgroup s List.mem_cons_self
    have hlater : ∀ s' ∈ group, s' ∈ sources ∧ DependenciesIn sources (done ++ [s]) s' :=
      fun s' hs' => by
        obtain ⟨hmem, hdeps'⟩ := hgroup s' (List.mem_cons_of_mem _ hs')
        exact ⟨hmem, hdeps'.mono⟩
    have hready := ih (h.publish hkeys hs hdeps ho) hlater
    rwa [List.append_assoc, List.singleton_append] at hready

/-- Every program of a schedule compiles to its outcome. -/
theorem Ready.specified_compileGroups
    (h : Ready catalogue settings sources done cache) {schedule : List (List ProgramSource)}
    (hschedule : Scheduled sources done schedule)
    (hnodup : ((done ++ schedule.flatten).map ProgramSource.key).Nodup) (threads : Option Nat) :
    List.Forall₂ (fun s o => Specified catalogue settings sources s.key o) schedule.flatten
      (compileGroups catalogue { settings with threads } cache schedule) := by
  induction schedule generalizing done cache with
  | nil => exact List.Forall₂.nil
  | cons group rest ih =>
    obtain ⟨hgroup, hrest⟩ := hschedule
    rw [List.flatten_cons] at hnodup ⊢
    have hnew : ∀ s ∈ group, ¬Present done s.key := by
      rintro s hs ⟨s', hs', hkey⟩
      rw [List.map_append, List.nodup_append] at hnodup
      refine hnodup.2.2 _ (List.mem_map_of_mem hs') _ (List.mem_map_of_mem ?_) hkey
      exact List.mem_append_left _ hs
    have houtcomes : List.Forall₂ (fun s o => Specified catalogue settings sources s.key o) group
        (group.map (compileProgram · catalogue cache { settings with threads })) := by
      rw [List.forall₂_map_right_iff, List.forall₂_same]
      exact fun s hs =>
        h.specified_compileProgram hkeys (hgroup s hs).1 (hgroup s hs).2 (hnew s hs) threads
    rw [compileGroups]
    refine List.rel_append houtcomes ?_
    refine ih (h.publishAll hkeys hgroup houtcomes) hrest ?_
    rwa [List.append_assoc]

end

/-! ### One program after the other -/

/-- Programs of the batch in an order in which every program stands behind those that it needs. -/
structure InOrder (sources order : List ProgramSource) : Prop where
  subset : ∀ s ∈ order, s ∈ sources
  nodup : (order.map ProgramSource.key).Nodup
  respects : ∀ before s after, order = before ++ s :: after → DependenciesIn sources before s

theorem compileInOrder_eq (modules : ModuleCache) (order : List ProgramSource) :
    (compileInOrder catalogue settings modules order).1 =
      compileGroups catalogue settings modules (order.map fun s => [s]) := by
  induction order generalizing modules with
  | nil => rfl
  | cons s order ih =>
    rw [compileInOrder, List.map_cons, compileGroups, ← ih]
    rfl

theorem InOrder.scheduled (h : InOrder sources order) :
    Scheduled sources [] (order.map fun s => [s]) := by
  have hmain : ∀ before after, order = before ++ after →
      Scheduled sources before (after.map fun s => [s]) := by
    intro before after
    induction after generalizing before with
    | nil => exact fun _ => trivial
    | cons s after ih =>
      intro horder
      refine ⟨fun s' hs' => ?_, ih (before ++ [s]) (by simp [horder])⟩
      rw [List.mem_singleton.mp hs']
      exact ⟨h.subset s (by simp [horder]), h.respects before s after horder⟩
  exact hmain [] order rfl

/-- Compiling one program after the other yields their outcomes. -/
theorem InOrder.specified (catalogue : Catalogue) (settings : Settings)
    (hkeys : (sources.map ProgramSource.key).Nodup) (h : InOrder sources order) :
    List.Forall₂ (fun s o => Specified catalogue settings sources s.key o) order
      (compileInOrder catalogue settings .empty order).1 := by
  have hflat : (order.map fun s => [s]).flatten = order := by
    rw [← List.flatMap_def, List.flatMap_singleton']
  have hready : Ready catalogue settings sources [] .empty := ready_empty
  have houtcomes := hready.specified_compileGroups hkeys h.scheduled
    (by rw [List.nil_append, hflat]; exact h.nodup) settings.threads
  rw [hflat] at houtcomes
  rw [compileInOrder_eq]
  exact houtcomes

/-! ### The batch -/

theorem flatten_groups {α : Type} (size : Nat) (l : List α) : (groups size l).flatten = l := by
  fun_induction groups size l with
  | case1 h => rfl
  | case2 l h hl => simp
  | case3 l h ih => rw [List.flatten_cons, ih, List.take_append_drop]

theorem flatten_flatMap_groups {α : Type} (size : Nat) (levels : List (List α)) :
    (levels.flatMap (groups size)).flatten = levels.flatten := by
  induction levels with
  | nil => rfl
  | cons level levels ih =>
    rw [List.flatMap_cons, List.flatten_append, flatten_groups, ih, List.flatten_cons]

theorem of_get?_byKey (h : (byKey sources).get? k = some s) : s ∈ sources ∧ s.key = k := by
  obtain ⟨s', hs', heq⟩ := List.mem_map.mp (SortedMap.mem_of_get?_ofList h)
  cases heq
  exact ⟨hs', rfl⟩

/-- No program is scheduled twice. -/
theorem nodup_scheduled {keys : List String} (h : keys.Nodup) :
    ((keys.filterMap (byKey sources).get?).map ProgramSource.key).Nodup := by
  have hsources : (keys.filterMap (byKey sources).get?).Nodup := by
    refine h.filterMap fun k k' s hk hk' => ?_
    rw [← (of_get?_byKey hk).2, (of_get?_byKey hk').2]
  refine hsources.map_on fun s hs s' hs' heq => ?_
  obtain ⟨k, -, hget⟩ := List.mem_filterMap.mp hs
  obtain ⟨k', -, hget'⟩ := List.mem_filterMap.mp hs'
  rw [← (of_get?_byKey hget).2, heq, (of_get?_byKey hget').2, hget'] at hget
  exact (Option.some.inj hget).symm

theorem get?_byKey (hkeys : (sources.map ProgramSource.key).Nodup) :
    (byKey sources).get? k = some s ↔ s ∈ sources ∧ s.key = k := by
  rw [byKey, SortedMap.get?_ofList (by simpa [Function.comp_def] using hkeys), List.mem_map]
  simp [and_comm, eq_comm]

theorem get?_graph (programs : SortedMap ProgramSource) (k : String) :
    (graph programs).get? k =
      (programs.get? k).map fun s => s.dependencies.eraseDups.mergeSort (· ≤ ·) := by
  apply Option.ext
  intro deps
  have hnodup : (((programs.entries.map fun e => (e.1, e.2.dependencies)).map
      fun e => (e.1, e.2.eraseDups.mergeSort (· ≤ ·))).map Prod.fst).Nodup := by
    have hnodup := programs.nodup_keys
    rw [SortedMap.keys] at hnodup
    simpa [Function.comp_def] using hnodup
  rw [graph, DependencyGraph.ofList, SortedMap.get?_ofList hnodup, Option.map_eq_some_iff]
  simp only [SortedMap.get?_eq_some_iff, List.map_map, List.mem_map, Function.comp_def,
    Prod.mk.injEq, Prod.exists]
  constructor
  · rintro ⟨k', s, hs, rfl, rfl⟩
    exact ⟨s, hs, rfl⟩
  · rintro ⟨s, hs, rfl⟩
    exact ⟨k, s, hs, rfl, rfl⟩

section
variable (hkeys : (sources.map ProgramSource.key).Nodup)
include hkeys

theorem present_iff : Present sources k ↔ ∃ s, (byKey sources).get? k = some s := by
  simp [Present, get?_byKey hkeys]

/-- The graph of a batch has the dependencies between its programs. -/
theorem dependsOn_graph {d : String} :
    (graph (byKey sources)).DependsOn k d ↔ DependsOn sources k d ∧ Present sources d := by
  have hpresent : (graph (byKey sources)).contains d = true ↔ Present sources d := by
    rw [present_iff hkeys, SortedMap.contains_eq_isSome_get?, get?_graph, Option.isSome_map,
      Option.isSome_iff_exists]
  rw [DependencyGraph.DependsOn, DependencyGraph.inside, List.mem_filter, hpresent, get?_graph]
  refine and_congr_left fun _ => ?_
  cases hget : (byKey sources).get? k with
  | none =>
    constructor
    · intro h
      cases h
    · rintro ⟨s, hs, hkey, -⟩
      rw [(get?_byKey hkeys).mpr ⟨hs, hkey⟩] at hget
      cases hget
  | some s =>
    obtain ⟨hs, hkey⟩ := (get?_byKey hkeys).mp hget
    rw [Option.map_some, Option.getD_some, List.mem_mergeSort, List.mem_eraseDups]
    constructor
    · exact fun hd => ⟨s, hs, hkey, hd⟩
    · rintro ⟨s', hs', hkey', hd⟩
      rwa [eq_of_key_eq hkeys hs hs' (hkey.trans hkey'.symm)]

/-- The groups of the levels are a schedule. -/
theorem scheduled_of_ordered {placed : List String} {levels : List (List String)}
    (h : (graph (byKey sources)).Ordered placed levels)
    (hdone : ∀ d ∈ placed, Present sources d → Present done d) (size : Nat) : Scheduled sources done
      ((levels.map fun level => level.filterMap (byKey sources).get?).flatMap (groups size)) := by
  -- The groups of one level stand in front of the groups of the later levels.
  have happend : ∀ (chunks rest : List (List ProgramSource)) (done : List ProgramSource),
      (∀ group ∈ chunks, ∀ s ∈ group, s ∈ sources ∧ DependenciesIn sources done s) →
      Scheduled sources (done ++ chunks.flatten) rest → Scheduled sources done (chunks ++ rest) := by
    intro chunks rest
    induction chunks with
    | nil => simp
    | cons group chunks ih =>
      intro done hchunks hrest
      refine ⟨hchunks group List.mem_cons_self, ih _ (fun group' hgroup' s hs => ?_) ?_⟩
      · obtain ⟨hmem, hdeps⟩ := hchunks group' (List.mem_cons_of_mem _ hgroup') s hs
        exact ⟨hmem, hdeps.mono⟩
      · rwa [List.append_assoc, ← List.flatten_cons]
  induction levels generalizing placed done with
  | nil => trivial
  | cons level levels ih =>
    obtain ⟨hlevel, hrest⟩ := h
    rw [List.map_cons, List.flatMap_cons]
    refine happend _ _ _ (fun group hgroup s hs => ?_) (ih hrest fun d hd hpresent => ?_)
    · have hmem : s ∈ (groups size (level.filterMap (byKey sources).get?)).flatten :=
        List.mem_flatten.mpr ⟨group, hgroup, hs⟩
      rw [flatten_groups] at hmem
      obtain ⟨k, hk, hget⟩ := List.mem_filterMap.mp hmem
      obtain ⟨hsources, rfl⟩ := (get?_byKey hkeys).mp hget
      refine ⟨hsources, fun d hd hpresent => hdone d ?_ hpresent⟩
      exact hlevel _ hk d ((dependsOn_graph hkeys).mpr ⟨⟨s, hsources, rfl, hd⟩, hpresent⟩)
    · rw [flatten_groups]
      rcases List.mem_append.mp hd with hd | hd
      · obtain ⟨s, hs, hkey⟩ := hdone d hd hpresent
        exact ⟨s, List.mem_append_left _ hs, hkey⟩
      · obtain ⟨s, hget⟩ := (present_iff hkeys).mp hpresent
        refine ⟨s, List.mem_append_right _ ?_, ((get?_byKey hkeys).mp hget).2⟩
        exact List.mem_filterMap.mpr ⟨d, hd, hget⟩

theorem not_reachesCycle_graph (h : ¬ReachesCycle sources k) :
    ¬(graph (byKey sources)).ReachesCycle k := by
  rintro ⟨c, hreach, hcycle⟩
  have hmono : ∀ a b, (graph (byKey sources)).DependsOn a b → DependsOn sources a b :=
    fun a b hab => ((dependsOn_graph hkeys).mp hab).1
  exact h ⟨c, ReflTransGen.mono hmono _ _ hreach, TransGen.mono hmono _ _ hcycle⟩

end

theorem exists_outcome {l : List ProgramSource}
    (h : List.Forall₂ (fun s o => Specified catalogue settings sources s.key o) l outcomes)
    (hs : s ∈ l) : ∃ o ∈ outcomes, Specified catalogue settings sources s.key o := by
  induction h with
  | nil => cases hs
  | @cons s' o l outcomes ho _ ih =>
    rcases List.mem_cons.mp hs with rfl | hs
    · exact ⟨o, List.mem_cons_self, ho⟩
    · obtain ⟨o', hmem, ho'⟩ := ih hs
      exact ⟨o', List.mem_cons_of_mem _ hmem, ho'⟩

theorem keys_outcomes {l : List ProgramSource}
    (h : List.Forall₂ (fun s o => Specified catalogue settings sources s.key o) l outcomes) :
    outcomes.map (fun o => o.compiled.key) = l.map ProgramSource.key := by
  induction h with
  | nil => rfl
  | cons ho _ ih => rw [List.map_cons, List.map_cons, ho.key, ih]

/-- The report of a batch has the outcome of every program that reaches no cycle. -/
theorem exists_specified_report (catalogue : Catalogue) (settings : Settings)
    (hkeys : (sources.map ProgramSource.key).Nodup) (hs : s ∈ sources)
    (hcycle : ¬ReachesCycle sources s.key) (threads : Option Nat) (available : Nat) :
    ∃ o, Specified catalogue settings sources s.key o ∧
      (compileBatch sources { settings with threads } catalogue available).programs.get? s.key =
        some o.compiled := by
  let g := graph (byKey sources)
  let size := Settings.groupSize { settings with threads } available
  let schedule := (g.buildOrder.levels.map fun level =>
    level.filterMap (byKey sources).get?).flatMap (groups size)
  have hflat : schedule.flatten = g.buildOrder.levels.flatten.filterMap (byKey sources).get? := by
    rw [flatten_flatMap_groups, List.filterMap_flatten]
  have hready : Ready catalogue settings sources [] .empty := ready_empty
  have hnodup : (schedule.flatten.map ProgramSource.key).Nodup := by
    rw [hflat]
    exact nodup_scheduled g.nodup_levels
  have houtcomes := hready.specified_compileGroups hkeys
    (scheduled_of_ordered hkeys g.buildOrder_ordered (by simp) size) hnodup threads
  have hget : (byKey sources).get? s.key = some s := (get?_byKey hkeys).mpr ⟨hs, rfl⟩
  have hmem : s ∈ schedule.flatten := by
    rw [hflat]
    refine List.mem_filterMap.mpr ⟨s.key, ?_, hget⟩
    refine DependencyGraph.mem_levels_of_not_reachesCycle ?_ (not_reachesCycle_graph hkeys hcycle)
    rw [SortedMap.mem_keys_iff, SortedMap.contains_eq_isSome_get?, get?_graph, hget]
    rfl
  obtain ⟨o, hmem, ho⟩ := exists_outcome houtcomes hmem
  refine ⟨o, ho, ?_⟩
  unfold compileBatch
  dsimp only
  rw [SortedMap.ofList, List.foldl_append]
  apply SortedMap.get?_foldl_insert
  · rw [List.map_map]
    exact (keys_outcomes houtcomes).symm ▸ hnodup
  · rw [← ho.key]
    exact List.mem_map_of_mem hmem

/-- The report of a batch has what compiling the programs one after the other yields. -/
theorem report_of_inOrder (hkeys : (sources.map ProgramSource.key).Nodup)
    (horder : InOrder sources order) {i : Nat}
    (hs : order[i]? = some s) (ho : (compileInOrder catalogue settings .empty order).1[i]? = some o)
    (threads : Option Nat) (available : Nat) :
    (compileBatch sources { settings with threads } catalogue available).programs.get? s.key =
      some o.compiled := by
  obtain ⟨hlength, hall⟩ := List.forall₂_iff_get.mp (horder.specified catalogue settings hkeys)
  obtain ⟨hlt, rfl⟩ := List.getElem?_eq_some_iff.mp hs
  obtain ⟨hlt', rfl⟩ := List.getElem?_eq_some_iff.mp ho
  have hspecified := hall i hlt hlt'
  obtain ⟨o, ho, hreport⟩ := exists_specified_report catalogue settings hkeys
    (horder.subset _ (List.getElem_mem hlt)) hspecified.not_reachesCycle threads available
  rw [hreport, ho.unique hkeys hspecified]
  rfl

/-! ### Programs outside the dependencies -/

/-- Two batches hold the same programs among those that a program depends on, and the program itself. -/
def SameDependencies (sources other : List ProgramSource) (key : String) : Prop :=
  ∀ s : ProgramSource, ReflTransGen (DependsOn sources) key s.key → (s ∈ other ↔ s ∈ sources)

namespace SameDependencies

variable {other : List ProgramSource} {k d : String}

theorem transGen (h : SameDependencies sources other k) :
    TransGen (DependsOn other) k d ↔ TransGen (DependsOn sources) k d := by
  have hedge {a b : String} (ha : ReflTransGen (DependsOn sources) k a) :
      DependsOn other a b ↔ DependsOn sources a b := by
    constructor
    · rintro ⟨s, hs, rfl, hb⟩
      exact ⟨s, (h s ha).mp hs, rfl, hb⟩
    · rintro ⟨s, hs, rfl, hb⟩
      exact ⟨s, (h s ha).mpr hs, rfl, hb⟩
  constructor
  · intro hreach
    induction hreach with
    | single hab => exact .single ((hedge .refl).mp hab)
    | tail _ hab ih => exact ih.tail ((hedge ih.to_reflTransGen).mp hab)
  · intro hreach
    induction hreach with
    | single hab => exact .single ((hedge .refl).mpr hab)
    | tail hk hab ih => exact ih.tail ((hedge hk.to_reflTransGen).mpr hab)

theorem dependency (h : SameDependencies sources other k) :
    Dependency other k d ↔ Dependency sources k d := by
  rw [Dependency, Dependency, h.transGen]
  refine and_congr_right fun hreach => ?_
  constructor
  · rintro ⟨s, hs, rfl⟩
    exact ⟨s, (h s hreach.to_reflTransGen).mp hs, rfl⟩
  · rintro ⟨s, hs, rfl⟩
    exact ⟨s, (h s hreach.to_reflTransGen).mpr hs, rfl⟩

end SameDependencies

/-- The outcome of a program is the same in every batch with the same dependencies. -/
theorem Specified.of_sameDependencies {other : List ProgramSource}
    (h : Specified catalogue settings sources k o) (hsame : SameDependencies sources other k) :
    Specified catalogue settings other k o := by
  induction h with
  | @intro s outcomes cache hs _ hcache ih =>
    have houtcomes : ∀ d, Dependency other s.key d →
        Specified catalogue settings other d (outcomes d) := fun d hd => by
      have hd := hsame.dependency.mp hd
      exact ih d hd fun x hx => hsame x (hd.1.to_reflTransGen.trans hx)
    refine .intro ((hsame s .refl).mpr hs) houtcomes fun d m => ?_
    rw [hcache, hsame.dependency]

/-- A batch gives every program that reaches no cycle the one outcome that the recursion along the
dependencies gives it. The order of the programs and the number of workers have no influence, nor have
programs outside the dependencies; and compiling one program after the other, in any order that respects
the dependencies, gives the same. -/
theorem compileBatch_refines (catalogue : Catalogue) (settings : Settings)
    (hkeys : (sources.map ProgramSource.key).Nodup) {s : ProgramSource} (hs : s ∈ sources)
    (hcycle : ¬ReachesCycle sources s.key) :
    ∃ o, (∀ o', Specified catalogue settings sources s.key o' ↔ o' = o) ∧
      (∀ (order : List ProgramSource) (threads : Option Nat) (available : Nat),
        order.Perm sources →
        (compileBatch order { settings with threads } catalogue available).programs.get? s.key =
          some o.compiled) ∧
      (∀ (order : List ProgramSource) (i : Nat), InOrder sources order → order[i]? = some s →
        (compileInOrder catalogue settings .empty order).1[i]? = some o) ∧
      ∀ (other : List ProgramSource) (threads : Option Nat) (available : Nat),
        (other.map ProgramSource.key).Nodup → SameDependencies sources other s.key →
        (compileBatch other { settings with threads } catalogue available).programs.get? s.key =
          some o.compiled := by
  obtain ⟨o, ho, -⟩ := exists_specified_report catalogue settings hkeys hs hcycle none 1
  have hother : ∀ (other : List ProgramSource) (threads : Option Nat) (available : Nat),
      (other.map ProgramSource.key).Nodup → SameDependencies sources other s.key →
      (compileBatch other { settings with threads } catalogue available).programs.get? s.key =
        some o.compiled := by
    intro other threads available hnodup hsame
    have ho' := ho.of_sameDependencies hsame
    obtain ⟨o', hspecified, hreport⟩ := exists_specified_report catalogue settings
      hnodup ((hsame s .refl).mpr hs) ho'.not_reachesCycle threads available
    rw [hreport, hspecified.unique hnodup ho']
  refine ⟨o, fun o' => ⟨fun h => h.unique hkeys ho, fun h => h ▸ ho⟩, ?_, ?_, hother⟩
  · intro order threads available hperm
    refine hother order threads available ?_ fun x _ => hperm.mem_iff
    exact (hperm.map ProgramSource.key).nodup_iff.mpr hkeys
  · intro order i horder hi
    obtain ⟨hlength, hall⟩ :=
      List.forall₂_iff_get.mp (horder.specified catalogue settings hkeys)
    obtain ⟨hlt, rfl⟩ := List.getElem?_eq_some_iff.mp hi
    rw [List.getElem?_eq_getElem (hlength ▸ hlt)]
    exact congrArg some ((hall i hlt (hlength ▸ hlt)).unique hkeys ho)

/-- A module with one entry. -/
def sampleLibrary : ProgramSource where
  key := "library"
  data := { events := [{ trigger := .custom "run" [] }] }
  interface? := some { entries := [.ofCustomEvent "run" "run" []] }

/-- A program that calls the module. -/
def sampleCaller : ProgramSource where
  key := "caller"
  data := { events := [{ trigger := .builtin "Start" [],
                         actions := [{ action := .moduleEntry "library" "run" none }] }] }

theorem dependsOn_sample {a b : String} (h : DependsOn [sampleCaller, sampleLibrary] a b) :
    a = "caller" ∧ b = "library" := by
  obtain ⟨s, hs, rfl, hb⟩ := h
  rw [mem_dependencies] at hb
  rcases List.mem_cons.mp hs with rfl | hs
  · rcases hb.1 with hlisted | hcalled
    · cases hlisted
    · exact ⟨rfl, List.mem_singleton.mp hcalled⟩
  · rw [List.mem_singleton.mp hs] at hb
    rcases hb.1 with hlisted | hcalled
    · cases hlisted
    · cases hcalled

/-- The caller in a batch with its module, in either order and for different numbers of workers. -/
theorem compileBatch_refines_sampleCaller :
    (compileBatch [sampleLibrary, sampleCaller] { threads := some 3 } .builtin 8).programs.get?
        "caller" =
      (compileBatch [sampleCaller, sampleLibrary] {} .builtin 1).programs.get? "caller" := by
  have hcycle : ¬ReachesCycle [sampleCaller, sampleLibrary] sampleCaller.key := by
    refine not_reachesCycle_of_descends (fun key => if key = "caller" then 1 else 0) ?_ _
    intro a b hab
    obtain ⟨rfl, rfl⟩ := dependsOn_sample hab
    decide
  obtain ⟨o, -, hreport, -⟩ :=
    compileBatch_refines .builtin {} (by decide) List.mem_cons_self hcycle
  have hswapped := hreport [sampleLibrary, sampleCaller] (some 3) 8 (List.Perm.swap _ _ _)
  exact hswapped.trans (hreport _ none 1 (List.Perm.refl _)).symm

end Batch

end TriggerCompiler
