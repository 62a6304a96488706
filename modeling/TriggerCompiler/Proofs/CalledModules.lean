import TriggerCompiler.Proofs.BatchRefinement
import TriggerCompiler.Proofs.EventRuns
import TriggerCompiler.Proofs.ExportedMethods
import TriggerCompiler.Proofs.ParameterStorage

/-! The modules that a program calls, directly or through other modules. A program that compiles has merged
all of them: an action that calls a module merges it, and a merge brings the modules that the module has
merged itself. -/

open Relation

namespace TriggerCompiler

open Emission

namespace Emission

variable {ctx : Context} {e e' : Emission} {key : String}

/-- A module has been merged, or an error has been found. -/
def Provides (e : Emission) (key : String) : Prop :=
  e.hasErrors = true ∨ ∃ t, e.linker.merged.get? key = some t

theorem Advance.provides (h : SourceStep ctx e e') (he : e.Provides key) : e'.Provides key := by
  cases h with
  | altered h =>
    cases h with
    | reported f => exact he.imp_left fun herrors => hasErrors_append herrors _
    | _ => exact he
  | merged aliases _ =>
    refine he.imp_right fun ⟨t, ht⟩ => ?_
    rcases Linker.run_mergeOwn _ ctx.settings.includeEventHooks aliases e.linkage with
      ⟨failure, -, hrun⟩ | ⟨-, hrun⟩
    · rw [hrun]
      exact ⟨t, ht⟩
    · rw [hrun]
      show ∃ u, (OrderedMap.insert _ _ _).get? key = some u
      rw [OrderedMap.get?_insert]
      split
      · exact ⟨_, rfl⟩
      · exact ⟨t, ht⟩

theorem Advances.provides (h : SourceSteps ctx e e') (he : e.Provides key) : e'.Provides key :=
  h.keeps (P := fun e => e.Provides key) (fun _ _ => Advance.provides) he

end Emission

/-! ### The modules that actions call -/

namespace Emit

variable {ctx : Context} {e e' : Emission} {method key : String} {action : ActionInstance}

/-- An action calls a module. -/
def CallsModule (action : ActionInstance) (key : String) : Prop :=
  ∃ entry instance?, action.action = .moduleEntry key entry instance?

theorem exists_call {source : ProgramSource} (h : key ∈ source.calledModules) :
    ∃ event i action, source.data.action? event i = some action ∧ CallsModule action key := by
  unfold ProgramSource.calledModules TriggerData.allActions at h
  obtain ⟨action, haction, h⟩ := List.mem_filterMap.mp h
  obtain ⟨e, he, haction⟩ := List.mem_flatMap.mp haction
  obtain ⟨event, hevent⟩ := List.getElem?_of_mem he
  obtain ⟨i, hi⟩ := List.getElem?_of_mem haction
  refine ⟨event, i, action, Option.bind_eq_some_iff.mpr ⟨e, hevent, hi⟩, ?_⟩
  split at h
  · cases h
  · rename_i hcall
    cases h
    exact ⟨_, _, hcall⟩

/-- A call of a module merges it. -/
theorem provides_emitModuleCall (hctx : ctx.Sane) (hmethod : ctx.IsTarget false method) {location : Location}
    {callee : Linkable} (hcallee : ctx.modules.get? key = some callee) {entry : ModuleEntry}
    (hfills : ∀ l, (ctx.tracking false l).FillsAll location (entryParams entry)
      (repetitions action entry.repeatableFirst))
    (hrun : (emitModuleCall ctx method location callee entry action).run e = (.ok (), e')) :
    e'.Provides key := by
  obtain ⟨t, e₁, hmerge, hrest⟩ := Attempt.exists_of_bind hrun
  obtain rfl := congrArg Prod.snd hrest
  exact (EmitStep.Stepwise.emitMerged ctx.untracked hmethod hfills callee (t := t) (e := e₁)
    nofun nofun).provides (Or.inr ⟨t, hctx.key hcallee ▸ merged_of_merge hmerge⟩)

theorem provides_emitAction (hctx : ctx.Sane) (hmethod : ctx.IsTarget false method) {event i : Nat}
    (haction : ctx.source.data.action? event i = some action) (hcall : CallsModule action key)
    (hrun : (emitAction ctx method (.ofAction event i) action).run e = (.ok (), e')) :
    e'.Provides key := by
  obtain ⟨id, instance?, hcall⟩ := hcall
  have hfills (l : Linker) := ctx.fills_tracking (l := l) ctx.untracked haction
  obtain ⟨e₁, hrun⟩ : ∃ e₁, (emitResolved ctx method (.ofAction event i) action
      (ctx.catalogue.resolve ctx.modules action.action)).run e₁ = (.ok (), e') :=
    ⟨_, (run_emitAction ..).symm.trans hrun⟩
  have hinvalid {reason : UnresolvedAction} (hrun : (emitResolved ctx method (.ofAction event i) action
      (.invalid reason)).run e₁ = (.ok (), e')) : e'.Provides key := by
    cases hrun
    exact Or.inl (hasErrors_report rfl _ e₁)
  rw [hcall, Catalogue.resolve] at hrun hfills
  cases hcallee : ctx.modules.get? key with
  | none =>
    rw [hcallee] at hrun
    exact hinvalid hrun
  | some callee =>
    rw [hcallee] at hrun hfills
    cases hentry : callee.entry? id with
    | none =>
      simp only [hentry] at hrun
      exact hinvalid hrun
    | some entry =>
      simp only [hentry] at hrun hfills
      exact provides_emitModuleCall hctx hmethod hcallee hfills hrun

/-- A program that is emitted without errors has merged every module that one of its actions calls. -/
theorem exists_merged_of_called (hctx : ctx.Sane) (hkey : key ∈ ctx.source.calledModules)
    (hrun : (emitProgram ctx).run (.start ctx.source) = (.ok (), e)) (herrors : e.hasErrors = false) :
    ∃ t, e.linker.merged.get? key = some t := by
  obtain ⟨event, i, action, haction, hcall⟩ := exists_call hkey
  obtain ⟨method, e₁, e₂, hmethod, -, hemit, hlater⟩ := Context.steps_action hrun haction
  exact (hlater.provides (provides_emitAction hctx hmethod haction hcall hemit)).resolve_left
    (Bool.eq_false_iff.mp herrors)

end Emit

/-! ### The modules of a cache -/

namespace Emission

variable {ctx : Context} {e : Emission} {key : String}

/-- The modules that a whole program calls are merged into it. -/
theorem Complete.exists_carries (he : e.Complete ctx) (hctx : ctx.Sound)
    (hkey : key ∈ ctx.source.calledModules) : ∃ n t, e.Carries ctx n t ∧ n.key = key := by
  obtain ⟨t, ht⟩ := Emit.exists_merged_of_called hctx.toSane hkey he.run he.clean
  obtain ⟨n, _, _, rfl, hrecord⟩ := (he.moves.tidy hctx).2.linked.record ht
  exact ⟨n, t, ⟨hrecord.cached, ht⟩, rfl⟩

end Emission

/-- The modules that a module calls are nested in it. -/
theorem Context.Sound.exists_nests {ctx : Context} (hctx : ctx.Sound) {m : Linkable}
    (hm : ctx.compile.linkable = some m) {key : String} (hkey : key ∈ ctx.source.calledModules) :
    ∃ n, m.Nests n ∧ n.key = key := by
  obtain ⟨e, he, -, -, hnested, -⟩ := Context.exists_of_linkable hctx.toSane hm
  obtain ⟨n, t, hn, hname⟩ := he.exists_carries hctx hkey
  refine ⟨n, ⟨t.namePrefix, ?_⟩, hname⟩
  rw [hnested]
  exact (he.moves.tidy hctx).2.linked.mem_nestedModules.mpr ⟨t, hn, rfl⟩

namespace ModuleCache

variable {settings : Settings} {sources : List ProgramSource} {cache : ModuleCache} {key : String}
  {m : Linkable}

/-- Where a module of a cache comes from. -/
theorem CompiledFrom.exists_source (h : cache.CompiledFrom settings sources)
    (hm : cache.get? key = some m) :
    ∃ s ∈ sources, s.key = key ∧ ∃ used earlier, earlier.CompiledFrom settings used ∧
      (compileProgram s .builtin earlier settings).linkable = some m := by
  induction h with
  | empty => cases hm
  | @publish sources used all cache earlier source n _ hearlier hall _ hn _ ih _ =>
    rw [get?_publish] at hm
    split at hm
    · rename_i heq
      cases hm
      obtain ⟨-, -, hkey, -⟩ := Context.exists_of_linkable (hearlier.sound source).toSane hn
      exact ⟨source, (hall source).mpr (Or.inl rfl), hkey.symm.trans heq, used, earlier, hearlier, hn⟩
    · obtain ⟨s, hs, hsource⟩ := ih hm
      exact ⟨s, (hall s).mpr (Or.inr (Or.inr hs)), hsource⟩

end ModuleCache

/-! ### The modules of a batch -/

namespace Batch

variable {settings : Settings} {sources used : List ProgramSource} {cache : ModuleCache}

/-- A program of a batch calls a module. -/
def Calls (sources : List ProgramSource) (caller key : String) : Prop :=
  ∃ s, (byKey sources).get? caller = some s ∧ key ∈ s.calledModules

/-- The contexts in which the programs of a batch are compiled: the modules have been compiled from programs
of the batch. -/
inductive IsContext (settings : Settings) (sources : List ProgramSource) : Context → Prop
  | intro {source : ProgramSource} {used : List ProgramSource} {cache : ModuleCache}
      (hsource : (byKey sources).get? source.key = some source)
      (hused : ∀ s ∈ used, (byKey sources).get? s.key = some s)
      (hcache : cache.CompiledFrom settings used) :
      IsContext settings sources { source, catalogue := .builtin, modules := cache, settings }

theorem IsContext.sound {ctx : Context} (h : IsContext settings sources ctx) : ctx.Sound := by
  cases h with
  | intro _ _ hcache => exact hcache.sound _

/-- A whole program of a batch has merged every module that it calls, directly or through other modules. -/
theorem IsContext.exists_carries {ctx : Context} {e : Emission} {key : String}
    (hctx : IsContext settings sources ctx) (he : e.Complete ctx)
    (hcalls : TransGen (Calls sources) ctx.source.key key) :
    ∃ m t, e.Carries ctx m t ∧ m.key = key := by
  have hsound := hctx.sound
  cases hctx with
  | intro hsource hused hcache =>
    induction hcalls with
    | single hcall =>
      obtain ⟨s, hs, hkey⟩ := hcall
      rw [hsource] at hs
      cases hs
      exact he.exists_carries hsound hkey
    | tail _ hcall ih =>
      obtain ⟨m, t, hm, rfl⟩ := ih
      obtain ⟨s, hs, hkey⟩ := hcall
      obtain ⟨s', hs', hname, used', earlier, hearlier, hlinkable⟩ :=
        hcache.exists_source hm.cached
      have hsame := hused s' hs'
      rw [hname, hs] at hsame
      cases hsame
      obtain ⟨n, ⟨start, hn⟩, rfl⟩ := (hearlier.sound s).exists_nests hlinkable hkey
      obtain ⟨_, _, hrecord⟩ := (he.moves.tidy hsound).2.linked.record_of hm
      obtain ⟨u, hu⟩ := hrecord.carries_nested hsound.toSane hn
      exact ⟨n, u, hu, rfl⟩

/-- Publishing the modules of a group, each compiled against the cache in front of the group. -/
theorem exists_compiledFrom_publishAll {earlier : ModuleCache} {before group : List ProgramSource}
    (hearlier : earlier.CompiledFrom settings before) (hcache : cache.CompiledFrom settings used)
    (hused : before ⊆ used)
    (hsub : ∀ key m, earlier.get? key = some m → cache.get? key = some m)
    (hkeys : (group.map ProgramSource.key).Nodup) (hnew : ∀ s ∈ group, ∀ s' ∈ used, s'.key ≠ s.key) :
    ∃ later, later ⊆ used ++ group ∧
      (publishAll cache (group.map (compileProgram · .builtin earlier settings))).CompiledFrom settings
        later := by
  induction group generalizing cache used with
  | nil => exact ⟨used, List.subset_append_left _ _, hcache⟩
  | cons s rest ih =>
    rw [List.map_cons, List.nodup_cons] at hkeys
    obtain ⟨hfirst, hrest⟩ := List.forall_mem_cons.mp hnew
    cases hm : (compileProgram s .builtin earlier settings).linkable with
    | none =>
      obtain ⟨later, hlater, hfilled⟩ := ih hcache hused hsub hkeys.2 hrest
      refine ⟨later, List.Subset.trans hlater ?_, ?_⟩
      · exact ((List.sublist_cons_self s rest).append_left used).subset
      · rw [publishAll, List.map_cons, List.foldl_cons, hm]
        exact hfilled
    | some m =>
      obtain ⟨-, -, hkey, -⟩ := Context.exists_of_linkable (hearlier.sound s).toSane hm
      have hkey : m.key = s.key := hkey
      have hfree : cache.get? m.key = none := by
        by_contra hsome
        obtain ⟨n, hn⟩ := Option.ne_none_iff_exists'.mp hsome
        obtain ⟨s', hs', hname, -⟩ := hcache.exists_source hn
        exact hfirst s' hs' (hname.trans hkey)
      have hall (s' : ProgramSource) : s' ∈ s :: used ↔ s' = s ∨ s' ∈ before ∨ s' ∈ used := by
        rw [List.mem_cons, or_iff_right_of_imp (@hused s')]
      obtain ⟨later, hlater, hfilled⟩ := ih (.publish hcache hearlier hall hsub hm hfree)
        (List.subset_cons_of_subset _ hused)
        (fun key n hn => ModuleCache.get?_publish_of_some hfree (hsub key n hn)) hkeys.2
        fun s' hs' => List.forall_mem_cons.mpr ⟨fun heq => hkeys.1 (heq ▸ List.mem_map_of_mem hs'),
          hrest s' hs'⟩
      refine ⟨later, List.Subset.trans hlater List.perm_middle.symm.subset, ?_⟩
      rw [publishAll, List.map_cons, List.foldl_cons, hm]
      exact hfilled

/-- Every outcome of a schedule is that of a program compiled against a cache that was filled by compiling
programs of the schedule. -/
theorem exists_of_mem_compileGroups {schedule : List (List ProgramSource)} {o : CompileOutcome}
    (hcache : cache.CompiledFrom settings used)
    (hkeys : (schedule.flatten.map ProgramSource.key).Nodup)
    (hnew : ∀ s ∈ schedule.flatten, ∀ s' ∈ used, s'.key ≠ s.key)
    (ho : o ∈ compileGroups .builtin settings cache schedule) :
    ∃ s ∈ schedule.flatten, ∃ done ⊆ used ++ schedule.flatten, ∃ filled : ModuleCache,
      filled.CompiledFrom settings done ∧ o = compileProgram s .builtin filled settings := by
  induction schedule generalizing cache used with
  | nil => cases ho
  | cons group rest ih =>
    rw [List.flatten_cons] at hkeys hnew ⊢
    rw [List.map_append, List.nodup_append] at hkeys
    rw [compileGroups] at ho
    rcases List.mem_append.mp ho with ho | ho
    · obtain ⟨s, hs, rfl⟩ := List.mem_map.mp ho
      exact ⟨s, List.mem_append_left _ hs, used, List.subset_append_left _ _, cache, hcache, rfl⟩
    · obtain ⟨later, hlater, hfilled⟩ := exists_compiledFrom_publishAll hcache hcache
        (List.Subset.refl _) (fun _ _ h => h) hkeys.1
        fun s hs => hnew s (List.mem_append_left _ hs)
      obtain ⟨s, hs, done, hdone, hcompiled⟩ := ih hfilled hkeys.2.1
        (fun s hs s' hs' => (List.mem_append.mp (hlater hs')).elim
          (hnew s (List.mem_append_right _ hs) s') fun hs' =>
            hkeys.2.2 _ (List.mem_map_of_mem hs') _ (List.mem_map_of_mem hs)) ho
      refine ⟨s, List.mem_append_right _ hs, done, List.Subset.trans hdone ?_, hcompiled⟩
      rw [← List.append_assoc]
      exact List.append_subset.mpr
        ⟨List.subset_append_of_subset_left _ hlater, List.subset_append_right _ _⟩

/-- A program that a batch compiles without errors is compiled in a context of the batch. -/
theorem exists_context {available : Nat} {key : String} {compiled : CompiledProgram}
    (hreport : (compileBatch sources settings .builtin available).programs.get? key = some compiled)
    (hok : compiled.isSuccess = true) :
    ∃ ctx, IsContext settings sources ctx ∧ ctx.source.key = key ∧ ctx.compile.compiled = compiled := by
  rw [compileBatch] at hreport
  rcases List.mem_append.mp (SortedMap.mem_of_get?_ofList hreport) with hblocked | houtcome
  · obtain ⟨blocked, -, heq⟩ := List.mem_map.mp hblocked
    cases heq
    cases hok
  · obtain ⟨o, ho, heq⟩ := List.mem_map.mp houtcome
    cases heq
    let schedule := ((graph (byKey sources)).buildOrder.levels.map fun level =>
      level.filterMap (byKey sources).get?).flatMap (groups (settings.groupSize available))
    have hflat : schedule.flatten =
        (graph (byKey sources)).buildOrder.levels.flatten.filterMap (byKey sources).get? := by
      rw [flatten_flatMap_groups, List.filterMap_flatten]
    have hscheduled {s : ProgramSource} (hs : s ∈ schedule.flatten) :
        (byKey sources).get? s.key = some s := by
      rw [hflat] at hs
      obtain ⟨k, -, hget⟩ := List.mem_filterMap.mp hs
      rwa [(of_get?_byKey hget).2]
    have hkeys : (schedule.flatten.map ProgramSource.key).Nodup := by
      rw [hflat]
      exact nodup_scheduled (graph (byKey sources)).nodup_levels
    obtain ⟨s, hs, used, hused, cache, hcache, rfl⟩ :=
      exists_of_mem_compileGroups .empty hkeys (fun _ _ => nofun) ho
    rw [List.nil_append] at hused
    exact ⟨_, .intro (hscheduled hs) (fun s' hs' => hscheduled (hused hs')) hcache,
      (key_compileProgram s cache).symm, rfl⟩

end Batch

end TriggerCompiler
