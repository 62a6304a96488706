import TriggerCompiler.Proofs.AddressResolution
import TriggerCompiler.Proofs.EmittedNames

/-! The modules that the compiler publishes. A module that is compiled without errors is sound if the
modules that it could call are, so every cache that is filled by compiling holds sound modules only. -/

namespace TriggerCompiler

open Text

/-- A cache that has been filled by compiling the given programs, as a batch does: each was compiled
against modules of some of the others, and published under a key that was new. -/
inductive ModuleCache.CompiledFrom (settings : Settings) : List ProgramSource → ModuleCache → Prop
  | empty : CompiledFrom settings [] .empty
  | publish {sources used all : List ProgramSource} {cache earlier : ModuleCache}
      {source : ProgramSource} {m : Linkable} (hcache : CompiledFrom settings sources cache)
      (hearlier : CompiledFrom settings used earlier)
      (hall : ∀ s, s ∈ all ↔ s = source ∨ s ∈ used ∨ s ∈ sources)
      (hsub : ∀ key m, earlier.get? key = some m → cache.get? key = some m)
      (hm : (compileProgram source .builtin earlier settings).linkable = some m)
      (hnew : cache.get? m.key = none) : CompiledFrom settings all (cache.publish m)

/-- A cache that has been filled by compiling some programs. -/
def ModuleCache.Compiled (settings : Settings) (cache : ModuleCache) : Prop :=
  ∃ sources, cache.CompiledFrom settings sources

/-- The state behind a whole program in which no error has been found. -/
structure Emission.Complete (ctx : Context) (e : Emission) : Prop where
  run : (Emit.emitProgram ctx).run (.start ctx.source) = (.ok (), e)
  moves : Moves ctx (.start ctx.source) e
  orderly : e.Orderly
  clean : e.hasErrors = false

namespace Context

variable {ctx : Context} {m : Linkable}

/-- A compilation fails, or yields the artifact of a whole program that is finished. -/
theorem compile_cases (hctx : ctx.Sane) :
    (∃ e failure, ctx.compile = ctx.failedOutcome e failure ∧
      (failure = none → e.hasErrors = true)) ∨
    ∃ e report q, Emission.Complete ctx e ∧
      (Program.finish ctx.source.data.sync ctx.settings).run e.program = (.ok report, q) ∧
      ctx.compile =
        { compiled := ctx.artifact e report q
          linkable := if (ctx.artifact e report q).isSuccess then ctx.linkable? e else none } := by
  have hmoves : Emission.Moves ctx (.start ctx.source) ctx.emitted := advances_emitted fun _ => hctx
  have horderly := hmoves.orderly hctx (Emission.orderly_start _)
  rw [compile]
  rw [emitted] at hmoves horderly
  rcases hrun : (Emit.emitProgram ctx).run (Emission.start ctx.source) with ⟨result, e⟩
  rw [hrun] at hmoves horderly
  cases result with
  | error failure => exact Or.inl ⟨_, some failure, rfl, fun hnone => by cases hnone⟩
  | ok _ =>
    dsimp only
    cases herrors : e.hasErrors with
    | true => exact Or.inl ⟨_, none, by rw [if_pos rfl], fun _ => herrors⟩
    | false =>
      rw [if_neg Bool.false_ne_true, complete]
      rcases hfinish : (Program.finish ctx.source.data.sync ctx.settings).run e.program with
        ⟨result, q⟩
      cases result with
      | error failure => exact Or.inl ⟨_, some failure, rfl, fun hnone => by cases hnone⟩
      | ok report => exact Or.inr ⟨e, report, q, ⟨hrun, hmoves, horderly, herrors⟩, hfinish, rfl⟩

/-- What a module that is compiled without errors is made of. -/
theorem exists_of_linkable (hctx : ctx.Sane) (h : ctx.compile.linkable = some m) :
    ∃ e, Emission.Complete ctx e ∧ m.key = ctx.source.key ∧ m.program = e.program ∧
      m.nested = e.linker.nestedModules ctx.modules ∧ ctx.source.interface? = some m.interface ∧
      ∃ report q, (Program.finish ctx.source.data.sync ctx.settings).run e.program = (.ok report, q) := by
  rcases ctx.compile_cases hctx with ⟨e, failure, hcompile, -⟩ | ⟨e, report, q, he, hfinish, hcompile⟩
  · rw [hcompile] at h
    cases h
  · rw [hcompile] at h
    dsimp only at h
    split at h
    · obtain ⟨interface, hinterface, rfl⟩ := Option.map_eq_some_iff.mp h
      exact ⟨e, he, rfl, rfl, rfl, hinterface, report, q, hfinish⟩
    · cases h

end Context

namespace Emission

variable {ctx : Context} {e : Emission} {n : Linkable}

/-- The modules nested in a program are those that it has merged. -/
theorem Linked.mem_nestedModules (hl : Linked ctx e) {start : String} :
    (start, n) ∈ e.linker.nestedModules ctx.modules ↔
      ∃ t, e.Carries ctx n t ∧ start = t.namePrefix := by
  rw [Linker.nestedModules, List.mem_filterMap]
  constructor
  · rintro ⟨t, ht, hn⟩
    obtain ⟨⟨key, t⟩, hentry, rfl⟩ := List.mem_map.mp ht
    have hmerged := OrderedMap.get?_eq_some_iff.mpr hentry
    obtain ⟨m, _, _, rfl, hrecord⟩ := hl.record hmerged
    obtain ⟨m', hm', heq⟩ := Option.map_eq_some_iff.mp hn
    cases heq
    rw [hrecord.key, hrecord.cached] at hm'
    cases hm'
    exact ⟨t, ⟨hrecord.cached, hmerged⟩, rfl⟩
  · rintro ⟨t, ht, rfl⟩
    obtain ⟨_, _, hrecord⟩ := hl.record_of ht
    refine ⟨t, OrderedMap.mem_values_of_get? ht.merged, ?_⟩
    rw [hrecord.key, ht.cached]
    rfl

theorem Linked.nodup_nestedModules (hl : Linked ctx e) :
    ((e.linker.nestedModules ctx.modules).map Prod.fst).Nodup := by
  have hsublist (l : List Renaming) : ((l.filterMap fun t => (ctx.modules.get? t.key).map fun m =>
      (t.namePrefix, m)).map Prod.fst).Sublist (l.map Renaming.namePrefix) := by
    induction l with
    | nil => exact .slnil
    | cons t l ih =>
      rw [List.filterMap_cons, List.map_cons]
      cases ctx.modules.get? t.key with
      | none => exact ih.cons _
      | some m => exact ih.cons_cons _
  refine .sublist (hsublist _) ?_
  rw [OrderedMap.values, List.map_map]
  refine (List.Nodup.of_map _ e.linker.merged.nodup).map_on fun a ha b hb heq => ?_
  have ha' := OrderedMap.get?_eq_some_iff.mpr ha
  have hb' := OrderedMap.get?_eq_some_iff.mpr hb
  have hkey := hl.distinct ha' hb' heq
  rw [hkey, hb'] at ha'
  exact Prod.ext hkey (Option.some.inj ha').symm

theorem Linked.lends {m : Linkable} (hl : Linked ctx e)
    (hnested : m.nested = e.linker.nestedModules ctx.modules) {P : Linkable → String → Prop}
    {x : String} (hx : e.Merges ctx P x) : m.Lends P x := by
  obtain ⟨n, t, b, ht, rfl, hP⟩ := hx
  refine ⟨t.namePrefix, n, b, ?_, rfl, hP⟩
  rw [hnested]
  exact hl.mem_nestedModules.mpr ⟨t, ht, rfl⟩

/-- A label of a program is no method of it. -/
theorem Tidy.label_not_method (ht : e.Tidy ctx) (hctx : ctx.Sound) {l : String}
    (hl : IsLabelName l ∨ e.Merges ctx Linkable.OwnLabel l) : e.program.methods.contains l = false := by
  rw [← Bool.not_eq_true]
  intro hmethod
  rcases hl with hl | ⟨n, t, b, hn, rfl, hown⟩
  · rcases ht.methods hmethod with hname | ⟨n, t, b, hn, rfl, -⟩
    · exact hname.label hl.begins
    · obtain ⟨k, _, hrecord⟩ := ht.linked.record_of hn
      rw [hrecord.namePrefix] at hl
      exact hl.not_begins (begins_mergedPrefix k b)
  obtain ⟨k, _, hrecord⟩ := ht.linked.record_of hn
  rcases ht.methods hmethod with hname | ⟨n', t', b', hn', heq, hadds⟩
  · rw [hrecord.namePrefix] at hname
    exact hname.unmerged (begins_mergedPrefix k b)
  · obtain ⟨k', _, hrecord'⟩ := ht.linked.record_of hn'
    rw [hrecord.namePrefix, hrecord'.namePrefix] at heq
    obtain ⟨rfl, rfl⟩ := mergedPrefix_append_inj heq
    have hsame : n = n' := ht.linked.eq_of_namePrefix hn hn' (by
      rw [hrecord.namePrefix, hrecord'.namePrefix])
    subst hsame
    have hlabel := hown.own.begins
    cases hadds with
    | copy hcopy => exact hlabel.not_begins (by decide) (by decide) hcopy.begins
    | own howns =>
      have hsound := hctx.modules hn.cached
      rcases hsound.methods howns.has with hname | hlends
      · exact hname.label hlabel
      · exact hlabel.not_begins (by decide) (by decide) (hsound.lends_begins hlends)

/-- A label that a constant of a finished program holds has its place. -/
theorem Tidy.placed_of_finish (hctx : ctx.Sound) (ht : e.Tidy ctx) (hn : e.Named)
    {report : FinishReport} {q : Program}
    (hfinish : (Program.finish ctx.source.data.sync ctx.settings).run e.program = (.ok report, q))
    {id : VarId} {v : Variable} (hv : e.program.symbols.get? id = some v) (hkind : v.kind = .constant)
    {l : String} (hdefault : v.default = .label l)
    (hl : IsLabelName l ∨ e.Merges ctx Linkable.OwnLabel l) : l ∈ e.program.methods.placed := by
  -- The label that the name stands for begins the name, or follows the beginning of a module.
  obtain ⟨start, own, rfl, hown, hstart⟩ : ∃ start own, l = start ++ own ∧ IsLabelName own ∧
      ¬Begins "_st" l := by
    rcases hl with hl | ⟨n, t, b, hcarries, rfl, hown⟩
    · exact ⟨"", l, String.empty_append.symm, hl, hl.begins.not_begins (by decide) (by decide)⟩
    · obtain ⟨k, _, hrecord⟩ := ht.linked.record_of hcarries
      refine ⟨t.namePrefix, b, rfl, hown.own, ?_⟩
      rw [hrecord.namePrefix]
      exact (begins_mergedPrefix k b).not_begins (by decide) (by decide)
  rcases Program.label_of_finish ⟨hn.consistent, hn.proper⟩ hfinish hv (by simp [hkind]) hdefault with
    hplaced | hmethod | hfirst | ⟨x, hentry | hend⟩
  · exact hplaced
  · rw [ht.label_not_method hctx hl] at hmethod
    cases hmethod
  · rw [hfirst] at hstart
    exact absurd (by decide) hstart
  · exact absurd hentry (hown.append_ne start x).1
  · exact absurd hend (hown.append_ne start x).2

/-- What a constant of a program without errors may hold. -/
theorem Tidy.pools {m : Linkable} (hctx : ctx.Sound) (ht : e.Tidy ctx) (hn : e.Named)
    (herrors : e.hasErrors = false) (hprogram : m.program = e.program)
    (hnested : m.nested = e.linker.nestedModules ctx.modules) {report : FinishReport} {q : Program}
    (hfinish : (Program.finish ctx.source.data.sync ctx.settings).run e.program = (.ok report, q))
    {id : VarId} {v : Variable} (hv : e.program.symbols.get? id = some v)
    (hkind : v.kind = .constant) : m.Pools v.type v.default := by
  have hheld := ht.constants hv hkind
  have hplaced {l : String} (hdefault : v.default = .label l)
      (hl : IsLabelName l ∨ e.Merges ctx Linkable.OwnLabel l) : m.HasLabel l := by
    rw [Linkable.HasLabel, hprogram]
    exact ht.placed_of_finish hctx hn hfinish hv hkind hdefault hl
  generalize htype : v.type = type at hheld ⊢
  generalize hdefault : v.default = value at hheld ⊢
  cases hheld with
  | plain hplain => exact .plain hplain
  | label hl => exact .label (hplaced hdefault (Or.inl hl))
  | merged hl => exact .label (hplaced hdefault (Or.inr hl))
  | method hdispatches hx =>
    refine .method ?_ (Or.inl hdispatches.isChainMethod)
    rw [Linkable.HasMethod, hprogram]
    exact hx herrors
  | @mergedMethod x hx =>
    refine .method ?_ (Or.inr (ht.linked.lends hnested hx))
    obtain ⟨n, t, b, hcarries, rfl, hb, hchain, -⟩ := hx
    obtain ⟨_, _, hrecord⟩ := ht.linked.record_of hcarries
    have hown := hchain.isOwnMethodName
    have hhook : (ctx.settings.includeEventHooks && Renaming.isEventHook b) = false := by
      rw [Bool.and_eq_false_iff, ← Bool.not_eq_true, ← Bool.not_eq_true]
      refine Or.inr fun hhook => ?_
      exact hchain.begins.not_begins (by decide) (by decide) (begins_of_isEventHook hhook).1
    rw [Linkable.HasMethod, hprogram]
    exact (hrecord.code hb (hrecord.notMem_shared hctx hown.unmerged) hhook).1

end Emission

/-- A module that is compiled without errors is sound if the modules that it could call are. -/
theorem Context.Sound.linkable {ctx : Context} {m : Linkable} (hctx : ctx.Sound)
    (h : ctx.compile.linkable = some m) : m.Sound ctx.settings.includeEventHooks ∧
      ∀ n, m.Nests n → ctx.modules.get? n.key = some n := by
  obtain ⟨e, he, -, hprogram, hnested, -, report, q, hfinish⟩ :=
    Context.exists_of_linkable hctx.toSane h
  have hn := he.orderly.toNamed
  have ht := (he.moves.tidy hctx).2
  have hlends {P : Linkable → String → Prop} {x : String} (hx : e.Merges ctx P x) :
      m.Lends P x := ht.linked.lends hnested hx
  have hcarries {start : String} {n : Linkable} (hmem : (start, n) ∈ m.nested) :
      ∃ t, e.Carries ctx n t ∧ start = t.namePrefix := by
    rw [hnested] at hmem
    exact ht.linked.mem_nestedModules.mp hmem
  constructor
  · exact
      { consistent := hprogram ▸ hn.consistent
        proper := hprogram ▸ hn.proper
        starts := fun ⟨start, n⟩ hmem => by
          obtain ⟨t, hcarried, rfl⟩ := hcarries hmem
          obtain ⟨k, _, hrecord⟩ := ht.linked.record_of hcarried
          exact ⟨k, hrecord.namePrefix⟩
        nodup := by
          rw [hnested]
          exact ht.linked.nodup_nestedModules
        keys := fun {start start' n n'} hmem hmem' hkey => by
          obtain ⟨t, hcarried, rfl⟩ := hcarries hmem
          obtain ⟨t', hcarried', rfl⟩ := hcarries hmem'
          have hmerged := hcarried.merged
          rw [hkey, hcarried'.merged] at hmerged
          rw [Option.some.inj hmerged]
        methods := fun hx => (ht.methods (hprogram ▸ hx)).imp_right hlends
        labels := fun hl => (ht.labels (hprogram ▸ hl)).imp_right hlends
        imported := fun hv hkind => hlends (ht.imported (hprogram ▸ hv) hkind)
        storage := fun hv hkind => ht.storage (hprogram ▸ hv) hkind
        pooled := fun hv hkind => hprogram ▸ ht.pooled (hprogram ▸ hv) hkind
        constants := fun hv hkind => ht.pools hctx hn he.clean hprogram hnested
          hfinish (hprogram ▸ hv) hkind }
  · rintro n ⟨start, hmem⟩
    obtain ⟨t, hcarried, -⟩ := hcarries hmem
    exact hcarried.cached

namespace ModuleCache

variable {settings : Settings} {cache : ModuleCache}

/-- Every program is compiled in a sound context if its modules have been compiled. -/
theorem CompiledFrom.sound {sources : List ProgramSource} (h : cache.CompiledFrom settings sources)
    (source : ProgramSource) :
    Context.Sound { source, catalogue := .builtin, modules := cache, settings } := by
  induction h generalizing source with
  | empty =>
    exact
      { catalogue := rfl
        key := nofun
        nested := nofun
        heap := nofun
        modules := nofun }
  | @publish sources used all cache earlier source' m _ _ _ hsub hm hnew ih ihearlier =>
    have hsound := (ihearlier source').linkable hm
    have hold := ih source
    have hcases {key : String} {n : Linkable} (hget : (cache.publish m).get? key = some n) :
        m.key = key ∧ n = m ∨ cache.get? key = some n := by
      rw [get?_publish] at hget
      split at hget
      · rename_i heq
        exact Or.inl ⟨heq, (Option.some.inj hget).symm⟩
      · exact Or.inr hget
    exact
      { catalogue := rfl
        key := fun hget => by
          rcases hcases hget with ⟨hkey, rfl⟩ | hget
          · exact hkey
          · exact hold.key hget
        nested := fun hget hnests => by
          rcases hcases hget with ⟨-, rfl⟩ | hget
          · exact get?_publish_of_some hnew (hsub _ _ (hsound.2 _ hnests))
          · exact get?_publish_of_some hnew (hold.nested hget hnests)
        heap := fun hget => by
          rcases hcases hget with ⟨-, rfl⟩ | hget
          · exact ⟨hsound.1.consistent, hsound.1.proper⟩
          · exact hold.heap hget
        modules := fun hget => by
          rcases hcases hget with ⟨-, rfl⟩ | hget
          · exact hsound.1
          · exact hold.modules hget }

theorem Compiled.sound (h : cache.Compiled settings) (source : ProgramSource) :
    Context.Sound { source, catalogue := .builtin, modules := cache, settings } := by
  obtain ⟨sources, h⟩ := h
  exact h.sound source

theorem compiled_empty : Compiled settings .empty := ⟨[], .empty⟩

/-- Compiling programs with different keys one after the other fills a cache by compiling. -/
theorem Compiled.compileInOrder (h : cache.Compiled settings) {order : List ProgramSource}
    (hkeys : (order.map ProgramSource.key).Nodup)
    (hnew : ∀ s ∈ order, cache.get? s.key = none) :
    (compileInOrder .builtin settings cache order).2.Compiled settings := by
  induction order generalizing cache with
  | nil => exact h
  | cons s rest ih =>
    rw [List.map_cons, List.nodup_cons] at hkeys
    rw [TriggerCompiler.compileInOrder]
    cases hm : (compileProgram s .builtin cache settings).linkable with
    | none => exact ih h hkeys.2 fun s' hs' => hnew s' (List.mem_cons_of_mem _ hs')
    | some m =>
      obtain ⟨-, -, hkey, -⟩ := Context.exists_of_linkable (h.sound s).toSane hm
      have hkey : m.key = s.key := hkey
      have hpublished : (cache.publish m).Compiled settings := by
        obtain ⟨sources, h⟩ := h
        exact ⟨s :: sources, .publish h h (by simp) (fun _ _ hget => hget) hm
          (by rw [hkey]; exact hnew s List.mem_cons_self)⟩
      refine ih hpublished hkeys.2 fun s' hs' => ?_
      rw [get?_publish, if_neg, hnew s' (List.mem_cons_of_mem _ hs')]
      rw [hkey]
      exact fun heq => hkeys.1 (heq ▸ List.mem_map_of_mem hs')

end ModuleCache

end TriggerCompiler
