import TriggerCompiler.Proofs.FinishedExports
import TriggerCompiler.Proofs.HeapSteps
import TriggerCompiler.Proofs.ModuleAccess

/-! No two variables of a heap have the same name, at any point of any compilation against modules that
have been compiled before. So the name in an instruction leads to one variable, and that is the one whose
handle had the name when the instruction was emitted. -/

open Relation

namespace TriggerCompiler

namespace SymbolTable

variable {t t' : SymbolTable}

/-- No two variables have the same name. -/
def DistinctNames (t : SymbolTable) : Prop := (t.toList.map fun e => e.2.name).Nodup

theorem distinctNames_of_inj (h : ∀ {id j : VarId} {v w : Variable}, t.get? id = some v →
    t.get? j = some w → v.name = w.name → id = j) : t.DistinctNames := by
  refine (List.Nodup.of_map _ t.vars.nodup).map_on fun a ha b hb hname => ?_
  have ha := OrderedMap.get?_eq_some_iff.mpr ha
  have hb := OrderedMap.get?_eq_some_iff.mpr hb
  have hid : a.1 = b.1 := h ha hb hname
  rw [hid, hb] at ha
  exact Prod.ext hid (Option.some.inj ha).symm

theorem distinctNames_of_unique (h : ∀ {id : VarId} {v : Variable}, t.get? id = some v →
    t.names.get? v.name = some id) : t.DistinctNames := by
  refine distinctNames_of_inj fun hv hw hname => ?_
  have hid := h hv
  rw [hname, h hw] at hid
  exact (Option.some.inj hid).symm

theorem Extends.distinctNames (h : t.Extends t') (hp : t'.Proper) : t.DistinctNames := by
  refine distinctNames_of_inj fun hv hw hname => ?_
  obtain ⟨v', hv', hsame⟩ := h.vars hv
  obtain ⟨w', hw', hsame'⟩ := h.vars hw
  have hid := hp.unique hv'
  rw [hsame.name, hname, ← hsame'.name, hp.unique hw'] at hid
  exact (Option.some.inj hid).symm

end SymbolTable

/-! ### The steps that finish a program -/

namespace Program

variable {p p' : Program} {t : SymbolTable}

/-- One step of finishing, as far as the heap is concerned. -/
inductive FinishStep (p : Program) : Program → Prop
  | coded (methods : MethodTable) : FinishStep p { p with methods }
  | requested (which : SystemVariable) :
      FinishStep p { p with symbols := (p.symbols.system which).2 }
  | pruned {which : SystemVariable} {id : VarId} (h : p.symbols.idOfName? which.name = some id) :
      FinishStep p { p with symbols := (p.symbols.remove id).2 }
  | filled (id : VarId) (a : UInt32) : FinishStep p
      { p with symbols := p.symbols.modifyVar id fun v => { v with default := .uint a } }

/-- A sequence of steps of finishing. -/
def FinishSteps : Program → Program → Prop := ReflTransGen FinishStep

namespace FinishSteps

theorem coded (p : Program) (methods : MethodTable) : FinishSteps p { p with methods } :=
  .single (.coded methods)

theorem requested (p : Program) (which : SystemVariable) :
    FinishSteps p { p with symbols := (p.symbols.system which).2 } := .single (.requested which)

theorem requestSerialization (p : Program) : FinishSteps p p.requestSerialization.2 := by
  rw [Program.requestSerialization]
  split
  · exact .refl
  · exact (requested p .this).trans (coded _ _)

theorem initLocalPlayer (p : Program) : FinishSteps p p.initLocalPlayer := by
  rw [Program.initLocalPlayer]
  split
  · exact .refl
  · exact coded p _

theorem addReturnSequences (p : Program) : FinishSteps p p.addReturnSequences := by
  rw [Program.addReturnSequences]
  split
  · exact .refl
  · exact ((requested p .haltAddress).trans (requested _ .returnJump)).trans (coded _ _)

theorem pruneSystemVariables (vars : List SystemVariable) (p : Program) :
    FinishSteps p (p.pruneSystemVariables vars).2 := by
  induction vars generalizing p with
  | nil => exact .refl
  | cons which rest ih =>
    rw [Program.pruneSystemVariables]
    split
    · exact ih p
    · rename_i id hid
      split
      · exact .head (.pruned hid) (ih _)
      · exact ih p

theorem prepare (p : Program) (sync : SyncMethod) (settings : Settings) :
    FinishSteps p (p.prepare sync settings).2 := by
  have hrest (q : Program) : FinishSteps q
      (q.initLocalPlayer.addReturnSequences.pruneSystemVariables SystemVariable.all).2 :=
    ((initLocalPlayer q).trans (addReturnSequences _)).trans (pruneSystemVariables _ _)
  have hexport : FinishSteps p p.exportNamedMethods := coded p _
  rw [Program.prepare]
  dsimp only
  split
  · exact (hexport.trans (requestSerialization _)).trans (hrest _)
  · exact hexport.trans (hrest _)

theorem resolveDefaults (known : AddressMap) (ids : List VarId) (p : Program) :
    FinishSteps p ((Program.resolveDefaults known ids).run p).2 := by
  induction ids generalizing p with
  | nil => exact .refl
  | cons id ids ih =>
    rw [Program.resolveDefaults, Attempt.run_get_bind]
    split
    · split
      · exact .head (.filled id _) (ih _)
      · exact .refl
    · exact ih p

theorem resolveAddresses (p : Program) : FinishSteps p (Program.resolveAddresses.run p).2 :=
  Attempt.state_bind (P := FinishSteps p) (coded p _) fun _ _ _ hs => hs.trans (resolveDefaults _ _ _)

/-- The finishing of a program, whether or not it succeeds. -/
theorem finish (p : Program) (sync : SyncMethod) (settings : Settings) :
    FinishSteps p ((Program.finish sync settings).run p).2 := by
  refine ((prepare p sync settings).trans (resolveAddresses _)).trans ?_
  rw [Program.run_finish]
  rcases Program.resolveAddresses.run (p.prepare sync settings).2 with ⟨result, q⟩
  cases result with
  | ok _ => exact .refl
  | error failure => exact .refl

end FinishSteps

/-- A heap in which the names lead to the variables that have them, also when it gets another one. -/
structure Indexed (t : SymbolTable) : Prop extends t.Grounded, Prunable t

theorem Indexed.of_prunable (hground : t.Grounded) (h : Prunable t) : Indexed t :=
  ⟨hground, h.unique, h.system⟩

theorem Sane.indexed (h : p.Sane) : Indexed p.symbols := .of_prunable h.consistent.toGrounded h.prunable

theorem Indexed.request (h : Indexed t) (which : SystemVariable) : Indexed (t.system which).2 := by
  have hheap := SymbolTable.furnishes_system h.toGrounded which
  exact .of_prunable hheap.grounded (h.toPrunable.furnish hheap)

theorem nextId_remove (t : SymbolTable) (id : VarId) : (t.remove id).2.nextId = t.nextId := by
  fun_induction SymbolTable.remove t id with
  | case1 => rfl
  | case2 => rfl
  | case3 t id v hv previous hprevious ih => exact ih

theorem Indexed.remove (h : Indexed t) {which : SystemVariable} {id : VarId}
    (hid : t.idOfName? which.name = some id) : Indexed (t.remove id).2 := by
  have hleft := h.systemNamed.restricts_remove (fun _ _ => h.names) hid
  have hprunable := h.toPrunable.restrict hleft
  refine .of_prunable ⟨fun hv => ?_, hprunable.names⟩ hprunable
  rw [nextId_remove]
  exact h.bound (hleft.vars.mp hv).1

theorem Indexed.fill (h : Indexed t) (id : VarId) (a : UInt32) :
    Indexed (t.modifyVar id fun v => { v with default := .uint a }) := by
  have hold {j : VarId} {w : Variable}
      (hw : (t.modifyVar id fun v => { v with default := .uint a }).get? j = some w) :
      ∃ v, t.get? j = some v ∧ w.name = v.name ∧ w.previous = v.previous := by
    obtain ⟨v, hv, rfl⟩ := SymbolTable.get?_modifyVar_eq_some.mp hw
    split
    · exact ⟨v, hv, rfl, rfl⟩
    · exact ⟨v, hv, rfl, rfl⟩
  refine ⟨?_, fun hw => ?_, fun hw hname => ?_⟩
  · apply h.toGrounded.modifyVar
    exact fun _ => rfl
  · obtain ⟨v, hv, hname, -⟩ := hold hw
    rw [hname]
    exact h.unique hv
  · obtain ⟨v, hv, hsame, hprevious⟩ := hold hw
    rw [hprevious]
    exact h.system hv (hsame ▸ hname)

theorem FinishStep.indexed (h : FinishStep p p') (hp : Indexed p.symbols) : Indexed p'.symbols := by
  cases h with
  | coded methods => exact hp
  | requested which => exact hp.request which
  | pruned hid => exact hp.remove hid
  | filled id a => exact hp.fill id a

theorem FinishSteps.indexed (h : FinishSteps p p') (hp : Indexed p.symbols) :
    Indexed p'.symbols := by
  induction h with
  | refl => exact hp
  | tail _ hlast ih => exact hlast.indexed ih

end Program

/-! ### Caches -/

/-- A module that has been compiled, under any settings, against modules that have been compiled. -/
inductive Linkable.Produced : Linkable → Prop
  | intro {source : ProgramSource} {earlier : ModuleCache} {settings : Settings} {m : Linkable}
      (hearlier : ∀ key n, earlier.get? key = some n → Linkable.Produced n)
      (hm : (compileProgram source .builtin earlier settings).linkable = some m) : Linkable.Produced m

/-- A cache of modules that have been compiled. -/
def ModuleCache.Produced (cache : ModuleCache) : Prop :=
  ∀ key m, cache.get? key = some m → m.Produced

variable {cache : ModuleCache} {settings : Settings}

theorem ModuleCache.produced_empty : Produced .empty := fun _ _ hm => by cases hm

theorem ModuleCache.Produced.publish {earlier : ModuleCache} {source : ProgramSource} {m : Linkable}
    (h : cache.Produced) (hearlier : earlier.Produced)
    (hm : (compileProgram source .builtin earlier settings).linkable = some m) :
    (cache.publish m).Produced := by
  intro key n hn
  rw [get?_publish] at hn
  split at hn
  · cases hn
    exact .intro hearlier hm
  · exact h key n hn

/-- Compiling programs one after the other yields modules that have been compiled. -/
theorem ModuleCache.Produced.compileInOrder (order : List ProgramSource)
    (h : cache.Produced) :
    (compileInOrder .builtin settings cache order).2.Produced := by
  induction order generalizing cache with
  | nil => exact h
  | cons s rest ih =>
    rw [TriggerCompiler.compileInOrder]
    cases hm : (compileProgram s .builtin cache settings).linkable with
    | none => exact ih h
    | some m => exact ih (h.publish h hm)

namespace Context

variable {ctx : Context} {m : Linkable}

theorem steps_emitted (ctx : Context) : Emission.Steps ctx (.start ctx.source) ctx.emitted :=
  ctx.sourceSteps_emitted.steps

/-- The emission of a program that compiles. -/
theorem emitted_of_isSuccess (h : ctx.compile.compiled.isSuccess = true) :
    (Emit.emitProgram ctx).run (.start ctx.source) = (.ok (), ctx.emitted) ∧
      ctx.emitted.hasErrors = false := by
  have hfatal (e : Emission) (failure : Failure) :
      (ctx.failedOutcome e (some failure)).compiled.isSuccess = false :=
    isSuccess_failedOutcome nofun
  unfold compile at h
  split at h
  · rw [hfatal] at h
    cases h
  · rename_i e he
    rw [emitted, he]
    split at h
    · rename_i herrors
      rw [isSuccess_failedOutcome fun _ => herrors] at h
      cases h
    · rename_i hclean
      exact ⟨rfl, Bool.eq_false_iff.mpr hclean⟩

theorem Proper.apart_emitted (hctx : ctx.Proper) : ctx.emitted.Apart :=
  (ctx.steps_emitted.apart hctx (Emission.apart_start _)).1

/-- A module that is compiled without errors has proper names, and its nested modules stand in the
cache. -/
theorem Proper.linkable (hctx : ctx.Proper) (h : ctx.compile.linkable = some m) :
    m.Proper ∧ ∀ n, m.Nests n → ∃ key, ctx.modules.get? key = some n := by
  obtain ⟨e, hrun, -, hm⟩ := linkable_compile h
  have he : ctx.emitted = e := congrArg Prod.snd hrun
  refine ⟨?_, fun n hn => ?_⟩
  · obtain ⟨interface, -, rfl⟩ := Option.map_eq_some_iff.mp hm
    have hapart := hctx.apart_emitted
    rw [he] at hapart
    exact ⟨hapart.consistent, hapart.proper⟩
  · obtain ⟨t, -, hn⟩ := nested_of_linkable hm hn
    exact ⟨t.key, hn⟩

end Context

/-- A module that has been compiled has proper names, and so have the modules nested in it. -/
theorem Linkable.Produced.proper {m n : Linkable} (h : m.Produced) (hn : m.Part n) : n.Proper := by
  induction h generalizing n with
  | @intro source earlier settings m _ hm ih =>
    have hctx : Context.Proper { source, catalogue := .builtin, modules := earlier, settings } :=
      ⟨rfl, fun ⟨_, _, _, hcallee, hpart⟩ => ih _ _ hcallee hpart⟩
    obtain ⟨hproper, hnested⟩ := hctx.linkable hm
    rcases hn.cases_head with rfl | ⟨k, hk, hpart⟩
    · exact hproper
    · obtain ⟨key, hkey⟩ := hnested k hk
      exact ih key k hkey hpart

theorem ModuleCache.Produced.context (h : cache.Produced)
    (source : ProgramSource) (settings : Settings) :
    Context.Proper { source, catalogue := .builtin, modules := cache, settings } :=
  ⟨rfl, fun ⟨_, _, _, hm, hn⟩ => (h _ _ hm).proper hn⟩

/-! ### The heaps of a compilation -/

/-- The heaps that a compilation passes through: between the steps of emission, between the steps of each
merge, and between the finishing steps. -/
inductive Context.PassesThrough (ctx : Context) : SymbolTable → Prop
  | emitting {e : Emission} (h : Emission.Steps ctx (.start ctx.source) e) :
      PassesThrough ctx e.program.symbols
  | merging {e : Emission} {m : Linkable} {aliases : List Renaming.Alias} {t : Renaming}
      {s : Linker.Merging} (h : Emission.Steps ctx (.start ctx.source) e) (hm : ctx.Uses m)
      (ht : t = .build m
        ⟨mergedPrefix e.linker.nextOrdinal, ctx.settings.includeEventHooks, aliases⟩)
      (hbefore : Linker.Merging.Steps m (Linker.duplicated m t) ⟨e.program, t⟩ s)
      (hafter : Linker.Merging.Steps m (Linker.duplicated m t) s
        (Linker.addModule m ((e.linker.instances.get? m.key).getD []) e.program t)) :
      PassesThrough ctx s.program.symbols
  | finishing {p : Program} (h : Program.FinishSteps ctx.emitted.program p) :
      PassesThrough ctx p.symbols

namespace Context

variable {ctx : Context}

theorem PassesThrough.distinctNames (hctx : ctx.Proper)
    (h : ctx.PassesThrough t) : t.DistinctNames := by
  have hpoint {e : Emission} (he : Emission.Steps ctx (.start ctx.source) e) : e.Apart :=
    (he.apart hctx (Emission.apart_start _)).1
  cases h with
  | emitting he => exact SymbolTable.distinctNames_of_unique (hpoint he).proper.unique
  | @merging e m aliases t s he hm ht hbefore hafter =>
    subst ht
    have hout := Linker.outcome_of_apart (s := e.linkage) (hctx.uses hm) (hpoint he)
      ctx.settings.includeEventHooks aliases ((e.linker.instances.get? m.key).getD [])
    -- A merge only adds variables, so the names are distinct before its end.
    have hconsistent := (hbefore.keeps.heap (hpoint he).consistent).consistent
    exact (hafter.keeps.heap hconsistent).keeps.distinctNames hout.adding.imported.proper
  | @finishing p hp =>
    have hsane : ctx.emitted.program.Sane :=
      ⟨hctx.apart_emitted.consistent, hctx.apart_emitted.proper⟩
    exact SymbolTable.distinctNames_of_unique (hp.indexed hsane.indexed).unique

end Context

/-! ### Operands -/

/-- The slot of a finished program that a name leads to belongs to the variable of a handle: whenever a
handle denotes a variable on the way to the finished program, it denotes one of the name exactly if it is
that handle. -/
structure Context.Resolves (ctx : Context) (q : Program) (name : String) (k : Nat) (id : VarId) :
    Prop where
  index : (Image.ofProgram q).heapIndex? name = some k
  slot : ∃ v, q.symbols.toList[k]? = some (id, v) ∧ v.name = name
  handle {e : Emission} {j : VarId} : Emission.Steps ctx (.start ctx.source) e →
    Emission.Steps ctx e ctx.emitted → e.program.symbols.Live j →
      (e.program.symbols.nameOf j = name ↔ j = id)

/-- The variable that an instruction of an image names has a slot, if the image can be encoded. -/
theorem Image.exists_heapIndex? {image : Image} {heapSize : UInt32} {x : Executable}
    (h : image.assemble heapSize = .ok x) {i : Instruction}
    (hi : i ∈ image.methods.flatMap Method.code) {name : String} (hname : i.symbol? = some name) :
    ∃ k, image.heapIndex? name = some k := by
  obtain ⟨-, chunks, hchunks, -⟩ := Image.assemble_eq_ok h
  obtain ⟨k, hk, rfl⟩ := List.getElem_of_mem hi
  obtain ⟨method, hencoded⟩ := (List.forall₂_iff_get.mp hchunks).2 k hk (hchunks.length_eq ▸ hk)
  rw [List.get_eq_getElem] at hencoded
  generalize (image.methods.flatMap Method.code)[k] = i at hname hencoded
  rw [← Option.isSome_iff_exists]
  by_contra hnone
  rw [Option.not_isSome_iff_eq_none] at hnone
  have hslot : Bytecode.Frame.slotOf ⟨image, Bytecode.signatures image.methods, method⟩ name =
      .error (.unknownSymbol method name) := by
    rw [Bytecode.Frame.slotOf, hnone]
  cases i with
  | push s =>
    cases hname
    rw [Bytecode.instruction, hslot] at hencoded
    cases hencoded
  | jumpIndirect s =>
    cases hname
    rw [Bytecode.instruction, hslot] at hencoded
    cases hencoded
  | _ => cases hname

theorem Program.heapIndex?_eq_some {q : Program} {name : String} {k : Nat}
    (h : (Image.ofProgram q).heapIndex? name = some k) :
    ∃ id v, q.symbols.toList[k]? = some (id, v) ∧ v.name = name := by
  obtain ⟨hk, hname, -⟩ := List.findIdx?_eq_some_iff_getElem.mp h
  have hlt : k < q.symbols.toList.length := by simpa [Image.ofProgram] using hk
  refine ⟨_, _, List.getElem?_eq_getElem hlt, ?_⟩
  simpa [Image.ofProgram, HeapEntry.ofVariable] using hname

/-- What a handle that had the name of a variable of the finished program stands for. -/
theorem Context.Proper.handle {ctx : Context} (hctx : ctx.Proper) {sync : SyncMethod}
    {report : FinishReport} {q : Program}
    (hfinish : (Program.finish sync settings).run ctx.emitted.program = (.ok report, q)) {id j : VarId}
    {v : Variable} (hv : q.symbols.get? id = some v) {e : Emission}
    (he : Emission.Steps ctx (.start ctx.source) e) (hrest : Emission.Steps ctx e ctx.emitted)
    (hj : e.program.symbols.Live j) : e.program.symbols.nameOf j = v.name ↔ j = id := by
  have hpoint := (he.apart hctx (Emission.apart_start _)).1
  have hlast := hrest.apart hctx hpoint
  have hsane : ctx.emitted.program.Sane := ⟨hlast.1.consistent, hlast.1.proper⟩
  rw [← hlast.2.nameOf hj]
  obtain ⟨w, hw⟩ := hlast.2.live hj
  rw [SymbolTable.nameOf, hw]
  obtain rfl := Program.eq_fillIn_of_finish hfinish
  rw [Program.get?_fillIn] at hv
  obtain ⟨u, hu, rfl⟩ := Option.map_eq_some_iff.mp hv
  exact (hsane.name_prepare_eq_iff hw hu : w.name = u.name ↔ j = id)

/-- The names on the heap are distinct at every point of every compilation. In the artifact of a program
that is compiled without errors, the name in an instruction leads to the slot of one variable, and that
is the variable of the one handle that could be meant when the instruction was emitted. -/
theorem heap_names_distinct {cache : ModuleCache} (hcache : cache.Produced) (source : ProgramSource)
    (settings : Settings) :
    let ctx : Context := { source, catalogue := .builtin, modules := cache, settings }
    let finishing := (Program.finish source.data.sync settings).run ctx.emitted.program
    let compiled := (compileProgram source .builtin cache settings).compiled
    (ctx.PassesThrough ctx.emitted.program.symbols ∧ ctx.PassesThrough finishing.2.symbols ∧
      ∀ t, ctx.PassesThrough t → t.DistinctNames) ∧
    (compiled.isSuccess = true → ∃ q, compiled.finished = some q ∧
      (compiled.heapDefaults.map HeapEntry.name).Nodup ∧
      ∀ i ∈ q.code, ∀ name, i.symbol? = some name → ∃ k id, ctx.Resolves q name k id) := by
  have hctx := hcache.context source settings
  intro ctx finishing compiled
  have hend : ctx.PassesThrough finishing.2.symbols := .finishing (Program.FinishSteps.finish _ _ _)
  refine ⟨⟨.emitting ctx.steps_emitted, hend, fun t ht => ht.distinctNames hctx⟩, fun hok => ?_⟩
  obtain ⟨e, report, q, x, hrun, hfinish, hx, hcompiled⟩ := @Context.exists_artifact ctx hok
  have he : ctx.emitted = e := congrArg Prod.snd hrun
  rw [← he] at hfinish
  replace hcompiled : compiled = ctx.artifact e report q := hcompiled
  have hq : finishing.2 = q := congrArg Prod.snd hfinish
  have hdistinct : q.symbols.DistinctNames := hq ▸ hend.distinctNames hctx
  rw [hcompiled]
  refine ⟨q, rfl, ?_, fun i hi name hname => ?_⟩
  · show ((q.symbols.toList.map _).map _).Nodup
    rw [List.map_map]
    exact hdistinct
  · obtain ⟨k, hk⟩ := Image.exists_heapIndex? hx hi hname
    obtain ⟨id, v, hslot, rfl⟩ := Program.heapIndex?_eq_some hk
    have hv : q.symbols.get? id = some v :=
      OrderedMap.get?_eq_some_iff.mpr (List.mem_of_getElem? hslot)
    exact ⟨k, id, hk, ⟨v, hslot, rfl⟩, fun he hrest hj => hctx.handle hfinish hv he hrest hj⟩

/-- A module with a watched variable of which every instance has its own. -/
def watchedModule : ProgramSource where
  key := "m"
  data :=
    { vars := [{ guid := sampleGuid 1, name := "x", type := .int, onChange := true }]
      events := [
        { trigger := .custom "run" [⟨sampleGuid 2, "x", .int, false⟩]
          actions := [
            .primitive "add_int" [.reference (.guid (sampleGuid 2)), .constant (.int 1),
              .reference (.guid (sampleGuid 1))]] }] }
  interface? := some
    { entries := [.ofCustomEvent "run" "run" [⟨sampleGuid 2, "x", .int, false⟩]]
      multiInstance := true }

/-- A program with a variable, a parameter, two variables of a block and an instance of a module, all of
them with one name. -/
def crowdedCaller : ProgramSource where
  key := "p"
  data :=
    { vars := [{ guid := sampleGuid 1, name := "x", type := .int, onChange := true }]
      events := [
        { trigger := .custom "run" [⟨sampleGuid 2, "x", .int, false⟩]
          options := { broadcast := .all, replay := .all }
          actions := [
            .primitive "add_int" [.reference (.guid (sampleGuid 2)), .constant (.int 1),
              .declare (sampleGuid 3) "x"],
            .primitive "add_int" [.default, .constant (.int 2), .declare (sampleGuid 4) "x"],
            .primitive "add_int" [.default, .constant (.int 2), .reference (.guid (sampleGuid 1))],
            (ActionInstance.ofModule "m" "run" [.reference (.guid (sampleGuid 3))]).withInstance
              (sampleGuid 5)] }] }

/-- The variables have different names, and an instruction that names the variable of the instance finds
it. -/
theorem heap_names_distinct_crowdedCaller :
    let cache := (compileInOrder .builtin {} .empty [watchedModule]).2
    let compiled := (compileProgram crowdedCaller .builtin cache {}).compiled
    ["x", "run__x", "__lcl_x_0", "__lcl_x_2", "__prev_x", "__m0_x", "__m0_run__x", "__m0___prev_x",
      "__m0_i0_x"] ⊆ compiled.heapDefaults.map HeapEntry.name ∧
    (compiled.heapDefaults.map HeapEntry.name).Nodup ∧
    ∃ q k id, compiled.finished = some q ∧ Context.Resolves
      { source := crowdedCaller, catalogue := .builtin, modules := cache, settings := {} }
      q "__m0_i0_x" k id := by
  intro cache compiled
  have hcache : cache.Produced := ModuleCache.produced_empty.compileInOrder _
  have hfacts : compiled.isSuccess = true ∧
      (compiled.finished.map fun q => decide (.push "__m0_i0_x" ∈ q.code)) = some true ∧
      ["x", "run__x", "__lcl_x_0", "__lcl_x_2", "__prev_x", "__m0_x", "__m0_run__x",
        "__m0___prev_x", "__m0_i0_x"] ⊆ compiled.heapDefaults.map HeapEntry.name := by
    decide +kernel
  obtain ⟨hok, hpush, hnames⟩ := hfacts
  obtain ⟨q, hq, hnodup, hoperands⟩ := (heap_names_distinct hcache crowdedCaller {}).2 hok
  rw [show compiled.finished = some q from hq] at hpush
  have hmem : Instruction.push "__m0_i0_x" ∈ q.code := by simpa using hpush
  obtain ⟨k, id, hresolves⟩ := hoperands _ hmem _ rfl
  exact ⟨hnames, hnodup, q, k, id, hq, hresolves⟩

end TriggerCompiler
