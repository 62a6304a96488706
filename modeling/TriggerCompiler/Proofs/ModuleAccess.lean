import Mathlib.Data.List.Basic
import TriggerCompiler.Proofs.ProgramSteps
import TriggerCompiler.Proofs.Basic

/-! The modules that a compilation consults: those that the actions of the program call, and the modules
nested in them. Two contexts in which these are the same give the same outcome, and the modules nested
in the outcome are among them. -/

namespace TriggerCompiler

namespace Renaming

theorem key_addMethod (n : Naming) (t : Renaming) (m : Method) : (addMethod n t m).key = t.key := rfl

theorem key_addVariable (n : Naming) (t : Renaming) (v : Variable) :
    (addVariable n t v).key = t.key := by
  unfold addVariable
  split
  · rfl
  · rfl

theorem key_build (m : Linkable) (n : Naming) : (build m n).key = m.key := by
  refine (foldl_keeps (key_addVariable n) _ _).trans ?_
  exact foldl_keeps (key_addMethod n) _ _

end Renaming

variable {m : Linkable} {S : String → Prop}

namespace Linker

namespace Merging

theorem key_addVariable (copies : List String) (s : Merging) (v : Variable) :
    (s.addVariable copies v).names.key = s.names.key := by
  unfold addVariable
  split
  · split
    · rfl
    · rfl
  · rfl
  · dsimp only
    split
    · rfl
    · split
      · rfl
      · split
        · rfl
        · rfl

theorem key_linkPrevious (source : SymbolTable) (s : Merging) (v : Variable) :
    (s.linkPrevious source v).names.key = s.names.key := by
  unfold linkPrevious
  dsimp only
  split
  · rfl
  · split
    · rfl
    · rfl

theorem key_addMethod (m : Linkable) (named : List String) (s : Merging) (method : Method) :
    (s.addMethod m named method).names.key = s.names.key := by
  unfold addMethod
  split
  · rfl
  · rfl

theorem key_foldl {α : Type} {f : Merging → α → Merging}
    (h : ∀ s a, (f s a).names.key = s.names.key) (l : List α) (s : Merging) :
    (l.foldl f s).names.key = s.names.key := foldl_keeps (g := fun s => s.names.key) h l s

end Merging

theorem key_addModule (m : Linkable) (instances : List Guid) (program : Program) (t : Renaming) :
    (addModule m instances program t).names.key = t.key := by
  refine (Merging.key_foldl (f := fun s (e : Guid × Nat) =>
    s.addInstance m (duplicated m t) e.2 e.1) (fun _ _ => rfl) _ _).trans ?_
  refine (Merging.key_foldl (Merging.key_addMethod m _) _ _).trans ?_
  refine (Merging.key_foldl (Merging.key_linkPrevious _) _ _).trans ?_
  exact Merging.key_foldl (Merging.key_addVariable _) _ _

/-- All merged modules have a key from a given collection. -/
def KeysIn (l : Linker) (S : String → Prop) : Prop := ∀ t ∈ l.merged.values, S t.key

theorem keysIn_mergeOwn (hm : S m.key) (includeHooks : Bool)
    (aliases : List Renaming.Alias) {s : Linkage} (hs : s.linker.KeysIn S) :
    ((mergeOwn m includeHooks aliases).run s).2.linker.KeysIn S := by
  unfold mergeOwn
  rw [Attempt.run_get_bind]
  dsimp only
  split
  · exact hs
  · intro t ht
    rcases OrderedMap.mem_values_insert ht with rfl | ht
    · rw [key_addModule, Renaming.key_build]
      exact hm
    · exact hs t ht

end Linker

variable {e : Emission} {ctx ctx' : Context}

theorem Emission.Advances.keysIn (hS : ∀ n, ctx.Uses n → S n.key)
    {e' : Emission} (h : Emission.SourceSteps ctx e e') (he : e.linker.KeysIn S) :
    e'.linker.KeysIn S := by
  refine h.keeps (P := fun e => e.linker.KeysIn S) (fun e e' hstep he => ?_) he
  cases hstep with
  | merged aliases hm => exact Linker.keysIn_mergeOwn (hS _ hm.uses) _ aliases he
  | altered h =>
    cases h with
    | _ => exact he

/-- At the end of emission only modules that the program uses have been merged. -/
theorem Context.keysIn_emitProgram (ctx : Context) :
    ((Emit.emitProgram ctx).run (Emission.start ctx.source)).2.linker.KeysIn
      fun key => ∃ n, ctx.Uses n ∧ n.key = key :=
  ctx.sourceSteps_emitted.keysIn (fun n hn => ⟨n, hn, rfl⟩) fun t ht => by cases ht

theorem ModuleCache.get?_publish (cache : ModuleCache) (m : Linkable) (key : String) :
    (cache.publish m).get? key = if m.key = key then some m else cache.get? key :=
  OrderedMap.get?_insert _ _ _ _

theorem ModuleCache.get?_publish_of_some {cache : ModuleCache} {n : Linkable} {key : String}
    (hnew : cache.get? m.key = none) (h : cache.get? key = some n) :
    (cache.publish m).get? key = some n := by
  rw [get?_publish, if_neg, h]
  rintro rfl
  rw [hnew] at h
  cases h

/-- Contexts of one program with the same called modules, which may differ in the other modules and in
the number of workers. -/
structure Context.Agrees (ctx ctx' : Context) : Prop where
  source : ctx'.source = ctx.source
  catalogue : ctx'.catalogue = ctx.catalogue
  includeEventHooks : ctx'.settings.includeEventHooks = ctx.settings.includeEventHooks
  autoRequestSerialization :
    ctx'.settings.autoRequestSerialization = ctx.settings.autoRequestSerialization
  called : ∀ key ∈ ctx.source.calledModules, ctx'.modules.get? key = ctx.modules.get? key

variable {actions : List ActionInstance} {action : ActionInstance}

namespace Emit

theorem resolve_congr (h : ctx.Agrees ctx')
    (haction : action ∈ ctx.source.data.allActions) :
    ctx'.catalogue.resolve ctx'.modules action.action =
      ctx.catalogue.resolve ctx.modules action.action := by
  rw [h.catalogue]
  cases hcall : action.action with
  | primitive id => rfl
  | moduleEntry key id guid? =>
    have hkey : key ∈ ctx.source.calledModules :=
      List.mem_filterMap.mpr ⟨action, haction, by rw [hcall]⟩
    rw [Catalogue.resolve, Catalogue.resolve, h.called key hkey]

theorem emitModuleCall_congr (h : ctx.Agrees ctx') :
    emitModuleCall ctx' = emitModuleCall ctx := by
  funext method location callee entry action
  rw [emitModuleCall, emitModuleCall, h.includeEventHooks]

theorem emitAction_congr (h : ctx.Agrees ctx') (method : String) (location : Location)
    (haction : action ∈ ctx.source.data.allActions) :
    emitAction ctx' method location action = emitAction ctx method location action := by
  rw [emitAction, emitAction, resolve_congr h haction, emitModuleCall_congr h]

theorem emitActions_congr (h : ctx.Agrees ctx') (method : String) (event i : Nat)
    (hactions : ∀ a ∈ actions, a ∈ ctx.source.data.allActions) :
    emitActions ctx' method event i actions = emitActions ctx method event i actions := by
  induction actions generalizing i with
  | nil => rfl
  | cons action rest ih =>
    rw [emitActions, emitActions, emitAction_congr h _ _ (hactions _ List.mem_cons_self),
      ih (i + 1) fun a ha => hactions a (List.mem_cons_of_mem _ ha)]

theorem emitBody_congr (h : ctx.Agrees ctx') (method : String) (event : Nat) (params : List VarId)
    (hactions : ∀ a ∈ actions, a ∈ ctx.source.data.allActions) :
    emitBody ctx' method event params actions = emitBody ctx method event params actions := by
  rw [emitBody, emitBody, emitActions_congr h _ _ _ hactions]

theorem resolveBase_congr (h : ctx.Agrees ctx') (location : Location) (trigger : EventTrigger) :
    resolveBase ctx' location trigger = resolveBase ctx location trigger := by
  cases trigger with
  | builtin name params => rw [resolveBase, resolveBase, builtinBase, builtinBase, h.catalogue]
  | custom name params => rw [resolveBase, resolveBase, customBase, customBase, h.source]
  | changed guid => rfl

theorem emitEvent_congr (h : ctx.Agrees ctx') (index : Nat) {event : EventDecl}
    (hevent : event ∈ ctx.source.data.events) :
    emitEvent ctx' index event = emitEvent ctx index event := by
  have hbody (method : String) (params : List VarId) :=
    emitBody_congr h method index params fun a ha => List.mem_flatMap.mpr ⟨event, hevent, ha⟩
  simp only [emitEvent, checkActions, resolveBase_congr h, hbody]

theorem emitEvents_congr (h : ctx.Agrees ctx') (i : Nat) {events : List EventDecl}
    (hevents : ∀ event ∈ events, event ∈ ctx.source.data.events) :
    emitEvents ctx' i events = emitEvents ctx i events := by
  induction events generalizing i with
  | nil => rfl
  | cons event rest ih =>
    rw [emitEvents, emitEvents, emitEvent_congr h i (hevents _ List.mem_cons_self),
      ih (i + 1) fun e he => hevents e (List.mem_cons_of_mem _ he)]

/-- Emission reads nothing but the called modules from the cache. -/
theorem emitProgram_congr (h : ctx.Agrees ctx') : emitProgram ctx' = emitProgram ctx := by
  rw [emitProgram, emitProgram, h.source, emitEvents_congr h 0 fun _ he => he]

end Emit

theorem Linker.nestedModules_congr {l : Linker} (hl : l.KeysIn S)
    {modules modules' : ModuleCache} (h : ∀ key, S key → modules'.get? key = modules.get? key) :
    l.nestedModules modules' = l.nestedModules modules := by
  refine List.filterMap_congr fun t ht => ?_
  rw [h t.key (hl t ht)]

namespace Context

theorem finish_congr (h : ctx.Agrees ctx') (sync : SyncMethod) :
    Program.finish sync ctx'.settings = Program.finish sync ctx.settings := by
  have hprepare (p : Program) : p.prepare sync ctx'.settings = p.prepare sync ctx.settings := by
    rw [Program.prepare, Program.prepare, h.autoRequestSerialization]
  simp only [Program.finish, hprepare]

theorem failedOutcome_congr (h : ctx.Agrees ctx') (e : Emission) (failure : Option Failure) :
    ctx'.failedOutcome e failure = ctx.failedOutcome e failure := by
  rw [failedOutcome, failedOutcome, h.source]

theorem complete_congr (h : ctx.Agrees ctx')
    (hnested : e.linker.nestedModules ctx'.modules = e.linker.nestedModules ctx.modules) :
    ctx'.complete e = ctx.complete e := by
  have hlinkable : ctx'.linkable? e = ctx.linkable? e := by
    rw [linkable?, linkable?, h.source, hnested]
  have hartifact (report : FinishReport) (program : Program) :
      ctx'.artifact e report program = ctx.artifact e report program := by
    rw [artifact, artifact, h.source]
  simp only [complete, h.source, finish_congr h, failedOutcome_congr h, hartifact, hlinkable]

/-- A compilation depends only on the modules that the program uses. -/
theorem compile_congr (h : ctx.Agrees ctx')
    (huses : ∀ n, ctx.Uses n → ctx'.modules.get? n.key = ctx.modules.get? n.key) :
    ctx'.compile = ctx.compile := by
  have hkeys := ctx.keysIn_emitProgram
  rw [compile, compile, Emit.emitProgram_congr h, h.source]
  rcases hrun : (Emit.emitProgram ctx).run (Emission.start ctx.source) with ⟨result, e⟩
  rw [hrun] at hkeys
  have hnested : e.linker.nestedModules ctx'.modules = e.linker.nestedModules ctx.modules := by
    refine Linker.nestedModules_congr hkeys fun key hkey => ?_
    obtain ⟨n, hn, rfl⟩ := hkey
    exact huses n hn
  cases result with
  | error failure => exact failedOutcome_congr h e failure
  | ok _ => simp only [failedOutcome_congr h, complete_congr h hnested]

theorem key_compile (ctx : Context) : ctx.compile.compiled.key = ctx.source.key := by
  unfold compile
  split
  · rfl
  · split
    · rfl
    · unfold complete
      split
      · rfl
      · rfl

theorem isSuccess_failedOutcome {failure : Option Failure}
    (h : failure = none → e.hasErrors = true) :
    (ctx.failedOutcome e failure).compiled.isSuccess = false := by
  rw [← Bool.not_eq_true, CompiledProgram.isSuccess, failedOutcome, CompiledProgram.failed,
    List.isEmpty_iff, Diagnostic.errorsOf, List.filter_eq_nil_iff]
  intro hnone
  cases failure with
  | some failure =>
    exact hnone (failure.toDiagnostic issuer) (List.mem_append_right _ List.mem_cons_self) rfl
  | none =>
    obtain ⟨f, hf, herror⟩ := List.any_eq_true.mp (h rfl)
    refine hnone (f.toDiagnostic issuer) (List.mem_append_left _ (List.mem_map_of_mem hf)) ?_
    rw [Finding.isError, Bool.not_eq_true'] at herror
    rw [Diagnostic.isError, Finding.toDiagnostic, herror]
    rfl

/-- The artifact of a program that is compiled without errors: emission and the finishing steps come to
an end, and the image can be encoded. -/
theorem exists_artifact (h : ctx.compile.compiled.isSuccess = true) :
    ∃ e report q x, (Emit.emitProgram ctx).run (Emission.start ctx.source) = (.ok (), e) ∧
      (Program.finish ctx.source.data.sync ctx.settings).run e.program = (.ok report, q) ∧
      (Image.ofProgram q).assemble (UInt32.ofNat (Image.ofProgram q).heapSize) = .ok x ∧
      ctx.compile.compiled = ctx.artifact e report q := by
  have hfatal (e : Emission) (failure : Failure) :
      (ctx.failedOutcome e (some failure)).compiled.isSuccess = false :=
    isSuccess_failedOutcome nofun
  unfold compile at h ⊢
  split at h
  · rw [hfatal] at h
    cases h
  · rename_i e he
    split at h
    · rename_i herrors
      rw [isSuccess_failedOutcome fun _ => herrors] at h
      cases h
    · rename_i hclean
      unfold complete at h
      split at h
      · rw [hfatal] at h
        cases h
      · rename_i report q hq
        replace h : (ctx.artifact e report q).isSuccess = true := h
        rw [CompiledProgram.isSuccess, artifact, List.isEmpty_iff, Diagnostic.errorsOf,
          List.filter_eq_nil_iff] at h
        rcases hx : (Image.ofProgram q).assemble (UInt32.ofNat (Image.ofProgram q).heapSize) with
          cause | x
        · rw [hx] at h
          exact absurd rfl (h _ (List.mem_append_right _ List.mem_cons_self))
        · refine ⟨e, report, q, x, he, hq, hx, ?_⟩
          simp only [if_neg hclean, complete, hq]

/-- What callers are linked with is what emission left behind, and nothing had been reported then. -/
theorem linkable_compile (h : ctx.compile.linkable = some m) :
    ∃ e, (Emit.emitProgram ctx).run (Emission.start ctx.source) = (.ok (), e) ∧
      e.hasErrors = false ∧ ctx.linkable? e = some m := by
  unfold compile at h
  split at h
  · cases h
  · rename_i e he
    split at h
    · cases h
    · rename_i hclean
      refine ⟨e, he, by simpa using hclean, ?_⟩
      unfold complete at h
      split at h
      · cases h
      · dsimp only at h
        split at h
        · exact h
        · cases h

theorem key_of_linkable (h : ctx.linkable? e = some m) :
    m.key = ctx.source.key := by
  obtain ⟨interface, -, rfl⟩ := Option.map_eq_some_iff.mp h
  rfl

/-- The modules nested in a compiled module are taken from the cache. -/
theorem nested_of_linkable {n : Linkable} (h : ctx.linkable? e = some m)
    (hn : m.Nests n) : ∃ t ∈ e.linker.merged.values, ctx.modules.get? t.key = some n := by
  obtain ⟨interface, -, rfl⟩ := Option.map_eq_some_iff.mp h
  obtain ⟨start, hmem⟩ := hn
  obtain ⟨t, ht, heq⟩ := List.mem_filterMap.mp hmem
  obtain ⟨n', hn', heq⟩ := Option.map_eq_some_iff.mp heq
  cases heq
  exact ⟨t, ht, hn'⟩

end Context

end TriggerCompiler
