import TriggerCompiler.Proofs.EmissionStep

/-! The emission of a program is a sequence of the steps that its source asks for, whether or not it
fails. -/

open Relation

namespace TriggerCompiler

open Emission

variable {ctx : Context}

/-! ### Merging -/

namespace Linker

variable {P : Linkage → Prop} {includeHooks : Bool}

mutual

/-- What the merges of a module alone and of the modules nested in it keep, its merge keeps. -/
theorem merge_keeps (m : Linkable) {s : Linkage}
    (hown : ∀ n, m.Part n → ∀ aliases s, P s → P ((mergeOwn n includeHooks aliases).run s).2)
    (hs : P s) : P ((merge includeHooks m).run s).2 := by
  match m with
  | ⟨key, interface, program, nested⟩ =>
    rw [merge, Attempt.run_get_bind]
    cases s.linker.merged.get? key with
    | some existing => exact hs
    | none =>
      have hnested := mergeNested_keeps nested
        (fun start n h k hk => hown k (hk.head ⟨start, h⟩)) hs
      exact Attempt.state_bind hnested fun aliases s' _ => hown _ .refl aliases s'

theorem mergeNested_keeps (nested : List (String × Linkable)) {s : Linkage}
    (hown : ∀ start n, (start, n) ∈ nested → ∀ k, n.Part k → ∀ aliases s, P s →
      P ((mergeOwn k includeHooks aliases).run s).2)
    (hs : P s) : P ((mergeNested includeHooks nested).run s).2 := by
  match nested with
  | [] => exact hs
  | (start, m) :: rest =>
    rw [mergeNested]
    have hfirst := merge_keeps m (hown start m List.mem_cons_self) hs
    refine Attempt.state_bind hfirst fun t s' _ hs' => ?_
    have hrest := mergeNested_keeps rest
      (fun start n h => hown start n (List.mem_cons_of_mem _ h)) hs'
    exact Attempt.state_bind hrest fun _ _ _ hs'' => hs''

end

/-- What the merge of a module alone leaves in the collection of merged modules. -/
theorem get?_mergeOwn (m : Linkable) (includeHooks : Bool) (aliases : List Renaming.Alias)
    (s : Linkage) :
    let r := (mergeOwn m includeHooks aliases).run s
    (∀ key, s.linker.merged.get? key = none → r.2.linker.merged.get? key ≠ none → key = m.key) ∧
      ∀ t, r.1 = .ok t → r.2.linker.merged.get? m.key = some t := by
  intro r
  rcases run_mergeOwn m includeHooks aliases s with ⟨failure, -, hrun⟩ | ⟨-, hrun⟩
  · rw [show r = _ from hrun]
    exact ⟨fun key hnone hsome => absurd hnone hsome, nofun⟩
  · rw [show r = _ from hrun]
    refine ⟨fun key hnone hsome => ?_, fun t ht => ?_⟩
    · replace hsome : (s.linker.merged.insert m.key _).get? key ≠ none := hsome
      rw [OrderedMap.get?_insert] at hsome
      split at hsome
      · rename_i heq
        exact heq.symm
      · exact absurd hnone hsome
    · cases ht
      show (OrderedMap.insert _ _ _).get? _ = _
      rw [OrderedMap.get?_insert, if_pos rfl]

theorem get?_merge {m : Linkable} {s : Linkage} {t : Renaming}
    (h : ((merge includeHooks m).run s).1 = .ok t) :
    ((merge includeHooks m).run s).2.linker.merged.get? m.key = some t := by
  obtain ⟨key, interface, program, nested⟩ := m
  rw [merge, Attempt.run_get_bind] at h ⊢
  cases hget : s.linker.merged.get? key with
  | some existing =>
    rw [hget] at h
    cases h
    exact hget
  | none =>
    rw [hget] at h
    dsimp only at h ⊢
    rw [Attempt.run_bind] at h ⊢
    rcases hrun : (mergeNested includeHooks nested).run s with ⟨result, s₁⟩
    rw [hrun] at h
    cases result with
    | error failure => cases h
    | ok aliases => exact (get?_mergeOwn _ includeHooks aliases s₁).2 t h

end Linker

namespace Emission

variable {tracked : Bool} {e e' : Emission} {P Q : Linkable → Prop}

/-- The merge of one module of a collection. -/
inductive MergeStep (ctx : Context) (tracked : Bool) (P : Linkable → Prop) (e : Emission) : Emission → Prop
  | own {m : Linkable} (aliases : List Renaming.Alias) (h : P m) (hm : ctx.Admits tracked m)
      (hnew : tracked = true → e.linker.merged.get? m.key = none ∧
        e.linker.Aliases m.nested aliases) :
      MergeStep ctx tracked P e (e.withLinkage
        ((Linker.mergeOwn m ctx.settings.includeEventHooks aliases).run e.linkage).2)

/-- A sequence of merges of modules of a collection. -/
def Absorbs (ctx : Context) (tracked : Bool) (P : Linkable → Prop) : Emission → Emission → Prop :=
  ReflTransGen (MergeStep ctx tracked P)

namespace Absorbs

theorem advances (h : Absorbs ctx tracked P e e') : Advances ctx tracked e e' :=
  ReflTransGen.mono (fun _ _ ⟨aliases, _, hm, hnew⟩ => .merged aliases hm hnew) _ _ h

theorem mono (h : Absorbs ctx tracked P e e') (hPQ : ∀ n, P n → Q n) : Absorbs ctx tracked Q e e' :=
  ReflTransGen.mono (fun _ _ ⟨aliases, hP, hm, hnew⟩ => ⟨aliases, hPQ _ hP, hm, hnew⟩) _ _ h

theorem new (h : Absorbs ctx tracked P e e') {key : String} (hnone : e.linker.merged.get? key = none)
    (hsome : e'.linker.merged.get? key ≠ none) : ∃ n, P n ∧ n.key = key := by
  induction h with
  | refl => exact absurd hnone hsome
  | @tail e₁ _ _ hlast ih =>
    by_cases hmid : e₁.linker.merged.get? key = none
    · obtain ⟨aliases, hP, -, -⟩ := hlast
      exact ⟨_, hP, ((Linker.get?_mergeOwn _ _ aliases e₁.linkage).1 _ hmid hsome).symm⟩
    · exact ih hmid

end Absorbs

mutual

/-- A merge is a sequence of merges of single modules, each after the modules nested in it. -/
theorem absorbs_merge (hctx : tracked = true → ctx.Sane) (m : Linkable)
    (hm : ∀ n, m.Part n → ctx.Admits tracked n) (e : Emission) (s : Linkage) :
    Absorbs ctx tracked m.Part (e.withLinkage s)
      (e.withLinkage ((Linker.merge ctx.settings.includeEventHooks m).run s).2) := by
  match m with
  | ⟨key, interface, program, nested⟩ =>
    rw [Linker.merge, Attempt.run_get_bind]
    cases hget : s.linker.merged.get? key with
    | some existing => exact .refl
    | none =>
      obtain ⟨hfirst, hok⟩ := absorbs_mergeNested hctx nested
        (fun start n h k hk => hm k (hk.head ⟨start, h⟩)) e s
      dsimp only
      rw [Attempt.run_bind]
      rcases hrun : (Linker.mergeNested ctx.settings.includeEventHooks nested).run s with
        ⟨result, s₁⟩
      rw [hrun] at hfirst hok
      have hparts := hfirst.mono (Q := (⟨key, interface, program, nested⟩ : Linkable).Part)
        fun k ⟨start, n, h, hpart⟩ => hpart.head ⟨start, h⟩
      cases result with
      | error failure => exact hparts
      | ok aliases =>
        have hnew (ht : tracked = true) : s₁.linker.merged.get? key = none := by
          -- The modules nested in the module have other keys.
          by_contra hsome
          obtain ⟨part, ⟨start, n, h, hpart⟩, hkey⟩ := hfirst.new hget hsome
          exact (hctx ht).key_ne ((hctx ht).admits (hm _ .refl)) (.head' ⟨start, h⟩ hpart) hkey
        exact hparts.tail (.own (e := e.withLinkage s₁) aliases .refl (hm _ .refl) fun ht =>
          ⟨hnew ht, hok aliases rfl ht⟩)

theorem absorbs_mergeNested (hctx : tracked = true → ctx.Sane) (nested : List (String × Linkable))
    (hnested : ∀ start n, (start, n) ∈ nested → ∀ k, n.Part k → ctx.Admits tracked k) (e : Emission)
    (s : Linkage) :
    let r := (Linker.mergeNested ctx.settings.includeEventHooks nested).run s
    Absorbs ctx tracked (fun k => ∃ start n, (start, n) ∈ nested ∧ n.Part k) (e.withLinkage s)
        (e.withLinkage r.2) ∧
      ∀ aliases, r.1 = .ok aliases → tracked = true → r.2.linker.Aliases nested aliases := by
  match nested with
  | [] =>
    refine ⟨.refl, fun aliases ha _ => ?_⟩
    cases ha
    exact .nil
  | (start, n) :: rest =>
    have hfirst := absorbs_merge hctx n (hnested start n List.mem_cons_self) e s
    have hok := fun t => @Linker.get?_merge ctx.settings.includeEventHooks n s t
    rw [Linker.mergeNested, Attempt.run_bind]
    rcases hrun : (Linker.merge ctx.settings.includeEventHooks n).run s with ⟨result, s₁⟩
    rw [hrun] at hfirst hok
    have hmerged := hfirst.mono (Q := fun k => ∃ start' n', (start', n') ∈ (start, n) :: rest ∧ n'.Part k)
      fun k hk => ⟨start, n, List.mem_cons_self, hk⟩
    cases result with
    | error failure => exact ⟨hmerged, nofun⟩
    | ok t =>
      obtain ⟨hrest, hok'⟩ := absorbs_mergeNested hctx rest
        (fun start n h => hnested start n (List.mem_cons_of_mem _ h)) e s₁
      dsimp only
      rw [Attempt.run_bind]
      rcases hrun' : (Linker.mergeNested ctx.settings.includeEventHooks rest).run s₁ with
        ⟨result', s₂⟩
      rw [hrun'] at hrest hok'
      have hmerged' := hmerged.trans (hrest.mono fun k ⟨start', n', h, hk⟩ =>
        ⟨start', n', List.mem_cons_of_mem _ h, hk⟩)
      cases result' with
      | error failure => exact ⟨hmerged', nofun⟩
      | ok tail =>
        refine ⟨hmerged', fun aliases ha ht => ?_⟩
        cases ha
        subst ht
        exact .cons ⟨rfl, hrest.advances.linker (hok t rfl)⟩ (hok' tail rfl rfl)

end

end Emission

variable {e : Emission} {action : ActionInstance} {entry : ModuleEntry}

/-- A module has its names when it has been merged. -/
theorem Emit.merged_of_merge {includeHooks : Bool} {m : Linkable} {t : Renaming} {e' : Emission}
    (h : (onLinkage (Linker.merge includeHooks m)).run e = (.ok t, e')) :
    e'.linker.merged.get? m.key = some t := by
  have hlinker : e'.linker = ((Linker.merge includeHooks m).run e.linkage).2.linker :=
    congrArg (fun r => r.2.linker) h.symm
  rw [hlinker]
  exact Linker.get?_merge (congrArg Prod.fst h)

/-! ### Steps that may fail -/

/-- A module that an action of a program calls stands in the cache. -/
theorem exists_key_of_resolve {callee : Linkable} (haction : action ∈ ctx.source.data.allActions)
    (h : ctx.catalogue.resolve ctx.modules action.action = .moduleEntry callee entry) :
    ∃ key ∈ ctx.source.calledModules, ctx.modules.get? key = some callee := by
  cases hcall : action.action with
  | primitive id =>
    rw [hcall, Catalogue.resolve] at h
    split at h
    · cases h
    · cases h
  | moduleEntry key id guid? =>
    rw [hcall, Catalogue.resolve] at h
    split at h
    · cases h
    · rename_i m hm
      split at h
      · cases h
        exact ⟨key, List.mem_filterMap.mpr ⟨action, haction, by rw [hcall]⟩, hm⟩
      · cases h

namespace EmitStep

variable {α β : Type} {tracked : Bool} {x : EmitStep α} {f : α → EmitStep β} {method : String}
  {location : Location} {event : EventDecl} {index : Nat}

/-- A computation that changes its state by steps that the source asks for, whether or not it fails. -/
def Stepwise (ctx : Context) (tracked : Bool) (x : EmitStep α) : Prop :=
  ∀ e, (tracked = true → e.Orderly) → Advances ctx tracked e (x.run e).2

namespace Stepwise

theorem advances {e' : Emission} {result : Except Failure α}
    (hx : Stepwise ctx tracked x) (he : tracked = true → e.Orderly) (h : x.run e = (result, e')) :
    Advances ctx tracked e e' := by
  have hsteps := hx e he
  rwa [h] at hsteps

theorem steps {e' : Emission} {result : Except Failure α}
    (hx : Stepwise ctx false x) (h : x.run e = (result, e')) : SourceSteps ctx e e' :=
  hx.advances nofun h

theorem pure (a : α) : Stepwise ctx tracked (Pure.pure a : EmitStep α) := fun e _ => .refl e

theorem ite {c : Prop} [Decidable c] {y : EmitStep α} (hx : Stepwise ctx tracked x)
    (hy : Stepwise ctx tracked y) : Stepwise ctx tracked (if c then x else y) := by
  split
  · exact hx
  · exact hy

variable (hctx : tracked = true → ctx.Sane)
include hctx

theorem lift_at {x : Emit α} (he : tracked = true → e.Orderly)
    (hx : Emit.Within (ctx.tracking tracked e.linker) x) : Advances ctx tracked e (x e).2 :=
  Stays.advances (hx e (Context.sees_tracking hctx he))

theorem lift {x : Emit α} (hx : ∀ l, Emit.Within (ctx.tracking tracked l) x) :
    Stepwise ctx tracked (liftM x : EmitStep α) := fun e he => lift_at hctx he (hx e.linker)

theorem bind_at (he : tracked = true → e.Orderly) (hx : Advances ctx tracked e (x.run e).2)
    (hf : ∀ a e', x.run e = (.ok a, e') → Advances ctx tracked e e' → (tracked = true → e'.Orderly) →
      Advances ctx tracked e' ((f a).run e').2) : Advances ctx tracked e ((x >>= f).run e).2 := by
  rw [Attempt.run_bind]
  rcases h : x.run e with ⟨result, e'⟩
  rw [h] at hx
  cases result with
  | error failure => exact hx
  | ok a => exact hx.trans (hf a e' h hx (hx.orderly_of_tracked hctx he))

theorem bind (hx : Stepwise ctx tracked x)
    (hf : ∀ a, Stepwise ctx tracked (f a)) : Stepwise ctx tracked (x >>= f) :=
  fun e he => bind_at hctx he (hx e he) fun a e' _ _ => hf a e'

theorem lift_bind {x : Emit α}
    (hx : ∀ l, Emit.Within (ctx.tracking tracked l) x) (hf : ∀ a, Stepwise ctx tracked (f a)) :
    Stepwise ctx tracked ((liftM x : EmitStep α) >>= f) := bind hctx (lift hctx hx) hf

/-- What is done next may depend on how the result came about. -/
theorem lift_bind_result {x : Emit α}
    (hx : ∀ l, Emit.Within (ctx.tracking tracked l) x) (hf : ∀ e, Stepwise ctx tracked (f (x e).1)) :
    Stepwise ctx tracked ((liftM x : EmitStep α) >>= f) := by
  refine fun e he => bind_at hctx he (lift hctx hx e he) fun a e' hrun _ he' => ?_
  cases hrun
  exact hf e _ he'

omit hctx in
theorem unbindAll (ids : List VarId) {s : BlockStack} (hs : tracked = true → s.Marked) (e : Emission) :
    Advances ctx tracked e { e with blocks := s, program :=
      { e.program with symbols := e.program.symbols.unbindAll ids } } :=
  (Stays.advances (Emit.Within.foldl_symbols (fun _ id => .edited (.unbound trivial id)) ids e)).trans
    (.of_step (.altered (.blocks (.inr trivial) (.inr trivial)
      fun h => hs (Context.tracked_of_tracks h))))

theorem closeBlock (hmethod : ctx.IsTarget tracked method) (location : Location) :
    Stepwise ctx tracked (Emit.closeBlock method location) := by
  intro e he
  unfold Emit.closeBlock
  rw [Attempt.run_get_bind, BlockStack.pop]
  rcases hframes : e.blocks.frames with - | ⟨frame, - | ⟨below, rest⟩⟩
  · exact .refl e
  · exact .refl e
  · have hmarked (ht : tracked = true) : frame.Marked ∧
        BlockStack.Marked { e.blocks with frames := below :: rest } := by
      have hb := (he ht).marked
      refine ⟨hb.frames (by rw [hframes]; exact List.mem_cons_self), fun hf => hb.frames ?_, hb.previous⟩
      rw [hframes]
      exact List.mem_cons_of_mem _ hf
    have hpopped : Advances ctx tracked e _ := unbindAll frame.owned (fun ht => (hmarked ht).2) e
    refine hpopped.trans ?_
    have he' := hpopped.orderly_of_tracked hctx he
    dsimp only
    rw [Attempt.run_set_bind]
    cases frame.kind with
    | parameters => exact .refl _
    | block kind =>
      have htail (l : Linker) : Emit.Within (ctx.tracking tracked l) (Emit.emitTail method frame kind) :=
        .emitTail hmethod (fun h => (hmarked (Context.tracked_of_tracks h)).1) kind
      have hclosed {pendingExit : Option String}
          (hexit : ∀ l, pendingExit = some l → frame.exitLabel = some l) (l : Linker) :
          Emit.Within (ctx.tracking tracked l) (Emit.modifyBlocks fun s =>
            { s with previous := some { kind, closedAt := location, pendingExit } }) := by
        refine .modifyBlocks (fun _ => .inr trivial) (fun _ => .inr trivial) fun h b hb =>
          ⟨hb.frames, fun hc hl => ?_⟩
        cases hc
        exact (hmarked (Context.tracked_of_tracks h)).1.exit (hexit _ hl)
      refine lift_bind_result hctx htail (fun s => ?_) _ he'
      exact lift hctx (hclosed fun _ => Emit.eq_exitLabel_of_emitTail)

/-- The calls of an entry whose module has been merged. -/
theorem emitMerged (hmethod : ctx.IsTarget tracked method)
    (h : ∀ l, (ctx.tracking tracked l).FillsAll location (Emit.entryParams entry)
      (Emit.repetitions action entry.repeatableFirst))
    (callee : Linkable) {t : Renaming} (he : tracked = true → e.Orderly)
    (ht : tracked = true → e.linker.merged.get? callee.key = some t) :
    Advances ctx tracked e ((if callee.interface.multiInstance then
      match action.action.moduleInstance? with
      | some guid =>
          (Emit.emitEntryCalls method location callee t entry action (t.instance? guid) : Emit Unit)
      | none => (Emit.report (.instanceRequired callee.key) location : Emit Unit)
    else (Emit.emitEntryCalls method location callee t entry action none : Emit Unit) :
      EmitStep Unit).run e).2 := by
  have hlinks : (ctx.tracking tracked e.linker).Links t := Context.links_tracking ht
  have hcalls {copies : Option InstanceCopies} (hcopies : ∀ c, copies = some c → c ∈ t.instances) :=
    lift_at hctx he (.emitEntryCalls hmethod callee hlinks (h e.linker) hcopies)
  split
  · cases action.action.moduleInstance? with
    | some guid => exact hcalls fun c hc => List.mem_of_find?_eq_some hc
    | none => exact lift hctx (fun _ => .report (.inr trivial) _) e he
  · exact hcalls nofun

theorem emitModuleCall (hmethod : ctx.IsTarget tracked method)
    {callee : Linkable} {key : String} (hkey : key ∈ ctx.source.calledModules)
    (hcallee : ctx.modules.get? key = some callee)
    (h : ∀ l, (ctx.tracking tracked l).FillsAll location (Emit.entryParams entry)
      (Emit.repetitions action entry.repeatableFirst)) :
    Stepwise ctx tracked (Emit.emitModuleCall ctx method location callee entry action) := by
  intro e he
  have hmerge := (absorbs_merge hctx callee (fun _ hn => .used ⟨key, hkey, callee, hcallee, hn⟩) e
    e.linkage).advances
  exact bind_at hctx he hmerge fun t e' hrun _ he' =>
    emitMerged hctx hmethod h callee he' fun _ => Emit.merged_of_merge hrun

theorem emitPrimitive (hmethod : ctx.IsTarget tracked method) {d : PrimitiveDef}
    (h : ∀ l, (ctx.tracking tracked l).FillsAll location ((ResolvedAction.primitive d).slots action).1
      ((ResolvedAction.primitive d).slots action).2) :
    Stepwise ctx tracked (Emit.emitPrimitive method location d action) := by
  have hop : Stepwise ctx tracked
      (Emit.emitPrimitive method location { d with deprecated := none } action) := by
    simp only [ResolvedAction.slots] at h
    unfold Emit.emitPrimitive
    dsimp only
    cases hop : d.op with
    | openBlock kind =>
      simp only [hop] at h
      exact lift hctx fun l => .openBlock hmethod trivial trivial _ (h l)
    | closeBlock => exact closeBlock hctx hmethod _
    | exitLoop => exact lift hctx fun l => .emitBreak hmethod trivial _
    | nextIteration => exact lift hctx fun l => .emitContinue hmethod trivial _
    | assign =>
      simp only [hop] at h
      exact lift hctx fun l => .emitAssign hmethod (h l)
    | invoke signature =>
      simp only [hop] at h
      exact lift hctx fun l => .emitInvocation hmethod _ (h l)
  unfold Emit.emitPrimitive
  cases d.deprecated with
  | none => exact hop
  | some hint => exact lift_bind hctx (fun l => .report (.inr trivial) _) fun _ => hop

theorem emitAction (hmethod : ctx.IsTarget tracked method) {event i : Nat}
    (haction : ctx.source.data.action? event i = some action) :
    Stepwise ctx tracked (Emit.emitAction ctx method (.ofAction event i) action) := by
  have hmain : Stepwise ctx tracked (Emit.emitResolved ctx method (.ofAction event i) action
      (ctx.catalogue.resolve ctx.modules action.action)) := by
    have hfills (l : Linker) := ctx.fills_tracking (l := l) hctx haction
    cases hresolved : ctx.catalogue.resolve ctx.modules action.action with
    | invalid reason => exact lift hctx fun l => .report (.inr trivial) _
    | primitive d =>
      rw [hresolved] at hfills
      exact emitPrimitive hctx hmethod hfills
    | moduleEntry callee entry =>
      obtain ⟨key, hkey, hget⟩ :=
        exists_key_of_resolve (TriggerData.mem_allActions haction) hresolved
      rw [hresolved] at hfills
      exact emitModuleCall hctx hmethod hkey hget hfills
  exact ite hmain (lift_bind hctx (fun l => .flushPrevious hmethod trivial) fun _ => hmain)

theorem emitActions (hmethod : ctx.IsTarget tracked method) (event i : Nat)
    {actions : List ActionInstance} (hactions : Aligned (ctx.source.data.action? event) i actions) :
    Stepwise ctx tracked (Emit.emitActions ctx method event i actions) := by
  induction actions generalizing i with
  | nil => exact pure ()
  | cons action rest ih =>
    exact bind hctx (emitAction hctx hmethod hactions.head) fun _ => ih (i + 1) hactions.tail

theorem openBody (params : List VarId) :
    Stepwise ctx tracked (liftM (Emit.modifyBlocks fun _ => .ofParameters params) : EmitStep Unit) :=
  lift hctx fun _ => .of_step fun _ _ => .blocks (.inr trivial) (.inr trivial)
    fun _ => BlockStack.marked_ofParameters params

theorem emitBody (hmethod : ctx.IsTarget tracked method) (event : Nat)
    (params : List VarId) {actions : List ActionInstance}
    (hactions : Aligned (ctx.source.data.action? event) 0 actions) :
    Stepwise ctx tracked (Emit.emitBody ctx method event params actions) := by
  refine bind hctx (openBody hctx params) fun _ => ?_
  refine bind hctx (emitActions hctx hmethod event 0 hactions) fun _ => ?_
  refine lift_bind hctx (fun l => .flushPrevious hmethod trivial) fun _ e _ => ?_
  rw [Attempt.run_get_bind]
  refine (unbindAll (e.blocks.frames.flatMap BlockFrame.owned)
    (fun _ => BlockStack.marked_empty) e).trans ?_
  dsimp only [BlockStack.finish]
  rw [Attempt.run_set_bind]
  split
  · exact .refl _
  · exact .refl _

theorem openEvent (hevent : ctx.source.data.events[index]? = some event) :
    Stepwise ctx tracked (liftM (Emit.openEvent ctx index event) : EmitStep _) := by
  refine lift hctx fun l => .openEvent trivial (ctx.params_tracking tracked l)
    (Context.customs_tracking hevent) (fun ht location e base he hbase => ?_) index
  have hbases := Emit.bases_resolveBase hctx (fun _ => he) location event.trigger
  rw [hbase] at hbases
  obtain ⟨hown, htrigger, hplain⟩ := hbases
  refine ⟨Context.calls_tracking fun ht => Or.inl (ht ▸ hown), fun hexported => ?_⟩
  rw [hexported] at htrigger
  exact Context.exports_tracking (.base (List.mem_of_getElem? hevent) htrigger
    (hplain (hctx (Context.tracked_of_tracks ht)).catalogue hexported))

omit hctx in
theorem dispatches_tracking (hevent : ctx.source.data.events[index]? = some event) (l : Linker) :
    (ctx.tracking tracked l).Dispatches index event.options.activeReplay event.options :=
  ⟨rfl, fun h => Context.exports_tracking (.caughtUp (List.mem_of_getElem? hevent) h),
    fun hx => Context.sends_tracking ⟨index, event, hevent, hx⟩⟩

/-- An event without a method of its own is an error by now. -/
theorem closeEvent (hevent : ctx.source.data.events[index]? = some event)
    (he : tracked = true → e.Orderly) {opened : Option (Emit.EventBase × ReplayMode)}
    (hopened : Emit.Opens ctx tracked event e opened) :
    Advances ctx tracked e (Emit.closeEvent index event opened e).2 := by
  rcases opened with - | ⟨base, replay⟩
  · exact .of_step (.altered (.discarded index fun _ => hopened))
  · obtain ⟨hmethod, rfl⟩ := hopened
    exact lift_at hctx he (Emit.Leaves.closeEvent (ctx.chains_tracking tracked _) index hmethod
      fun _ => dispatches_tracking hevent _).within

theorem emitEvent (hevent : ctx.source.data.events[index]? = some event) :
    Stepwise ctx tracked (Emit.emitEvent ctx index event) := by
  rw [Emit.emitEvent_eq]
  intro e he
  have hopens := (Emit.opens_openEvent hctx he index event).1
  have hmethod := Emit.isTarget_bodyMethod hctx he index event
  refine bind_at hctx he (openEvent hctx hevent e he) fun opened e₁ hrun _ he₁ => ?_
  cases hrun
  refine bind_at hctx he₁ (emitBody hctx hmethod index _ (TriggerData.aligned_actions hevent) _ he₁)
    fun _ e₂ _ h₂ he₂ => ?_
  exact closeEvent hctx hevent he₂ (hopens.keep h₂)

theorem emitEvents (i : Nat) {events : List EventDecl}
    (hevents : Aligned (fun i => ctx.source.data.events[i]?) i events) :
    Stepwise ctx tracked (Emit.emitEvents ctx i events) := by
  induction events generalizing i with
  | nil => exact pure ()
  | cons event rest ih =>
    exact bind hctx (emitEvent hctx hevents.head) fun _ => ih (i + 1) hevents.tail

theorem declareVariables : Stepwise ctx tracked
    (liftM (ctx.source.data.vars.forM (Emit.declareVariable ctx.source.data.sync)) : EmitStep Unit) :=
  lift hctx fun _ => .forM_mem fun _ hd => .declareVariable hd _

/-- The emission of a program is a sequence of steps that its source asks for. -/
theorem emitProgram : Stepwise ctx tracked (Emit.emitProgram ctx) :=
  bind hctx (declareVariables hctx) fun _ => emitEvents hctx 0 ctx.source.data.aligned_events

end Stepwise

end EmitStep

theorem Emission.orderly_start (source : ProgramSource) : (Emission.start source).Orderly where
  toApart := SymbolTable.apart_empty _
  watched hv := by cases hv
  literals hget := by cases hget
  marked := BlockStack.marked_empty

namespace Context

/-- The state behind emission. -/
def emitted (ctx : Context) : Emission := ((Emit.emitProgram ctx).run (.start ctx.source)).2

theorem advances_emitted {tracked : Bool} (hctx : tracked = true → ctx.Sane) :
    Advances ctx tracked (.start ctx.source) ctx.emitted :=
  EmitStep.Stepwise.emitProgram hctx _ fun _ => orderly_start ctx.source

theorem sourceSteps_emitted (ctx : Context) : SourceSteps ctx (.start ctx.source) ctx.emitted :=
  advances_emitted nofun

end Context

end TriggerCompiler
