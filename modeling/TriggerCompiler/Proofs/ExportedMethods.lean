import TriggerCompiler.Proofs.CompiledModules
import TriggerCompiler.Proofs.EventRuns
import TriggerCompiler.Proofs.FinishedExports
import TriggerCompiler.Proofs.MethodConstants

/-! The methods that the machine can call. Every step of emission keeps the exported methods to those that
the events of the program publish, those of modules that the machine calls, and those that constants
name; so a finished program exports exactly these and its start, and other machines can reach the body of
an event only if the event is sent on to it. -/

namespace TriggerCompiler

open Text

/-- A method that the machine calls in a merged module, which the program shares with the module. -/
def Emission.LendsHook (ctx : Context) (e : Emission) (x : String) : Prop :=
  (ctx.settings.includeEventHooks && Renaming.isEventHook x) = true ∧
    ∃ m t, e.Carries ctx m t ∧ m.HasMethod x

variable {x : String}

theorem Emission.LendsHook.of_merged {ctx : Context} {e e' : Emission}
    (h : e'.LendsHook ctx x) (hmerged : e'.linker.merged = e.linker.merged) : e.LendsHook ctx x := by
  obtain ⟨hhook, m, t, hcarries, hx⟩ := h
  exact ⟨hhook, m, t, ⟨hcarries.cached, hmerged ▸ hcarries.merged⟩, hx⟩

variable {m : Linkable}

/-- A merge exports the methods of the module that the machine calls. -/
theorem Linker.Outcome.exports_hook {n : Renaming.Naming} {instances : List Guid}
    {program : Program} {s : Linker.Merging} (h : Linker.Outcome m n instances program s)
    (hx : m.HasMethod x) (hshared : x ∉ s.names.shared)
    (hhook : (n.includeHooks && Renaming.isEventHook x) = true) : s.program.methods.Exports x := by
  obtain ⟨heap, -, hmethods⟩ := h.methods
  obtain ⟨method, hmethod, rfl, -⟩ := MethodTable.exists_mem_toList hx
  have hname : (n.method method.name).1 = method.name := by
    rw [Renaming.Naming.method, if_pos hhook]
  have hchunk : Linker.Merging.methodChunk m heap.namedMethods s.names method =
      some ⟨method.name, true, Linker.Merging.renamedCode m s.names method true⟩ := by
    have hcontains : m.program.methods.contains method.name = true := hx
    rw [Linker.Merging.methodChunk, h.adding.methods, Renaming.methods_build, if_pos hcontains, hname]
    simp
  rw [hmethods, MethodTable.exports_foldl_merge]
  refine Or.inr ⟨_, List.mem_append_left _ (List.mem_filterMap.mpr ⟨method, ?_, hchunk⟩), rfl, rfl⟩
  exact List.mem_filter.mpr ⟨hmethod, by simpa [Renaming.isShared] using hshared⟩

theorem MethodTable.exports_of_remove {t : MethodTable} {y : String}
    (h : (t.remove x).Exports y) : t.Exports y := by
  obtain ⟨b, hb, hexported⟩ := h
  rw [get?_remove] at hb
  split at hb
  · cases hb
  · exact ⟨b, hb, hexported⟩

variable {event : EventDecl} {i : Nat}

namespace Emission

variable {ctx : Context} {e e' : Emission} {x : String}

/-- The exported methods of a program are those that it publishes, those that it shares with merged
modules, and those that variables name; and those that it shares are all exported. -/
structure Surface (ctx : Context) (e : Emission) : Prop where
  exports {x : String} : e.program.methods.Exports x → ctx.Publishes x ∨
    e.LendsHook ctx x ∨ x ∈ e.program.symbols.namedMethods
  hooks {x : String} : e.LendsHook ctx x → e.hasErrors = false → e.program.methods.Exports x

/-- The state behind a step has such a surface if what the step adds fits it. -/
theorem Surface.of_step (hs : e.Surface ctx) (h : Move ctx e e') (hsane : ctx.Sane) (hn : e.Named)
    (hexports : ∀ x, e'.program.methods.Exports x → e.program.methods.Exports x ∨
      ctx.Publishes x ∨ e'.LendsHook ctx x ∨ x ∈ e'.program.symbols.namedMethods)
    (hhooks : ∀ x, e'.LendsHook ctx x → e.LendsHook ctx x ∨ e'.program.methods.Exports x) :
    e'.Surface ctx := by
  have hgrows := h.grows hsane hn
  refine ⟨fun {x} hx => ?_, fun {x} hx he => ?_⟩
  · rcases hexports x hx with hold | hnew
    · rcases hs.exports hold with hpublishes | ⟨hhook, m, t, hcarries, hm⟩ | hnamed
      · exact Or.inl hpublishes
      · exact Or.inr (Or.inl ⟨hhook, m, t, hgrows.carries hcarries, hm⟩)
      · exact Or.inr (Or.inr (hgrows.heap.namedMethods hnamed))
    · exact hnew
  · rcases hhooks x hx with hold | hnew
    · have hclean := (Advances.of_step h).noErrors he
      exact (h.methods hclean).exports (hs.hooks hold hclean)
    · exact hnew

theorem Surface.of_own (hs : e.Surface ctx) (h : Move ctx e e') (hsane : ctx.Sane) (hn : e.Named)
    (hmerged : e'.linker.merged = e.linker.merged)
    (hexports : ∀ x, e'.program.methods.Exports x →
      e.program.methods.Exports x ∨ ctx.Publishes x) : e'.Surface ctx :=
  hs.of_step h hsane hn (fun x hx => (hexports x hx).imp_right Or.inl)
    fun _ hx => Or.inl (hx.of_merged hmerged)

theorem Advance.surface (h : Move ctx e e') (hctx : ctx.Sound) (hn : e.Named)
    (ht : e.Tidy ctx) (hs : e.Surface ctx) : e'.Surface ctx := by
  have hsane := hctx.toSane
  have hmove := h
  have ht' := h.tidy hctx hn ht
  cases h with
  | altered h =>
    cases h with
    | @emitted y code _ _ _ =>
      have hflag (b : MethodBody) :
          MethodBody.exported { b with code := b.code ++ code } = (b.exported || false) :=
        (Bool.or_false _).symm
      refine hs.of_own hmove hsane hn rfl fun x hx => Or.inl ?_
      rcases (MethodTable.exports_update hflag).mp hx with hx | ⟨-, hfalse⟩
      · exact hx
      · cases hfalse
    | touched y exported _ hkeeps hnew =>
      refine hs.of_own hmove hsane hn rfl fun x hx => ?_
      have hflag (b : MethodBody) :
          MethodBody.exported { b with exported := exported b.exported } =
            (b.exported || exported false) := MethodTable.eq_or_of_keeps hkeeps _
      rcases (MethodTable.exports_update hflag).mp hx with hx | ⟨rfl, htrue⟩
      · exact Or.inl hx
      · exact Or.inr (hnew htrue _ rfl)
    | discarded event _ =>
      exact hs.of_own hmove hsane hn rfl fun x hx => Or.inl (MethodTable.exports_of_remove hx)
    | _ => exact hs.of_own hmove hsane hn rfl fun _ => Or.inl
  | @merged m aliases hadmits _ =>
    have hm := hsane.admits hadmits
    rcases hn.merge_cases hsane hm aliases with hsame | ⟨s, hmerge⟩
    · rw [hsame]
      exact hs
    · have hcarries := hmerge.carries hm
      obtain ⟨_, _, hrecord⟩ := ht'.linked.record_of hcarries
      obtain ⟨heap, hheap, hmethods⟩ := hmerge.outcome.methods
      refine hs.of_step hmove hsane hn (fun x hx => ?_) fun x hx => ?_
      · rw [hmerge.program, hmethods, MethodTable.exports_foldl_merge] at hx
        rcases hx with hx | ⟨c, hc, rfl, hexported⟩
        · exact Or.inl hx
        · refine Or.inr (Or.inr ?_)
          cases hmerge.outcome.isChunk rfl hc with
          | @hook method hmethod hhook hname _ =>
            refine Or.inl ⟨hname ▸ hhook, m, _, hcarries, ?_⟩
            exact hname ▸ MethodTable.contains_of_mem hmethod
          | own _ _ _ _ _ _ hnamed =>
            refine Or.inr ?_
            rw [hmerge.program]
            exact hheap.namedMethods (hnamed hexported)
          | copy _ _ _ hinternal =>
            rw [hinternal] at hexported
            cases hexported
      · obtain ⟨hhook, n, t, hn', hx⟩ := hx
        rcases hmerge.carries_cases hm hn' with ⟨rfl, rfl⟩ | ⟨hold, -⟩
        · refine Or.inr ?_
          have hunmerged : ¬Begins "__m" x := by
            simp only [Bool.and_eq_true] at hhook
            exact unmerged_of_isEventHook hhook.2
          rw [hmerge.program]
          exact hmerge.outcome.exports_hook hx (hrecord.notMem_shared hctx hunmerged) hhook
        · exact Or.inl ⟨hhook, n, t, hold, hx⟩

theorem surface_start (ctx : Context) : (Emission.start ctx.source).Surface ctx where
  exports := by
    rintro x ⟨b, hb, -⟩
    cases hb
  hooks := by
    rintro x ⟨-, m, t, hcarries, -⟩
    cases hcarries.merged

theorem Advances.surface (h : Moves ctx (.start ctx.source) e) (hctx : ctx.Sound) :
    e.Surface ctx :=
  h.keeps_tidy hctx (fun _ _ hmove hn ht hs => hmove.surface hctx hn ht hs) (surface_start ctx)

/-! ### Whole programs -/

namespace Complete

variable (he : e.Complete ctx)
include he

/-- What an event leaves in a program without errors: the machine may call its base and the method that
catches up, and constants name the methods that it is sent on to. -/
theorem leaves (hsane : ctx.Sane)
    (hevent : ctx.source.data.events[i]? = some event) :
    (∀ x, event.trigger.baseMethod? ctx.catalogue = some x → e.program.methods.Exports x) ∧
      (event.options.activeReplay ≠ .none → e.program.methods.Exports Emit.deserializationHook) ∧
      ∀ x, event.options.Dispatches i x → e.PoolsMethod x := by
  have hctx (_ : true = true) := hsane
  obtain ⟨e₁, e₄, hbefore, hrun, hafter⟩ := Context.advances_event hctx he.run hevent
  have hclean₄ := hafter.noErrors he.clean
  have ho₁ (_ : true = true) := hbefore.orderly hsane (orderly_start _)
  rw [Emit.emitEvent_eq] at hrun
  obtain ⟨opened, e₂, hopen, hrest⟩ := Attempt.exists_of_bind hrun
  obtain ⟨⟨⟩, e₃, hbody, hclose⟩ := Attempt.exists_of_bind hrest
  obtain ⟨hopens, hbase⟩ := Emit.opens_openEvent hctx ho₁ i event
  have hmethod := Emit.isTarget_bodyMethod hctx ho₁ i event
  have hopened := (EmitStep.Stepwise.openEvent hctx hevent).advances ho₁ hopen
  have ho₂ := hopened.orderly_of_tracked hctx ho₁
  cases hopen
  have hacted := (EmitStep.Stepwise.emitBody hctx hmethod i _
    (TriggerData.aligned_actions hevent)).advances ho₂ hbody
  have ho₃ := hacted.orderly_of_tracked hctx ho₂
  have hclosed := EmitStep.Stepwise.closeEvent hctx hevent ho₃ (hopens.keep hacted)
  have he₄ : e₄ = (Emit.closeEvent i event (Emit.openEvent ctx i event e₁).1 e₃).2 :=
    (congrArg Prod.snd hclose).symm
  rw [← he₄] at hclosed
  rcases hbuilt : (Emit.openEvent ctx i event e₁).1 with - | ⟨base, replay⟩
  · -- An event that cannot be built is an error.
    rw [hbuilt] at hopens
    rw [(hacted.trans hclosed).hasErrors hopens] at hclean₄
    cases hclean₄
  · rw [hbuilt] at hopens hbase he₄
    obtain ⟨hown, rfl⟩ := hopens
    obtain ⟨-, hsent⟩ := Emit.Leaves.closeEvent (ctx.chains_tracking true e₃.linker) i hown
      (fun _ => EmitStep.Stepwise.dispatches_tracking hevent _) e₃
      (Context.sees_tracking hctx ho₃)
    obtain ⟨hcaught, hnames⟩ := hsent e₄ (he₄ ▸ .refl _)
    refine ⟨fun x hx => ?_, fun hreplay => ?_, fun x hx => ?_⟩
    · exact (((hacted.trans hclosed).trans hafter).methods he.clean).exports (hbase rfl x hx)
    · exact (hafter.methods he.clean).exports (hcaught hreplay rfl hclean₄)
    · obtain ⟨id, hid⟩ := hnames hx rfl
      have hconsistent := (hclosed.orderly hsane (ho₃ rfl)).consistent
      exact ⟨id, (hafter.evolves hconsistent).heap.keeps.constants hid⟩

variable (hctx : ctx.Sound)
include hctx

theorem poolsMethod (h : ctx.source.Dispatches x) : e.PoolsMethod x := by
  obtain ⟨i, event, hevent, hx⟩ := h
  exact (he.leaves hctx.toSane hevent).2.2 x hx

theorem exports_base (hevent : event ∈ ctx.source.data.events)
    (hx : event.trigger.baseMethod? ctx.catalogue = some x) : e.program.methods.Exports x := by
  obtain ⟨i, hi⟩ := List.mem_iff_getElem?.mp hevent
  exact (he.leaves hctx.toSane hi).1 x hx

/-- A constant names a method exactly if an event is sent on to it. -/
theorem constant_iff :
    (∃ id v, e.program.symbols.get? id = some v ∧ v.kind = .constant ∧
      v.default = .method x) ↔
      ctx.source.Dispatches x ∨ e.Merges ctx Linkable.Dispatches x := by
  have ht := (he.moves.tidy hctx).2
  constructor
  · rintro ⟨id, v, hv, hkind, hx⟩
    exact (ht.method_of_constant hv hkind hx).imp_left And.right
  · rintro (hown | hmerged)
    · exact he.orderly.toNamed.constant_of_poolsMethod (he.poolsMethod hctx hown)
    · exact he.orderly.toNamed.constant_of_poolsMethod (ht.poolsMethod_of_merges hctx hmerged).2

theorem contains_of_constant {id : VarId} {v : Variable}
    (hv : e.program.symbols.get? id = some v) (hkind : v.kind = .constant)
    (hx : v.default = .method x) : e.program.methods.contains x = true := by
  have ht := (he.moves.tidy hctx).2
  rcases ht.method_of_constant hv hkind hx with ⟨hcontains, -⟩ | hmerged
  · exact hcontains he.clean
  · exact (ht.poolsMethod_of_merges hctx hmerged).1

/-- The methods that a module lends to others by name are those that its own events are sent on to. -/
theorem dispatches_iff (hm : m.program = e.program) :
    m.Dispatches x ↔ ctx.source.Dispatches x := by
  constructor
  · rintro ⟨-, hchain, id, v, hv, hkind, hx⟩
    refine ((he.constant_iff hctx).mp ⟨id, v, hm ▸ hv, hkind, hx⟩).resolve_right ?_
    rintro ⟨n, t, b, hcarries, rfl, -⟩
    obtain ⟨k, _, hrecord⟩ := (he.moves.tidy hctx).2.linked.record_of hcarries
    rw [hrecord.namePrefix] at hchain
    exact hchain.isOwnMethodName.unmerged (begins_mergedPrefix k b)
  · intro h
    obtain ⟨id, v, hv, hkind, hx⟩ := (he.constant_iff hctx).mpr (Or.inl h)
    refine ⟨?_, h.isChainMethod, id, v, hm ▸ hv, hkind, hx⟩
    rw [Linkable.HasMethod, hm]
    exact he.contains_of_constant hctx hv hkind hx

variable (hconstants : e.program.symbols.NamesByConstants)
include hconstants

theorem mem_namedMethods_iff : x ∈ e.program.symbols.namedMethods ↔
    ctx.source.Dispatches x ∨ e.Merges ctx Linkable.Dispatches x := by
  rw [SymbolTable.mem_namedMethods, ← he.constant_iff hctx]
  refine exists_congr fun id => exists_congr fun v => and_congr_right fun hv => ?_
  exact ⟨fun hx => ⟨hconstants hv hx, hx⟩, And.right⟩

/-- The methods that the machine can call in a finished program. -/
theorem exports_finish_iff {sync : SyncMethod} {report : FinishReport} {q : Program}
    (hfinish : (Program.finish sync ctx.settings).run e.program = (.ok report, q)) :
    q.methods.Exports x ↔ ctx.Publishes x ∨ e.LendsHook ctx x ∨
      e.Merges ctx Linkable.Dispatches x ∨ x = Program.startMethod ∧
        ∃ id v, q.symbols.get? id = some v ∧ v.name = SystemVariable.localPlayer.name := by
  have hsurface := he.moves.surface hctx
  have hnamed : x ∈ e.program.symbols.namedMethods ∧
      e.program.methods.contains x = true ↔
        ctx.source.Dispatches x ∨ e.Merges ctx Linkable.Dispatches x := by
    rw [← he.mem_namedMethods_iff hctx hconstants, and_iff_left_iff_imp]
    intro hx
    obtain ⟨id, v, hv, hx⟩ := SymbolTable.mem_namedMethods.mp hx
    exact he.contains_of_constant hctx hv (hconstants hv hx) hx
  rw [Program.exports_finish ⟨he.orderly.consistent, he.orderly.proper⟩ hfinish, hnamed]
  constructor
  · rintro (hexports | (hown | hmerged) | hstart)
    · rcases hsurface.exports hexports with hpublishes | hhook | hnamed
      · exact Or.inl hpublishes
      · exact Or.inr (Or.inl hhook)
      · rcases (he.mem_namedMethods_iff hctx hconstants).mp hnamed with hown | hmerged
        · exact Or.inl (.dispatched hown)
        · exact Or.inr (Or.inr (Or.inl hmerged))
    · exact Or.inl (.dispatched hown)
    · exact Or.inr (Or.inr (Or.inl hmerged))
    · exact Or.inr (Or.inr (Or.inr hstart))
  · rintro (hpublishes | hhook | hmerged | hstart)
    · cases hpublishes with
      | base hevent hbase _ => exact Or.inl (he.exports_base hctx hevent hbase)
      | caughtUp hevent hreplay =>
        obtain ⟨i, hi⟩ := List.mem_iff_getElem?.mp hevent
        exact Or.inl ((he.leaves hctx.toSane hi).2.1 hreplay)
      | dispatched hown => exact Or.inr (Or.inl (Or.inl hown))
    · exact Or.inl (hsurface.hooks hhook he.clean)
    · exact Or.inr (Or.inl (Or.inr hmerged))
    · exact Or.inr (Or.inr hstart)

end Complete

end Emission

/-! ### The methods that events publish -/

theorem chainMethod_inj {j : Nat} {part part' : String}
    (h : "ev" ++ toString i ++ ("_" ++ part) = "ev" ++ toString j ++ ("_" ++ part')) :
    i = j ∧ part = part' := by
  simp only [String.append_assoc] at h
  have hrest := append_right_cancel_iff.mp h
  rw [← String.append_assoc, ← String.append_assoc] at hrest
  exact number_underscore_inj hrest

/-- No event publishes the body of an event that is neither broadcast nor delayed. -/
theorem Context.not_publishes_body {ctx : Context}
    (hevent : ctx.source.data.events[i]? = some event) (hbroadcast : event.options.broadcast = .here)
    (hdelay : event.options.delay = .none) : ¬ctx.Publishes s!"ev{i}__body" := by
  have hchain : IsChainMethod s!"ev{i}__body" := ⟨i, _, by decide, rfl⟩
  have hparts (part : String) (j : Nat) (h : s!"ev{i}__body" = "ev" ++ toString j ++ ("_" ++ part)) :
      i = j ∧ "_body" = part :=
    chainMethod_inj (show "ev" ++ toString i ++ ("_" ++ "_body") = _ from h)
  generalize s!"ev{i}__body" = x at hchain hparts ⊢
  intro h
  cases h with
  | base _ _ hplain => exact hplain hchain
  | caughtUp _ _ => exact not_isChainMethod_of_isEventHook (by decide) hchain
  | dispatched h =>
    obtain ⟨j, event', hevent', hx⟩ := h
    have hsame (hij : i = j) : event' = event := by
      rw [← hij, hevent] at hevent'
      exact (Option.some.inj hevent').symm
    cases hx with
    | broadcast hb =>
      rw [EventOptions.broadcastTarget] at hparts
      split at hparts
      · exact hb (hsame (hparts "_body" j rfl).1 ▸ hbroadcast)
      · exact absurd (hparts "_replay" j rfl).2 (by decide)
    | delay hd =>
      rw [EventOptions.delayTarget] at hparts
      split at hparts
      · exact hd (hsame (hparts "_body" j rfl).1 ▸ hdelay)
      · exact absurd (hparts "_broadcast" j rfl).2 (by decide)

/-! ### Modules without names of methods -/

namespace ModuleCache

variable {settings : Settings} {sources : List ProgramSource} {cache : ModuleCache}

/-- The modules of a cache and the programs that they were compiled from: only constants name methods,
and a module lends the methods that the events of its program are sent on to. -/
structure Plain (sources : List ProgramSource) (cache : ModuleCache) : Prop where
  constants {key : String} {m : Linkable} : cache.get? key = some m →
    m.program.symbols.NamesByConstants
  source {key : String} {m : Linkable} : cache.get? key = some m → ∃ s ∈ sources, s.key = key
  module {s : ProgramSource} : s ∈ sources →
    ∃ m, cache.get? s.key = some m ∧ ∀ x, m.Dispatches x ↔ s.Dispatches x

theorem CompiledFrom.plain (h : cache.CompiledFrom settings sources)
    (hsources : ∀ s ∈ sources, s.NamesNoMethod) : cache.Plain sources := by
  induction h with
  | empty => exact ⟨nofun, nofun, nofun⟩
  | @publish sources used all cache earlier source m _ hearlier hall hsub hm hnew ih ihearlier =>
    have hold := ih fun s hs => hsources s ((hall s).mpr (Or.inr (Or.inr hs)))
    have hused := ihearlier fun s hs => hsources s ((hall s).mpr (Or.inr (Or.inl hs)))
    have hctx := hearlier.sound source
    obtain ⟨e, he, hkey, hprogram, -⟩ := Context.exists_of_linkable hctx.toSane hm
    have hkey : m.key = source.key := hkey
    have hconstants : m.program.symbols.NamesByConstants := hprogram ▸
      he.moves.namesByConstants hctx.toSane (hsources source ((hall source).mpr (Or.inl rfl)))
        fun _ _ hget => hused.constants hget
    refine ⟨fun {key n} hget => ?_, fun {key n} hget => ?_, fun {s} hs => ?_⟩
    · rw [get?_publish] at hget
      split at hget
      · cases hget
        exact hconstants
      · exact hold.constants hget
    · rw [get?_publish] at hget
      split at hget
      · rename_i heq
        exact ⟨source, (hall source).mpr (Or.inl rfl), hkey ▸ heq⟩
      · obtain ⟨s, hs, hskey⟩ := hold.source hget
        exact ⟨s, (hall s).mpr (Or.inr (Or.inr hs)), hskey⟩
    · rcases (hall s).mp hs with rfl | hs | hs
      · refine ⟨m, ?_, fun x => he.dispatches_iff hctx hprogram⟩
        rw [get?_publish, if_pos hkey]
      · obtain ⟨n, hn, hdispatches⟩ := hused.module hs
        exact ⟨n, get?_publish_of_some hnew (hsub _ _ hn), hdispatches⟩
      · obtain ⟨n, hn, hdispatches⟩ := hold.module hs
        exact ⟨n, get?_publish_of_some hnew hn, hdispatches⟩

/-- A method that a merged module lends is one that the events of the module's program are sent on to. -/
theorem Plain.dispatches_iff (h : cache.Plain sources)
    (hm : cache.get? m.key = some m) :
    m.Dispatches x ↔ ∃ s ∈ sources, s.key = m.key ∧ s.Dispatches x := by
  constructor
  · intro hx
    obtain ⟨s, hs, hkey⟩ := h.source hm
    obtain ⟨n, hn, hdispatches⟩ := h.module hs
    rw [hkey, hm] at hn
    cases hn
    exact ⟨s, hs, hkey, (hdispatches x).mp hx⟩
  · rintro ⟨s, hs, hkey, hx⟩
    obtain ⟨n, hn, hdispatches⟩ := h.module hs
    rw [hkey, hm] at hn
    cases hn
    exact (hdispatches x).mpr hx

end ModuleCache

/-! ### The surface of a compiled program -/

namespace Context

variable {ctx : Context}

/-- The modules that a program has merged when its code has been emitted, each behind the beginning that
its names have there. -/
def mergedModules (ctx : Context) : List (String × Linkable) :=
  ((Emit.emitProgram ctx).run (.start ctx.source)).2.linker.nestedModules ctx.modules

/-- The methods of a program that the machine is to call, given the programs that modules were compiled
from and the heap of the finished program. -/
inductive Exposes (ctx : Context) (sources : List ProgramSource) (heap : List HeapEntry) :
    String → Prop
  /-- The method that the machine calls for an event. -/
  | base {event : EventDecl} {x : String} (hevent : event ∈ ctx.source.data.events)
      (hx : event.trigger.baseMethod? ctx.catalogue = some x) : Exposes ctx sources heap x
  /-- A method that a broadcast or a delay sends an event on to. -/
  | dispatched {x : String} (h : ctx.source.Dispatches x) : Exposes ctx sources heap x
  /-- The method in which replayed events catch up. -/
  | caughtUp {event : EventDecl} (hevent : event ∈ ctx.source.data.events)
      (hreplay : event.options.activeReplay ≠ .none) :
      Exposes ctx sources heap Emit.deserializationHook
  /-- The start, in which the local player is fetched. -/
  | started {entry : HeapEntry} (hentry : entry ∈ heap)
      (hname : entry.name = SystemVariable.localPlayer.name) :
      Exposes ctx sources heap Program.startMethod
  /-- A method that the machine calls in a merged module, if the program shares such methods. -/
  | hook {start x : String} {m : Linkable} (hm : (start, m) ∈ ctx.mergedModules)
      (hinclude : ctx.settings.includeEventHooks = true) (hhook : Renaming.isEventHook x = true)
      (hx : m.HasMethod x) : Exposes ctx sources heap x
  /-- A method that an event of a merged module is sent on to, under its name in the program. -/
  | lent {start x : String} {m : Linkable} {s : ProgramSource}
      (hm : (start, m) ∈ ctx.mergedModules) (hs : s ∈ sources) (hkey : s.key = m.key)
      (hx : s.Dispatches x) : Exposes ctx sources heap (start ++ x)

/-- What a program that is compiled without errors is made of. -/
theorem exists_of_isSuccess (hctx : ctx.Sane) (h : ctx.compile.compiled.isSuccess = true) :
    ∃ e report q, Emission.Complete ctx e ∧
      (Program.finish ctx.source.data.sync ctx.settings).run e.program = (.ok report, q) ∧
      ctx.mergedModules = e.linker.nestedModules ctx.modules ∧
      ctx.compile.compiled = ctx.artifact e report q := by
  rcases ctx.compile_cases hctx with
    ⟨e, failure, hcompile, hfailure⟩ | ⟨e, report, q, he, hfinish, hcompile⟩
  · rw [hcompile, isSuccess_failedOutcome hfailure] at h
    cases h
  · refine ⟨e, report, q, he, hfinish, ?_, by rw [hcompile]⟩
    rw [mergedModules, he.run]

end Context

theorem mem_heap_ofProgram {p : Program} {entry : HeapEntry} :
    entry ∈ (Image.ofProgram p).heap ↔
      ∃ id v, p.symbols.get? id = some v ∧ entry = .ofVariable v := by
  rw [Image.ofProgram, List.mem_map]
  constructor
  · rintro ⟨⟨id, v⟩, hmem, rfl⟩
    exact ⟨id, v, OrderedMap.get?_eq_some_iff.mpr hmem, rfl⟩
  · rintro ⟨id, v, hv, rfl⟩
    exact ⟨(id, v), OrderedMap.get?_eq_some_iff.mp hv, rfl⟩

namespace Emission.Complete

variable {ctx : Context} {e : Emission} {sync : SyncMethod} {report : FinishReport} {q : Program}
  (he : e.Complete ctx) (hctx : ctx.Sound)
  (hconstants : e.program.symbols.NamesByConstants)
  (hfinish : (Program.finish sync ctx.settings).run e.program = (.ok report, q))
include he hctx hconstants hfinish

theorem exports_iff_exposes {sources : List ProgramSource} (hplain : ctx.modules.Plain sources)
    (hmerged : ctx.mergedModules = e.linker.nestedModules ctx.modules) :
    q.methods.Exports x ↔ ctx.Exposes sources (Image.ofProgram q).heap x := by
  have hlinked := (he.moves.tidy hctx).2.linked
  have hcarries {start : String} {m : Linkable} : (start, m) ∈ ctx.mergedModules ↔
      ∃ t, e.Carries ctx m t ∧ start = t.namePrefix := by
    rw [hmerged]
    exact hlinked.mem_nestedModules
  have hiff {y : String} := he.exports_finish_iff hctx hconstants (x := y) hfinish
  constructor
  · intro hx
    rcases hiff.mp hx with hpublishes | ⟨hhook, m, t, ht, hm⟩ | ⟨m, t, b, ht, rfl, hb⟩ |
      ⟨rfl, id, v, hv, hname⟩
    · cases hpublishes with
      | base hevent hbase _ => exact .base hevent hbase
      | caughtUp hevent hreplay => exact .caughtUp hevent hreplay
      | dispatched hown => exact .dispatched hown
    · simp only [Bool.and_eq_true] at hhook
      exact .hook (hcarries.mpr ⟨t, ht, rfl⟩) hhook.1 hhook.2 hm
    · obtain ⟨s, hs, hkey, hb⟩ := (hplain.dispatches_iff ht.cached).mp hb
      exact .lent (hcarries.mpr ⟨t, ht, rfl⟩) hs hkey hb
    · exact .started (mem_heap_ofProgram.mpr ⟨id, v, hv, rfl⟩) hname
  · intro hx
    cases hx with
    | base hevent hbase =>
      refine (Program.exports_finish ⟨he.orderly.consistent, he.orderly.proper⟩ hfinish).mpr (Or.inl ?_)
      exact he.exports_base hctx hevent hbase
    | dispatched hown => exact hiff.mpr (Or.inl (.dispatched hown))
    | caughtUp hevent hreplay => exact hiff.mpr (Or.inl (.caughtUp hevent hreplay))
    | started hentry hname =>
      obtain ⟨id, v, hv, rfl⟩ := mem_heap_ofProgram.mp hentry
      exact hiff.mpr (Or.inr (Or.inr (Or.inr ⟨rfl, id, v, hv, hname⟩)))
    | hook hm hinclude hhook hx =>
      obtain ⟨t, ht, -⟩ := hcarries.mp hm
      refine hiff.mpr (Or.inr (Or.inl ⟨?_, _, t, ht, hx⟩))
      rw [hinclude, hhook]
      rfl
    | lent hm hs hkey hb =>
      obtain ⟨t, ht, rfl⟩ := hcarries.mp hm
      refine hiff.mpr (Or.inr (Or.inr (Or.inl ⟨_, t, _, ht, rfl, ?_⟩)))
      exact (hplain.dispatches_iff ht.cached).mpr ⟨_, hs, hkey, hb⟩

theorem exports_of_default {id : VarId} {v : Variable}
    (hv : q.symbols.get? id = some v) (hx : v.default = .method x) : q.methods.Exports x := by
  have hsane : e.program.Sane := ⟨he.orderly.consistent, he.orderly.proper⟩
  have hv := Program.method_of_finish hsane hfinish hv hx
  refine (Program.exports_finish hsane hfinish).mpr (Or.inr (Or.inl ⟨?_, ?_⟩))
  · exact SymbolTable.mem_namedMethods.mpr ⟨id, v, hv, hx⟩
  · exact he.contains_of_constant hctx hv (hconstants hv hx) hx

theorem not_exports_body
    (hevent : ctx.source.data.events[i]? = some event) (hbroadcast : event.options.broadcast = .here)
    (hdelay : event.options.delay = .none) : ¬q.methods.Exports s!"ev{i}__body" := by
  have hchain : IsChainMethod s!"ev{i}__body" := ⟨i, _, by decide, rfl⟩
  rw [he.exports_finish_iff hctx hconstants hfinish]
  rintro (hpublishes | ⟨hhook, -⟩ | ⟨m, t, b, ht, hname, -⟩ | ⟨hstart, -⟩)
  · exact ctx.not_publishes_body hevent hbroadcast hdelay hpublishes
  · simp only [Bool.and_eq_true] at hhook
    exact not_isChainMethod_of_isEventHook hhook.2 hchain
  · obtain ⟨k, _, hrecord⟩ := (he.moves.tidy hctx).2.linked.record_of ht
    rw [hname, hrecord.namePrefix] at hchain
    exact hchain.isOwnMethodName.unmerged (begins_mergedPrefix k b)
  · rw [hstart] at hchain
    exact not_isChainMethod_of_isEventHook (by decide) hchain

end Emission.Complete

/-- The machine can call exactly the methods that a program exposes. Every method that a variable of the
finished program names is one of these; and the body of an event that is neither broadcast nor delayed,
whoever may raise the event, is none of them. -/
theorem exported_surface_exact {source : ProgramSource} {sources : List ProgramSource}
    {cache : ModuleCache} {settings : Settings} (hcache : cache.CompiledFrom settings sources)
    (hsources : ∀ s ∈ source :: sources, s.NamesNoMethod)
    (hok : (compileProgram source .builtin cache settings).compiled.isSuccess = true) :
    let compiled := (compileProgram source .builtin cache settings).compiled
    let ctx : Context := { source, catalogue := .builtin, modules := cache, settings }
    (∀ x, x ∈ compiled.exportedMethods ↔ ctx.Exposes sources compiled.heapDefaults x) ∧
      (∀ entry ∈ compiled.heapDefaults, ∀ x, entry.default = .method x →
        x ∈ compiled.exportedMethods) ∧
      ∀ (i : Nat) (event : EventDecl), source.data.events[i]? = some event →
        event.options.broadcast = .here → event.options.delay = .none →
        s!"ev{i}__body" ∉ compiled.exportedMethods := by
  obtain ⟨hsource, hmodules⟩ := List.forall_mem_cons.mp hsources
  have hctx := hcache.sound source
  have hplain := hcache.plain hmodules
  rw [compileProgram] at hok ⊢
  obtain ⟨e, report, q, he, hfinish, hmerged, hcompiled⟩ :=
    Context.exists_of_isSuccess hctx.toSane hok
  have hconstants := he.moves.namesByConstants hctx.toSane hsource fun _ _ hm => hplain.constants hm
  dsimp only
  rw [hcompiled]
  have hmem {x : String} : x ∈ (Context.artifact
      { source, catalogue := .builtin, modules := cache, settings } e report q).exportedMethods ↔
      q.methods.Exports x := MethodTable.exports_iff_mem.symm
  refine ⟨fun x => ?_, fun entry hentry x hx => ?_, fun i event hevent hbroadcast hdelay => ?_⟩
  · exact hmem.trans (he.exports_iff_exposes hctx hconstants hfinish hplain hmerged)
  · obtain ⟨id, v, hv, rfl⟩ := mem_heap_ofProgram.mp hentry
    exact hmem.mpr (he.exports_of_default hctx hconstants hfinish hv hx)
  · rw [hmem]
    exact he.not_exports_body hctx hconstants hfinish hevent hbroadcast hdelay

/-- A module with a method that the machine calls at the start and an event that is broadcast and
replayed. -/
def broadcastingModule : ProgramSource where
  key := "lamp"
  data := { events := [
    { trigger := .builtin "Start" [], actions := [.primitive "debug_log" []] },
    { trigger := .custom "flash" [], options := { broadcast := .all, replay := .all } }] }
  interface? := some { entries := [.ofCustomEvent "flash" "flash" []] }

/-- A program that calls the module from an event of the owner and delays another event. -/
def gatedCaller : ProgramSource where
  key := "caller"
  data := { events := [
    { trigger := .builtin "Interact" [], options := { gate := .owner }
      actions := [.ofModule "lamp" "flash" []] },
    { trigger := .custom "later" [], options := { delay := .frames 3 } }] }

def broadcastingLinkable : Linkable :=
  (compileProgram broadcastingModule .builtin .empty {}).linkable.getD default

/-- The event of the module is sent on to under its name in the caller, and the body of the event of the
owner is hidden. -/
theorem exported_surface_exact_gatedCaller :
    let compiled := (compileProgram gatedCaller .builtin
      (ModuleCache.publish .empty broadcastingLinkable) {}).compiled
    compiled.exportedMethods =
      ["_interact", "_start", "__m0_ev1__replay", "_onDeserialization", "later", "ev1__body"] ∧
    Context.Exposes
      { source := gatedCaller, catalogue := .builtin
        modules := ModuleCache.publish .empty broadcastingLinkable, settings := {} }
      [broadcastingModule] compiled.heapDefaults "__m0_ev1__replay" ∧
    "ev0__body" ∉ compiled.exportedMethods := by
  have hsome : (compileProgram broadcastingModule .builtin .empty {}).linkable.isSome = true := by
    decide +kernel
  have hm : (compileProgram broadcastingModule .builtin .empty {}).linkable =
      some broadcastingLinkable := by
    obtain ⟨m, hm⟩ := Option.isSome_iff_exists.mp hsome
    rw [broadcastingLinkable, hm]
    rfl
  have hcache : (ModuleCache.publish .empty broadcastingLinkable).CompiledFrom {}
      [broadcastingModule] :=
    .publish .empty .empty (by simp) (fun _ _ h => h) hm rfl
  have hnames : (compileProgram gatedCaller .builtin
      (ModuleCache.publish .empty broadcastingLinkable) {}).compiled.exportedMethods =
      ["_interact", "_start", "__m0_ev1__replay", "_onDeserialization", "later", "ev1__body"] := by
    decide +kernel
  obtain ⟨hexposes, -, hhidden⟩ := @exported_surface_exact gatedCaller _ _ _ hcache (by decide)
    (by decide +kernel)
  refine ⟨hnames, (hexposes _).mp ?_, hhidden 0 _ rfl rfl rfl⟩
  rw [hnames]
  decide

end TriggerCompiler
