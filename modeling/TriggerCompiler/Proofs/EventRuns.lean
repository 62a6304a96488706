import TriggerCompiler.Proofs.ScopeSteps

/-! The emission of whole events. An event binds its parameters, compiles its actions, ends the visibility
of everything that it declared, and emits the methods around its body. All of it only lets the heap
evolve. -/

namespace TriggerCompiler

open Emission

namespace Emission

/-- The state in which the actions of an event with its parameters begin. -/
def begun (e : Emission) (params : List VarId) : Emission := { e with blocks := .ofParameters params }

/-- The state after the actions of an event: nothing that it declared is visible any more. -/
def finished (e : Emission) : Emission := e.popped (e.blocks.scopes.flatMap Prod.snd) {}

theorem evolves_begun {e : Emission} (hc : e.program.symbols.Consistent) (params : List VarId) :
    e.Evolves (e.begun params) := .of_heap (.refl hc) rfl rfl

end Emission

namespace Emit

variable {ctx : Context} {index i : Nat} {event : EventDecl} {e e' : Emission}
  {opened : Option (EventBase × ReplayMode)} {events : List EventDecl} {actions : List ActionInstance}
  {action : ActionInstance}

/-- The last step of the body of an event: its blocks are closed. -/
def finishBlocks (index : Nat) : EmitStep Unit := do
  let e ← get
  let (result, blocks, symbols) := e.blocks.finish index e.program.symbols
  set { e with blocks, program := { e.program with symbols } }
  match result with
  | .ok () => return ()
  | .error failure => throw failure

theorem exists_of_emitBody {method : String} {params : List VarId}
    (hrun : (emitBody ctx method index params actions).run e = (.ok (), e')) :
    ∃ e₁, (emitActions ctx method index 0 actions).run (e.begun params) = (.ok (), e₁) ∧
      e' = (flushPrevious method e₁).2.finished := by
  obtain ⟨⟨⟩, e₁, hactions, hrest⟩ := Attempt.exists_of_bind (x := emitActions ctx method index 0 actions)
    (s := e.begun params) hrun
  refine ⟨e₁, hactions, ?_⟩
  generalize hflush : (flushPrevious method e₁).2 = e₂
  have hfinish : (finishBlocks index).run e₂ = (.ok (), e') := by
    rw [← hflush]
    exact hrest
  have howned : e₂.blocks.scopes.flatMap Prod.snd = e₂.blocks.frames.flatMap BlockFrame.owned := by
    rw [BlockStack.scopes, List.flatMap_map]
    rfl
  rw [finished, howned]
  rw [finishBlocks, Attempt.run_get_bind] at hfinish
  simp only [BlockStack.finish] at hfinish
  rw [Attempt.run_set_bind] at hfinish
  split at hfinish
  · cases hfinish
    rfl
  · cases hfinish

theorem exists_of_lift_bind {α β : Type} {x : Emit α} {f : α → EmitStep β} {b : β}
    (h : ((liftM x : EmitStep α) >>= f).run e = (.ok b, e')) :
    ∃ a e₁, x e = (a, e₁) ∧ (f a).run e₁ = (.ok b, e') := ⟨_, _, rfl, h⟩

/-- The emission of an event: its base, its actions, and what stands around them. -/
theorem exists_of_emitEvent (hrun : (emitEvent ctx index event).run e = (.ok (), e')) :
    let opened := (openEvent ctx index event e).1
    ∃ e₁, (emitActions ctx (bodyMethod index event opened) index 0 event.actions).run
        ((openEvent ctx index event e).2.begun (bodyParams opened)) = (.ok (), e₁) ∧
      e' = (closeEvent index event opened
        (flushPrevious (bodyMethod index event opened) e₁).2.finished).2 := by
  intro opened
  rw [emitEvent_eq] at hrun
  obtain ⟨opened', e₀, hopen, hrest⟩ := Attempt.exists_of_bind hrun
  cases hopen
  obtain ⟨⟨⟩, e₂, hbody, hclose⟩ := Attempt.exists_of_bind hrest
  obtain ⟨e₁, hactions, rfl⟩ := exists_of_emitBody hbody
  cases hclose
  exact ⟨e₁, hactions, rfl⟩

theorem still_closeEvent (opened : Option (EventBase × ReplayMode))
    (hc : e.program.symbols.Consistent) : e.Still (closeEvent index event opened e).2 :=
  (Within.closeEvent Footprint.chains_unbound index event (fun _ => Footprint.not_tracks_unbound)
    fun _ _ _ => ⟨trivial, fun h => absurd h Footprint.not_tracks_unbound⟩).still hc

theorem evolves_openEvent (ctx : Context) (index : Nat) (event : EventDecl)
    (hc : e.program.symbols.Consistent) : e.Evolves (openEvent ctx index event e).2 :=
  (Within.openEvent (F := .full) trivial (fun _ _ _ _ _ => trivial) (fun _ _ _ _ _ => trivial)
    nofun index).evolves hc

/-- What the actions of an event keep, they keep together with the code around them. -/
theorem along_emitEvent {P : Nat → List Lookup → Emission → Prop} (done : List Lookup)
    (h : Invariant ctx index event.actions P)
    (hbegun : P 0 done ((openEvent ctx index event e).2.begun
      (bodyParams (openEvent ctx index event e).1)))
    (hrun : (emitEvent ctx index event).run e = (.ok (), e')) :
    Lookup.Along (LooksOf index P) done (eventRun ctx index event e).lookups ∧
      ∃ e₁, P event.actions.length (done ++ (eventRun ctx index event e).lookups) e₁ ∧
        e₁.finished.Still e' := by
  obtain ⟨e₁, hactions, rfl⟩ := exists_of_emitEvent hrun
  obtain ⟨halong, hacted⟩ := along_emitActions h (List.drop_zero) hbegun hactions
  rw [Nat.zero_add] at hacted
  have hquiet : Within .unbound (flushPrevious (bodyMethod index event (openEvent ctx index event e).1)) :=
    .flushPrevious trivial trivial
  have hflushed := h.still hacted (hquiet.still (h.consistent hacted))
  exact ⟨halong, _, hflushed,
    still_closeEvent _ (evolves_popped (h.consistent hflushed) _ _).heap.consistent⟩

theorem invariant_evolves (ctx : Context) (index : Nat) (actions : List ActionInstance) (e : Emission) :
    Invariant ctx index actions fun _ _ e' => e.Evolves e' where
  consistent h := h.heap.consistent
  still h hstill := h.trans hstill.toEvolves
  prepare _ h hprepared := h.trans hprepared.evolves
  look h _ := h
  declare _ h _ _ := h.trans (evolves_declaring h.heap.consistent _ _ _)
  index h := h.trans (evolves_localized h.heap.consistent _ _)

theorem evolves_of_openEvent (hc : e.program.symbols.Consistent)
    (hrun : (emitEvent ctx index event).run e = (.ok (), e')) :
    (openEvent ctx index event e).2.Evolves e' := by
  have hopen := (evolves_openEvent ctx index event hc).heap.consistent
  obtain ⟨-, e₁, hacted, hstill⟩ := along_emitEvent [] (invariant_evolves ctx index
    event.actions (openEvent ctx index event e).2) (evolves_begun hopen _) hrun
  exact (hacted.trans (evolves_popped hacted.heap.consistent _ _)).trans hstill.toEvolves

theorem evolves_emitEvent (hc : e.program.symbols.Consistent)
    (hrun : (emitEvent ctx index event).run e = (.ok (), e')) : e.Evolves e' :=
  (evolves_openEvent ctx index event hc).trans (evolves_of_openEvent hc hrun)

theorem evolves_emitEvents (hc : e.program.symbols.Consistent)
    (hrun : (emitEvents ctx index events).run e = (.ok (), e')) : e.Evolves e' := by
  induction events generalizing index e with
  | nil =>
    cases hrun
    exact .refl hc
  | cons event rest ih =>
    obtain ⟨⟨⟩, e₁, hfirst, hlater⟩ := Attempt.exists_of_bind hrun
    have hevent := evolves_emitEvent hc hfirst
    exact hevent.trans (ih hevent.heap.consistent hlater)

/-- The states before and behind one of several events. -/
theorem exists_event (hc : e.program.symbols.Consistent)
    (hrun : (emitEvents ctx index events).run e = (.ok (), e')) (hevent : events[i]? = some event) :
    ∃ e₁ e₂, e.Evolves e₁ ∧ (emitEvent ctx (index + i) event).run e₁ = (.ok (), e₂) ∧
      (emitEvents ctx (index + i + 1) (events.drop (i + 1))).run e₂ = (.ok (), e') ∧
      (eventRuns ctx index events e)[i]? = some (eventRun ctx (index + i) event e₁) := by
  induction events generalizing index i e with
  | nil => cases hevent
  | cons first rest ih =>
    obtain ⟨⟨⟩, e₂, hfirst, hlater⟩ := Attempt.exists_of_bind hrun
    cases i with
    | zero =>
      cases hevent
      exact ⟨e, e₂, .refl hc, hfirst, hlater, rfl⟩
    | succ i =>
      have hevolves := evolves_emitEvent hc hfirst
      have hindex : index + (i + 1) = index + 1 + i := by omega
      have hfinal : (eventRun ctx index first e).final = e₂ := congrArg Prod.snd hfirst
      obtain ⟨e₁, e₃, hbefore, hemit, hafter, hruns⟩ := ih hevolves.heap.consistent hlater hevent
      rw [hindex, eventRuns, hfinal]
      exact ⟨e₁, e₃, hevolves.trans hbefore, hemit, hafter, hruns⟩

/-- The steps before and behind one of several events. -/
theorem advances_event {tracked : Bool} (hctx : tracked = true → ctx.Sane)
    (hevents : Aligned (fun i => ctx.source.data.events[i]?) index events)
    (he : tracked = true → e.Orderly) (hrun : (emitEvents ctx index events).run e = (.ok (), e'))
    (hevent : events[i]? = some event) :
    ∃ e₁ e₂, Advances ctx tracked e e₁ ∧ (emitEvent ctx (index + i) event).run e₁ = (.ok (), e₂) ∧
      Advances ctx tracked e₂ e' := by
  induction events generalizing index i e with
  | nil => cases hevent
  | cons first rest ih =>
    obtain ⟨⟨⟩, e₂, hfirst, hlater⟩ := Attempt.exists_of_bind hrun
    have hsteps := (EmitStep.Stepwise.emitEvent hctx hevents.head).advances he hfirst
    have he₂ := hsteps.orderly_of_tracked hctx he
    cases i with
    | zero =>
      cases hevent
      exact ⟨e, e₂, .refl e, hfirst,
        (EmitStep.Stepwise.emitEvents hctx _ hevents.tail).advances he₂ hlater⟩
    | succ i =>
      obtain ⟨e₁, e₃, hbefore, hemit, hafter⟩ := ih hevents.tail he₂ hlater hevent
      rw [show index + (i + 1) = index + 1 + i by omega]
      exact ⟨e₁, e₃, hsteps.trans hbefore, hemit, hafter⟩

/-- The steps before and behind one of several actions. -/
theorem steps_action {method : String} (hmethod : ctx.IsTarget false method) {k : Nat}
    (hactions : Aligned (ctx.source.data.action? index) i actions)
    (hrun : (emitActions ctx method index i actions).run e = (.ok (), e'))
    (haction : actions[k]? = some action) :
    ∃ e₁ e₂, SourceSteps ctx e e₁ ∧
      (emitAction ctx method (.ofAction index (i + k)) action).run e₁ = (.ok (), e₂) ∧
      SourceSteps ctx e₂ e' := by
  induction actions generalizing i k e with
  | nil => cases haction
  | cons first rest ih =>
    obtain ⟨⟨⟩, e₂, hfirst, hlater⟩ := Attempt.exists_of_bind hrun
    cases k with
    | zero =>
      cases haction
      have hsteps := (EmitStep.Stepwise.emitActions ctx.untracked hmethod index _ hactions.tail).steps hlater
      exact ⟨e, e₂, .refl e, hfirst, hsteps⟩
    | succ k =>
      have hsteps := (EmitStep.Stepwise.emitAction ctx.untracked hmethod hactions.head).steps hfirst
      obtain ⟨e₁, e₃, hbefore, hemit, hafter⟩ := ih hactions.tail hlater haction
      rw [show i + (k + 1) = i + 1 + k by omega]
      exact ⟨e₁, e₃, hsteps.trans hbefore, hemit, hafter⟩

theorem length_eventRuns (ctx : Context) (index : Nat) (events : List EventDecl) (e : Emission) :
    (eventRuns ctx index events e).length = events.length := by
  induction events generalizing index e with
  | nil => rfl
  | cons event rest ih => exact congrArg (· + 1) (ih _ _)

end Emit

namespace Context

variable {ctx : Context} {e : Emission} {event : EventDecl}

theorem consistent_declared (ctx : Context) : ctx.declared.program.symbols.Consistent :=
  ((Emit.Within.forM fun _ => .declareVariable (F := .full) trivial _).evolves
    SymbolTable.consistent_empty).heap.consistent

/-- The states before and behind an event of a program. -/
theorem exists_event
    (hrun : (Emit.emitProgram ctx).run (.start ctx.source) = (.ok (), e))
    (hevent : ctx.source.data.events[i]? = some event) :
    ∃ e₁ e₂, e₁.program.symbols.Consistent ∧ (Emit.emitEvent ctx i event).run e₁ = (.ok (), e₂) ∧
      (Emit.emitEvents ctx (i + 1) (ctx.source.data.events.drop (i + 1))).run e₂ = (.ok (), e) ∧
      ctx.runs[i]? = some (Emit.eventRun ctx i event e₁) := by
  obtain ⟨e₁, e₂, hbefore, hemit, hafter, hruns⟩ :=
    Emit.exists_event (e := ctx.declared) ctx.consistent_declared hrun hevent
  rw [Nat.zero_add] at hemit hafter hruns
  exact ⟨e₁, e₂, hbefore.heap.consistent, hemit, hafter, hruns⟩

/-- The steps before and behind an event of a program. -/
theorem advances_event {tracked : Bool} (hctx : tracked = true → ctx.Sane)
    (hrun : (Emit.emitProgram ctx).run (.start ctx.source) = (.ok (), e))
    (hevent : ctx.source.data.events[i]? = some event) :
    ∃ e₁ e₂, Advances ctx tracked (.start ctx.source) e₁ ∧
      (Emit.emitEvent ctx i event).run e₁ = (.ok (), e₂) ∧ Advances ctx tracked e₂ e := by
  have hstart (_ : tracked = true) := orderly_start ctx.source
  have hdeclared : Advances ctx tracked (.start ctx.source) ctx.declared :=
    EmitStep.Stepwise.declareVariables hctx _ hstart
  obtain ⟨e₁, e₂, hbefore, hemit, hafter⟩ := Emit.advances_event hctx (e := ctx.declared)
    ctx.source.data.aligned_events (hdeclared.orderly_of_tracked hctx hstart) hrun hevent
  rw [Nat.zero_add] at hemit
  exact ⟨e₁, e₂, hdeclared.trans hbefore, hemit, hafter⟩

theorem steps_event
    (hrun : (Emit.emitProgram ctx).run (.start ctx.source) = (.ok (), e))
    (hevent : ctx.source.data.events[i]? = some event) :
    ∃ e₁ e₂, SourceSteps ctx (.start ctx.source) e₁ ∧ (Emit.emitEvent ctx i event).run e₁ = (.ok (), e₂) ∧
      SourceSteps ctx e₂ e := advances_event ctx.untracked hrun hevent

/-- The steps before and behind an action of a program. -/
theorem steps_action {event : Nat}
    (hrun : (Emit.emitProgram ctx).run (.start ctx.source) = (.ok (), e))
    (haction : ctx.source.data.action? event i = some action) :
    ∃ method e₁ e₂, ctx.IsTarget false method ∧ SourceSteps ctx (.start ctx.source) e₁ ∧
      (Emit.emitAction ctx method (.ofAction event i) action).run e₁ = (.ok (), e₂) ∧
      SourceSteps ctx e₂ e := by
  obtain ⟨d, hevent, hi⟩ := Option.bind_eq_some_iff.mp haction
  obtain ⟨e₁, e₄, hbefore, hemit, hafter⟩ := steps_event hrun hevent
  obtain ⟨e₃, hactions, rfl⟩ := Emit.exists_of_emitEvent hemit
  have hmethod := Emit.isTarget_bodyMethod (e := e₁) ctx.untracked nofun event d
  obtain ⟨e₂, e₂', hfirst, hrun, hlater⟩ :=
    Emit.steps_action hmethod (TriggerData.aligned_actions hevent) hactions hi
  rw [Nat.zero_add] at hrun
  have hopen : SourceSteps ctx e₁ (Emit.openEvent ctx event d e₁).2 :=
    EmitStep.Stepwise.openEvent ctx.untracked hevent e₁ nofun
  have hflush : SourceSteps ctx e₃ (Emit.flushPrevious _ e₃).2 :=
    Stays.advances (Emit.Within.flushPrevious hmethod trivial e₃ nofun)
  generalize (Emit.flushPrevious _ e₃).2 = e₅ at hflush hafter
  have hfinish : SourceSteps ctx e₅ e₅.finished :=
    EmitStep.Stepwise.unbindAll _ (fun _ => BlockStack.marked_empty) _
  have hbegun : SourceSteps ctx (Emit.openEvent ctx event d e₁).2 ((Emit.openEvent ctx event d e₁).2.begun
      (Emit.bodyParams (Emit.openEvent ctx event d e₁).1)) :=
    EmitStep.Stepwise.openBody ctx.untracked _ _ nofun
  have hacted := (EmitStep.Stepwise.emitActions ctx.untracked hmethod event 0
    (TriggerData.aligned_actions hevent)).steps hactions
  have hclose := EmitStep.Stepwise.closeEvent ctx.untracked hevent nofun
    ((Emit.opens_openEvent ctx.untracked nofun event d).1.keep (hbegun.trans (hacted.trans (hflush.trans hfinish))))
  exact ⟨_, e₂, e₂', hmethod, hbefore.trans (hopen.trans (hbegun.trans hfirst)), hrun,
    hlater.trans ((hflush.trans hfinish).trans (hclose.trans hafter))⟩

end Context

end TriggerCompiler
