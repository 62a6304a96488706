import TriggerCompiler.Proofs.HeapSteps

/-! The states that a compilation passes through. Between the events nothing is open; before each action
of an event its blocks stand open in the method that the actions go to. -/

namespace TriggerCompiler

/-- A point of a compilation. -/
inductive Point where
  /-- Before the event with a number. -/
  | event (i : Nat)
  /-- Before an action of an event, whose actions are compiled into a method. -/
  | action (i j : Nat) (method : String)
  /-- Before the merge for an action that calls a module. -/
  | call (i j : Nat) (method : String) (callee : Linkable)

/-- The states at the points of a compilation. -/
inductive Context.Reaches (ctx : Context) : Point → Emission → Prop
  | start : ctx.Reaches (.event 0)
      ((ctx.source.data.vars.forM (Emit.declareVariable ctx.source.data.sync) : Emit Unit)
        (.start ctx.source)).2
  | enter {i : Nat} {event : EventDecl} {opened : Option (Emit.EventBase × ReplayMode)}
      {e e' : Emission} (h : ctx.Reaches (.event i) e)
      (hevent : ctx.source.data.events[i]? = some event)
      (hrun : Emit.openEvent ctx i event e = (opened, e')) :
      ctx.Reaches (.action i 0 (Emit.bodyMethod i event opened))
        { e' with blocks := .ofParameters (Emit.bodyParams opened) }
  | act {i j : Nat} {event : EventDecl} {action : ActionInstance} {method : String}
      {e e' : Emission} (h : ctx.Reaches (.action i j method) e)
      (hevent : ctx.source.data.events[i]? = some event) (haction : event.actions[j]? = some action)
      (hrun : (Emit.emitAction ctx method (.ofAction i j) action).run e = (.ok (), e')) :
      ctx.Reaches (.action i (j + 1) method) e'
  | call {i j : Nat} {event : EventDecl} {action : ActionInstance} {method : String}
      {callee : Linkable} {entry : ModuleEntry} {e : Emission}
      (h : ctx.Reaches (.action i j method) e)
      (hevent : ctx.source.data.events[i]? = some event) (haction : event.actions[j]? = some action)
      (hcallee : ctx.catalogue.resolve ctx.modules action.action = .moduleEntry callee entry) :
      ctx.Reaches (.call i j method callee) (Emit.flushPrevious method e).2
  | leave {i : Nat} {event : EventDecl} {e e' : Emission} (h : ctx.Reaches (.event i) e)
      (hevent : ctx.source.data.events[i]? = some event)
      (hrun : (Emit.emitEvent ctx i event).run e = (.ok (), e')) : ctx.Reaches (.event (i + 1)) e'

namespace Context

variable {ctx : Context} {e e' : Emission}

theorem reaches_emitEvents {i : Nat} {events : List EventDecl}
    (hevents : ctx.source.data.events.drop i = events) (h : ctx.Reaches (.event i) e)
    (hrun : (Emit.emitEvents ctx i events).run e = (.ok (), e')) :
    ctx.Reaches (.event (i + events.length)) e' := by
  induction events generalizing i e with
  | nil =>
    cases hrun
    exact h
  | cons event events ih =>
    rw [Emit.emitEvents, Attempt.run_bind] at hrun
    rcases hfirst : (Emit.emitEvent ctx i event).run e with ⟨result, e₁⟩
    rw [hfirst] at hrun
    cases result with
    | error failure => cases hrun
    | ok _ =>
      have hevent : ctx.source.data.events[i]? = some event := by
        rw [← List.head?_drop, hevents]
        rfl
      have hrest : ctx.source.data.events.drop (i + 1) = events := by
        rw [← List.tail_drop, hevents]
        rfl
      have hlast := ih hrest (h.leave hevent hfirst) hrun
      rw [List.length_cons, Nat.add_comm events.length 1, ← Nat.add_assoc]
      exact hlast

/-- A compilation that does not fail ends behind the last event. -/
theorem reaches_emitProgram (h : (Emit.emitProgram ctx).run (.start ctx.source) = (.ok (), e)) :
    ctx.Reaches (.event ctx.source.data.events.length) e := by
  have hlast := reaches_emitEvents (List.drop_zero) .start h
  rwa [Nat.zero_add] at hlast

end Context

/-- Whether the actions at a point go to a method of the program's own. -/
def Point.Owned (ctx : Context) : Point → Prop
  | .event _ => True
  | .action _ _ method | .call _ _ method _ => ctx.IsTarget true method

/-- A compilation moves from point to point. -/
theorem Context.Reaches.moves {ctx : Context} {point : Point} {e : Emission}
    (h : ctx.Reaches point e) (hsane : ctx.Sane) :
    Emission.Moves ctx (.start ctx.source) e ∧ point.Owned ctx := by
  have hctx (_ : true = true) := hsane
  have horderly {e : Emission} (hmoves : Emission.Moves ctx (.start ctx.source) e) (_ : true = true) :=
    hmoves.orderly hsane (Emission.orderly_start ctx.source)
  induction h with
  | start => exact ⟨EmitStep.Stepwise.declareVariables hctx _ fun _ => Emission.orderly_start _, trivial⟩
  | @enter i event opened e e' _ hevent hrun ih =>
    have hopen := EmitStep.Stepwise.openEvent hctx hevent e (horderly ih.1)
    have hmethod := Emit.isTarget_bodyMethod hctx (horderly ih.1) i event
    rw [hrun] at hmethod
    rw [show ((liftM (Emit.openEvent ctx i event) : EmitStep _).run e).2 = e' from
      congrArg Prod.snd hrun] at hopen
    have hmoves := ih.1.trans hopen
    exact ⟨hmoves.trans (EmitStep.Stepwise.openBody hctx _ e' (horderly hmoves)), hmethod⟩
  | @act i j event action method e e' _ hevent haction hrun ih =>
    have haction : ctx.source.data.action? i j = some action := by
      rw [TriggerData.action?, hevent]
      exact haction
    exact ⟨ih.1.trans ((EmitStep.Stepwise.emitAction hctx ih.2 haction).advances (horderly ih.1) hrun),
      ih.2⟩
  | @call i j event action method callee entry e _ _ _ _ ih =>
    have hflush (l : Linker) : Emit.Within (ctx.tracking true l) (Emit.flushPrevious method) :=
      .flushPrevious ih.2 trivial
    exact ⟨ih.1.trans (EmitStep.Stepwise.lift_at hctx (horderly ih.1) (hflush _)), ih.2⟩
  | @leave i event e e' _ hevent hrun ih =>
    exact ⟨ih.1.trans ((EmitStep.Stepwise.emitEvent hctx hevent).advances (horderly ih.1) hrun),
      trivial⟩

end TriggerCompiler
