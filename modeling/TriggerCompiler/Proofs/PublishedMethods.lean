import TriggerCompiler.Compile
import TriggerCompiler.Proofs.Names

/-! What the machine may call in a program: the methods that its events start with, the one that catches up
missed occurrences, and the methods that an event is sent on to by name. -/

namespace TriggerCompiler

open Text

/-- A method around the body of an event, or the body itself. -/
def IsChainMethod (x : String) : Prop :=
  ∃ (event : Nat), ∃ part ∈ ["__body", "__replay", "__broadcast", "__delay", "__unreachable"],
    x = "ev" ++ toString event ++ part

theorem IsChainMethod.begins {x : String} (h : IsChainMethod x) : Begins "ev" x := by
  obtain ⟨event, part, -, rfl⟩ := h
  rw [String.append_assoc]
  exact begins_append _ _

theorem IsChainMethod.legal {x : String} (h : IsChainMethod x) : isLegalIdentifier x = true := by
  obtain ⟨event, part, hpart, rfl⟩ := h
  have hword : ∀ part ∈ ["__body", "__replay", "__broadcast", "__delay", "__unreachable"],
      isWord part = true := by decide
  have hnumber := isLegalIdentifier_append (by decide : isLegalIdentifier "ev" = true)
    (isWord_toString_nat event)
  exact isLegalIdentifier_append hnumber (hword part hpart)

theorem begins_of_isEventHook {x : String} (h : Renaming.isEventHook x = true) :
    Begins "_" x ∧ ¬Begins "__" x := by
  have hunder : "__".toList = ['_', '_'] := rfl
  rw [Begins, Begins, hunder, show "_".toList = ['_'] from rfl]
  unfold Renaming.isEventHook at h
  split at h
  · cases h
  · rename_i rest hrest hx
    rw [hx]
    refine ⟨⟨rest, rfl⟩, ?_⟩
    rintro ⟨tail, htail⟩
    exact hrest tail (List.cons.inj htail).2.symm
  · cases h

theorem not_isChainMethod_of_isEventHook {x : String} (h : Renaming.isEventHook x = true) :
    ¬IsChainMethod x :=
  fun hchain => hchain.begins.not_begins (by decide) (by decide) (begins_of_isEventHook h).1

theorem not_isChainMethod_of_isVariableName {x : String} (h : Emit.isVariableName x = true) :
    ¬IsChainMethod x := by
  rintro ⟨event, part, hpart, rfl⟩
  have hunder : ∀ part ∈ ["__body", "__replay", "__broadcast", "__delay", "__unreachable"],
      Begins "__" part := by decide
  obtain ⟨rest, rfl⟩ := begins_iff.mp (hunder part hpart)
  rw [Emit.isVariableName, hasDoubleUnderscore_append] at h
  simp at h

/-- The events of every program have methods that the machine calls. -/
theorem isEventHook_method {name : String} {d : EventDef}
    (h : Catalogue.builtin.event? name = some d) : Renaming.isEventHook d.method = true := by
  have hall : Catalogue.builtin.events.entries.all
      (fun e => Renaming.isEventHook e.2.method) = true := by decide
  exact List.all_eq_true.mp hall _ (OrderedMap.get?_eq_some_iff.mp h)

theorem isLegalIdentifier_method {name : String} {d : EventDef}
    (h : Catalogue.builtin.event? name = some d) : isLegalIdentifier d.method = true := by
  have hall : Catalogue.builtin.events.entries.all
      (fun e => isLegalIdentifier e.2.method) = true := by decide
  exact List.all_eq_true.mp hall _ (OrderedMap.get?_eq_some_iff.mp h)

/-- The method that the machine calls for an event, if it calls one by name. -/
def EventTrigger.baseMethod? (catalogue : Catalogue) : EventTrigger → Option String
  | .builtin name _ => (catalogue.event? name).map EventDef.method
  | .custom name _ => some name
  | .changed _ => none

namespace EventOptions

/-- The replay mode that takes effect: only a broadcast event is replayed. -/
def activeReplay (o : EventOptions) : ReplayMode := if o.broadcast = .here then .none else o.replay

/-- The method that a broadcast sends an event on to. -/
def broadcastTarget (o : EventOptions) (event : Nat) : String :=
  if o.activeReplay = .none then s!"ev{event}__body" else s!"ev{event}__replay"

/-- The method that a delay sends an event on to. -/
def delayTarget (o : EventOptions) (event : Nat) : String :=
  if o.broadcast = .here then s!"ev{event}__body" else s!"ev{event}__broadcast"

theorem broadcastTarget_eq (o : EventOptions) (event : Nat) : o.broadcastTarget event =
    if decide (o.activeReplay ≠ .none) = true then s!"ev{event}__replay" else s!"ev{event}__body" := by
  rw [broadcastTarget]
  by_cases h : o.activeReplay = .none
  · simp [h]
  · simp [h]

theorem delayTarget_eq (o : EventOptions) (event : Nat) : o.delayTarget event =
    if decide (o.broadcast ≠ .here) = true then s!"ev{event}__broadcast"
    else if decide (o.activeReplay ≠ .none) = true then s!"ev{event}__replay"
    else s!"ev{event}__body" := by
  rw [delayTarget, activeReplay]
  by_cases h : o.broadcast = .here
  · simp [h]
  · simp [h]

/-- The methods that an event is sent on to by name. -/
inductive Dispatches (o : EventOptions) (event : Nat) : String → Prop
  | broadcast (h : o.broadcast ≠ .here) : Dispatches o event (o.broadcastTarget event)
  | delay (h : o.delay ≠ .none) : Dispatches o event (o.delayTarget event)

theorem isChainMethod_broadcastTarget (o : EventOptions) (event : Nat) :
    IsChainMethod (o.broadcastTarget event) := by
  rw [broadcastTarget]
  split
  · exact ⟨event, _, by decide, rfl⟩
  · exact ⟨event, _, by decide, rfl⟩

theorem isChainMethod_delayTarget (o : EventOptions) (event : Nat) :
    IsChainMethod (o.delayTarget event) := by
  rw [delayTarget]
  split
  · exact ⟨event, _, by decide, rfl⟩
  · exact ⟨event, _, by decide, rfl⟩

end EventOptions

/-- The methods that the events of a program are sent on to by name. -/
def ProgramSource.Dispatches (s : ProgramSource) (x : String) : Prop :=
  ∃ (i : Nat) (event : EventDecl), s.data.events[i]? = some event ∧ event.options.Dispatches i x

theorem ProgramSource.Dispatches.isChainMethod {s : ProgramSource} {x : String}
    (h : s.Dispatches x) : IsChainMethod x := by
  obtain ⟨i, event, -, hx⟩ := h
  cases hx with
  | broadcast _ => exact event.options.isChainMethod_broadcastTarget i
  | delay _ => exact event.options.isChainMethod_delayTarget i

/-- The methods that the machine may call because of the events of a program. -/
inductive Context.Publishes (ctx : Context) : String → Prop
  | base {event : EventDecl} {x : String} (hevent : event ∈ ctx.source.data.events)
      (h : event.trigger.baseMethod? ctx.catalogue = some x) (hplain : ¬IsChainMethod x) :
      Publishes ctx x
  | caughtUp {event : EventDecl} (hevent : event ∈ ctx.source.data.events)
      (h : event.options.activeReplay ≠ .none) : Publishes ctx Emit.deserializationHook
  | dispatched {x : String} (h : ctx.source.Dispatches x) : Publishes ctx x

end TriggerCompiler
