import TriggerCompiler.Proofs.ConstantPool
import TriggerCompiler.Proofs.DistinctNames
import TriggerCompiler.Proofs.MergeSteps
import TriggerCompiler.Proofs.ParameterStorage
import TriggerCompiler.Proofs.ReplayCode

/-! The code of replayed events in emitted programs. Every event of a program without errors that is
broadcast to all clients and replayed in full has a replay method and a catch-up of the shape that the
machine runs, on variables that are told apart and that start with the numbers zero, zero and one; and
its broadcast names the replay method to all clients. -/

namespace TriggerCompiler

open Text ControlFlow

theorem Text.getLast?_toList_append (a : String) {b : String} {c : Char}
    (h : b.toList.getLast? = some c) : (a ++ b).toList.getLast? = some c := by
  rw [String.toList_append, List.getLast?_append, h]
  rfl

/-! ### Variables that stay -/

variable {id : VarId}

namespace Emission

variable {ctx : Context} {e e' : Emission} {name : String} {kind : VariableKind} {value : Value}

/-- The heap has a variable with a name, of a kind, that starts with a value. -/
def Holds (e : Emission) (name : String) (kind : VariableKind) (value : Value) : Prop :=
  ∃ id v, e.program.symbols.get? id = some v ∧ v.name = name ∧ v.kind = kind ∧ v.default = value

/-- The heap has a temporary with a name. -/
def HasTemp (e : Emission) (name : String) : Prop := ∃ value, e.Holds name .temp value

theorem Holds.mono (h : e.Holds name kind value)
    (hext : e.program.symbols.Extends e'.program.symbols) : e'.Holds name kind value := by
  obtain ⟨id, v, hv, rfl, rfl, rfl⟩ := h
  obtain ⟨w, hw, hsame⟩ := hext.vars hv
  exact ⟨id, w, hw, hsame.name, hsame.kind, hsame.default⟩

theorem Holds.admits (h : e.Holds name kind value) (ha : e.Apart) :
    kind.Admits e.program.symbols.counter name := by
  obtain ⟨id, v, hv, rfl, rfl, -⟩ := h
  exact ha.proper.fits hv

theorem HasTemp.mono (h : e.HasTemp name) (hctx : ctx.Proper) (ha : e.Apart) (hsteps : SourceSteps ctx e e') :
    e'.HasTemp name := by
  obtain ⟨value, h⟩ := h
  exact ⟨value, h.mono (hsteps.apart hctx ha).2⟩

theorem holds_nameOf {v : Variable} (h : e.program.symbols.get? id = some v) :
    e.Holds (e.program.symbols.nameOf id) v.kind v.default :=
  ⟨id, v, h, by rw [SymbolTable.nameOf, h], rfl, rfl⟩

/-- The counters of replayed events start at zero. -/
def Zeroed (e : Emission) : Prop := ∀ ⦃id v⦄, e.program.symbols.get? id = some v →
  Begins "__replay" v.name → v.default = .int 0

theorem Advance.zeroed (h : SourceStep ctx e e') (hctx : ctx.Proper) (ha : e.Apart) (hz : e.Zeroed) :
    e'.Zeroed := by
  intro id v hv hbegins
  have hkind : v.kind = .internal :=
    ((h.step.apart hctx ha).1.proper.fits hv).eq_of_begins (by decide) hbegins
  rcases h.made hctx ha hv (Or.inl hkind) with ⟨w, hw, hsame⟩ | hnew
  · rw [hsame.default]
    exact hz hw (by rwa [← hsame.name])
  · cases hnew with
    | counter _ _ _ hdefault => exact hdefault
    | parameter _ hlegal hplain _ hname _ =>
      exact absurd (hname ▸ hbegins) (not_begins_customParamVariable hlegal hplain (by decide))
    | shadow _ _ _ hname _ =>
      rcases (hname ▸ hbegins).or (begins_append "__prev_" _) with hor | hor
      · exact absurd hor (by decide)
      · exact absurd hor (by decide)
    | _ => simp_all

theorem Advances.zeroed (h : SourceSteps ctx e e') (hctx : ctx.Proper) (ha : e.Apart) (hz : e.Zeroed) :
    e'.Zeroed :=
  (h.keeps (P := fun e => e.Apart ∧ e.Zeroed)
    (fun _ _ hstep he => ⟨(hstep.step.apart hctx he.1).1, hstep.zeroed hctx he.1 he.2⟩) ⟨ha, hz⟩).2

theorem zeroed_start (source : ProgramSource) : (Emission.start source).Zeroed := fun _ _ hv => by
  cases hv

/-- Steps leave the code of a method alone or append to it, unless they discard the method; the methods
that may be discarded are told from the others by the ends of their names. -/
theorem Advance.codeOf (h : SourceStep ctx e e') {x : String} (hx : x.toList.getLast? ≠ some 'e') :
    e.codeOf x <+: e'.codeOf x := by
  cases h with
  | merged aliases hm => exact (Linker.continues_mergeOwn _ _ aliases e.linkage).code x
  | altered h =>
    cases h with
    | emitted _ _ => exact (MethodTable.continues_emit _ _ _).code x
    | touched method exported =>
      have hsame : (e.withMethods (e.program.methods.update method fun b =>
          { b with exported := exported b.exported })).codeOf x = e.codeOf x :=
        MethodTable.codeOf_update_eq fun _ => rfl
      rw [hsame]
    | discarded event =>
      have hne : x ≠ s!"ev{event}__unreachable" := by
        rintro rfl
        exact hx (getLast?_toList_append _ (by decide))
      show _ <+: (e.program.methods.remove _).codeOf x
      rw [MethodTable.codeOf_remove hne]
      exact List.prefix_refl _
    | _ => exact List.prefix_refl _

theorem Advances.codeOf (h : SourceSteps ctx e e') {x : String} (hx : x.toList.getLast? ≠ some 'e') :
    e.codeOf x <+: e'.codeOf x :=
  h.keeps (P := fun e'' => e.codeOf x <+: e''.codeOf x)
    (fun _ _ hstep hbefore => hbefore.trans (hstep.codeOf hx)) (List.prefix_refl _)

end Emission

/-! ### The code of a replayed event -/

namespace Emission

variable {ctx : Context} {method : String} {code code' : List Instruction} {k k' : Nat}
  {e e' e'' : Emission}

/-- Steps of emission that append code to one method. -/
structure Appends (ctx : Context) (method : String) (code : List Instruction) (k : Nat)
    (e e' : Emission) : Prop extends Codes method code k e e' where
  steps : SourceSteps ctx e e'

theorem Appends.trans (h : Appends ctx method code k e e') (h' : Appends ctx method code' k' e' e'') :
    Appends ctx method (code ++ code') (k + k') e e'' :=
  ⟨h.toCodes.trans h'.toCodes, h.steps.trans h'.steps⟩

theorem Appends.trans_nil (h : Appends ctx method code k e e') (h' : Appends ctx method [] 0 e' e'') :
    Appends ctx method code k e e'' := by
  have hboth := h.trans h'
  rwa [List.append_nil] at hboth

theorem Appends.nil_trans (h : Appends ctx method [] k e e') (h' : Appends ctx method code k' e' e'') :
    Appends ctx method code (k + k') e e'' := h.trans h'

end Emission

variable {body executed name : String} {type : VarType} {u : Unit}

namespace Emit

open Emission

variable {ctx : Context} {α β : Type} {method : String} {e e' : Emission}

theorem onSymbols_eq {f : SymbolTable → α × SymbolTable} {a : α} (h : Emit.onSymbols f e = (a, e')) :
    f e.program.symbols = (a, e'.program.symbols) := by
  have ha : (f e.program.symbols).1 = a := congrArg Prod.fst h
  have ht : (f e.program.symbols).2 = e'.program.symbols :=
    congrArg (fun r => r.2.program.symbols) h
  exact Prod.ext ha ht

theorem exists_of_namedSymbol {f : SymbolTable → VarId × SymbolTable}
    (h : namedSymbol f e = (name, e')) :
    ∃ id, Emit.onSymbols f e = (id, e') ∧ e'.program.symbols.nameOf id = name := by
  cases h
  exact ⟨_, rfl, rfl⟩

theorem appends_onSymbols {f : SymbolTable → α × SymbolTable} {a : α}
    (hf : Within ctx.footprint (Emit.onSymbols f)) (h : Emit.onSymbols f e = (a, e')) :
    Appends ctx method [] 0 e e' := by
  have hsteps := hf.steps h
  cases h
  exact ⟨((Local.onSymbols f).adds method e).toCodes, hsteps⟩

theorem appends_newLabel {hint l : String} (h : newLabel hint e = (l, e')) :
    l = labelName hint e.labelCount ∧ Appends ctx method [] 1 e e' := by
  have hsteps : SourceSteps ctx e e' := Within.steps (.newLabel hint) h
  cases h
  exact ⟨rfl, (adds_newLabel method hint e).toCodes, hsteps⟩

theorem appends_emit (hmethod : ctx.IsTarget false method) {code : List Instruction}
    (hcode : code.all (fun i => !i.isComment) = true) (h : emit method code e = (u, e')) :
    Appends ctx method code 0 e e' := by
  have hsteps : SourceSteps ctx e e' := Within.steps (.emit_marking hmethod hcode fun _ _ => nofun) h
  cases h
  exact ⟨(adds_emit method code e).toCodes, hsteps⟩

theorem appends_setExported (x : String)
    (h : modifyMethods (·.setExported x true) e = (u, e')) : Appends ctx method [] 0 e e' := by
  have hsteps : SourceSteps ctx e e' := Within.steps (.setExported (Context.calls_tracking nofun) nofun) h
  cases h
  refine ⟨⟨fun y => ?_, rfl⟩, hsteps⟩
  rw [ite_self, List.append_nil]
  exact MethodTable.codeOf_update_eq fun _ => rfl

/-- The code of a call. -/
def IsCall (callee : String) (code : List Instruction) : Prop :=
  ∃ address behind, code = callCode address callee behind

theorem appends_call (hmethod : ctx.IsTarget false method) {callee : String}
    (h : call method callee e = (u, e')) :
    ∃ code, IsCall callee code ∧ Appends ctx method code 1 e e' := by
  have hsteps : SourceSteps ctx e e' := Within.steps (.call hmethod (Context.calls_tracking nofun)) h
  cases h
  exact ⟨_, ⟨_, _, rfl⟩, (adds_call method callee e).toCodes, hsteps⟩

theorem hasTemp_acquireTemp (ha : e.Apart)
    (h : Emit.onSymbols (·.acquireTemp type) e = (id, e')) :
    e'.HasTemp (e'.program.symbols.nameOf id) := by
  obtain ⟨v, hv, hkind⟩ := SymbolTable.isTemp_acquireTemp ha.consistent type
  rw [onSymbols_eq h] at hv
  exact ⟨v.default, hkind ▸ holds_nameOf hv⟩

/-- The code of a check of ownership, whose answer is in a variable. -/
def IsCheck (flag : String) (code : List Instruction) : Prop :=
  ∃ player this, code = [.push player, .push this, .push flag, .invoke Signature.isOwner]

theorem appends_emitOwnerCheck (hctx : ctx.Proper) (ha : e.Apart) (hmethod : ctx.IsTarget false method)
    {flag : String} (h : emitOwnerCheck method e = (flag, e')) :
    ∃ code, IsCheck flag code ∧ Appends ctx method code 0 e e' ∧ e'.HasTemp flag := by
  obtain ⟨player, e₁, h₁, h⟩ := exists_of_bind h
  obtain ⟨this, e₂, h₂, h⟩ := exists_of_bind h
  obtain ⟨id, e₃, h₃, h⟩ := exists_of_bind h
  obtain ⟨_, e₄, h₄, h⟩ := exists_of_bind h
  cases h₄
  obtain ⟨_, e₅, h₅, h⟩ := exists_of_bind h
  obtain ⟨_, e₆, h₆, h⟩ := exists_of_bind h
  cases h
  obtain ⟨_, hplayer, -⟩ := exists_of_namedSymbol h₁
  obtain ⟨_, hthis, -⟩ := exists_of_namedSymbol h₂
  have hbefore : Appends ctx method [] 0 e e₂ :=
    (appends_onSymbols (.onSymbols fun _ => .system _) hplayer).trans (appends_onSymbols (.onSymbols fun _ => .system _) hthis)
  have hlease : Appends ctx method [] 0 e₂ e₃ := appends_onSymbols (.onSymbols fun _ => .leased _) h₃
  have htemp := hasTemp_acquireTemp (hbefore.steps.apart hctx ha).1 h₃
  have hbehind := (appends_emit hmethod rfl h₅).trans_nil
    (appends_onSymbols (.onSymbols fun _ => .released id) h₆)
  refine ⟨_, ⟨player, this, rfl⟩, hbefore.nil_trans (hlease.nil_trans hbehind), ?_⟩
  exact htemp.mono hctx ((hbefore.trans hlease).steps.apart hctx ha).1 hbehind.steps

theorem appends_emitFullCatchUp {counter one flag done : String}
    (h : emitFullCatchUp body counter executed one flag done e = (u, e')) :
    ∃ code, IsCall body code ∧ Appends ctx deserializationHook
      ([.label (labelName "catchup_loop" e.labelCount), .push executed, .push counter, .push flag,
        .invoke Signature.intLess, .push flag, .jumpToIfFalse done] ++ (increment executed one ++
          (code ++ [.jumpTo (labelName "catchup_loop" e.labelCount)]))) 2 e e' := by
  obtain ⟨head, e₁, h₁, h⟩ := exists_of_bind h
  obtain ⟨_, e₂, h₂, h⟩ := exists_of_bind h
  obtain ⟨_, e₃, h₃, h⟩ := exists_of_bind h
  obtain ⟨_, e₄, h₄, h⟩ := exists_of_bind h
  obtain ⟨rfl, hlabel⟩ := appends_newLabel h₁
  have hhook : ctx.IsTarget false deserializationHook := ⟨.caughtUp, nofun⟩
  obtain ⟨code, hcode, hcall⟩ := appends_call hhook h₄
  exact ⟨code, hcode, hlabel.nil_trans ((appends_emit hhook rfl h₂).trans
    ((appends_emit hhook rfl h₃).trans (hcall.trans (appends_emit hhook rfl h))))⟩

/-- The code of a catch-up. -/
theorem appends_emitCatchUp (c : Replay.Code) (hctx : ctx.Proper) (ha : e.Apart)
    (h : emitCatchUp body c.counter c.executed c.one .all e = (u, e')) :
    ∃ hookIsOwner isBehind hookCheck hookCall hookRemote head done,
      Appends ctx deserializationHook ({ c with
        hookIsOwner, isBehind, hookCheck, hookCall, hookRemote, head, done }.catchUp.flatMap Item.code)
        4 e e' ∧
      IsCheck hookIsOwner hookCheck ∧ IsCall body hookCall ∧ [hookRemote, head, done].Nodup ∧
      e'.HasTemp hookIsOwner ∧ e'.HasTemp isBehind := by
  obtain ⟨_, e₁, h₁, h⟩ := exists_of_bind h
  obtain ⟨remote, e₂, h₂, h⟩ := exists_of_bind h
  obtain ⟨done, e₃, h₃, h⟩ := exists_of_bind h
  obtain ⟨owner, e₄, h₄, h⟩ := exists_of_bind h
  obtain ⟨_, e₅, h₅, h⟩ := exists_of_bind h
  obtain ⟨flagId, e₆, h₆, h⟩ := exists_of_bind h
  obtain ⟨flag, _, hflag, h⟩ := exists_of_bind h
  cases hflag
  rw [if_neg (by decide)] at h
  obtain ⟨_, e₇, h₇, h⟩ := exists_of_bind h
  obtain ⟨_, e₈, h₈, h₉⟩ := exists_of_bind h
  obtain ⟨rfl, hremote⟩ := @appends_newLabel ctx deserializationHook _ _ _ _ h₂
  obtain ⟨rfl, hdone⟩ := @appends_newLabel ctx deserializationHook _ _ _ _ h₃
  have hhook : ctx.IsTarget false deserializationHook := ⟨.caughtUp, nofun⟩
  have hlabels : Appends ctx deserializationHook [] 2 e e₃ :=
    (appends_setExported _ h₁).nil_trans (hremote.nil_trans hdone)
  obtain ⟨check, hcheck, hcheckCode, howner⟩ :=
    appends_emitOwnerCheck hctx (hlabels.steps.apart hctx ha).1 hhook h₄
  have hasked := hlabels.nil_trans (hcheckCode.trans (appends_emit hhook rfl h₅))
  have hlease : Appends ctx deserializationHook [] 0 e₅ e₆ := appends_onSymbols (.onSymbols fun _ => .leased _) h₆
  have htemp := hasTemp_acquireTemp (hasked.steps.apart hctx ha).1 h₆
  obtain ⟨call, hcall, hrounds⟩ := @appends_emitFullCatchUp _ _ _ ctx _ _ _ _ _ _ h₇
  have hend := hrounds.trans ((appends_onSymbols (.onSymbols fun _ => .released flagId) h₈).nil_trans
    (appends_emit hhook rfl h₉))
  have hall := hasked.trans (hlease.nil_trans hend)
  have hcount : e₆.labelCount = e₁.labelCount + 2 := by
    have h₁₂ := hremote.count
    have h₂₃ := hdone.count
    have h₃₄ := hcheckCode.count
    have h₄₅ := (appends_emit hhook rfl h₅).count
    have h₅₆ := hlease.count
    omega
  refine ⟨owner, _, check, call, labelName "catchup" e₁.labelCount,
    labelName "catchup_loop" e₆.labelCount, labelName "catchup_done" e₂.labelCount, ?_, hcheck, hcall,
    ?_, ?_, htemp.mono hctx ?_ hend.steps⟩
  · convert hall using 1
    simp [Replay.Code.catchUp, Replay.Code.rounds, Replay.Code.round, Replay.Code.addOne, increment,
      Item.code]
  · have hlast := hremote.count
    rw [hcount, hlast]
    simp
  · exact howner.mono hctx ((hlabels.trans hcheckCode).steps.apart hctx ha).1
      ((appends_emit hhook rfl h₅).steps.trans (hlease.nil_trans hend).steps)
  · exact ((hasked.trans hlease).steps.apart hctx ha).1

end Emit

theorem Emission.holds_counter {e : Emission} (ha : e.Apart) (hz : e.Zeroed)
    (hbegins : Begins "__replay" name) (h : e.program.symbols.names.contains name = true) :
    e.Holds name .internal (.int 0) := by
  obtain ⟨id, hid⟩ := OrderedMap.contains_eq_true.mp h
  obtain ⟨v, hv, rfl⟩ := ha.consistent.names hid
  exact ⟨id, v, hv, rfl, (ha.proper.fits hv).eq_of_begins (by decide) hbegins, hz hv hbegins⟩

namespace Replay

open Emission Emit

/-- The code of a replayed event whose actions are in a method, as a program has it. -/
structure Code.In (c : Code) (event : Nat) (body : String) (e : Emission) : Prop where
  replay : c.replay.flatMap Item.code <:+: e.codeOf s!"ev{event}__replay"
  catchUp : c.catchUp.flatMap Item.code <:+: e.codeOf deserializationHook
  check : IsCheck c.isOwner c.check
  hookCheck : IsCheck c.hookIsOwner c.hookCheck
  call : IsCall body c.call
  hookCall : IsCall body c.hookCall
  counter : e.Holds c.counter .internal (.int 0)
  executed : e.Holds c.executed .internal (.int 0)
  one : e.Holds c.one .constant (.int 1)
  apart : c.Apart

variable {ctx : Context} {c : Code} {event : Nat} {body : String} {e e' : Emission}

theorem getLast?_replay (event : Nat) : (s!"ev{event}__replay").toList.getLast? = some 'y' :=
  getLast?_toList_append _ (by decide)

theorem Code.In.mono (h : c.In event body e) (hctx : ctx.Proper) (ha : e.Apart)
    (hsteps : SourceSteps ctx e e') : c.In event body e' where
  replay := h.replay.trans (hsteps.codeOf (by rw [getLast?_replay]; decide)).isInfix
  catchUp := h.catchUp.trans (hsteps.codeOf (by decide)).isInfix
  check := h.check
  hookCheck := h.hookCheck
  call := h.call
  hookCall := h.hookCall
  counter := h.counter.mono (hsteps.apart hctx ha).2
  executed := h.executed.mono (hsteps.apart hctx ha).2
  one := h.one.mono (hsteps.apart hctx ha).2
  apart := h.apart

end Replay

variable {method : String} {event : Nat}

namespace Emit

open Emission

variable {ctx : Context} {e e' : Emission}

theorem exists_of_declareInternal (hc : e.program.symbols.Consistent)
    {value : Value} (h : onSymbols (·.declareInternal name type value) e = (id, e')) :
    ∃ v, e'.program.symbols.get? id = some v ∧ v.name = name := by
  cases h
  obtain ⟨v, hv⟩ := (SymbolTable.yields_declareInternal hc name type value).live
  exact ⟨v, hv, hc.name_getOrInsert hv⟩

/-- What follows the declaration of the two counters of an event that is replayed in full. -/
def replayTail (method body counter executed : String) : Emit String := do
  let one ← namedSymbol (·.constant .int (.int 1))
  let remote ← newLabel "replay_remote"
  let owner ← emitOwnerCheck method
  emit method [.push owner, .jumpToIfFalse remote]
  emit method (increment counter one)
  emit method [.sentinel, .label remote]
  emit method (increment executed one)
  call method body
  emitCatchUp body counter executed one .all
  return method

/-- The counters have their names. -/
theorem exists_of_emitReplay (hctx : ctx.Proper) (ha : e.Apart)
    (h : emitReplay event body .all e = (method, e')) :
    ∃ e₁, SourceSteps ctx e e₁ ∧ e₁.program.symbols.names.contains s!"__replay_{event}" = true ∧
      e₁.program.symbols.names.contains s!"__replayed_{event}" = true ∧
      replayTail s!"ev{event}__replay" body s!"__replay_{event}" s!"__replayed_{event}" e₁ =
        (method, e') := by
  obtain ⟨counterId, e₁, h₁, h⟩ := exists_of_bind h
  obtain ⟨_, e₂, h₂, h⟩ := exists_of_bind h
  obtain ⟨executedId, e₃, h₃, h⟩ := exists_of_bind h
  obtain ⟨counter, _, hcounter, h⟩ := exists_of_bind h
  obtain ⟨executed, _, hexecuted, htail⟩ := exists_of_bind h
  cases hcounter
  cases hexecuted
  -- The first counter is declared and becomes synced in one step.
  have hfirst : SourceSteps ctx e e₂ := by
    cases h₁
    cases h₂
    exact .of_step (.altered (.edited (.replayCounter event)))
  have hsecond : SourceSteps ctx e₂ e₃ := by
    cases h₃
    exact .of_step (.altered (.edited (.replayedCounter event)))
  have ha₂ := (hfirst.apart hctx ha).1
  have ha₃ := (hsecond.apart hctx ha₂).1
  obtain ⟨v, hv, hvname⟩ := exists_of_declareInternal ha.consistent h₁
  obtain ⟨u, hu, huname⟩ : ∃ u, e₃.program.symbols.get? counterId = some u ∧
      u.name = s!"__replay_{event}" := by
    have hsynced : e₁.program.symbols.Extends e₂.program.symbols := by
      cases h₂
      exact SymbolTable.extends_modifyVar _ _ fun _ => ⟨rfl, rfl, rfl, rfl⟩
    obtain ⟨u, hu, hsame⟩ := (hsynced.trans (hsecond.apart hctx ha₂).2).vars hv
    exact ⟨u, hu, hsame.name.trans hvname⟩
  obtain ⟨w, hw, hwname⟩ := exists_of_declareInternal ha₂.consistent h₃
  have hnames : e₃.program.symbols.nameOf counterId = s!"__replay_{event}" ∧
      e₃.program.symbols.nameOf executedId = s!"__replayed_{event}" := by
    rw [SymbolTable.nameOf, SymbolTable.nameOf, hu, hw]
    exact ⟨huname, hwname⟩
  rw [hnames.1, hnames.2] at htail
  exact ⟨e₃, hfirst.trans hsecond, huname ▸ ha₃.consistent.named hu, hwname ▸ ha₃.consistent.named hw,
    htail⟩

/-- A constant that has been requested, if its key tells its value. -/
theorem holds_constant (ha : e.Apart) {value : Value}
    (hkey : ∀ {v : Value} {type' : VarType}, v.poolKey type' = value.poolKey type → v = value)
    (h : namedSymbol (·.constant type value) e = (name, e')) : e'.Holds name .constant value := by
  obtain ⟨id, hid, rfl⟩ := exists_of_namedSymbol h
  have hc := (SymbolTable.yields_constant ha.consistent type value).consistent
  obtain ⟨v, hv, hkind, hpool⟩ := hc.constants (SymbolTable.constants_constant _ type value)
  rw [onSymbols_eq hid] at hv
  have hholds := holds_nameOf hv
  rwa [hkind, hkey hpool] at hholds

theorem eq_one_of_poolKey {v : Value}
    (h : v.poolKey type = (Value.int 1).poolKey .int) : v = .int 1 :=
  Value.eq_of_poolKey h rfl

/-- The code of the replay method and of the catch-up. -/
theorem exists_code_replayTail (hctx : ctx.Proper) (ha : e.Apart)
    {method' counter : String} (hmethod : ctx.IsTarget false method)
    (hne : method ≠ deserializationHook)
    (h : replayTail method body counter executed e = (method', e')) :
    method' = method ∧ ∃ c : Replay.Code, c.counter = counter ∧ c.executed = executed ∧
      c.replay.flatMap Item.code <:+ e'.codeOf method ∧
      c.catchUp.flatMap Item.code <:+ e'.codeOf deserializationHook ∧
      IsCheck c.isOwner c.check ∧ IsCheck c.hookIsOwner c.hookCheck ∧ IsCall body c.call ∧
      IsCall body c.hookCall ∧ e'.Holds c.one .constant (.int 1) ∧ e'.HasTemp c.isOwner ∧
      e'.HasTemp c.hookIsOwner ∧ e'.HasTemp c.isBehind ∧ [c.hookRemote, c.head, c.done].Nodup ∧
      SourceSteps ctx e e' := by
  obtain ⟨one, e₁, h₁, h⟩ := exists_of_bind h
  obtain ⟨remote, e₂, h₂, h⟩ := exists_of_bind h
  obtain ⟨owner, e₃, h₃, h⟩ := exists_of_bind h
  obtain ⟨_, e₄, h₄, h⟩ := exists_of_bind h
  obtain ⟨_, e₅, h₅, h⟩ := exists_of_bind h
  obtain ⟨_, e₆, h₆, h⟩ := exists_of_bind h
  obtain ⟨_, e₇, h₇, h⟩ := exists_of_bind h
  obtain ⟨_, e₈, h₈, h⟩ := exists_of_bind h
  obtain ⟨_, e₉, h₉, h⟩ := exists_of_bind h
  cases h
  have hone := holds_constant ha eq_one_of_poolKey h₁
  obtain ⟨_, h₁, -⟩ := exists_of_namedSymbol h₁
  have hconstant : Appends ctx method [] 0 e e₁ := appends_onSymbols (.pool nofun) h₁
  have hbefore := hconstant.nil_trans (appends_newLabel h₂).2
  have ha₂ := (hbefore.steps.apart hctx ha).1
  obtain ⟨check, hcheck, hcheckCode, howner⟩ := appends_emitOwnerCheck hctx ha₂ hmethod h₃
  have ha₃ := (hcheckCode.steps.apart hctx ha₂).1
  obtain ⟨call, hcall, hcallCode⟩ := appends_call hmethod h₈
  have hcode := (appends_emit hmethod rfl h₄).trans ((appends_emit hmethod rfl h₅).trans
    ((appends_emit hmethod rfl h₆).trans ((appends_emit hmethod rfl h₇).trans hcallCode)))
  have ha₈ := (hcode.steps.apart hctx ha₃).1
  obtain ⟨hookIsOwner, isBehind, hookCheck, hookCall, hookRemote, head, done, hhook, hhookCheck,
    hhookCall, hlabels, htemps⟩ := appends_emitCatchUp (e := e₈)
      ⟨counter, executed, one, owner, "", "", check, [], call, [], remote, "", "", ""⟩ hctx ha₈ h₉
  refine ⟨rfl, ⟨counter, executed, one, owner, hookIsOwner, isBehind, check, hookCheck, call, hookCall,
    remote, hookRemote, head, done⟩, rfl, rfl, ?_, ?_, hcheck, hhookCheck, hcall, hhookCall, ?_, ?_,
    htemps.1, htemps.2, hlabels, ?_⟩
  · have hkeep : e'.codeOf method = e₈.codeOf method := by
      rw [hhook.code, if_neg hne.symm, List.append_nil]
    have hall := ((hbefore.nil_trans hcheckCode).trans hcode).code method
    rw [if_pos rfl] at hall
    refine ⟨e.codeOf method, ?_⟩
    rw [hkeep, hall]
    simp [Replay.Code.replay, Replay.Code.addOne, increment, Item.code]
  · rw [hhook.code, if_pos rfl]
    exact List.suffix_append _ _
  · exact hone.mono (((((appends_newLabel h₂).2.nil_trans hcheckCode).trans hcode).steps.trans
      hhook.steps).apart hctx (hconstant.steps.apart hctx ha).1).2
  · exact howner.mono hctx ha₃ (hcode.steps.trans hhook.steps)
  · exact ((hbefore.nil_trans hcheckCode).trans hcode).steps.trans hhook.steps

/-- The code of an event that is replayed in full. -/
theorem exists_code_emitReplay (hctx : ctx.Proper) (ha : e.Apart) (hz : e.Zeroed)
    (h : emitReplay event body .all e = (method, e')) :
    method = s!"ev{event}__replay" ∧ SourceSteps ctx e e' ∧ ∃ c : Replay.Code, c.In event body e' := by
  obtain ⟨e₁, hdeclare, hcounter, hexecuted, htail⟩ := exists_of_emitReplay hctx ha h
  have ha₁ := (hdeclare.apart hctx ha).1
  have hne : s!"ev{event}__replay" ≠ deserializationHook := by
    intro heq
    have hlast := Replay.getLast?_replay event
    rw [heq] at hlast
    exact absurd hlast (by decide)
  obtain ⟨hmethod, c, hcounterName, hexecutedName, hreplay, hcatchUp, hcheck, hhookCheck, hcall, hhookCall,
    hone, howner, hhookOwner, hbehind, hlabels, htailSteps⟩ :=
    exists_code_replayTail hctx ha₁ (ctx.isTarget_chained false event (by decide)) hne htail
  have hall := hdeclare.trans htailSteps
  have ha' := (hall.apart hctx ha).1
  have hz' := hall.zeroed hctx ha hz
  have hext := (htailSteps.apart hctx ha₁).2
  have hreplayed : Begins "__replayed_" s!"__replayed_{event}" := begins_append _ _
  have hreplays : Begins "__replay_" s!"__replay_{event}" := begins_append _ _
  have hconstant : Begins "__const_" c.one := Numbered.begins (hone.admits ha')
  have htemp {x : String} (hx : e'.HasTemp x) : x ∉ c.kept := by
    obtain ⟨value, hx⟩ := hx
    have hbegins : Begins "__tmp" x := Numbered.begins (hx.admits ha')
    simp only [Replay.Code.kept, List.mem_cons, List.not_mem_nil, or_false, not_or, hcounterName,
      hexecutedName]
    exact ⟨hbegins.ne hreplays (by decide), hbegins.ne hreplayed (by decide),
      hbegins.ne hconstant (by decide)⟩
  refine ⟨hmethod, hall, c, hreplay.isInfix, hcatchUp.isInfix, hcheck, hhookCheck, hcall, hhookCall,
    ?_, ?_, hone, ?_, htemp howner, htemp hhookOwner, htemp hbehind, hlabels⟩
  · rw [hcounterName]
    exact holds_counter ha' hz' (.trans (by decide) hreplays) (hext.names hcounter)
  · rw [hexecutedName]
    exact holds_counter ha' hz' (.trans (by decide) hreplayed) (hext.names hexecuted)
  · simp only [Replay.Code.kept, List.nodup_cons, List.mem_cons, List.not_mem_nil, or_false, not_or,
      not_false_eq_true, List.nodup_nil, and_true, hcounterName, hexecutedName]
    exact ⟨⟨hreplays.ne hreplayed (by decide), hreplays.ne hconstant (by decide)⟩,
      hreplayed.ne hconstant (by decide)⟩

/-- The code of a broadcast to all clients, which names a method. -/
def IsBroadcast (e : Emission) (event : Nat) (target : String) : Prop :=
  ∃ this mode name, [.push this, .push mode, .push name, .invoke Signature.sendNetworkEvent] <:+:
      e.codeOf s!"ev{event}__broadcast" ∧
    e.Holds mode .constant (.int 0) ∧ e.Holds name .constant (.method target)

theorem IsBroadcast.mono {target : String} (h : IsBroadcast e event target)
    (hctx : ctx.Proper) (ha : e.Apart) (hsteps : SourceSteps ctx e e') : IsBroadcast e' event target := by
  obtain ⟨this, mode, name, hcode, hmode, hname⟩ := h
  have hlast : (s!"ev{event}__broadcast").toList.getLast? = some 't' :=
    getLast?_toList_append _ (by decide)
  have hext := (hsteps.apart hctx ha).2
  exact ⟨this, mode, name, hcode.trans (hsteps.codeOf (by rw [hlast]; decide)).isInfix,
    hmode.mono hext, hname.mono hext⟩

theorem exists_code_emitBroadcast (hctx : ctx.Proper) (ha : e.Apart)
    {target : String} (h : emitBroadcast event target .all e = (method, e')) :
    SourceSteps ctx e e' ∧ IsBroadcast e' event target := by
  obtain ⟨this, e₁, h₁, h⟩ := exists_of_bind h
  obtain ⟨mode, e₂, h₂, h⟩ := exists_of_bind h
  obtain ⟨name, e₃, h₃, h⟩ := exists_of_bind h
  obtain ⟨_, e₄, h₄, h⟩ := exists_of_bind h
  cases h
  obtain ⟨_, e₃', hexported, h₃⟩ := exists_of_bind h₃
  obtain ⟨_, hthis, -⟩ := exists_of_namedSymbol h₁
  obtain ⟨_, hmode, -⟩ := exists_of_namedSymbol h₂
  obtain ⟨_, hname, -⟩ := exists_of_namedSymbol h₃
  have hmethod : ctx.IsTarget false s!"ev{event}__broadcast" := ctx.isTarget_chained false event (by decide)
  have hfirst : Appends ctx s!"ev{event}__broadcast" [] 0 e e₁ :=
    appends_onSymbols (.onSymbols fun _ => .system _) hthis
  have hsecond : Appends ctx s!"ev{event}__broadcast" [] 0 e₁ e₂ :=
    appends_onSymbols (.pool nofun) hmode
  have hthird : Appends ctx s!"ev{event}__broadcast" [] 0 e₂ e₃' := appends_setExported _ hexported
  have hfourth : Appends ctx s!"ev{event}__broadcast" [] 0 e₃' e₃ :=
    appends_onSymbols (.pool nofun) hname
  have hcode := appends_emit hmethod rfl h₄
  have ha₁ := (hfirst.steps.apart hctx ha).1
  have ha₂ := (hsecond.steps.apart hctx ha₁).1
  have ha₃' := (hthird.steps.apart hctx ha₂).1
  have ha₃ := (hfourth.steps.apart hctx ha₃').1
  have hzero : e₂.Holds mode .constant (.int 0) := 
    holds_constant ha₁ (Value.eq_of_poolKey · rfl) h₂
  have hnamed : e₃.Holds name .constant (.method target) :=
    holds_constant ha₃' (Value.eq_of_poolKey · rfl) h₃
  have hlater := hthird.steps.trans (hfourth.steps.trans hcode.steps)
  refine ⟨hfirst.steps.trans (hsecond.steps.trans hlater), this, mode, name, ?_,
    hzero.mono (hlater.apart hctx ha₂).2, hnamed.mono (hcode.steps.apart hctx ha₃).2⟩
  rw [hcode.code, if_pos rfl]
  exact (List.suffix_append _ _).isInfix

/-! ### Events -/

theorem exists_of_wrapWhen {condition : Bool} (hcondition : condition = true) {kind : LinkKind}
    {build : String → Emit String} {inner inner' : String} {links links' : List ChainLink}
    (h : wrapWhen condition kind build inner links e = ((inner', links'), e')) :
    build inner e = (inner', e') := by
  rw [wrapWhen, if_pos hcondition] at h
  obtain ⟨method, e₁, h₁, h⟩ := exists_of_bind h
  cases h
  exact h₁

/-- The code around the body of an event that is broadcast to all clients and replayed in full. -/
theorem exists_code_emitChain (hctx : ctx.Proper) (ha : e.Apart) (hz : e.Zeroed)
    {base : String} (hbase : ctx.IsTarget false base) {o : EventOptions} (ho : o.broadcast = .all)
    {chain : EventChain} (h : emitChain event base body .all o e = (chain, e')) :
    SourceSteps ctx e e' ∧ IsBroadcast e' event s!"ev{event}__replay" ∧
      ∃ c : Replay.Code, c.In event body e' := by
  obtain ⟨⟨inner, links⟩, e₁, h₁, h⟩ := exists_of_bind h
  obtain ⟨⟨outer, links'⟩, e₂, h₂, h₃⟩ := exists_of_bind h
  have hreplayed := exists_of_wrapWhen (by rfl) h₁
  have hbroadcast := exists_of_wrapWhen (by rw [ho]; rfl) h₂
  rw [ho] at hbroadcast
  have hgate (inner : String) (chain : EventChain) : Within ctx.footprint (do
      emitGate base inner o.gate
      return chain) := .bind (.emitGate (F := ctx.footprint) hbase nofun _) fun _ => .pure _
  have hrest : SourceSteps ctx e₂ e' := (Leaves.wrapWhen_bind (P := fun _ => True) (Q := fun _ => True)
    s!"ev{event}__delay" (fun _ => (Leaves.emitDelay ctx.chains_footprint event nofun _).mono
      fun _ _ => trivial) (fun _ => rfl) _
        fun _ => .of_within (hgate _ _) fun _ => trivial).within.steps h₃
  obtain ⟨hinner, hreplay, c, hc⟩ := exists_code_emitReplay hctx ha hz hreplayed
  have ha₁ := (hreplay.apart hctx ha).1
  rw [hinner] at hbroadcast
  obtain ⟨hsent, hcode⟩ := exists_code_emitBroadcast hctx ha₁ hbroadcast
  have ha₂ := (hsent.apart hctx ha₁).1
  exact ⟨hreplay.trans (hsent.trans hrest), hcode.mono hctx ha₂ hrest, c,
    hc.mono hctx ha₁ (hsent.trans hrest)⟩

/-- The code of an event that is broadcast to all clients and replayed in full. -/
theorem exists_code_emitEvent (hctx : ctx.Proper) (ha : e.Apart) (hz : e.Zeroed) {index : Nat}
    {event : EventDecl} (hevent : ctx.source.data.events[index]? = some event)
    (hbroadcast : event.options.broadcast = .all) {base : EventBase}
    (hopen : (openEvent ctx index event e).1 = some (base, .all))
    (hrun : (emitEvent ctx index event).run e = (.ok (), e')) :
    IsBroadcast e' index s!"ev{index}__replay" ∧
      ∃ c : Replay.Code, c.In index s!"ev{index}__body" e' := by
  rw [emitEvent_eq] at hrun
  obtain ⟨opened, e₁, h₁, hrun⟩ := exists_of_lift_bind hrun
  obtain ⟨_, e₂, h₂, hrun⟩ := Attempt.exists_of_bind hrun
  obtain rfl : opened = some (base, .all) := by rw [← hopen, h₁]
  have hbase : ctx.IsTarget false base.method :=
    isTarget_openEvent ctx.untracked nofun (congrArg Prod.fst h₁)
  have hbegin : SourceSteps ctx e (openEvent ctx index event e).2 :=
    EmitStep.Stepwise.openEvent ctx.untracked hevent e nofun
  rw [h₁] at hbegin
  have hchained : isChained event.options = true := by
    rw [isChained, hbroadcast]
    simp
  have hbody : SourceSteps ctx e₁ e₂ := by
    have hmethod : ctx.IsTarget false (bodyMethod index event (some (base, .all))) := by
      rw [bodyMethod, if_pos hchained]
      exact ctx.isTarget_chained false index (by decide)
    exact (EmitStep.Stepwise.emitBody ctx.untracked hmethod index base.params
      (TriggerData.aligned_actions hevent)).steps h₂
  have hstart := hbegin.trans hbody
  have ha₂ := (hstart.apart hctx ha).1
  have hstate : (closeEvent index event (some (base, .all)) e₂).2 = e' := by
    have heq := congrArg Prod.snd hrun
    exact heq
  have hclose : closeEvent index event (some (base, .all)) e₂ = ((), e') := Prod.ext rfl hstate
  rw [closeEvent, if_pos hchained] at hclose
  obtain ⟨chain, e₃, h₃, h₄⟩ := exists_of_bind hclose
  obtain ⟨hsteps, hsent, c, hc⟩ :=
    exists_code_emitChain hctx ha₂ (hstart.zeroed hctx ha hz) hbase hbroadcast h₃
  have ha₃ := (hsteps.apart hctx ha₂).1
  have hnoted : SourceSteps ctx e₃ e' := by
    cases h₄
    exact .of_step (.altered (.chained _))
  exact ⟨hsent.mono hctx ha₃ hnoted, c, hc.mono hctx ha₃ hnoted⟩

end Emit

/-! ### Programs -/

namespace Context

variable {ctx : Context} {e : Emission}

/-- In a program that compiles, every event that is broadcast to all clients and replayed in full has the
code of such an event. -/
theorem exists_replay (hctx : ctx.Proper) (hok : ctx.compile.compiled.isSuccess = true) {i : Nat}
    {event : EventDecl} (hevent : ctx.source.data.events[i]? = some event)
    (hbroadcast : event.options.broadcast = .all) (hreplay : event.options.replay = .all) :
    Emit.IsBroadcast ctx.emitted i s!"ev{i}__replay" ∧
      ∃ c : Replay.Code, c.In i s!"ev{i}__body" ctx.emitted := by
  obtain ⟨hrun, herrors⟩ := emitted_of_isSuccess hok
  obtain ⟨e₁, e₂, hstart, hemit, hlater⟩ := steps_event hrun hevent
  have ha₁ := (hstart.apart hctx (Emission.apart_start _)).1
  have hduring := (EmitStep.Stepwise.emitEvent ctx.untracked hevent).steps hemit
  have ha₂ := (hduring.apart hctx ha₁).1
  obtain ⟨base, hopen, -⟩ := Emit.opened_of_emitEvent ha₁.consistent hemit
    (hlater.evolves ha₂.consistent) herrors
  rw [hbroadcast, if_neg (by decide), hreplay] at hopen
  obtain ⟨hsent, c, hc⟩ := Emit.exists_code_emitEvent hctx ha₁
    (hstart.zeroed hctx (Emission.apart_start _) (Emission.zeroed_start _)) hevent hbroadcast hopen hemit
  exact ⟨hsent.mono hctx ha₂ hlater, c, hc.mono hctx ha₂ hlater⟩

end Context

end TriggerCompiler
