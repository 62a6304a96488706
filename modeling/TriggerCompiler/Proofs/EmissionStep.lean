import TriggerCompiler.Proofs.Emitters

/-! What the emission of a program does to its state. It is a sequence of the elementary steps of the
emitters and of merges of modules, and its code goes to methods of its own. An invariant that each of
these steps keeps holds at every point of every compilation, whatever the catalogue and whether or not
problems have been reported. With the catalogue of every program, the steps are also known to keep track
of names: of the methods that are called, sent on to and exported, and of the modules that are merged. -/

open Relation

namespace TriggerCompiler

/-- One elementary change of the heap while code is emitted. A variable that an identifier is to stand for
is bound as soon as it is declared, and only a watched variable gets one for its previous value. -/
inductive SymbolTable.Change (ctx : Context) (t : SymbolTable) : SymbolTable → Prop
  | declared {d : VariableDecl} {id : VarId} {t' : SymbolTable}
      (hname : Emit.isVariableName d.name = true) (h : t.declareUser d = .ok (id, t')) :
      Change ctx t t'
  | watched {d : VariableDecl} {id : VarId} {t' : SymbolTable}
      (hname : Emit.isVariableName d.name = true) (h : t.declareUser d = .ok (id, t')) :
      Change ctx t (t'.modifyVar id fun v => { v with onChange := some (changeMethod d.name) })
  | constant (type : VarType) (value : Value) : Change ctx t (t.constant type value).2
  | literal (position : LiteralPosition) (type : VarType) (value : Value) :
      Change ctx t (t.literal position.symbol type value).2
  | system (which : SystemVariable) : Change ctx t (t.system which).2
  | blockLocal (name : String) (type : VarType) : Change ctx t (t.declareLocal name type).2
  | boundLocal (guid : Guid) (name : String) (type : VarType) :
      Change ctx t ((t.declareLocal name type).2.bindGuid guid (t.declareLocal name type).1)
  | parameter {event : String} (name : String) (type : VarType) (guid : Guid)
      (hevent : Emit.isVariableName event = true) (hstart : startsWithUnderscore event = false) :
      Change ctx t
        ((t.declareInternal (customParamVariable event name) type type.defaultValue).2.bindGuid guid
          (t.declareInternal (customParamVariable event name) type type.defaultValue).1)
  | eventParam (guid : Guid) {name : String} {d : EventDef} {spec : EventParamSpec}
      (hd : ctx.catalogue.event? name = some d) (hspec : spec ∈ d.params) :
      Change ctx t ((t.declareEventParam spec.storage spec.type).2.bindGuid guid
        (t.declareEventParam spec.storage spec.type).1)
  | replayCounter (event : Nat) :
      Change ctx t ((t.declareInternal s!"__replay_{event}" .int (.int 0)).2.modifyVar
        (t.declareInternal s!"__replay_{event}" .int (.int 0)).1 fun v => { v with sync := .synced })
  | replayedCounter (event : Nat) :
      Change ctx t (t.declareInternal s!"__replayed_{event}" .int (.int 0)).2
  | leased (type : VarType) : Change ctx t (t.acquireTemp type).2
  | released (id : VarId) : Change ctx t (t.releaseTemp id)
  | unbound (id : VarId) : Change ctx t (t.unbind id)
  | shadowed {id : VarId} {v : Variable} (hv : t.get? id = some v)
      (hwatched : v.onChange.isSome = true) : Change ctx t (t.ensurePrevious id).2

/-- The methods that the code of a program's own events goes to. -/
inductive Context.IsOwnMethod (ctx : Context) : String → Prop
  | raised {name : String} {d : EventDef} (h : ctx.catalogue.event? name = some d) :
      IsOwnMethod ctx d.method
  | custom {name : String} (hname : Emit.isVariableName name = true)
      (hstart : startsWithUnderscore name = false) : IsOwnMethod ctx name
  | changed (name : String) : IsOwnMethod ctx (changeMethod name)
  | chained (event : Nat) {part : String}
      (h : part ∈ ["__body", "__replay", "__broadcast", "__delay", "__unreachable"]) :
      IsOwnMethod ctx ("ev" ++ toString event ++ part)
  | caughtUp : IsOwnMethod ctx Emit.deserializationHook

/-- A method that code may go to; if names are kept track of, its name is an identifier. -/
structure Context.IsTarget (ctx : Context) (tracked : Bool) (x : String) : Prop where
  own : ctx.IsOwnMethod x
  legal : tracked = true → isLegalIdentifier x = true

theorem Context.isTarget_chained (ctx : Context) (tracked : Bool) (event : Nat) {part : String}
    (h : part ∈ ["__body", "__replay", "__broadcast", "__delay", "__unreachable"]) :
    ctx.IsTarget tracked ("ev" ++ toString event ++ part) :=
  ⟨.chained event h, fun _ => IsChainMethod.legal ⟨event, part, h, rfl⟩⟩

/-- One module is nested directly in another. -/
def Linkable.Nests (m n : Linkable) : Prop := ∃ start, (start, n) ∈ m.nested

/-- A module, or a module nested in it at any depth. -/
def Linkable.Part : Linkable → Linkable → Prop := ReflTransGen Linkable.Nests

/-- Whether a module is called by the actions of a program and stands in the cache, or is nested in such
a module. -/
def Context.Uses (ctx : Context) (n : Linkable) : Prop :=
  ∃ key ∈ ctx.source.calledModules, ∃ m, ctx.modules.get? key = some m ∧ m.Part n

/-- A usual context: the catalogue of every program, and modules under their keys, together with the
modules nested in them, whose heaps have proper names. -/
structure Context.Sane (ctx : Context) : Prop where
  catalogue : ctx.catalogue = .builtin
  key {key : String} {m : Linkable} : ctx.modules.get? key = some m → m.key = key
  nested {key : String} {m n : Linkable} : ctx.modules.get? key = some m → m.Nests n →
    ctx.modules.get? n.key = some n
  heap {key : String} {m : Linkable} : ctx.modules.get? key = some m → m.Proper

variable {m n : Linkable}

theorem Linkable.sizeOf_lt_of_nests (h : m.Nests n) : sizeOf n < sizeOf m := by
  obtain ⟨start, hmem⟩ := h
  obtain ⟨key, interface, program, nested⟩ := m
  have hlist : sizeOf (start, n) < sizeOf nested := List.sizeOf_lt_of_mem hmem
  simp only [Prod.mk.sizeOf_spec, Linkable.mk.sizeOf_spec] at hlist ⊢
  omega

theorem Linkable.sizeOf_lt_of_transGen (h : TransGen Linkable.Nests m n) :
    sizeOf n < sizeOf m := by
  induction h with
  | single hnests => exact sizeOf_lt_of_nests hnests
  | tail _ hnests ih => exact Nat.lt_trans (sizeOf_lt_of_nests hnests) ih

namespace Context.Sane

variable {ctx : Context} {m n : Linkable}

theorem part (h : ctx.Sane) (hm : ctx.modules.get? m.key = some m) (hn : m.Part n) :
    ctx.modules.get? n.key = some n := by
  induction hn with
  | refl => exact hm
  | tail _ hnests ih => exact h.nested ih hnests

/-- A module has another key than the modules nested in it. -/
theorem key_ne (h : ctx.Sane) (hm : ctx.modules.get? m.key = some m)
    (hn : TransGen Linkable.Nests m n) : n.key ≠ m.key := by
  have hlt : sizeOf n < sizeOf m := Linkable.sizeOf_lt_of_transGen hn
  intro hkey
  have hpart := h.part hm hn.to_reflTransGen
  rw [hkey, hm] at hpart
  cases hpart
  exact Nat.lt_irrefl _ hlt

end Context.Sane

/-- Nothing is asked of a context if names are not kept track of. -/
theorem Context.untracked (ctx : Context) : false = true → ctx.Sane := nofun

theorem Context.Sane.uses {ctx : Context} (h : ctx.Sane) (hn : ctx.Uses n) :
    ctx.modules.get? n.key = some n := by
  obtain ⟨key, -, m, hm, hpart⟩ := hn
  exact h.part (by rw [h.key hm, hm]) hpart

/-- The modules that may be merged: those that a program uses, and if names are kept track of, all that
stand in the cache. -/
inductive Context.Admits (ctx : Context) (tracked : Bool) (m : Linkable) : Prop
  | used (h : ctx.Uses m)
  | cached (ht : tracked = true) (h : ctx.modules.get? m.key = some m)

theorem Context.Admits.uses {ctx : Context} (h : ctx.Admits false m) : ctx.Uses m := by
  cases h with
  | used h => exact h
  | cached ht _ => cases ht

theorem Context.Sane.admits {ctx : Context} {tracked : Bool} (hctx : ctx.Sane)
    (h : ctx.Admits tracked m) : ctx.modules.get? m.key = some m := by
  cases h with
  | used h => exact hctx.uses h
  | cached _ h => exact h

/-- The parameters of an action and the slots of each of its calls. -/
def ResolvedAction.slots (action : ActionInstance) : ResolvedAction → List ParamSpec × List Emit.SlotSource
  | .primitive d =>
      match d.op with
      | .openBlock _ | .assign => (d.params, [⟨action.inputs, none⟩])
      | .invoke _ => (d.params, Emit.repetitions action d.repeatableFirst)
      | .closeBlock | .exitLoop | .nextIteration => ([], [])
  | .moduleEntry _ entry =>
      (Emit.entryParams entry, Emit.repetitions action entry.repeatableFirst)
  | .invalid _ => ([], [])

variable {action : ActionInstance}

theorem ResolvedAction.slot_mem {r : ResolvedAction} {s : Emit.SlotSource}
    (hs : s ∈ (r.slots action).2) (i : Nat) :
    (s.slot i).2 = .default ∨ (s.slot i).2 ∈ action.inputs ++ action.multiInputs := by
  cases r with
  | primitive d =>
    rw [slots] at hs
    cases hop : d.op with
    | openBlock kind => exact Emit.slot_mem_of_single (by rwa [hop] at hs) i
    | assign => exact Emit.slot_mem_of_single (by rwa [hop] at hs) i
    | invoke signature => exact Emit.slot_mem_of_repetitions (by rwa [hop] at hs) i
    | _ =>
      rw [hop] at hs
      cases hs
  | moduleEntry callee entry => exact Emit.slot_mem_of_repetitions hs i
  | invalid reason => cases hs

/-- The action at a place of the source. -/
def TriggerData.action? (d : TriggerData) (event action : Nat) : Option ActionInstance :=
  d.events[event]?.bind fun e => e.actions[action]?

theorem TriggerData.mem_allActions {d : TriggerData} {event i : Nat}
    (h : d.action? event i = some action) : action ∈ d.allActions := by
  obtain ⟨e, he, haction⟩ := Option.bind_eq_some_iff.mp h
  exact List.mem_flatMap.mpr ⟨e, List.mem_of_getElem? he, List.mem_of_getElem? haction⟩

/-- A constant of the source that an action takes, with the type of the parameter. -/
def Context.IsLiteral (ctx : Context) (p : LiteralPosition) (type : VarType) (value : Value) : Prop :=
  ∃ action, ctx.source.data.action? p.event p.action = some action ∧
    let slots := (ctx.catalogue.resolve ctx.modules action.action).slots action
    ∃ spec, slots.1[p.slot]? = some spec ∧ spec.type = type ∧
      ∃ s ∈ slots.2, s.slot p.slot = (p.multi, .constant value)

/-- A custom event of the program. -/
def Context.HasCustom (ctx : Context) (name : String) (params : List ParamDecl) : Prop :=
  ∃ event ∈ ctx.source.data.events, event.trigger = .custom name params

/-- A slot of an action of the program. -/
def Context.HasSlot (ctx : Context) (slot : InputSlot) : Prop :=
  ∃ action ∈ ctx.source.data.allActions, slot ∈ action.inputs ++ action.multiInputs

/-- The methods that merged modules and their instances offer. -/
inductive Linker.Offers (l : Linker) (x : String) : Prop
  | entry {key y : String} {t : Renaming} (ht : l.merged.get? key = some t)
      (hy : t.methods.get? y = some x)
  | copies {key : String} {t : Renaming} {c : InstanceCopies} (ht : l.merged.get? key = some t)
      (hc : c ∈ t.instances) (h : x = c.copyIn ∨ x = c.copyOut)

/-- The names that nested modules have in a caller which has merged them. -/
def Linker.Aliases (l : Linker) (nested : List (String × Linkable))
    (aliases : List Renaming.Alias) : Prop :=
  List.Forall₂ (fun a n => a.1 = n.1 ∧ l.merged.get? n.2.key = some a.2) aliases nested

/-- The types that the constants of a program may have: those whose names are made of the characters of
identifiers, and those of the parameters of modules. -/
def Context.HasType (ctx : Context) (type : VarType) : Prop :=
  isWord type.machineName = true ∨ ∃ key m, ctx.modules.get? key = some m ∧
    ∃ entry ∈ m.interface.entries, ∃ p ∈ entry.params, p.type = type

/-- The methods that a program may name. -/
def Context.ledger (ctx : Context) (l : Linker) : Ledger where
  calls x := ctx.IsTarget true x ∨ l.Offers x
  sends := ctx.source.Dispatches
  exports := ctx.Publishes
  types := ctx.HasType
  calls_of_sends h := by
    obtain ⟨event, part, hpart, rfl⟩ := h.isChainMethod
    exact Or.inl (ctx.isTarget_chained true event hpart)
  exports_of_sends := .dispatched
  calls_changeMethod h := Or.inl ⟨.changed _, fun _ => isLegalIdentifier_changeMethod h⟩
  types_of_isWord := Or.inl

/-- What the emitters of a program may do, and whether names are kept track of. -/
def Context.tracking (ctx : Context) (tracked : Bool) (l : Linker) : Footprint where
  methods := ctx.IsTarget tracked
  vars d := d ∈ ctx.source.data.vars
  params spec := ∃ name d, ctx.catalogue.event? name = some d ∧ spec ∈ d.params
  customs name p := ∃ params, ctx.HasCustom name params ∧ p ∈ params
  locals guid name := ctx.HasSlot (.declare guid name)
  literals := ctx.IsLiteral
  binds := True
  places := True
  ledger := bif tracked then some (ctx.ledger l) else none

/-- What the emitters of a program may do. -/
def Context.footprint (ctx : Context) : Footprint := ctx.tracking false {}

variable {e : Emission} {key x : String} {t : Renaming}

namespace Context

variable {ctx : Context} {tracked : Bool} {l : Linker} {index : Nat} {event : EventDecl}

theorem tracked_of_tracks (h : (ctx.tracking tracked l).Tracks) : tracked = true := by
  cases tracked with
  | true => rfl
  | false => cases h

theorem calls_tracking (h : tracked = true → ctx.IsTarget true x ∨ l.Offers x) :
    (ctx.tracking tracked l).Calls x := by
  intro n hn
  cases tracked with
  | true =>
    cases hn
    exact h rfl
  | false => cases hn

theorem exports_tracking (h : ctx.Publishes x) : (ctx.tracking tracked l).Exports x := by
  intro n hn
  cases tracked with
  | true =>
    cases hn
    exact h
  | false => cases hn

theorem sends_tracking (h : ctx.source.Dispatches x) : (ctx.tracking tracked l).Sends x := by
  intro n hn
  cases tracked with
  | true =>
    cases hn
    exact h
  | false => cases hn

theorem chains_tracking (ctx : Context) (tracked : Bool) (l : Linker) :
    (ctx.tracking tracked l).Chains :=
  ⟨ctx.isTarget_chained tracked, ⟨.caughtUp, fun _ => by decide⟩,
    fun h => calls_tracking fun ht => Or.inl (ht ▸ h)⟩

theorem chains_footprint (ctx : Context) : ctx.footprint.Chains := ctx.chains_tracking false {}

theorem links_tracking
    (h : tracked = true → l.merged.get? key = some t) : (ctx.tracking tracked l).Links t :=
  ⟨fun hy => calls_tracking fun ht => Or.inr (.entry (h ht) hy), fun hc =>
    ⟨calls_tracking fun ht => Or.inr (.copies (h ht) hc (Or.inl rfl)),
      calls_tracking fun ht => Or.inr (.copies (h ht) hc (Or.inr rfl))⟩⟩

theorem params_tracking (ctx : Context) (tracked : Bool) (l : Linker) (name : String) (d : EventDef)
    (hd : ctx.catalogue.event? name = some d) (spec : EventParamSpec) (hspec : spec ∈ d.params) :
    (ctx.tracking tracked l).params spec := ⟨name, d, hd, hspec⟩

theorem customs_tracking (hevent : ctx.source.data.events[index]? = some event) (name : String)
    (params : List ParamDecl) (htrigger : event.trigger = .custom name params) (p : ParamDecl)
    (hp : p ∈ params) : (ctx.tracking tracked l).customs name p :=
  ⟨params, ⟨event, List.mem_of_getElem? hevent, htrigger⟩, hp⟩

theorem isVariableName_of_params (hcatalogue : ctx.catalogue = .builtin) (spec : EventParamSpec)
    (h : (ctx.tracking tracked l).params spec) : Emit.isVariableName spec.storage = true := by
  obtain ⟨name, d, hd, hspec⟩ := h
  rw [hcatalogue] at hd
  exact SymbolTable.isVariableName_storage hd hspec

theorem sees_tracking (hctx : tracked = true → ctx.Sane)
    (he : tracked = true → e.Orderly) : (ctx.tracking tracked l).Sees e := fun h =>
  ⟨isVariableName_of_params (hctx (tracked_of_tracks h)).catalogue, he (tracked_of_tracks h)⟩

theorem resolve_eq_primitive {p : PrimitiveDef}
    (h : ctx.catalogue.resolve ctx.modules action.action = .primitive p) :
    ∃ id, ctx.catalogue.primitive? id = some p := by
  unfold Catalogue.resolve at h
  split at h
  · split at h
    · rename_i hget
      cases h
      exact ⟨_, hget⟩
    · cases h
  · split at h
    · cases h
    · split at h
      · cases h
      · cases h

theorem resolve_eq_moduleEntry {callee : Linkable} {entry : ModuleEntry}
    (h : ctx.catalogue.resolve ctx.modules action.action = .moduleEntry callee entry) :
    (∃ key, ctx.modules.get? key = some callee) ∧ entry ∈ callee.interface.entries := by
  unfold Catalogue.resolve at h
  split at h
  · split at h
    · cases h
    · cases h
  · split at h
    · cases h
    · rename_i hget
      split at h
      · rename_i hentry
        cases h
        exact ⟨⟨_, hget⟩, List.mem_of_find?_eq_some hentry⟩
      · cases h

/-- The defaults of the parameters of actions are plain: those of entries of modules, and with the actions
of every program all of them. Their types are those of entries, or have names like identifiers. -/
theorem isPlain_of_resolve (hcatalogue : ctx.catalogue = .builtin) {spec : ParamSpec}
    (h : spec ∈ ((ctx.catalogue.resolve ctx.modules action.action).slots action).1) :
    spec.defaultValue.isPlain = true ∧ ctx.HasType spec.type := by
  cases hresolved : ctx.catalogue.resolve ctx.modules action.action with
  | invalid reason =>
    rw [hresolved] at h
    cases h
  | moduleEntry callee entry =>
    rw [hresolved] at h
    obtain ⟨param, hparam, rfl⟩ := List.mem_map.mp h
    obtain ⟨⟨key, hget⟩, hentry⟩ := resolve_eq_moduleEntry hresolved
    have hplain : param.type.defaultValue.isPlain = true := by cases param.type <;> rfl
    exact ⟨hplain, Or.inr ⟨key, callee, hget, entry, hentry, param, hparam, rfl⟩⟩
  | primitive p =>
    rw [hresolved, ResolvedAction.slots] at h
    have hspec : spec ∈ p.params := by
      split at h
      · exact h
      · exact h
      · exact h
      all_goals cases h
    obtain ⟨id, hp⟩ := resolve_eq_primitive hresolved
    rw [hcatalogue] at hp
    have hall : Catalogue.builtin.primitives.entries.all (fun e =>
        e.2.params.all fun spec => spec.defaultValue.isPlain && isWord spec.type.machineName) = true := by
      decide
    have hentry := List.all_eq_true.mp hall _ (OrderedMap.get?_eq_some_iff.mp hp)
    exact (Bool.and_eq_true _ _ ▸ List.all_eq_true.mp hentry spec hspec).imp_right Or.inl

/-- The slots of an action of the source may be filled. -/
theorem fills_tracking (hctx : tracked = true → ctx.Sane) {i : Nat}
    (h : ctx.source.data.action? index i = some action) :
    let slots := (ctx.catalogue.resolve ctx.modules action.action).slots action
    (ctx.tracking tracked l).FillsAll (.ofAction index i) slots.1 slots.2 := by
  refine fun s hs k spec hspec => ⟨fun hslot => ?_, fun hslot => ⟨?_, trivial⟩, fun n hn => ?_⟩
  · exact ⟨action, h, spec, hspec, rfl, s, hs, Prod.ext rfl hslot⟩
  · refine ⟨action, TriggerData.mem_allActions h, ?_⟩
    rcases ResolvedAction.slot_mem hs k with hdefault | hmem
    · rw [hslot] at hdefault
      cases hdefault
    · rwa [hslot] at hmem
  · cases tracked with
    | true =>
      cases hn
      exact isPlain_of_resolve (hctx rfl).catalogue (List.mem_of_getElem? hspec)
    | false => cases hn

end Context

/-- A list that stands at a position of a sequence. -/
def Aligned {α : Type} (f : Nat → Option α) (i : Nat) (l : List α) : Prop :=
  ∀ (k : Nat) (a : α), l[k]? = some a → f (i + k) = some a

namespace Aligned

variable {α : Type} {f : Nat → Option α} {i : Nat} {a : α} {l : List α}

theorem drop (h : Aligned f i l) (n : Nat) : Aligned f (i + n) (l.drop n) := by
  intro k a hk
  rw [List.getElem?_drop] at hk
  rw [Nat.add_assoc]
  exact h (n + k) a hk

theorem head (h : Aligned f i (a :: l)) : f i = some a := h 0 a rfl

theorem tail (h : Aligned f i (a :: l)) : Aligned f (i + 1) l := h.drop 1

end Aligned

theorem TriggerData.aligned_events (d : TriggerData) : Aligned (fun i => d.events[i]?) 0 d.events :=
  fun k _ hk => by rwa [Nat.zero_add]

variable {event : EventDecl}

theorem TriggerData.aligned_actions {d : TriggerData} {index : Nat}
    (h : d.events[index]? = some event) : Aligned (d.action? index) 0 event.actions :=
  fun k _ hk => by rwa [Nat.zero_add, action?, h]

namespace Emission

/-- One elementary step of emission. -/
inductive Step (ctx : Context) (e : Emission) : Emission → Prop
  | reported (f : Finding) : Step ctx e { e with findings := e.findings ++ [f] }
  | symbols {t : SymbolTable} (h : e.program.symbols.Change ctx t) : Step ctx e (e.withSymbols t)
  | labelled (hint : String) : Step ctx e (e.withMethods (e.program.methods.newLabel hint).2)
  | emitted {method : String} {code : List Instruction} (hmethod : ctx.IsOwnMethod method)
      (hcode : code.all (fun i => !i.isComment) = true) :
      Step ctx e (e.withMethods (e.program.methods.emit method code))
  | touched (method : String) (exported : Bool → Bool) :
      Step ctx e (e.withMethods
        (e.program.methods.update method fun b => { b with exported := exported b.exported }))
  | discarded (event : Nat) :
      Step ctx e (e.withMethods (e.program.methods.remove s!"ev{event}__unreachable"))
  | blocks (s : BlockStack) : Step ctx e { e with blocks := s }
  | noted (references : List Reference) (chains : List EventChain)
      (literals : OrderedMap LiteralPosition VarId) (seenParameterized : List String) :
      Step ctx e { e with references, chains, literals, seenParameterized }
  | merged {m : Linkable} (aliases : List Renaming.Alias) (hm : ctx.Uses m) :
      Step ctx e (e.withLinkage
        ((Linker.mergeOwn m ctx.settings.includeEventHooks aliases).run e.linkage).2)

/-- A sequence of steps of emission. -/
def Steps (ctx : Context) : Emission → Emission → Prop := ReflTransGen (Step ctx)

/-- One elementary step of emission that the source asks for. If names are kept track of, a module is merged
once, behind the modules nested in it. -/
inductive Advance (ctx : Context) (tracked : Bool) (e : Emission) : Emission → Prop
  | altered {e' : Emission} (h : Alters (ctx.tracking tracked e.linker) e e') :
      Advance ctx tracked e e'
  | merged {m : Linkable} (aliases : List Renaming.Alias) (hm : ctx.Admits tracked m)
      (hnew : tracked = true → e.linker.merged.get? m.key = none ∧
        e.linker.Aliases m.nested aliases) :
      Advance ctx tracked e (e.withLinkage
        ((Linker.mergeOwn m ctx.settings.includeEventHooks aliases).run e.linkage).2)

/-- A sequence of steps that the source asks for. -/
def Advances (ctx : Context) (tracked : Bool) : Emission → Emission → Prop :=
  ReflTransGen (Advance ctx tracked)

/-- One step that the source asks for, whatever is named. -/
abbrev SourceStep (ctx : Context) : Emission → Emission → Prop := Advance ctx false

/-- A sequence of steps that the source asks for, whatever is named. -/
abbrev SourceSteps (ctx : Context) : Emission → Emission → Prop := Advances ctx false

/-- One step that keeps track of names. -/
abbrev Move (ctx : Context) : Emission → Emission → Prop := Advance ctx true

/-- A sequence of steps that keep track of names. -/
abbrev Moves (ctx : Context) : Emission → Emission → Prop := Advances ctx true

namespace Advances

variable {ctx : Context} {tracked : Bool} {e e' e'' : Emission}

theorem refl (e : Emission) : Advances ctx tracked e e := ReflTransGen.refl

theorem of_step (h : Advance ctx tracked e e') : Advances ctx tracked e e' := ReflTransGen.single h

theorem trans (h : Advances ctx tracked e e') (h' : Advances ctx tracked e' e'') :
    Advances ctx tracked e e'' := ReflTransGen.trans h h'

theorem keeps {P : Emission → Prop} (hstep : ∀ e e', Advance ctx tracked e e' → P e → P e')
    (h : Advances ctx tracked e e') (he : P e) : P e' := by
  induction h with
  | refl => exact he
  | tail _ hlast ih => exact hstep _ _ hlast ih

end Advances

end Emission

open Emission

variable {ctx : Context}

theorem SymbolTable.Edit.change {t t' : SymbolTable} {tracked : Bool} {l : Linker}
    (h : t.Edit (ctx.tracking tracked l) t') : t.Change ctx t' := by
  cases h with
  | declared _ hname h => exact .declared hname h
  | watched _ hname h => exact .watched hname h
  | literal _ => exact .literal _ _ _
  | system which => exact .system which
  | loopIndex _ => exact .blockLocal _ _
  | boundLocal _ type => exact .boundLocal _ _ type
  | parameter _ hlegal hplain => exact .parameter _ _ _ hlegal hplain
  | eventParam guid hspec =>
    obtain ⟨name, d, hd, hspec⟩ := hspec
    exact .eventParam guid hd hspec
  | replayCounter event => exact .replayCounter event
  | replayedCounter event => exact .replayedCounter event
  | leased type => exact .leased type
  | released id => exact .released id
  | unbound _ id => exact .unbound id
  | shadowed hv hwatched => exact .shadowed hv hwatched

variable {e' : Emission}

/-- A step that the source asks for is a step. -/
theorem Emission.Advance.step (h : SourceStep ctx e e') : Step ctx e e' := by
  cases h with
  | merged aliases hm => exact .merged aliases hm.uses
  | altered h =>
    cases h with
    | reported _ => exact .reported _
    | pooled type value => exact .symbols (.constant type value)
    | edited h => exact .symbols h.change
    | labelled hint => exact .labelled hint
    | emitted hmethod hcode => exact .emitted hmethod.own hcode
    | touched method exported => exact .touched method exported
    | discarded event => exact .discarded event
    | blocks _ _ => exact .blocks _
    | noted _ _ _ => exact .noted _ e.chains _ e.seenParameterized
    | chained chains => exact .noted e.references chains e.literals e.seenParameterized
    | seen _ name => exact .noted e.references e.chains e.literals _

theorem Emission.Advances.steps (h : SourceSteps ctx e e') : Steps ctx e e' := ReflTransGen.mono (fun _ _ => Advance.step) _ _ h

/-! ### What steps keep -/

namespace Emission

variable {tracked : Bool} {e e' : Emission}

theorem Advance.hasErrors (h : Advance ctx tracked e e') (he : e.hasErrors = true) :
    e'.hasErrors = true := by
  cases h with
  | altered h => exact h.hasErrors he
  | merged _ _ _ => exact he

theorem Advances.hasErrors (h : Advances ctx tracked e e') (he : e.hasErrors = true) :
    e'.hasErrors = true :=
  h.keeps (P := fun s => s.hasErrors = true) (fun _ _ hstep => hstep.hasErrors) he

theorem Advances.noErrors (h : Advances ctx tracked e e') (he : e'.hasErrors = false) :
    e.hasErrors = false := by
  rw [← Bool.not_eq_true]
  intro hbefore
  rw [h.hasErrors hbefore] at he
  cases he

/-- A module that has been merged keeps its names. -/
theorem Advance.linker (h : Advance ctx true e e')
    (ht : e.linker.merged.get? key = some t) : e'.linker.merged.get? key = some t := by
  cases h with
  | altered h =>
    rw [Stays.linker (.of_step h)]
    exact ht
  | @merged m aliases _ hnew =>
    rcases Linker.run_mergeOwn m ctx.settings.includeEventHooks aliases e.linkage with
      ⟨failure, -, hrun⟩ | ⟨-, hrun⟩
    · rw [hrun]
      exact ht
    · rw [hrun]
      show (e.linker.merged.insert m.key _).get? key = some t
      rw [OrderedMap.get?_insert, if_neg, ht]
      rintro rfl
      rw [(hnew rfl).1] at ht
      cases ht

theorem Advances.linker (h : Advances ctx true e e')
    (ht : e.linker.merged.get? key = some t) : e'.linker.merged.get? key = some t :=
  h.keeps (P := fun s => s.linker.merged.get? key = some t) (fun _ _ hstep => hstep.linker) ht

theorem Advance.orderly (h : Advance ctx true e e') (hsane : ctx.Sane) (he : e.Orderly) :
    e'.Orderly := by
  cases h with
  | altered h => exact h.orderly rfl (Context.isVariableName_of_params hsane.catalogue) he
  | merged aliases hm _ =>
    exact ⟨he.toNamed.mergeOwn (hsane.heap (hsane.admits hm)) _ aliases, he.marked⟩

theorem Advances.orderly (h : Moves ctx e e') (hsane : ctx.Sane) (he : e.Orderly) : e'.Orderly :=
  h.keeps (fun _ _ hstep => hstep.orderly hsane) he

theorem Advances.orderly_of_tracked (h : Advances ctx tracked e e') (hctx : tracked = true → ctx.Sane)
    (he : tracked = true → e.Orderly) (ht : tracked = true) : e'.Orderly := by
  subst ht
  exact h.orderly (hctx rfl) (he rfl)

theorem Stays.advances (h : Stays (ctx.tracking tracked e.linker) e e') :
    Advances ctx tracked e e' := by
  induction h with
  | refl => exact .refl e
  | tail hfirst hlast ih => exact ih.trans (.of_step (.altered (by rwa [Stays.linker hfirst])))

end Emission

/-! ### The methods that events start with -/

namespace Emit

theorem Within.steps {α : Type} {x : Emit α} {a : α}
    (hx : Within ctx.footprint x) (h : x e = (a, e')) : SourceSteps ctx e e' := by
  have hsteps : SourceSteps ctx e (x e).2 := Stays.advances (hx e nofun)
  rwa [h] at hsteps

theorem hasErrors_report {problem : Problem} (h : problem.isWarning = false)
    (location? : Option Location) (e : Emission) :
    (report problem location? e).2.hasErrors = true := by
  show List.any (e.findings ++ [⟨problem, location?⟩]) Finding.isError = true
  rw [List.any_append, Bool.or_eq_true]
  right
  simp [Finding.isError, h]

/-- A base that is found is a method of the program, which the machine may call if the event is not raised
by the program itself; and an event without one is an error. -/
def Bases (ctx : Context) (tracked : Bool) (trigger : EventTrigger) (e : Emission) :
    Option EventBase → Prop
  | none => e.hasErrors = true
  | some base => ctx.IsTarget tracked base.method ∧
      trigger.baseMethod? ctx.catalogue = (if base.exported then some base.method else none) ∧
      (ctx.catalogue = .builtin → base.exported = true → ¬IsChainMethod base.method)

section

variable {tracked : Bool} (hctx : tracked = true → ctx.Sane)

include hctx in
theorem bases_builtinBase (location : Location) (name : String) (params : List ParamDecl) (e : Emission) :
    Bases ctx tracked (.builtin name params) (builtinBase ctx location name params e).2
      (builtinBase ctx location name params e).1 := by
  unfold builtinBase
  cases hd : ctx.catalogue.event? name with
  | none => exact hasErrors_report rfl _ e
  | some d =>
    dsimp only
    split
    · exact hasErrors_report rfl _ e
    · have hlegal (ht : tracked = true) :=
        isLegalIdentifier_method (d := d) ((hctx ht).catalogue ▸ hd)
      refine ⟨⟨.raised hd, hlegal⟩, congrArg (Option.map EventDef.method) hd, fun hcatalogue _ => ?_⟩
      exact not_isChainMethod_of_isEventHook (isEventHook_method (hcatalogue ▸ hd))

theorem bases_customBase (location : Location) (name : String) (params : List ParamDecl) (e : Emission) :
    Bases ctx tracked (.custom name params) (customBase ctx location name params e).2
      (customBase ctx location name params e).1 := by
  unfold customBase
  split
  · exact hasErrors_report rfl _ e
  · rename_i hname
    rw [Bool.or_eq_true, not_or, Bool.not_eq_true, Bool.not_eq_eq_eq_not, Bool.not_false,
      Bool.not_eq_true] at hname
    have hbase (e : Emission) (storage : List VarId) :
        Bases ctx tracked (.custom name params) e (some ⟨name, true, storage⟩) :=
      ⟨⟨.custom hname.1 hname.2, fun _ => isLegalIdentifier_of_isVariableName hname.1⟩, rfl, fun _ _ => not_isChainMethod_of_isVariableName hname.1⟩
    rw [run_get_bind]
    split
    · exact hasErrors_report rfl _ e
    · split
      · split
        · exact hbase _ _
        · exact hbase _ _
      · exact hbase _ _

variable (he : tracked = true → e.Orderly)
include he

/-- A variable that is watched and that an identifier is bound to is one of the author. -/
theorem bases_changedBase (location : Location) (guid : Guid) :
    Bases ctx tracked (.changed guid) (changedBase location guid e).2
      (changedBase location guid e).1 := by
  unfold changedBase
  rw [run_get_bind]
  cases hfound : (e.program.symbols.idOfGuid? guid).bind e.program.symbols.get? with
  | none => exact hasErrors_report rfl _ e
  | some v =>
    dsimp only
    split
    · rename_i hwatched
      refine ⟨⟨.changed _, fun ht => ?_⟩, rfl, nofun⟩
      obtain ⟨id, hid, hv⟩ := Option.bind_eq_some_iff.mp hfound
      have hproper := (he ht).proper
      have hname := hproper.fits hv
      rw [(hproper.watched hv (Or.inl hwatched)).resolve_right (hproper.bound hid hv)] at hname
      exact isLegalIdentifier_changeMethod hname
    · exact hasErrors_report rfl _ e

include hctx

theorem bases_resolveBase (location : Location) (trigger : EventTrigger) :
    Bases ctx tracked trigger (resolveBase ctx location trigger e).2
      (resolveBase ctx location trigger e).1 := by
  cases trigger with
  | builtin name params => exact bases_builtinBase hctx location name params e
  | custom name params => exact bases_customBase location name params e
  | changed guid => exact bases_changedBase he location guid

end

/-- A delay that does not fit is an error. -/
theorem checkDelay_cases (location : Location) (delay : Delay) (e : Emission) :
    checkDelay location delay e = (true, e) ∨ (checkDelay location delay e).1 = false ∧
      (checkDelay location delay e).2.hasErrors = true := by
  cases delay with
  | frames n =>
    rw [checkDelay]
    split
    · exact Or.inr ⟨rfl, hasErrors_report rfl _ e⟩
    · exact Or.inl rfl
  | none => exact Or.inl rfl
  | seconds s => exact Or.inl rfl

theorem fst_effectiveReplay (location : Location) (o : EventOptions) (e : Emission) :
    (effectiveReplay location o e).1 = o.activeReplay := by
  unfold effectiveReplay EventOptions.activeReplay
  by_cases hhere : o.broadcast = .here
  · by_cases hnone : o.replay = .none
    · simp [hhere, hnone]
      rfl
    · simp [hhere, hnone]
      rfl
  · simp [hhere]
    rfl

/-- An event that is opened has a method of the program, and one that cannot be built is an error. -/
def Opens (ctx : Context) (tracked : Bool) (event : EventDecl) (e : Emission) :
    Option (EventBase × ReplayMode) → Prop
  | none => e.hasErrors = true
  | some (base, replay) => ctx.IsTarget tracked base.method ∧ replay = event.options.activeReplay

variable {tracked : Bool}

theorem Opens.keep {opened : Option (EventBase × ReplayMode)} (h : Opens ctx tracked event e opened)
    (hsteps : Advances ctx tracked e e') : Opens ctx tracked event e' opened := by
  rcases opened with - | ⟨base, replay⟩
  · exact hsteps.hasErrors h
  · exact h

variable (hctx : tracked = true → ctx.Sane) (he : tracked = true → e.Orderly)
include hctx he

/-- An event is opened with a method that the machine may call if the event is not raised by the program
itself. -/
theorem opens_openEvent (index : Nat) (event : EventDecl) :
    Opens ctx tracked event (openEvent ctx index event e).2 (openEvent ctx index event e).1 ∧
      ((openEvent ctx index event e).1.isSome = true → ∀ x,
        event.trigger.baseMethod? ctx.catalogue = some x →
          (openEvent ctx index event e).2.program.methods.Exports x) := by
  have hbases := bases_resolveBase hctx he (.ofEvent index) event.trigger
  unfold openEvent
  rw [run_bind, run_bind]
  generalize resolveBase ctx (.ofEvent index) event.trigger e = resolved at hbases ⊢
  obtain ⟨base?, e₁⟩ := resolved
  rcases checkDelay_cases (.ofEvent index) event.options.delay e₁ with hfits | ⟨hfits, hlate⟩
  · rw [hfits]
    cases base? with
    | none => exact ⟨hbases, nofun⟩
    | some base =>
      obtain ⟨hown, htrigger, -⟩ := hbases
      refine ⟨⟨hown, fst_effectiveReplay _ _ e₁⟩, fun _ x hx => ?_⟩
      rw [htrigger] at hx
      split at hx
      · rename_i hexported
        cases hx
        exact (MethodTable.exports_update fun _ => rfl).mpr
          (Or.inr ⟨rfl, hexported⟩)
      · cases hx
  · generalize checkDelay (.ofEvent index) event.options.delay e₁ = checked at hfits hlate ⊢
    obtain ⟨fits, e₂⟩ := checked
    cases hfits
    cases base? with
    | none => exact ⟨hlate, nofun⟩
    | some base => exact ⟨hlate, nofun⟩

/-- An event that has been opened has a method of the program's own. -/
theorem isTarget_openEvent {index : Nat} {base : EventBase}
    {replay : ReplayMode} (h : (openEvent ctx index event e).1 = some (base, replay)) :
    ctx.IsTarget tracked base.method := by
  have hopens := (opens_openEvent hctx he index event).1
  rw [h] at hopens
  exact hopens.1

theorem isTarget_bodyMethod (index : Nat) (event : EventDecl) :
    ctx.IsTarget tracked (bodyMethod index event (openEvent ctx index event e).1) := by
  cases hopen : (openEvent ctx index event e).1 with
  | none => exact ctx.isTarget_chained tracked index (by decide)
  | some opened =>
    rw [bodyMethod]
    split
    · exact ctx.isTarget_chained tracked index (by decide)
    · exact isTarget_openEvent hctx he hopen

end Emit

end TriggerCompiler
