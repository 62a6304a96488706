import Mathlib.Logic.Relation
import TriggerCompiler.Proofs.ActionCalls
import TriggerCompiler.Proofs.HeapEvolution
import TriggerCompiler.Proofs.Methods

/-! What the emitters do to their state. Every emitter is a sequence of elementary steps: it reports a
problem, asks for a variable, hands out a label, appends code to a method, and so on. A footprint bounds
these steps: it says which methods the code may go to, which variables may be declared and which constants
of the source noted, and whether blocks may be opened, closed and continued. It may also keep track of
names: of the labels that are placed, and of the methods that are called and exported. -/

open Relation

namespace TriggerCompiler

/-- Whether an instruction is a comment. -/
def Instruction.isComment : Instruction → Bool
  | comment _ => true
  | _ => false

/-- Whether a problem is about the place of an action among the blocks. -/
def Problem.isNesting : Problem → Bool
  | mustFollowConditional _ => true
  | breakOutsideLoop => true
  | continueOutsideLoop => true
  | _ => false

/-- The label with a hint and a number. -/
def labelName (hint : String) (n : Nat) : String := s!"__lbl_{hint}_{n}"

/-- A label that a method table hands out. -/
def IsLabelName (l : String) : Prop := ∃ hint n, l = labelName hint n

/-- A value that names neither a label nor a method, as the compiler requests it for a constant. -/
def Value.isPlain : Value → Bool
  | null | bool _ | int _ | uint _ | float _ | vector3 .. => true
  | str _ | this | label _ | method _ => false

/-- The methods that are kept track of. -/
structure Ledger where
  /-- The methods that may be called. -/
  calls : String → Prop
  /-- The methods that constants may name. -/
  sends : String → Prop
  /-- The methods that the machine may be allowed to call. -/
  exports : String → Prop
  /-- The types that constants may have. -/
  types : VarType → Prop
  calls_of_sends {x : String} : sends x → calls x
  exports_of_sends {x : String} : sends x → exports x
  calls_changeMethod {name : String} : Emit.isVariableName name = true → calls (changeMethod name)
  types_of_isWord {type : VarType} : isWord type.machineName = true → types type

/-- What a computation may do. -/
structure Footprint where
  /-- The methods that its code may go to. -/
  methods : String → Prop
  /-- The variables of the author that it may declare. -/
  vars : VariableDecl → Prop
  /-- The parameters of events of the machine that it may store. -/
  params : EventParamSpec → Prop
  /-- The parameters of custom events that it may store. -/
  customs : String → ParamDecl → Prop
  /-- The variables of blocks that it may declare for an identifier. -/
  locals : Guid → String → Prop
  /-- The constants of the source that it may note, with the types of their parameters. -/
  literals : LiteralPosition → VarType → Value → Prop
  /-- Whether it may declare the index of a loop, end the visibility of variables and change what the
  blocks own. -/
  binds : Prop
  /-- Whether it may open, close and continue blocks, and find actions out of place among them. -/
  places : Prop
  /-- The methods that it may name, if names are kept track of. -/
  ledger : Option Ledger := none

namespace Footprint

/-- Whether names are kept track of. -/
def Tracks (F : Footprint) : Prop := F.ledger.isSome = true

/-- Whether a method may be called. -/
def Calls (F : Footprint) (x : String) : Prop := ∀ l ∈ F.ledger, l.calls x

/-- Whether a constant may name a method. -/
def Sends (F : Footprint) (x : String) : Prop := ∀ l ∈ F.ledger, l.sends x

/-- Whether the machine may be allowed to call a method. -/
def Exports (F : Footprint) (x : String) : Prop := ∀ l ∈ F.ledger, l.exports x

/-- Whether a label may be placed. -/
def Marks (F : Footprint) (l : String) : Prop := F.Tracks → IsLabelName l

variable {F : Footprint} {x : String}

theorem Sends.calls (h : F.Sends x) : F.Calls x := fun l hl => l.calls_of_sends (h l hl)

theorem Sends.exports (h : F.Sends x) : F.Exports x := fun l hl => l.exports_of_sends (h l hl)

theorem tracks_of_mem {l : Ledger} (h : l ∈ F.ledger) : F.Tracks := Option.isSome_of_mem h

/-- Whether the code of the methods around an event may be emitted. -/
structure Chains (F : Footprint) : Prop where
  around (event : Nat) {part : String}
    (h : part ∈ ["__body", "__replay", "__broadcast", "__delay", "__unreachable"]) :
    F.methods ("ev" ++ toString event ++ part)
  caughtUp : F.methods Emit.deserializationHook
  called {x : String} (h : F.methods x) : F.Calls x

/-- Whether the slot at a position of a call may be filled. -/
structure Fills (F : Footprint) (location : Location) (slots : Emit.SlotSource) (i : Nat)
    (spec : ParamSpec) : Prop where
  constant {value : Value} : (slots.slot i).2 = .constant value →
    F.literals (slots.position location i) spec.type value
  declare {guid : Guid} {name : String} : (slots.slot i).2 = .declare guid name →
    F.locals guid name ∧ F.binds
  plain : ∀ l ∈ F.ledger, spec.defaultValue.isPlain = true ∧ l.types spec.type

/-- Whether the slots of calls may be filled. -/
def FillsAll (F : Footprint) (location : Location) (params : List ParamSpec)
    (sources : List Emit.SlotSource) : Prop :=
  ∀ slots ∈ sources, ∀ (i : Nat) (spec : ParamSpec), params[i]? = some spec →
    F.Fills location slots i spec

end Footprint

/-! ### Blocks -/

/-- The place where a block was opened and the variables that it owns. -/
def BlockFrame.scope (f : BlockFrame) : Option Location × List VarId := (f.openedAt, f.owned)

/-- A frame without its variables. -/
def BlockFrame.bare (f : BlockFrame) : BlockFrame := { f with owned := [], forLoop := none }

/-- The labels of a frame have been handed out. -/
structure BlockFrame.Marked (f : BlockFrame) : Prop where
  next {l : String} : f.nextLabel = some l → IsLabelName l
  exit {l : String} : f.exitLabel = some l → IsLabelName l
  start {l : String} : f.startLabel = some l → IsLabelName l
  continued {l : String} : f.continueLabel = some l → IsLabelName l

namespace BlockStack

/-- The scopes that are open, innermost first. -/
def scopes (b : BlockStack) : List (Option Location × List VarId) := b.frames.map BlockFrame.scope

/-- The open blocks without their variables. -/
def bare (b : BlockStack) : BlockStack := { b with frames := b.frames.map BlockFrame.bare }

/-- The labels that open blocks hold, and the one that a closed block leaves, have been handed out. -/
structure Marked (b : BlockStack) : Prop where
  frames {f : BlockFrame} : f ∈ b.frames → f.Marked
  previous {c : ClosedBlock} {l : String} : b.previous = some c → c.pendingExit = some l → IsLabelName l

theorem marked_empty : Marked {} := ⟨fun hf => absurd hf List.not_mem_nil, nofun⟩

theorem marked_ofParameters (params : List VarId) : (ofParameters params).Marked := by
  refine ⟨fun {f} hf => ?_, nofun⟩
  rw [List.mem_singleton.mp hf]
  exact ⟨nofun, nofun, nofun, nofun⟩

theorem Marked.of_bare {b b' : BlockStack} (h : b.Marked) (hbare : b'.bare = b.bare) : b'.Marked := by
  refine ⟨fun {f} hf => ?_, fun hc => ?_⟩
  · have hmem : f.bare ∈ b'.bare.frames := List.mem_map_of_mem hf
    rw [hbare] at hmem
    obtain ⟨g, hg, heq⟩ := List.mem_map.mp hmem
    have hmarked := h.frames hg
    obtain ⟨-, -, -, hnext, hexit, hstart, hcontinued, -⟩ := BlockFrame.mk.inj heq
    exact ⟨fun hl => hmarked.next (hnext.trans hl), fun hl => hmarked.exit (hexit.trans hl),
      fun hl => hmarked.start (hstart.trans hl), fun hl => hmarked.continued (hcontinued.trans hl)⟩
  · have hprevious : b'.bare.previous = b.bare.previous := congrArg BlockStack.previous hbare
    exact h.previous (hprevious.symm.trans hc)

theorem scopes_modifyTop {f : BlockFrame → BlockFrame} (hf : ∀ frame, (f frame).scope = frame.scope)
    (b : BlockStack) : (b.modifyTop f).scopes = b.scopes := by
  obtain ⟨frames, previous⟩ := b
  cases frames with
  | nil => rfl
  | cons frame rest => simp [modifyTop, scopes, hf]

theorem bare_modifyTop {f : BlockFrame → BlockFrame} (hf : ∀ frame, (f frame).bare = frame.bare)
    (b : BlockStack) : (b.modifyTop f).bare = b.bare := by
  obtain ⟨frames, previous⟩ := b
  cases frames with
  | nil => rfl
  | cons frame rest => simp [modifyTop, bare, hf]

end BlockStack

/-! ### Steps -/

/-- One elementary change of the heap, other than a request for a pooled constant. A variable that an
identifier is to stand for is bound as soon as it is declared, and only a watched variable gets one for
its previous value. -/
inductive SymbolTable.Edit (F : Footprint) (t : SymbolTable) : SymbolTable → Prop
  | declared {d : VariableDecl} {id : VarId} {t' : SymbolTable} (hd : F.vars d)
      (hname : Emit.isVariableName d.name = true) (h : t.declareUser d = .ok (id, t')) : Edit F t t'
  | watched {d : VariableDecl} {id : VarId} {t' : SymbolTable} (hd : F.vars d)
      (hname : Emit.isVariableName d.name = true) (h : t.declareUser d = .ok (id, t')) :
      Edit F t (t'.modifyVar id fun v => { v with onChange := some (changeMethod d.name) })
  | literal {position : LiteralPosition} {type : VarType} {value : Value}
      (h : F.literals position type value) : Edit F t (t.literal position.symbol type value).2
  | system (which : SystemVariable) : Edit F t (t.system which).2
  | loopIndex (hbinds : F.binds) : Edit F t (t.declareLocal "index" .int).2
  | boundLocal {guid : Guid} {name : String} (h : F.locals guid name) (type : VarType) :
      Edit F t ((t.declareLocal name type).2.bindGuid guid (t.declareLocal name type).1)
  | parameter {name : String} {p : ParamDecl} (h : F.customs name p)
      (hlegal : Emit.isVariableName name = true) (hplain : startsWithUnderscore name = false) :
      Edit F t
        ((t.declareInternal (customParamVariable name p.name) p.type p.type.defaultValue).2.bindGuid
          p.guid (t.declareInternal (customParamVariable name p.name) p.type p.type.defaultValue).1)
  | eventParam (guid : Guid) {spec : EventParamSpec} (hspec : F.params spec) :
      Edit F t ((t.declareEventParam spec.storage spec.type).2.bindGuid guid
        (t.declareEventParam spec.storage spec.type).1)
  | replayCounter (event : Nat) :
      Edit F t ((t.declareInternal s!"__replay_{event}" .int (.int 0)).2.modifyVar
        (t.declareInternal s!"__replay_{event}" .int (.int 0)).1 fun v => { v with sync := .synced })
  | replayedCounter (event : Nat) :
      Edit F t (t.declareInternal s!"__replayed_{event}" .int (.int 0)).2
  | leased (type : VarType) : Edit F t (t.acquireTemp type).2
  | released (id : VarId) : Edit F t (t.releaseTemp id)
  | unbound (hbinds : F.binds) (id : VarId) : Edit F t (t.unbind id)
  | shadowed {id : VarId} {v : Variable} (hv : t.get? id = some v)
      (hwatched : v.onChange.isSome = true) : Edit F t (t.ensurePrevious id).2

/-- The constants that may be requested if names are kept track of: plain values, the addresses of labels,
and the names of methods that are there. -/
inductive Ledger.Pools (l : Ledger) (e : Emission) : VarType → Value → Prop
  | plain {type : VarType} {value : Value} (h : value.isPlain = true ∧ l.types type) :
      Pools l e type value
  | label {x : String} (h : IsLabelName x) : Pools l e .uint (.label x)
  | method {x : String} (h : l.sends x) (hx : e.program.methods.contains x = true) :
      Pools l e .string (.method x)

namespace Emission

/-- The state with another heap. -/
def withSymbols (e : Emission) (t : SymbolTable) : Emission :=
  { e with program := { e.program with symbols := t } }

/-- The state with other methods. -/
def withMethods (e : Emission) (t : MethodTable) : Emission :=
  { e with program := { e.program with methods := t } }

/-- The state with another program and other merged modules. -/
def withLinkage (e : Emission) (s : Linkage) : Emission :=
  { e with program := s.program, linker := s.linker }

/-- The program and the merged modules of a state. -/
def linkage (e : Emission) : Linkage := { program := e.program, linker := e.linker }

/-- One elementary step of emission within a footprint. A method that may be called remains so, and if
names are kept track of, a method is discarded only behind an error. -/
inductive Alters (F : Footprint) (e : Emission) : Emission → Prop
  | reported {f : Finding} (h : f.problem.isNesting = false ∨ F.places) :
      Alters F e { e with findings := e.findings ++ [f] }
  | pooled (type : VarType) (value : Value) (h : ∀ l ∈ F.ledger, l.Pools e type value) :
      Alters F e (e.withSymbols (e.program.symbols.constant type value).2)
  | edited {t : SymbolTable} (h : e.program.symbols.Edit F t) : Alters F e (e.withSymbols t)
  | labelled (hint : String) : Alters F e (e.withMethods (e.program.methods.newLabel hint).2)
  | emitted {method : String} {code : List Instruction} (hmethod : F.methods method)
      (hcode : code.all (fun i => !i.isComment) = true) (hlabels : ∀ l ∈ placedIn code, F.Marks l) :
      Alters F e (e.withMethods (e.program.methods.emit method code))
  | touched (method : String) (exported : Bool → Bool) (hcalls : F.Calls method)
      (hkeeps : exported true = true) (hnew : exported false = true → F.Exports method) :
      Alters F e (e.withMethods
        (e.program.methods.update method fun b => { b with exported := exported b.exported }))
  | discarded (event : Nat) (herrors : F.Tracks → e.hasErrors = true) :
      Alters F e (e.withMethods (e.program.methods.remove s!"ev{event}__unreachable"))
  | blocks {b : BlockStack} (hscopes : b.scopes = e.blocks.scopes ∨ F.binds)
      (hbare : b.bare = e.blocks.bare ∨ F.places) (hmarked : F.Tracks → b.Marked) :
      Alters F e { e with blocks := b }
  | noted {position : LiteralPosition} {type : VarType} {value : Value} {id : VarId}
      (h : F.literals position type value) (hnew : e.literals.get? position = none)
      (hid : e.program.symbols.names.get? position.symbol = some id) :
      Alters F e { e with
        references := e.references ++ [⟨position, position.symbol, type⟩]
        literals := e.literals.insert position id }
  | chained (chains : List EventChain) : Alters F e { e with chains }
  | seen (hbinds : F.binds) (name : String) :
      Alters F e { e with seenParameterized := name :: e.seenParameterized }

/-- A sequence of steps within a footprint. -/
def Stays (F : Footprint) : Emission → Emission → Prop := ReflTransGen (Alters F)

namespace Stays

variable {F : Footprint} {e e' e'' : Emission}

theorem refl (e : Emission) : Stays F e e := ReflTransGen.refl

theorem of_step (h : Alters F e e') : Stays F e e' := ReflTransGen.single h

theorem trans (h : Stays F e e') (h' : Stays F e' e'') : Stays F e e'' := ReflTransGen.trans h h'

theorem keeps {P : Emission → Prop} (hstep : ∀ e e', Alters F e e' → P e → P e') (h : Stays F e e')
    (he : P e) : P e' := by
  induction h with
  | refl => exact he
  | tail _ hlast ih => exact hstep _ _ hlast ih

end Stays

end Emission

/-! ### Later states -/

namespace Footprint

/-- A footprint without bounds. -/
def full : Footprint where
  methods _ := True
  vars _ := True
  params _ := True
  customs _ _ := True
  locals _ _ := True
  literals _ _ _ := True
  binds := True
  places := True

/-- What a computation that binds nothing may touch. -/
def unbound : Footprint :=
  { full with
    vars _ := False
    params _ := False
    customs _ _ := False
    locals _ _ := False
    binds := False }

theorem not_tracks_unbound : ¬unbound.Tracks := nofun

theorem calls_unbound (x : String) : unbound.Calls x := nofun

theorem chains_unbound : unbound.Chains := ⟨fun _ _ _ => trivial, trivial, fun _ => calls_unbound _⟩

end Footprint

namespace SymbolTable

variable {F : Footprint} {t t' : SymbolTable}

theorem Edit.evolves (h : t.Edit F t') (hc : t.Consistent) : t.Evolves t' := by
  have hcounter (name : String) : t.Spares (t.declareInternal name .int (.int 0)).2 :=
    spares_getOrInsert hc rfl rfl (by simp)
  cases h with
  | declared _ _ h => exact evolves_declareUser hc h
  | @watched d id t' _ _ h =>
    have hdeclared := evolves_declareUser hc h
    exact hdeclared.trans (spares_modifyVar
      (f := fun v => { v with onChange := some (changeMethod d.name) }) hdeclared.consistent
      (fun _ => ⟨rfl, rfl, rfl, rfl⟩) (fun _ _ => Or.inl) id).toEvolves
  | loopIndex _ => exact evolves_declareLocal hc _ _
  | boundLocal _ type =>
    exact evolves_bindGuid (evolves_declareLocal hc _ type) (yields_declareLocal hc _ type).live _
  | parameter _ _ _ =>
    exact evolves_bindGuid (evolves_getOrInsert hc rfl) (yields_declareInternal hc _ _ _).live _
  | eventParam guid _ =>
    exact evolves_bindGuid (evolves_getOrInsert hc rfl) (yields_declareEventParam hc _ _).live guid
  | replayCounter event =>
    exact ((hcounter _).trans (spares_modifyVar (f := fun v => { v with sync := .synced })
      (hcounter _).consistent (fun _ => ⟨rfl, rfl, rfl, rfl⟩) (fun _ _ => Or.inl) _)).toEvolves
  | replayedCounter event => exact (hcounter _).toEvolves
  | leased type => exact (spares_acquireTemp hc type).toEvolves
  | released id => exact (spares_releaseTemp hc id).toEvolves
  | unbound _ id =>
    exact ⟨consistent_unbind hc id, extends_of_vars_eq rfl rfl rfl, fun _ h => h, Nat.le_refl _⟩
  | shadowed _ _ => exact (spares_ensurePrevious hc _).toEvolves
  | _ => exact evolves_getOrInsert hc rfl

/-- What binds nothing leaves the identifiers alone and adds no variable of the author or of a block. -/
theorem Edit.spares (h : t.Edit .unbound t') (hc : t.Consistent) : t.Spares t' := by
  have hcounter (name : String) : t.Spares (t.declareInternal name .int (.int 0)).2 :=
    spares_getOrInsert hc rfl rfl (by simp)
  cases h with
  | literal _ => exact spares_getOrInsert hc rfl rfl (by simp)
  | system which => exact spares_getOrInsert hc rfl rfl (by simp [SystemVariable.toVariable])
  | replayCounter event =>
    exact (hcounter _).trans (spares_modifyVar (f := fun v => { v with sync := .synced })
      (hcounter _).consistent (fun _ => ⟨rfl, rfl, rfl, rfl⟩) (fun _ _ => Or.inl) _)
  | replayedCounter event => exact hcounter _
  | leased type => exact spares_acquireTemp hc type
  | released id => exact spares_releaseTemp hc id
  | shadowed _ _ => exact spares_ensurePrevious hc _
  | declared h _ _ => exact h.elim
  | watched h _ _ => exact h.elim
  | loopIndex h => exact h.elim
  | boundLocal h _ => exact h.elim
  | parameter h _ _ => exact h.elim
  | eventParam _ h => exact h.elim
  | unbound h _ => exact h.elim

end SymbolTable

namespace Emission

variable {F : Footprint} {e e' e'' : Emission}

/-- A later state of an emission. -/
structure Evolves (e e' : Emission) : Prop where
  heap : e.program.symbols.Evolves e'.program.symbols
  findings : ∃ new, e'.findings = e.findings ++ new
  seen : e.seenParameterized ⊆ e'.seenParameterized

/-- A later state of an emission in which the same identifiers are bound and the same scopes are open,
with the same variables. -/
structure Still (e e' : Emission) : Prop extends Evolves e e' where
  spares : e.program.symbols.Spares e'.program.symbols
  scopes : e'.blocks.scopes = e.blocks.scopes

theorem Evolves.of_heap (h : e.program.symbols.Evolves e'.program.symbols)
    (hfindings : e'.findings = e.findings) (hseen : e'.seenParameterized = e.seenParameterized) :
    e.Evolves e' :=
  ⟨h, ⟨[], by rw [hfindings, List.append_nil]⟩, hseen ▸ List.Subset.refl _⟩

theorem Evolves.refl (hc : e.program.symbols.Consistent) : e.Evolves e := .of_heap (.refl hc) rfl rfl

theorem Evolves.trans (h : e.Evolves e') (h' : e'.Evolves e'') : e.Evolves e'' := by
  obtain ⟨new, hnew⟩ := h.findings
  obtain ⟨new', hnew'⟩ := h'.findings
  exact ⟨h.heap.trans h'.heap, ⟨new ++ new', by rw [hnew', hnew, List.append_assoc]⟩,
    List.Subset.trans h.seen h'.seen⟩

theorem Evolves.noErrors (h : e.Evolves e') (herrors : e'.hasErrors = false) :
    e.hasErrors = false := by
  obtain ⟨new, hnew⟩ := h.findings
  rw [hasErrors, hnew, List.any_append, Bool.or_eq_false_iff] at herrors
  exact herrors.1

theorem Still.of_heap (h : e.program.symbols.Spares e'.program.symbols)
    (hfindings : e'.findings = e.findings) (hseen : e'.seenParameterized = e.seenParameterized)
    (hscopes : e'.blocks.scopes = e.blocks.scopes) : e.Still e' :=
  ⟨.of_heap h.toEvolves hfindings hseen, h, hscopes⟩

theorem Still.refl (hc : e.program.symbols.Consistent) : e.Still e := .of_heap (.refl hc) rfl rfl rfl

theorem Still.trans (h : e.Still e') (h' : e'.Still e'') : e.Still e'' :=
  ⟨h.toEvolves.trans h'.toEvolves, h.spares.trans h'.spares, h'.scopes.trans h.scopes⟩

theorem Still.idOfGuid?_eq (h : e.Still e') (guid : Guid) :
    e'.program.symbols.idOfGuid? guid = e.program.symbols.idOfGuid? guid := by
  rw [SymbolTable.idOfGuid?, h.spares.guids]
  rfl

theorem Alters.evolves (h : Alters F e e') (hc : e.program.symbols.Consistent) : e.Evolves e' := by
  cases h with
  | reported _ => exact ⟨.refl hc, ⟨[_], rfl⟩, List.Subset.refl _⟩
  | pooled type value _ => exact .of_heap (SymbolTable.spares_constant hc type value).toEvolves rfl rfl
  | edited h => exact .of_heap (h.evolves hc) rfl rfl
  | seen _ name => exact ⟨.refl hc, ⟨[], (List.append_nil _).symm⟩, List.subset_cons_self _ _⟩
  | _ => exact .of_heap (.refl hc) rfl rfl

theorem Alters.still (h : Alters .unbound e e') (hc : e.program.symbols.Consistent) : e.Still e' := by
  have hevolves := h.evolves hc
  cases h with
  | pooled type value _ => exact .of_heap (SymbolTable.spares_constant hc type value) rfl rfl rfl
  | edited h => exact .of_heap (h.spares hc) rfl rfl rfl
  | blocks h _ _ => exact ⟨hevolves, .refl hc, h.resolve_right not_false⟩
  | seen h _ => exact h.elim
  | _ => exact ⟨hevolves, .refl hc, rfl⟩

theorem Stays.evolves (h : Stays F e e') (hc : e.program.symbols.Consistent) : e.Evolves e' :=
  h.keeps (P := e.Evolves) (fun _ _ hstep he => he.trans (hstep.evolves he.heap.consistent)) (.refl hc)

theorem Stays.still (h : Stays .unbound e e') (hc : e.program.symbols.Consistent) : e.Still e' :=
  h.keeps (P := e.Still) (fun _ _ hstep he => he.trans (hstep.still he.heap.consistent)) (.refl hc)

/-! ### Errors and methods -/

theorem Alters.hasErrors (h : Alters F e e') (he : e.hasErrors = true) : e'.hasErrors = true := by
  cases h with
  | reported _ =>
    rw [Emission.hasErrors] at he
    rw [Emission.hasErrors, List.any_append, he, Bool.true_or]
  | _ => exact he

/-- If names are kept track of, a step without errors only appends code. -/
theorem Alters.methods (h : Alters F e e') (hF : F.Tracks) (he : e.hasErrors = false) :
    e.program.methods.Continues e'.program.methods := by
  cases h with
  | emitted _ _ _ => exact MethodTable.continues_emit _ _ _
  | touched _ _ _ hkeeps _ => exact MethodTable.continues_touch _ _ hkeeps
  | discarded event herrors =>
    rw [herrors hF] at he
    cases he
  | labelled _ => exact ⟨fun h => h, fun _ => List.prefix_refl _, fun h => h⟩
  | _ => exact .refl _

theorem Stays.methods (h : Stays F e e') (hF : F.Tracks) (he : e'.hasErrors = false) :
    e.program.methods.Continues e'.program.methods := by
  induction h with
  | refl => exact .refl _
  | @tail mid last _ hlast ih =>
    have hmid : mid.hasErrors = false := by
      rw [← Bool.not_eq_true]
      intro hmid
      rw [hlast.hasErrors hmid] at he
      cases he
    exact (ih hmid).trans (hlast.methods hF hmid)

end Emission

end TriggerCompiler
