import TriggerCompiler.Proofs.BlockCheck
import TriggerCompiler.Proofs.ProgramSteps
import TriggerCompiler.Proofs.Lookups
import TriggerCompiler.Proofs.Merging

/-! What an action does to the scopes. What an action does once opens a scope, closes one, or leaves the
scopes alone. A call binds an identifier where one of its slots declares a variable, and the head of a
counting loop may add a variable without an identifier. Everything else is still. -/

namespace TriggerCompiler

open Emission

/-- A computation that succeeds has succeeded in each of its parts. -/
theorem Attempt.exists_of_bind {σ α β : Type} {x : Attempt σ α} {f : α → Attempt σ β} {s s'' : σ} {b : β}
    (h : (x >>= f).run s = (.ok b, s'')) :
    ∃ a s', x.run s = (.ok a, s') ∧ (f a).run s' = (.ok b, s'') := by
  rw [run_bind] at h
  rcases hx : x.run s with ⟨result, s'⟩
  rw [hx] at h
  cases result with
  | error failure => cases h
  | ok a => exact ⟨a, s', rfl, h⟩

namespace SymbolTable

variable {t : SymbolTable}

theorem evolves_unbindAll (hc : t.Consistent) (ids : List VarId) : t.Evolves (t.unbindAll ids) := by
  induction ids generalizing t with
  | nil => exact .refl hc
  | cons id ids ih =>
    have hfirst : t.Evolves (t.unbind id) :=
      ⟨consistent_unbind hc id, extends_of_vars_eq rfl rfl rfl, fun _ h => h, Nat.le_refl _⟩
    exact hfirst.trans (ih hfirst.consistent)

theorem get?_unbindAll (t : SymbolTable) (ids : List VarId) (id : VarId) :
    (t.unbindAll ids).get? id = t.get? id :=
  congrArg (OrderedMap.get? · id)
    (foldl_keeps (f := SymbolTable.unbind) (g := SymbolTable.vars) (fun _ _ => rfl) ids t)

/-- No identifier stands for a variable whose visibility has ended; the others stand for what they stood
for. -/
theorem idOfGuid?_unbindAll (t : SymbolTable) (ids : List VarId) (guid : Guid) :
    (t.unbindAll ids).idOfGuid? guid = (t.idOfGuid? guid).filter fun id => id ∉ ids := by
  induction ids generalizing t with
  | nil =>
    show t.idOfGuid? guid = _
    cases t.idOfGuid? guid with
    | none => rfl
    | some id => simp [Option.filter]
  | cons id ids ih =>
    show ((t.unbind id).unbindAll ids).idOfGuid? guid = _
    rw [ih, unbind]
    show ((t.guids.filter fun _ v => v ≠ id).get? guid).filter _ = (t.guids.get? guid).filter _
    rw [OrderedMap.get?_filter, Option.filter_filter]
    congr 1
    funext x
    simp

end SymbolTable

namespace Emission

variable {e e' e₁ : Emission}

/-- The state after a block has been opened. -/
def pushed (e : Emission) (frame : BlockFrame) : Emission := { e with blocks := e.blocks.push frame }

/-- The state after a block has been closed. -/
def popped (e : Emission) (owned : List VarId) (blocks : BlockStack) : Emission :=
  { e.withSymbols (e.program.symbols.unbindAll owned) with blocks }

/-- The state after a variable of the innermost block has been declared. -/
def localized (e : Emission) (name : String) (type : VarType) : Emission :=
  { e.withSymbols (e.program.symbols.declareLocal name type).2 with
    blocks := e.blocks.own (e.program.symbols.declareLocal name type).1 }

/-- The state after a variable of the innermost block has been declared for an identifier. -/
def declaring (e : Emission) (guid : Guid) (name : String) (type : VarType) : Emission :=
  { e.withSymbols ((e.program.symbols.declareLocal name type).2.bindGuid guid
      (e.program.symbols.declareLocal name type).1) with
    blocks := e.blocks.own (e.program.symbols.declareLocal name type).1 }

theorem evolves_pushed (hc : e.program.symbols.Consistent) (frame : BlockFrame) :
    e.Evolves (e.pushed frame) := .of_heap (.refl hc) rfl rfl

theorem evolves_popped (hc : e.program.symbols.Consistent) (owned : List VarId) (blocks : BlockStack) :
    e.Evolves (e.popped owned blocks) := .of_heap (SymbolTable.evolves_unbindAll hc owned) rfl rfl

theorem evolves_localized (hc : e.program.symbols.Consistent) (name : String) (type : VarType) :
    e.Evolves (e.localized name type) :=
  .of_heap (SymbolTable.evolves_declareLocal hc name type) rfl rfl

theorem evolves_declaring (hc : e.program.symbols.Consistent) (guid : Guid) (name : String)
    (type : VarType) : e.Evolves (e.declaring guid name type) :=
  .of_heap (SymbolTable.evolves_bindGuid (SymbolTable.evolves_declareLocal hc name type)
    (SymbolTable.yields_declareLocal hc name type).live guid) rfl rfl

theorem hasErrors_append (h : e.hasErrors = true) (f : Finding) :
    { e with findings := e.findings ++ [f] }.hasErrors = true := by
  rw [hasErrors, List.any_append, Bool.or_eq_true]
  exact Or.inl h

/-- What an action that does something may do to the scopes before its calls. -/
inductive Prepared (op : Option PrimitiveOp) (location : Location) (e : Emission) : Emission → Prop
  | skips {e' : Emission} (hop : Outline.rise op = 0) (h : e.Still e') : Prepared op location e e'
  | opens {kind : BlockKind} {e₁ e' : Emission} {frame : BlockFrame} (hop : op = some (.openBlock kind))
      (hbefore : e.Still e₁) (hframe : frame.scope = (some location, []))
      (hafter : (e₁.pushed frame).Still e') : Prepared op location e e'
  | closes {e₁ e' : Emission} {scope below : Option Location × List VarId}
      {rest : List (Option Location × List VarId)} {blocks : BlockStack}
      (hop : op = some .closeBlock) (hbefore : e.Still e₁)
      (hscopes : e₁.blocks.scopes = scope :: below :: rest) (hblocks : blocks.scopes = below :: rest)
      (hafter : (e₁.popped scope.2 blocks).Still e') : Prepared op location e e'

variable {op : Option PrimitiveOp} {location : Location}

theorem Prepared.evolves (h : Prepared op location e e') : e.Evolves e' := by
  cases h with
  | skips _ h => exact h.toEvolves
  | opens _ hbefore _ hafter =>
    exact hbefore.toEvolves.trans ((evolves_pushed hbefore.heap.consistent _).trans hafter.toEvolves)
  | closes _ hbefore _ _ hafter =>
    exact hbefore.toEvolves.trans
      ((evolves_popped hbefore.heap.consistent _ _).trans hafter.toEvolves)

theorem Still.prepared (h : e.Still e₁) (h' : Prepared op location e₁ e') : Prepared op location e e' := by
  cases h' with
  | skips hop hskip => exact .skips hop (h.trans hskip)
  | opens hop hbefore hframe hafter => exact .opens hop (h.trans hbefore) hframe hafter
  | closes hop hbefore hscopes hblocks hafter =>
    exact .closes hop (h.trans hbefore) hscopes hblocks hafter

end Emission

/-! ### Before the calls -/

/-- The definition of an action that has been resolved. -/
def ResolvedAction.definition? : ResolvedAction → Option PrimitiveDef
  | .primitive d => some d
  | _ => none

theorem Catalogue.definition?_eq {c : Catalogue} (modules : ModuleCache) (action : ActionInstance) :
    c.definition? action = (c.resolve modules action.action).definition? := by
  rw [definition?]
  cases action.action with
  | primitive id =>
    dsimp only
    rw [resolve]
    cases c.primitive? id with
    | none => rfl
    | some d => rfl
  | moduleEntry key entry guid =>
    dsimp only
    rw [resolve]
    repeat' split
    all_goals rfl

namespace Emit

variable {ctx : Context} {method : String} {location : Location} {action : ActionInstance}
  {e e' : Emission}

theorem scope_labelFrame (frame : BlockFrame) (pending : Option String) (kind : BlockKind)
    (e : Emission) : (labelFrame frame pending kind e).1.scope = frame.scope := by
  cases kind with
  | _ => rfl

/-- What the code of a call does behind its operands: it is still, or it is the head of a counting
loop. -/
inductive Call.Ends (action : ActionInstance) : Emit Unit → Prop
  | still {x : Emit Unit} (h : Within .unbound x) : Ends action x
  | loop (values : List VarId) {f : List VarId → Emit Unit} (hf : ∀ v, Within .unbound (f v)) :
      Ends action (loopValues action values >>= f)

/-- The calls of an action: they fill its slots. -/
structure Call.Made (r : ResolvedAction) (action : ActionInstance) (c : Call) : Prop where
  slots : r.slots action = (c.params, c.sources)
  ends : ∀ operands, Ends action (c.finish operands)

/-- The calls of an action behind what it does once. It makes none if its inputs do not matter, if an
error has been found, or if the module that it calls has no name for the entry. -/
inductive Call.Planned (r : ResolvedAction) (action : ActionInstance) (e : Emission) : Option Call → Prop
  | made {c : Call} (h : c.Made r action) : Planned r action e (some c)
  | failed (h : e.hasErrors = true) : Planned r action e none
  | bare (h : r.slots action = ([], [])) : Planned r action e none
  | unnamed {callee : Linkable} {entry : ModuleEntry} {t : Renaming} (hr : r = .moduleEntry callee entry)
      (ht : e.linker.merged.get? callee.key = some t) (hentry : t.methods.get? entry.method = none) :
      Planned r action e none

theorem Call.made_ofHead {kind : BlockKind} {d : PrimitiveDef} (hop : d.op = .openBlock kind)
    (method : String) (frame : BlockFrame) (action : ActionInstance) :
    (Call.ofHead method frame kind d action).Made (.primitive d) action := by
  refine ⟨by rw [ResolvedAction.slots, hop]; rfl, fun operands => ?_⟩
  have hrest (values : List VarId) : Within .unbound (do
      emitHead method frame values kind
      release operands.temps) := .bind (.emitHead (F := .unbound) trivial
      (fun htracks => absurd htracks Footprint.not_tracks_unbound) _ _) fun _ => .release _
  rw [Call.ofHead]
  dsimp only
  split
  · exact .loop _ hrest
  · exact .still (hrest _)

/-- The innermost scope is closed behind nothing, and its variables lose their identifiers. -/
theorem prepared_closeBlock (hc : e.program.symbols.Consistent)
    (h : (closeBlock method location).run e = (.ok (), e')) :
    Prepared (some .closeBlock) location e e' := by
  rw [closeBlock, Attempt.run_get_bind] at h
  cases hframes : e.blocks.frames with
  | nil =>
    rw [BlockStack.pop, hframes] at h
    cases h
  | cons frame rest =>
    cases rest with
    | nil =>
      rw [BlockStack.pop, hframes] at h
      cases h
    | cons below rest =>
      rw [BlockStack.pop, hframes] at h
      dsimp only at h
      rw [Attempt.run_set_bind] at h
      have hscopes : e.blocks.scopes = frame.scope :: below.scope :: rest.map BlockFrame.scope := by
        simp [BlockStack.scopes, hframes]
      refine .closes rfl (.refl hc) hscopes
        (show BlockStack.scopes { e.blocks with frames := below :: rest } = _ from rfl) ?_
      have hpopped := (evolves_popped hc frame.owned
        { e.blocks with frames := below :: rest }).heap.consistent
      cases hkind : frame.kind with
      | parameters =>
        rw [hkind] at h
        cases h
        exact .refl hpopped
      | block kind =>
        rw [hkind] at h
        have hnot := Footprint.not_tracks_unbound
        have htail : Within .unbound (do
            let pendingExit ← emitTail method frame kind
            modifyBlocks fun s => { s with
              previous := some { kind, closedAt := location, pendingExit } }) :=
          .bind (.emitTail (F := .unbound) trivial (fun htracks => absurd htracks hnot) _) fun _ =>
            .modifyBlocks (F := .unbound) (fun _ => .inl rfl) (fun _ => .inr trivial)
              fun htracks => absurd htracks hnot
        obtain ⟨-, rfl⟩ := Prod.mk.inj h
        exact htail.still hpopped

theorem prepared_prepareHead (method : String) (action : ActionInstance) (d : PrimitiveDef)
    (kind : BlockKind) (pending : Option String)
    (hc : e.program.symbols.Consistent) :
    Prepared (some (.openBlock kind)) location e
      (prepareHead method location d kind action pending e).2 := by
  have hlabel := (Within.labelFrame (F := .unbound) (.ofBlock kind location) pending kind).still hc
  exact .opens rfl hlabel (scope_labelFrame _ pending kind e) (.refl hlabel.heap.consistent)

theorem prepared_prepareBlock {d : PrimitiveDef} {kind : BlockKind} (hop : d.op = .openBlock kind)
    (hc : e.program.symbols.Consistent) :
    Prepared (some (.openBlock kind)) location e (prepareBlock method location d kind action e).2 ∧
      Call.Planned (.primitive d) action (prepareBlock method location d kind action e).2
        (prepareBlock method location d kind action e).1 := by
  have hhead (pending : Option String) (e₁ e₂ : Emission) : Call.Planned (.primitive d) action e₂
      (some (prepareHead method location d kind action pending e₁).1) := .made (Call.made_ofHead hop _ _ _)
  rw [prepareBlock]
  split
  · have hquiet : Within .unbound (takePendingExit method) := .takePendingExit trivial trivial
    have htake := hquiet.still hc
    rw [run_bind]
    revert htake
    generalize takePendingExit method e = taken
    obtain ⟨exit?, e₁⟩ := taken
    intro htake
    cases exit? with
    | some exit =>
      exact ⟨htake.prepared
        (prepared_prepareHead method action d kind (some exit) htake.heap.consistent), hhead _ _ _⟩
    | none =>
      have hquiet : Within .unbound (report (.mustFollowConditional d.id) (some location)) :=
        .report (.inr trivial) _
      have hreport := hquiet.still htake.heap.consistent
      exact ⟨.opens rfl (htake.trans hreport) rfl (.refl hreport.heap.consistent),
        .failed (hasErrors_report (by rfl) (some location) e₁)⟩
  · exact ⟨prepared_prepareHead method action d kind none hc, hhead _ _ _⟩

/-- A primitive action opens a scope or closes one exactly if its definition says so. -/
theorem prepared_preparePrimitive (d : PrimitiveDef) {c? : Option Call}
    (hc : e.program.symbols.Consistent)
    (h : (preparePrimitive method location d action).run e = (.ok c?, e')) :
    Prepared (some d.op) location e e' ∧ Call.Planned (.primitive d) action e' c? := by
  obtain ⟨e₁, hstill, h⟩ : ∃ e₁, e.Still e₁ ∧
      (preparePrimitive method location { d with deprecated := none } action).run e₁ = (.ok c?, e') := by
    rw [preparePrimitive] at h
    cases hhint : d.deprecated with
    | none =>
      rw [hhint] at h
      exact ⟨e, .refl hc, h⟩
    | some hint =>
      rw [hhint] at h
      have hwarns : Within .unbound (report (.deprecatedAction d.id hint) (some location)) :=
        .report (.inr trivial) _
      exact ⟨_, hwarns.still hc, h⟩
  rw [preparePrimitive] at h
  dsimp only at h
  have hquiet {x : Emit Unit} (hx : Within .unbound x) {op : PrimitiveOp}
      (hop : Outline.rise (some op) = 0) : Prepared (some op) location e (x e₁).2 :=
    .skips hop (hstill.trans (hx.still hstill.heap.consistent))
  have hbare (hop : d.op = .closeBlock ∨ d.op = .exitLoop ∨ d.op = .nextIteration) :
      (ResolvedAction.primitive d).slots action = ([], []) := by
    rw [ResolvedAction.slots]
    rcases hop with hop | hop | hop <;> rw [hop]
  cases hd : d.op with
  | openBlock kind =>
    rw [hd] at h
    cases h
    obtain ⟨hprepared, hplanned⟩ := prepared_prepareBlock hd hstill.heap.consistent
    exact ⟨hstill.prepared hprepared, hplanned⟩
  | closeBlock =>
    rw [hd] at h
    obtain ⟨_, _, hclose, hpure⟩ := Attempt.exists_of_bind h
    cases hpure
    exact ⟨hstill.prepared (prepared_closeBlock hstill.heap.consistent hclose), .bare (hbare (.inl hd))⟩
  | exitLoop =>
    rw [hd] at h
    cases h
    exact ⟨hquiet (.emitBreak trivial trivial _) rfl, .bare (hbare (.inr (.inl hd)))⟩
  | nextIteration =>
    rw [hd] at h
    cases h
    exact ⟨hquiet (.emitContinue trivial trivial _) rfl, .bare (hbare (.inr (.inr hd)))⟩
  | assign =>
    rw [hd] at h
    cases h
    exact ⟨.skips rfl hstill, .made ⟨by rw [ResolvedAction.slots, hd]; rfl, fun _ =>
      .still (Granted.within (.finish_ofAssign trivial _ _ _) Footprint.not_tracks_unbound)⟩⟩
  | invoke signature =>
    rw [hd] at h
    have hmade : (Call.ofInvocation method signature d action).Made (.primitive d) action :=
      ⟨by rw [ResolvedAction.slots, hd]; rfl, fun _ =>
        .still (Granted.within (.finish_ofInvocation trivial _ _ _ _) Footprint.not_tracks_unbound)⟩
    by_cases hrepeat : (d.repeatableFirst || action.multiInputs.isEmpty) = true
    · simp only [hrepeat] at h
      cases h
      exact ⟨.skips rfl hstill, .made hmade⟩
    · simp only [hrepeat] at h
      cases h
      exact ⟨hquiet (.report (.inr trivial) _) rfl, .made hmade⟩

theorem still_merge (includeHooks : Bool) (m : Linkable) (hc : e.program.symbols.Consistent) :
    e.Still ((onLinkage (Linker.merge includeHooks m)).run e).2 :=
  .of_heap (Linker.merge_keeps (s := e.linkage)
    (P := fun s => e.program.symbols.Spares s.program.symbols) m (fun n _ aliases s hs =>
      hs.trans (Linker.spares_mergeOwn n includeHooks aliases s hs.consistent)) (.refl hc)) rfl rfl rfl

theorem planned_prepareModule {callee : Linkable} {t : Renaming} (entry : ModuleEntry)
    (ht : e.linker.merged.get? callee.key = some t) :
    Call.Planned (.moduleEntry callee entry) action
      (prepareModule method location callee t entry action e).2
      (prepareModule method location callee t entry action e).1 := by
  have hentry (copies : Option InstanceCopies) : Call.Planned (.moduleEntry callee entry) action
      (prepareEntry method location callee t entry action copies e).2
      (prepareEntry method location callee t entry action copies e).1 := by
    have heq : (prepareEntry method location callee t entry action copies e).1 =
        (t.methods.get? entry.method).map (fun entryMethod =>
          .ofEntry method t entry entryMethod copies action) ∧
        (prepareEntry method location callee t entry action copies e).2.linker = e.linker := by
      rw [prepareEntry]
      split
      · exact ⟨rfl, rfl⟩
      · exact ⟨rfl, rfl⟩
    rw [heq.1]
    cases hget : t.methods.get? entry.method with
    | none => exact .unnamed rfl (by rwa [heq.2]) hget
    | some entryMethod =>
      have hcalls := Footprint.calls_unbound
      exact .made ⟨rfl, fun _ => .still (Granted.within (.finish_ofEntry trivial _ _ (hcalls _)
        (fun _ _ => ⟨hcalls _, hcalls _⟩) _ _) Footprint.not_tracks_unbound)⟩
  rw [prepareModule]
  split
  · cases action.action.moduleInstance? with
    | some guid => exact hentry _
    | none => exact .failed (hasErrors_report rfl _ e)
  · exact hentry _

/-- An action opens a scope or closes one exactly if it is primitive and its definition says so. -/
theorem prepared_prepare {c? : Option Call} (hc : e.program.symbols.Consistent)
    (h : (prepare ctx method location action).run e = (.ok c?, e')) :
    Prepared ((ctx.catalogue.definition? action).map PrimitiveDef.op) location e e' ∧
      Call.Planned (ctx.catalogue.resolve ctx.modules action.action) action e' c? := by
  have hflush (x : EmitStep (Option Call)) (c : Bool) (h : (do
      unless c do (flushPrevious method : Emit Unit)
      x : EmitStep (Option Call)).run e = (.ok c?, e')) :
      ∃ e₁, e.Still e₁ ∧ x.run e₁ = (.ok c?, e') := by
    cases c with
    | true => exact ⟨e, .refl hc, h⟩
    | false =>
      have hquiet : Within .unbound (flushPrevious method) := .flushPrevious trivial trivial
      exact ⟨_, hquiet.still hc, h⟩
  obtain ⟨e₁, hbefore, h⟩ := hflush _ _ h
  have hc₁ := hbefore.heap.consistent
  rw [Catalogue.definition?_eq ctx.modules]
  cases hresolve : ctx.catalogue.resolve ctx.modules action.action with
  | invalid reason =>
    rw [hresolve] at h
    cases h
    exact ⟨.skips rfl (hbefore.trans ((Within.report (.inr trivial) _).still hc₁)), .bare rfl⟩
  | primitive d =>
    rw [hresolve] at h
    obtain ⟨hprepared, hplanned⟩ := prepared_preparePrimitive d hc₁ h
    exact ⟨hbefore.prepared hprepared, hplanned⟩
  | moduleEntry callee entry =>
    rw [hresolve] at h
    obtain ⟨t, e₂, hmerge, hcalls⟩ := Attempt.exists_of_bind h
    have hstill := still_merge ctx.settings.includeEventHooks callee hc₁
    rw [hmerge] at hstill
    cases hcalls
    have hquiet : Within .unbound (prepareModule method location callee t entry action) :=
      .prepareModule _ _ _ _ _
    exact ⟨.skips rfl (hbefore.trans (hstill.trans (hquiet.still hstill.heap.consistent))),
      planned_prepareModule entry (merged_of_merge hmerge)⟩

end Emit

/-! ### The calls -/

/-- A property of looks at slots, each taken with those before it, along a list. -/
def Lookup.Along (P : List Lookup → Lookup → Prop) (done : List Lookup) : List Lookup → Prop
  | [] => True
  | l :: rest => P done l ∧ Along P (done ++ [l]) rest

namespace Lookup.Along

variable {P Q : List Lookup → Lookup → Prop} {done ls ls' : List Lookup}

theorem append (h : Along P done ls) (h' : Along P (done ++ ls) ls') : Along P done (ls ++ ls') := by
  induction ls generalizing done with
  | nil => simpa using h'
  | cons l ls ih => exact ⟨h.1, ih h.2 (by simpa using h')⟩

theorem mono (h : Along P done ls) (hPQ : ∀ before l, P before l → Q before l) : Along Q done ls := by
  induction ls generalizing done with
  | nil => trivial
  | cons l ls ih => exact ⟨hPQ _ _ h.1, ih h.2⟩

theorem at_split {before after : List Lookup} {l : Lookup} (h : Along P done (before ++ l :: after)) :
    P (done ++ before) l := by
  induction before generalizing done with
  | nil => simpa using h.1
  | cons m before ih => simpa using ih h.2

end Lookup.Along

/-- A property of the states while the actions of an event are compiled, given how many of them have been
begun and the looks at slots so far, that every step keeps. -/
structure Emission.Invariant (ctx : Context) (event : Nat) (actions : List ActionInstance)
    (P : Nat → List Lookup → Emission → Prop) : Prop where
  consistent {k : Nat} {done : List Lookup} {e : Emission} : P k done e →
    e.program.symbols.Consistent
  still {k : Nat} {done : List Lookup} {e e' : Emission} : P k done e → e.Still e' → P k done e'
  prepare {k : Nat} {done : List Lookup} {e e' : Emission} {action : ActionInstance} :
    actions[k]? = some action → P k done e →
    Prepared ((ctx.catalogue.definition? action).map PrimitiveDef.op) (.ofAction event k) e e' →
    P (k + 1) done e'
  look {k : Nat} {done : List Lookup} {l : Lookup} : P k done l.state → l.declared? = none →
    P k (done ++ [l]) l.state
  declare {k : Nat} {done : List Lookup} {e : Emission} {action : ActionInstance} {spec : ParamSpec}
    {guid : Guid} {name : String} : actions[k]? = some action → P (k + 1) done e →
    .declare guid name ∈ action.inputs ++ action.multiInputs → spec.output = true →
    P (k + 1) (done ++ [⟨event, k, spec, .declare guid name, e⟩]) (e.declaring guid name spec.type)
  index {k : Nat} {done : List Lookup} {e : Emission} : P k done e → P k done (e.localized "index" .int)

namespace Emit

variable {ctx : Context} {event k : Nat} {actions : List ActionInstance} {action : ActionInstance}
  {P : Nat → List Lookup → Emission → Prop} {done : List Lookup} {e e' : Emission}

/-- Filling a slot declares a variable or is still. -/
theorem fillSlot_cases (location : Location) (slots : SlotSource) (i : Nat) (spec : ParamSpec)
    (hc : e.program.symbols.Consistent) :
    (∃ guid name, (slots.slot i).2 = .declare guid name ∧ spec.output = true ∧
      (fillSlot location slots i spec e).2 = e.declaring guid name spec.type) ∨
    (∀ guid name, (slots.slot i).2 = .declare guid name → spec.output = false) ∧
      e.Still (fillSlot location slots i spec e).2 := by
  by_cases hdeclares : ∃ guid name, (slots.slot i).2 = .declare guid name
  · obtain ⟨guid, name, hslot⟩ := hdeclares
    rw [fillSlot, hslot]
    by_cases houtput : spec.output = true
    · refine Or.inl ⟨guid, name, rfl, houtput, ?_⟩
      simp only [resolveSlot, houtput, if_true]
      rfl
    · refine Or.inr ⟨fun _ _ _ => by simpa using houtput, ?_⟩
      simp only [resolveSlot, houtput]
      exact (Within.report (.inr trivial) _).still hc
  · rw [not_exists] at hdeclares
    simp only [not_exists] at hdeclares
    refine Or.inr ⟨fun guid name hslot => absurd hslot (hdeclares guid name), ?_⟩
    exact (Within.fillSlot (F := .unbound) ⟨fun _ => trivial, fun hslot =>
      absurd hslot (hdeclares _ _), fun _ hl => absurd hl (Option.not_mem_none _)⟩).still hc

/-- A look at a slot of an event takes place when its action has been begun. -/
def LooksOf (event : Nat) (P : Nat → List Lookup → Emission → Prop) (before : List Lookup) (l : Lookup) :
    Prop := l.event = event ∧ P (l.action + 1) before l.state

variable (h : Invariant ctx event actions P)
include h

theorem along_lookupsFrom (haction : actions[k]? = some action) {slots : SlotSource}
    (hslots : ∀ i, (slots.slot i).2 = .default ∨
      (slots.slot i).2 ∈ action.inputs ++ action.multiInputs) (params : List ParamSpec) (i : Nat)
    (he : P (k + 1) done e) :
    Lookup.Along (LooksOf event P) done (lookupsFrom (.ofAction event k) slots i params e) ∧
      P (k + 1) (done ++ lookupsFrom (.ofAction event k) slots i params e)
        (resolveFrom (.ofAction event k) slots i params e).2 := by
  induction params generalizing i done e with
  | nil => exact ⟨trivial, (List.append_nil done).symm ▸ he⟩
  | cons spec rest ih =>
    have hfill : P (k + 1) (done ++ [⟨event, k, spec, (slots.slot i).2, e⟩])
        (fillSlot (.ofAction event k) slots i spec e).2 := by
      rcases fillSlot_cases (.ofAction event k) slots i spec (h.consistent he) with
        ⟨guid, name, hslot, houtput, heq⟩ | ⟨hnone, hstill⟩
      · rw [heq, hslot]
        refine h.declare haction he ?_ houtput
        rcases hslots i with hdefault | hmem
        · rw [hslot] at hdefault
          cases hdefault
        · rwa [hslot] at hmem
      · refine h.still (h.look (l := ⟨event, k, spec, (slots.slot i).2, e⟩) he ?_) hstill
        unfold Lookup.declared?
        split
        · rename_i guid name hslot
          rw [hnone guid name hslot]
          rfl
        · rfl
    obtain ⟨halong, hend⟩ := ih (i + 1) hfill
    exact ⟨⟨⟨rfl, he⟩, halong⟩, by rw [List.append_assoc] at hend; exact hend⟩

theorem finish_keeps (he : P k done e) {x : Emit Unit} (hx : Call.Ends action x) :
    P k done (x e).2 := by
  cases hx with
  | still hx => exact h.still he (hx.still (h.consistent he))
  | @loop values f hf =>
    rw [run_bind]
    have hloop : P k done (loopValues action values e).2 := by
      rw [loopValues]
      split
      · exact h.index he
      · exact he
    exact h.still hloop ((hf _).still (h.consistent hloop))

theorem along_calls (haction : actions[k]? = some action) {r : ResolvedAction} {c : Call}
    (hmade : c.Made r action)
    {sources : List SlotSource} (hsources : ∀ slots ∈ sources, slots ∈ c.sources)
    (he : P (k + 1) done e) :
    Lookup.Along (LooksOf event P) done (c.lookups (.ofAction event k) sources e) ∧
      P (k + 1) (done ++ c.lookups (.ofAction event k) sources e)
        ((sources.forM (c.once (.ofAction event k)) : Emit Unit) e).2 := by
  induction sources generalizing done e with
  | nil => exact ⟨trivial, (List.append_nil done).symm ▸ he⟩
  | cons slots rest ih =>
    have hextra := h.still he ((Within.reportExtra (.ofAction event k) c.params slots).still
      (h.consistent he))
    obtain ⟨halong, hfilled⟩ := along_lookupsFrom h haction
      (ResolvedAction.slot_mem (by rw [hmade.slots]; exact hsources slots List.mem_cons_self)) c.params
      0 hextra
    have honce : P (k + 1)
        (done ++ lookupsFrom (.ofAction event k) slots 0 c.params
          (reportExtra (.ofAction event k) c.params slots e).2)
        (c.once (.ofAction event k) slots e).2 := by
      rw [Call.once, run_bind, resolveOperands_eq]
      simp only [run_bind]
      generalize resolveFrom (.ofAction event k) slots 0 c.params _ = filled at hfilled ⊢
      have hcollect := h.still hfilled
        ((Within.collectOperands filled.1).still (h.consistent hfilled))
      generalize collectOperands filled.1 filled.2 = collected at hcollect ⊢
      obtain ⟨operands?, e₁⟩ := collected
      cases operands? with
      | none => exact hcollect
      | some operands => exact finish_keeps h hcollect (hmade.ends operands)
    obtain ⟨halong', hend⟩ := ih (fun s hs => hsources s (List.mem_cons_of_mem _ hs)) honce
    exact ⟨halong.append halong', by rw [List.append_assoc] at hend; exact hend⟩

/-- An action. -/
theorem along_emitAction (haction : actions[k]? = some action) {method : String} (he : P k done e)
    (hrun : (emitAction ctx method (.ofAction event k) action).run e = (.ok (), e')) :
    Lookup.Along (LooksOf event P) done (actionLookups ctx method (.ofAction event k) action e) ∧
      P (k + 1) (done ++ actionLookups ctx method (.ofAction event k) action e) e' := by
  rw [emitAction_eq] at hrun
  obtain ⟨c?, e₁, hprepare, hcalls⟩ := Attempt.exists_of_bind hrun
  obtain ⟨hprepared, hplanned⟩ := prepared_prepare (h.consistent he) hprepare
  have hbegun := h.prepare haction he hprepared
  obtain ⟨-, rfl⟩ := Prod.mk.inj hcalls
  rw [actionLookups, hprepare]
  cases hplanned with
  | made hmade => exact along_calls h haction hmade (fun _ hs => hs) hbegun
  | _ => exact ⟨trivial, (List.append_nil done).symm ▸ hbegun⟩

/-- The actions of an event from a position on. -/
theorem along_emitActions {method : String} {rest : List ActionInstance}
    (hrest : actions.drop k = rest) (he : P k done e)
    (hrun : (emitActions ctx method event k rest).run e = (.ok (), e')) :
    Lookup.Along (LooksOf event P) done (bodyLookups ctx method event k rest e) ∧
      P (k + rest.length) (done ++ bodyLookups ctx method event k rest e) e' := by
  induction rest generalizing k done e with
  | nil =>
    cases hrun
    exact ⟨trivial, (List.append_nil done).symm ▸ he⟩
  | cons action rest ih =>
    obtain ⟨⟨⟩, e₁, hfirst, hlater⟩ := Attempt.exists_of_bind hrun
    have haction : actions[k]? = some action := by
      rw [← List.getElem?_cons_zero (a := action) (l := rest), ← hrest, List.getElem?_drop, Nat.add_zero]
    have hdrop : actions.drop (k + 1) = rest := by
      rw [← List.drop_drop, hrest, List.drop_one, List.tail_cons]
    obtain ⟨halong, hnext⟩ := along_emitAction h haction he hfirst
    obtain ⟨halong', hend⟩ := ih hdrop hnext hlater
    rw [bodyLookups, hfirst]
    refine ⟨halong.append halong', ?_⟩
    rw [← List.append_assoc, List.length_cons, Nat.add_comm rest.length, ← Nat.add_assoc]
    exact hend

end Emit

end TriggerCompiler
