import TriggerCompiler.Proofs.HeapEdit
import TriggerCompiler.Proofs.PublishedMethods

/-! The emitters stay within their footprints. If names are kept track of, the labels that an emitter places
are new ones or those that open blocks hold, the methods that it calls are those that it is told to call
and those that watch the variables it writes, and it writes variables of no module. -/

open Relation

namespace TriggerCompiler

open Emission

/-- All variables of a call. -/
def Operands.ids (o : Operands) : List VarId := o.values ++ o.outputs

/-- Whether variables may be used, if names are kept track of. -/
def Footprint.Grants (F : Footprint) (e : Emission) (ids : List VarId) : Prop :=
  F.Tracks → ∀ id ∈ ids, e.program.symbols.Usable id

variable {e : Emission}

theorem Emission.Stays.grants {F : Footprint} {e' : Emission} {ids : List VarId} (h : Stays F e e')
    (he : F.Sees e) (hids : F.Grants e ids) : F.Grants e' ids := fun hF id hid =>
  (h.evolves (he hF).2.consistent).heap.keeps.usable (hids hF id hid)

/-- Whether the methods of a merged module and of its instances may be called. -/
structure Footprint.Links (F : Footprint) (t : Renaming) : Prop where
  entry {x y : String} : t.methods.get? x = some y → F.Calls y
  copies {c : InstanceCopies} : c ∈ t.instances → F.Calls c.copyIn ∧ F.Calls c.copyOut

/-- Whether the methods that an event is sent on to may be named. -/
structure Footprint.Dispatches (F : Footprint) (event : Nat) (replay : ReplayMode) (o : EventOptions) :
    Prop where
  active : replay = o.activeReplay
  caughtUp : replay ≠ .none → F.Exports Emit.deserializationHook
  sends {x : String} : o.Dispatches event x → F.Sends x

/-- Whether the machine may call a method by now, if names are kept track of. -/
def Footprint.Shows (F : Footprint) (x : String) (e : Emission) : Prop :=
  F.Tracks → e.hasErrors = false → e.program.methods.Exports x

/-- Whether the pool of constants has one for the name of a method. -/
def Emission.PoolsMethod (e : Emission) (x : String) : Prop :=
  ∃ id, e.program.symbols.constants.get? ((Value.method x).poolKey .string) = some id

/-- Whether a constant names a method by now, if names are kept track of. -/
def Footprint.Names (F : Footprint) (x : String) (e : Emission) : Prop := F.Tracks → e.PoolsMethod x

/-- What the methods around an event leave behind: the machine may call the method that catches up, and
constants name the methods that the event is sent on to. -/
structure Footprint.Sent (F : Footprint) (event : Nat) (o : EventOptions) (e : Emission) : Prop where
  caughtUp : o.activeReplay ≠ .none → F.Shows Emit.deserializationHook e
  dispatched {x : String} : o.Dispatches event x → F.Names x e

namespace Emit

variable {F : Footprint} {α β : Type} {x : Emit α} {f : α → Emit β} {location : Location}
  {method target callback : String} {action : ActionInstance} {frame : BlockFrame} {slots : SlotSource}
  {sources : List SlotSource} {params : List ParamSpec} {problem : Problem} {d : PrimitiveDef}
  {copies : Option InstanceCopies} {code : List Instruction} {type : VarType} {replay : ReplayMode}
  {value : Value} {id : VarId}

/-- A computation that stays within a footprint. -/
def Within (F : Footprint) (x : Emit α) : Prop := ∀ e, F.Sees e → Stays F e (x e).2

/-- A computation that stays within a footprint if it may use variables. -/
def Granted (F : Footprint) (ids : List VarId) (x : Emit α) : Prop :=
  ∀ e, F.Sees e → F.Grants e ids → Stays F e (x e).2

/-- A computation that stays within a footprint and leaves something behind that is not undone. -/
def Leaves (F : Footprint) (P : Emission → Prop) (x : Emit α) : Prop :=
  ∀ e, F.Sees e → Stays F e (x e).2 ∧ ∀ e', Stays F (x e).2 e' → P e'

namespace Granted

variable {ids : List VarId}

theorem within (h : Granted F ids x) (hF : ¬F.Tracks) : Within F x :=
  fun e he => h e he fun ht => absurd ht hF

theorem bind_at (he : F.Sees e) (hids : F.Grants e ids)
    (hx : Stays F e (x e).2) (hf : ∀ a, Granted F ids (f a)) : Stays F e ((x >>= f) e).2 :=
  hx.trans (hf _ _ (hx.sees he) (hx.grants he hids))

theorem bind (hx : Granted F ids x) (hf : ∀ a, Granted F ids (f a)) :
    Granted F ids (x >>= f) := fun e he hids => bind_at he hids (hx e he hids) hf

theorem forM_mem {l : List α} {f : α → Emit Unit} (hf : ∀ a ∈ l, Granted F ids (f a)) :
    Granted F ids (l.forM f) := by
  induction l with
  | nil => exact fun e _ _ => .refl e
  | cons a l ih =>
    show Granted F ids (f a >>= fun _ => l.forM f)
    exact bind (hf a List.mem_cons_self) fun _ => ih fun b hb => hf b (List.mem_cons_of_mem _ hb)

end Granted

namespace Within

theorem granted (h : Within F x) (ids : List VarId) : Granted F ids x :=
  fun e he _ => h e he

theorem of_step (h : ∀ e, F.Sees e → Alters F e (x e).2) : Within F x :=
  fun e he => .of_step (h e he)

theorem pure (a : α) : Within F (Pure.pure a : Emit α) := fun e _ => .refl e

theorem bind_at (he : F.Sees e)
    (hx : Stays F e (x e).2) (hf : ∀ a, Within F (f a)) : Stays F e ((x >>= f) e).2 :=
  hx.trans (hf _ _ (hx.sees he))

/-- What is done next may depend on how the result came about. -/
theorem bind_result (hx : Within F x) (hf : ∀ e, F.Sees e → Within F (f (x e).1)) : Within F (x >>= f) :=
  fun e he => (hx e he).trans (hf e he _ ((hx e he).sees he))

theorem bind (hx : Within F x) (hf : ∀ a, Within F (f a)) :
    Within F (x >>= f) := bind_result hx fun _ _ => hf _

theorem get_bind {f : Emission → Emit β} (hf : ∀ s, F.Sees s → Within F (f s)) :
    Within F (get >>= f) := bind_result (fun e _ => .refl e) hf

theorem ite {c : Prop} [Decidable c] {y : Emit α} (hx : Within F x) (hy : Within F y) :
    Within F (if c then x else y) := by
  split
  · exact hx
  · exact hy

theorem forM_mem {l : List α} {f : α → Emit Unit} (hf : ∀ a ∈ l, Within F (f a)) :
    Within F (l.forM f) := by
  induction l with
  | nil => exact pure ()
  | cons a l ih =>
    show Within F (f a >>= fun _ => l.forM f)
    exact bind (hf a List.mem_cons_self) fun _ => ih fun b hb => hf b (List.mem_cons_of_mem _ hb)

theorem forM {l : List α} {f : α → Emit Unit} (hf : ∀ a, Within F (f a)) : Within F (l.forM f) :=
  forM_mem fun a _ => hf a

theorem report (h : problem.isNesting = false ∨ F.places)
    (location? : Option Location) : Within F (Emit.report problem location?) :=
  of_step fun _ _ => .reported h

theorem refuse (h : problem.isNesting = false) (location? : Option Location) (a : α) : Within F (do
      Emit.report problem location?
      return a) := bind (report (.inl h) _) fun _ => pure _

theorem warn {c : Prop} [Decidable c] (h : problem.isNesting = false)
    {location? : Option Location} (hx : Within F x) : Within F (do
      if c then Emit.report problem location?
      x) := ite (bind (report (.inl h) _) fun _ => hx) hx

theorem onSymbols {f : SymbolTable → α × SymbolTable} (hf : ∀ t : SymbolTable, t.Edit F (f t).2) :
    Within F (Emit.onSymbols f) := of_step fun _ _ => .edited (hf _)

theorem pool (h : ∀ l ∈ F.ledger, value.isPlain = true ∧ l.types type) :
    Within F (Emit.onSymbols (·.constant type value)) :=
  of_step fun _ _ => .pooled type value fun l hl => .plain (h l hl)

theorem nameOf (id : VarId) : Within F (Emit.nameOf id) := fun e _ => .refl e

theorem system (which : SystemVariable) : Within F (Emit.namedSymbol (·.system which)) :=
  bind (onSymbols fun _ => .system which) nameOf

theorem constant (h : value.isPlain = true)
    (htype : isWord type.machineName = true) : Within F (Emit.namedSymbol (·.constant type value)) :=
  bind (pool fun l _ => ⟨h, l.types_of_isWord htype⟩) nameOf

theorem labelConstant {l : String} (h : IsLabelName l) :
    Within F (Emit.namedSymbol (·.labelConstant l)) :=
  bind (of_step fun _ _ => .pooled .uint (.label l) fun _ _ => .label h) nameOf

theorem acquireTemp (type : VarType) : Within F (Emit.onSymbols (·.acquireTemp type)) :=
  onSymbols fun _ => .leased type

theorem releaseTemp (id : VarId) : Within F (Emit.modifySymbols (·.releaseTemp id)) :=
  onSymbols fun _ => .released id

theorem modifyBlocks {f : BlockStack → BlockStack} (hscopes : ∀ b, (f b).scopes = b.scopes ∨ F.binds)
    (hbare : ∀ b, (f b).bare = b.bare ∨ F.places) (hmarked : F.Tracks → ∀ b, b.Marked → (f b).Marked) :
    Within F (Emit.modifyBlocks f) :=
  of_step fun _ he => .blocks (hscopes _) (hbare _) fun hF => hmarked hF _ (he hF).2.marked

theorem modifyTop {f : BlockFrame → BlockFrame}
    (hscope : (∀ frame, (f frame).scope = frame.scope) ∨ F.binds)
    (hbare : ∀ frame, (f frame).bare = frame.bare) : Within F (Emit.modifyBlocks (·.modifyTop f)) :=
  modifyBlocks (fun b => hscope.imp_left fun h => b.scopes_modifyTop h)
    (fun b => .inl (b.bare_modifyTop hbare)) fun _ b hb => hb.of_bare (b.bare_modifyTop hbare)

theorem own (hbinds : F.binds) (id : VarId) : Within F (Emit.modifyBlocks (·.own id)) :=
  modifyTop (.inr hbinds) fun _ => rfl

theorem newLabel (hint : String) : Within F (Emit.newLabel hint) :=
  of_step fun _ _ => .labelled hint

theorem newLabel_bind {hint : String} {f : String → Emit β}
    (hf : ∀ l, IsLabelName l → Within F (f l)) : Within F (Emit.newLabel hint >>= f) :=
  bind_result (newLabel hint) fun _ _ => hf _ ⟨hint, _, rfl⟩

theorem ensure (h : F.Calls method) : Within F (modifyMethods (·.ensure method)) :=
  of_step fun _ _ => .touched method id h rfl nofun

theorem setExported (hcalls : F.Calls method) (hexports : F.Exports method) :
    Within F (modifyMethods (·.setExported method true)) :=
  of_step fun _ _ => .touched method (fun _ => true) hcalls rfl fun _ => hexports

theorem foldl_symbols {f : SymbolTable → VarId → SymbolTable}
    (hf : ∀ (e : Emission) (id : VarId), Alters F e (e.withSymbols (f e.program.symbols id)))
    (ids : List VarId) (e : Emission) : Stays F e (e.withSymbols (ids.foldl f e.program.symbols)) := by
  induction ids generalizing e with
  | nil => exact .refl e
  | cons id ids ih => exact (Stays.of_step (hf e id)).trans (ih (e.withSymbols _))

theorem release (temps : List VarId) : Within F (Emit.release temps) :=
  fun e _ => foldl_symbols (fun _ id => .edited (.released id)) temps e

end Within

namespace Leaves

variable {P Q : Emission → Prop}

theorem within (h : Leaves F P x) : Within F x := fun e he => (h e he).1

theorem mono (h : Leaves F P x) (hPQ : ∀ e, P e → Q e) : Leaves F Q x :=
  fun e he => ⟨(h e he).1, fun e' h' => hPQ e' ((h e he).2 e' h')⟩

theorem of_within (h : Within F x) (hP : ∀ e, P e) : Leaves F P x :=
  fun e he => ⟨h e he, fun e' _ => hP e'⟩

theorem and_bind (hx : Leaves F P x) (hf : ∀ a, Leaves F Q (f a)) :
    Leaves F (fun e => P e ∧ Q e) (x >>= f) := by
  intro e he
  obtain ⟨hfirst, hP⟩ := hx e he
  obtain ⟨hrest, hQ⟩ := hf (x e).1 (x e).2 (hfirst.sees he)
  exact ⟨hfirst.trans hrest, fun e' h' => ⟨hP e' (hrest.trans h'), hQ e' h'⟩⟩

theorem bind (hx : Within F x) (hf : ∀ a, Leaves F P (f a)) : Leaves F P (x >>= f) :=
  (and_bind (of_within (P := fun _ => True) hx fun _ => trivial) hf).mono fun _ h => h.2

theorem bind_within (hx : Leaves F P x) (hf : ∀ a, Within F (f a)) : Leaves F P (x >>= f) :=
  (and_bind (Q := fun _ => True) hx fun a => of_within (hf a) fun _ => trivial).mono fun _ h => h.1

theorem newLabel_bind {hint : String} {f : String → Emit β}
    (hf : ∀ l, IsLabelName l → Leaves F P (f l)) : Leaves F P (Emit.newLabel hint >>= f) := by
  intro e he
  have hlabelled := Within.newLabel hint e he
  obtain ⟨hrest, hP⟩ := hf _ ⟨hint, _, rfl⟩ _ (hlabelled.sees he)
  exact ⟨hlabelled.trans hrest, hP⟩

theorem setExported (hcalls : F.Calls method) (hexports : F.Exports method) :
    Leaves F (F.Shows method) (modifyMethods (·.setExported method true)) := by
  refine fun e he => ⟨Within.setExported hcalls hexports e he, fun e' h' hF herrors => ?_⟩
  have hflag (b : MethodBody) : MethodBody.exported { b with exported := true } = (b.exported || true) :=
    (Bool.or_true b.exported).symm
  exact (h'.methods hF herrors).exports ((MethodTable.exports_update hflag).mpr (Or.inr ⟨rfl, rfl⟩))

/-- A method that a constant names is there by then. -/
theorem methodConstant (h : F.Sends target) :
    Leaves F (F.Names target) (Emit.methodConstant target) := by
  intro e he
  have hstays : Stays F e (Emit.methodConstant target e).2 :=
    (Stays.of_step (.touched target (fun _ => true) h.calls rfl fun _ => h.exports)).trans
      (.of_step (.pooled .string (.method target) fun l hl =>
        .method (h l hl) (MethodTable.contains_update.mpr (Or.inl rfl))))
  refine ⟨hstays, fun e' h' hF => ?_⟩
  have hevolves := h'.evolves (hstays.sees he hF).2.consistent
  exact ⟨_, hevolves.heap.keeps.constants (SymbolTable.constants_constant _ _ _)⟩

end Leaves

namespace Within

/-! ### Operands -/

/-- The first request for a constant notes the variable that has its name from then on. -/
theorem literal {position : LiteralPosition}
    (h : F.literals position type value) : Within F (Emit.literal position type value) := by
  intro e _
  rw [Emit.literal, run_get_bind]
  cases hnew : e.literals.get? position with
  | some id => exact .refl e
  | none =>
    refine (Stays.of_step (.edited (.literal h))).trans (.of_step (.noted h hnew ?_))
    exact SymbolTable.names_getOrInsert_self _ _

theorem leaseOperand (type : VarType) (written : Bool) :
    Within F (Emit.leaseOperand type written) := bind (acquireTemp type) fun _ => pure _

theorem declareBound {declare : SymbolTable → VarId × SymbolTable} {guid : Guid}
    {f : VarId → Emit β}
    (h : ∀ t : SymbolTable, t.Edit F ((declare t).2.bindGuid guid (declare t).1))
    (hf : ∀ id, Within F (f id)) : Within F (do
      let id ← Emit.onSymbols declare
      Emit.modifySymbols (·.bindGuid guid id)
      f id) := fun e he =>
  have hbound : Stays F e _ := .of_step (.edited (h e.program.symbols))
  hbound.trans (hf _ _ (hbound.sees he))

theorem fillSlot {i : Nat} {spec : ParamSpec}
    (h : F.Fills location slots i spec) : Within F (Emit.fillSlot location slots i spec) := by
  obtain ⟨hconstant, hdeclare, hplain⟩ := h
  rw [Emit.fillSlot_eq]
  generalize slots.position location i = position at hconstant ⊢
  generalize (slots.slot i).2 = slot at hconstant hdeclare ⊢
  cases slot with
  | default => exact ite (leaseOperand _ _) (bind (pool hplain) fun _ => pure _)
  | constant value =>
    exact ite (refuse rfl _ _) (bind (literal (hconstant rfl)) fun _ => pure _)
  | reference target =>
    cases target with
    | this => exact ite (refuse rfl _ _) (bind (onSymbols fun _ => .system _) fun _ => pure _)
    | guid guid =>
      refine get_bind fun s _ => ?_
      cases s.program.symbols.idOfGuid? guid with
      | some id => exact pure _
      | none => exact bind (report (.inl rfl) _) fun _ => leaseOperand _ _
  | declare guid name =>
    obtain ⟨hlocal, hbinds⟩ := hdeclare rfl
    refine ite ?_ (refuse rfl _ _)
    exact declareBound (fun _ => .boundLocal hlocal _) fun _ => bind (own hbinds _) fun _ => pure _

theorem resolveFrom (i : Nat)
    (h : ∀ (j : Nat) (spec : ParamSpec), params[j]? = some spec → F.Fills location slots (i + j) spec) :
    Within F (Emit.resolveFrom location slots i params) := by
  induction params generalizing i with
  | nil => exact pure []
  | cons spec rest ih =>
    refine bind (fillSlot (h 0 spec rfl)) fun _ => bind (ih (i + 1) fun j => ?_) fun _ => pure _
    rw [Nat.add_assoc, Nat.add_comm 1]
    exact h (j + 1)

theorem reportExtra (location : Location) (params : List ParamSpec) (slots : SlotSource) :
    Within F (Emit.reportExtra location params slots) := ite (report (.inl rfl) _) (pure ())

theorem collectOperands (results : List (Option Operand)) :
    Within F (Emit.collectOperands results) := ite (pure _) (bind (release _) fun _ => pure _)

theorem resolveOperands (h : F.FillsAll location params sources) (hslots : slots ∈ sources) :
    Within F (Emit.resolveOperands location params slots) := by
  rw [resolveOperands_eq]
  refine bind (reportExtra _ _ _) fun _ => bind (resolveFrom 0 fun j => ?_) fun _ => collectOperands _
  rw [Nat.zero_add]
  exact h slots hslots j

end Within

/-- The variable that fills a slot belongs to no module. -/
theorem usable_fillSlot {i : Nat} {spec : ParamSpec}
    (h : F.Fills location slots i spec) (hF : F.Tracks) (he : F.Sees e)
    (operand : Operand) : (fillSlot location slots i spec e).1 = some operand →
      (fillSlot location slots i spec e).2.program.symbols.Usable operand.id := by
  obtain ⟨hparams, he⟩ := he hF
  have hc := he.consistent
  obtain ⟨hconstant, -, -⟩ := h
  rw [fillSlot_eq]
  generalize slots.position location i = position at hconstant ⊢
  generalize (slots.slot i).2 = slot at hconstant ⊢
  cases slot with
  | default =>
    rw [resolveSlot]
    split
    · rintro ⟨⟩
      exact SymbolTable.usable_acquireTemp hc _
    · rintro ⟨⟩
      exact SymbolTable.usable_constant hc _ _
  | constant value =>
    rw [resolveSlot]
    split
    · nofun
    · show some { id := (literal position spec.type value e).1 } = some operand →
        (literal position spec.type value e).2.program.symbols.Usable operand.id
      rintro ⟨⟩
      rw [literal, run_get_bind]
      cases hget : e.literals.get? position with
      | some id => exact he.literals hget
      | none =>
        refine SymbolTable.usable_getOrInsert hc ?_ rfl ?_
        · exact (he.toNamed.edit hparams (.literal (hconstant rfl))).proper
        · exact (SymbolTable.begins_symbol position).not_begins (by decide) (by decide)
  | reference target =>
    cases target with
    | this =>
      rw [resolveSlot]
      split
      · nofun
      · rintro ⟨⟩
        exact SymbolTable.usable_system hc (he.proper.system hc _)
    | guid guid =>
      rw [resolveSlot, run_get_bind]
      cases hget : e.program.symbols.idOfGuid? guid with
      | some id =>
        rintro ⟨⟩
        obtain ⟨v, hv⟩ := hc.guids hget
        exact ⟨v, hv, he.proper.bound hget hv⟩
      | none =>
        rintro ⟨⟩
        exact SymbolTable.usable_acquireTemp hc _
  | declare guid name =>
    rw [resolveSlot]
    split
    · rintro ⟨⟩
      exact SymbolTable.usable_declareLocal _ _ _
    · nofun

theorem usable_resolveFrom (i : Nat)
    (h : ∀ (j : Nat) (spec : ParamSpec), params[j]? = some spec → F.Fills location slots (i + j) spec)
    (hF : F.Tracks) (he : F.Sees e) {operand : Operand}
    (hoperand : some operand ∈ (resolveFrom location slots i params e).1) :
    (resolveFrom location slots i params e).2.program.symbols.Usable operand.id := by
  induction params generalizing i e with
  | nil => cases hoperand
  | cons spec rest ih =>
    have hrest (j : Nat) (spec' : ParamSpec) (hspec : rest[j]? = some spec') :
        F.Fills location slots (i + 1 + j) spec' := by
      rw [Nat.add_assoc, Nat.add_comm 1]
      exact h (j + 1) spec' hspec
    have hfirst := Within.fillSlot (h 0 spec rfl) e he
    have he₁ := hfirst.sees he
    have hlater := (Within.resolveFrom (i + 1) hrest _ he₁).evolves (he₁ hF).2.consistent
    rcases List.mem_cons.mp hoperand with hoperand | hoperand
    · exact hlater.heap.keeps.usable (usable_fillSlot (h 0 spec rfl) hF he operand hoperand.symm)
    · exact ih (i + 1) hrest he₁ hoperand

theorem grants_resolveOperands (h : F.FillsAll location params sources)
    (hslots : slots ∈ sources) (he : F.Sees e) (operands : Operands) :
    (resolveOperands location params slots e).1 = some operands →
      F.Grants (resolveOperands location params slots e).2 operands.ids := by
  rw [resolveOperands_eq, run_bind, run_bind]
  have he₁ := ((Within.reportExtra location params slots) e he).sees he
  generalize (reportExtra location params slots e).2 = e₁ at he₁ ⊢
  have hfills (j : Nat) (spec : ParamSpec) (hspec : params[j]? = some spec) :
      F.Fills location slots (0 + j) spec := by
    rw [Nat.zero_add]
    exact h slots hslots j spec hspec
  rw [collectOperands]
  split
  · rintro ⟨⟩ hF id hid
    obtain ⟨operand, hmem, rfl⟩ : ∃ operand ∈ (resolveFrom location slots 0 params e₁).1.filterMap
        (fun r => r), operand.id = id := by
      rcases List.mem_append.mp hid with hid | hid
      · exact List.mem_map.mp hid
      · obtain ⟨operand, hoperand, rfl⟩ := List.mem_map.mp hid
        exact ⟨operand, (List.mem_filter.mp hoperand).1, rfl⟩
    obtain ⟨r, hr, rfl⟩ := List.mem_filterMap.mp hmem
    exact usable_resolveFrom 0 hfills hF he₁ hr
  · nofun

namespace Within

theorem once {c : Call} (h : F.FillsAll location c.params sources)
    (hfinish : ∀ operands, Granted F operands.ids (c.finish operands))
    (hslots : slots ∈ sources) : Within F (c.once location slots) := by
  intro e he
  have hresolved := resolveOperands h hslots e he
  have hgrants := grants_resolveOperands h hslots he
  rw [Call.once, run_bind]
  cases hoperands : (Emit.resolveOperands location c.params slots e).1 with
  | none => exact hresolved
  | some operands =>
    exact hresolved.trans (hfinish operands _ (hresolved.sees he) (hgrants operands hoperands))

theorem run {c : Call} (h : F.FillsAll location c.params c.sources)
    (hfinish : ∀ operands, Granted F operands.ids (c.finish operands)) : Within F (c.run location) :=
  forM_mem fun _ hslots => once h hfinish hslots

/-! ### Code -/

section

variable {method : String} (hmethod : F.methods method)
include hmethod

/-- Code with labels that may be placed. -/
theorem emit_marking (hcode : code.all (fun i => !i.isComment) = true)
    (hlabels : ∀ l ∈ placedIn code, F.Marks l) : Within F (Emit.emit method code) :=
  of_step fun _ _ => .emitted hmethod hcode hlabels

theorem emit
    (hcode : code.all (fun i => !i.isComment && i.placedLabel?.isNone) = true) :
    Within F (Emit.emit method code) := by
  have hplain (i : Instruction) (hi : i ∈ code) : i.isComment = false ∧ i.placedLabel? = none := by
    simpa using List.all_eq_true.mp hcode i hi
  refine emit_marking hmethod (List.all_eq_true.mpr fun i hi => ?_) fun l hl => ?_
  · rw [(hplain i hi).1]
    rfl
  · obtain ⟨i, hi, hlabel⟩ := List.mem_filterMap.mp hl
    rw [(hplain i hi).2] at hlabel
    cases hlabel

theorem pushVar (id : VarId) : Within F (Emit.pushVar method id) :=
  bind (nameOf id) fun _ => emit hmethod rfl

theorem call {callee : String} (hcallee : F.Calls callee) : Within F (Emit.call method callee) :=
  newLabel_bind fun _ hl => bind (labelConstant hl) fun _ => bind (ensure hcallee) fun _ =>
    emit_marking hmethod rfl (List.forall_mem_singleton.mpr fun _ => hl)

/-- A variable whose changes are checked is watched. -/
theorem checkChange {v : Variable} (he : F.Sees e)
    (hv : e.program.symbols.get? id = some v) (hwatched : v.onChange.isSome = true)
    (watched : String) (hcallback : F.Calls callback) :
    Stays F e (Emit.checkChange method id watched callback e).2 := by
  refine bind_at he (.of_step (.edited (.shadowed hv hwatched))) fun previous? => ?_
  cases previous? with
  | none => exact pure ()
  | some previousId =>
    refine bind (nameOf previousId) fun _ => bind (acquireTemp _) fun flagId => ?_
    refine bind (nameOf flagId) fun _ => newLabel_bind fun changed hchanged => ?_
    refine newLabel_bind fun same hsame => ?_
    refine bind (emit_marking hmethod rfl (List.forall_mem_singleton.mpr fun _ => hchanged)) fun _ => ?_
    refine bind (call hmethod hcallback) fun _ => ?_
    exact bind (emit_marking hmethod rfl (List.forall_mem_singleton.mpr fun _ => hsame)) fun _ =>
      releaseTemp flagId

end

end Within

/-- A variable that belongs to no module is watched by the method that is named for it. -/
theorem calls_of_watched (he : F.Sees e) {v : Variable}
    (hv : e.program.symbols.get? id = some v) (hid : F.Grants e [id])
    (hchange : v.onChange = some callback) : F.Calls callback := by
  intro l hl
  have hF := Footprint.tracks_of_mem hl
  obtain ⟨-, he⟩ := he hF
  obtain ⟨w, hw, hkind⟩ := hid hF id List.mem_cons_self
  rw [hv] at hw
  cases hw
  have huser := (he.proper.watched hv (Or.inl (by rw [hchange]; rfl))).resolve_right hkind
  have hname := he.proper.fits hv
  rw [huser] at hname
  rw [he.watched hv huser hchange]
  exact l.calls_changeMethod hname

namespace Granted

variable {ids : List VarId} {method : String} (hmethod : F.methods method)
include hmethod

theorem afterWrite (hid : id ∈ ids) : Granted F ids (Emit.afterWrite method id) := by
  intro e he hids
  have hsync (v : Variable) : Within F
      (if v.sync.isSynced then Emit.emit method [.sentinel] else Pure.pure ()) :=
    .ite (.emit hmethod rfl) (.pure ())
  rw [Emit.afterWrite, run_get_bind]
  cases hv : e.program.symbols.get? id with
  | none => exact .refl e
  | some v =>
    cases hchange : v.onChange with
    | none =>
      simp only [hchange]
      exact hsync v e he
    | some callback =>
      simp only [hchange]
      have hgrants : F.Grants e [id] := fun hF j hj => hids hF j (List.mem_singleton.mp hj ▸ hid)
      exact Within.bind_at he (Within.checkChange hmethod he hv (by rw [hchange]; rfl) v.name
        (calls_of_watched he hv hgrants hchange)) fun _ => hsync v

theorem copyOutputs (t : Renaming) {carried : List (EntryParam × VarId)}
    (h : ∀ c ∈ carried, c.2 ∈ ids) : Granted F ids (Emit.copyOutputs method t carried) := by
  induction carried with
  | nil => exact (Within.pure ()).granted ids
  | cons c rest ih =>
    have hrest := ih fun c' hc' => h c' (List.mem_cons_of_mem _ hc')
    rw [Emit.copyOutputs]
    split
    · split
      · refine bind ((Within.emit hmethod rfl).granted ids) fun _ => ?_
        refine bind ((Within.pushVar hmethod _).granted ids) fun _ => ?_
        refine bind ((Within.emit hmethod rfl).granted ids) fun _ => ?_
        exact bind (afterWrite hmethod (h c List.mem_cons_self)) fun _ => hrest
      · exact hrest
    · exact hrest

end Granted

namespace Within

section

variable {method : String} (hmethod : F.methods method)
include hmethod

/-! ### Blocks -/

theorem flushPrevious (hplaces : F.places) : Within F (Emit.flushPrevious method) := by
  refine get_bind fun s hs => bind (modifyBlocks (fun _ => .inl rfl) (fun _ => .inr hplaces)
    fun _ _ hb => ⟨hb.frames, nofun⟩) fun _ => ?_
  cases hexit : s.blocks.previous.bind ClosedBlock.pendingExit with
  | none => exact pure ()
  | some exit =>
    obtain ⟨c, hc, hl⟩ := Option.bind_eq_some_iff.mp hexit
    exact emit_marking hmethod rfl
      (List.forall_mem_singleton.mpr fun hF => (hs hF).2.marked.previous hc hl)

theorem emitBreak (hplaces : F.places) (location : Location) :
    Within F (Emit.emitBreak method location) := by
  refine get_bind fun s _ => ?_
  cases s.blocks.innermostLoop?.bind BlockFrame.exitLabel with
  | some label => exact emit hmethod rfl
  | none => exact report (.inr hplaces) _

theorem emitContinue (hplaces : F.places) (location : Location) :
    Within F (Emit.emitContinue method location) := by
  refine get_bind fun s _ => ?_
  cases s.blocks.innermostLoop?.bind BlockFrame.continueLabel with
  | some label => exact emit hmethod rfl
  | none => exact report (.inr hplaces) _

theorem takePendingExit (hplaces : F.places) : Within F (Emit.takePendingExit method) := by
  refine get_bind fun s hs => bind (modifyBlocks (fun _ => .inl rfl) (fun _ => .inr hplaces)
    fun _ _ hb => ⟨hb.frames, nofun⟩) fun _ => ?_
  split
  · exact pure _
  · exact pure _
  · rename_i exit _ hprevious
    refine bind (emit_marking hmethod rfl (List.forall_mem_singleton.mpr fun hF => ?_)) fun _ => pure _
    exact (hs hF).2.marked.previous hprevious rfl
  · exact pure _

omit hmethod in
theorem labelFrame (frame : BlockFrame) (pending : Option String) (kind : BlockKind) :
    Within F (Emit.labelFrame frame pending kind) := by
  cases kind with
  | elseCond => exact bind (newLabel _) fun _ => pure _
  | otherwise => exact pure _
  | forLoop =>
    exact bind (newLabel _) fun _ => bind (newLabel _) fun _ => bind (newLabel _) fun _ => pure _
  | plain => exact pure _
  | _ => exact bind (newLabel _) fun _ => bind (newLabel _) fun _ => pure _

omit hmethod in
theorem loopValues (hbinds : F.binds) (action : ActionInstance) (values : List VarId) :
    Within F (Emit.loopValues action values) :=
  ite (bind (onSymbols fun _ => .loopIndex hbinds) fun _ => bind (own hbinds _) fun _ => pure _) (pure _)

theorem emitForHead {head : String} (hhead : F.Marks head) (exit : String)
    (start final step index : VarId) :
    Within F (Emit.emitForHead method head exit start final step index) := by
  have hpush := pushVar hmethod
  have hmark : Within F (Emit.emit method [.copy, .label head]) :=
    emit_marking hmethod rfl (List.forall_mem_singleton.mpr hhead)
  refine bind (acquireTemp _) fun _ => bind (hpush _) fun _ => bind (hpush _) fun _ => ?_
  refine bind hmark fun _ => bind (hpush _) fun _ => bind (hpush _) fun _ => ?_
  refine bind (hpush _) fun _ => bind (emit hmethod rfl) fun _ => bind (hpush _) fun _ => ?_
  refine bind (emit hmethod rfl) fun _ => bind (releaseTemp _) fun _ => ?_
  exact bind (nameOf _) fun _ => bind (nameOf _) fun _ => modifyTop (.inl fun _ => rfl) fun _ => rfl

theorem emitHead (hframe : F.Tracks → frame.Marked) (values : List VarId)
    (kind : BlockKind) : Within F (Emit.emitHead method frame values kind) := by
  have hbranch : Within F (Emit.emitHead method frame values .cond) := by
    rw [Emit.emitHead]
    split
    · exact bind (pushVar hmethod _) fun _ => emit hmethod rfl
    · exact pure ()
  cases kind with
  | cond => exact hbranch
  | elseCond => exact hbranch
  | whileLoop =>
    rw [Emit.emitHead]
    split
    · rename_i heq
      obtain ⟨-, hstart, -⟩ := by simpa only [Prod.mk.injEq] using heq
      refine bind (emit_marking hmethod rfl (List.forall_mem_singleton.mpr fun hF => ?_)) fun _ =>
        bind (pushVar hmethod _) fun _ => emit hmethod rfl
      exact (hframe hF).start hstart
    · exact pure ()
  | forLoop =>
    rw [Emit.emitHead]
    split
    · rename_i heq
      obtain ⟨-, hstart, -⟩ := by simpa only [Prod.mk.injEq] using heq
      exact emitForHead hmethod (fun hF => (hframe hF).start hstart) _ _ _ _ _
    · exact pure ()
  | otherwise => exact pure ()
  | plain => exact pure ()

theorem emitTail (hframe : F.Tracks → frame.Marked) (kind : BlockKind) :
    Within F (Emit.emitTail method frame kind) := by
  have hmark {l : String} {label : BlockFrame → Option String} (hl : label frame = some l)
      (hmarked : ∀ f : BlockFrame, f.Marked → ∀ l, label f = some l → IsLabelName l) : F.Marks l :=
    fun hF => hmarked frame (hframe hF) l hl
  have hnext {l : String} (hl : frame.nextLabel = some l) : F.Marks l := hmark hl fun _ h _ => h.next
  have hexit {l : String} (hl : frame.exitLabel = some l) : F.Marks l := hmark hl fun _ h _ => h.exit
  have hbranch : Within F (Emit.emitTail method frame .cond) := by
    rw [Emit.emitTail]
    split
    · rename_i heq
      obtain ⟨hl, -⟩ := by simpa only [Prod.mk.injEq] using heq
      exact bind (emit_marking hmethod rfl (List.forall_mem_singleton.mpr (hnext hl))) fun _ => pure _
    · exact pure _
  cases kind with
  | cond => exact hbranch
  | elseCond => exact hbranch
  | plain => exact pure _
  | otherwise =>
    rw [Emit.emitTail]
    split
    · rename_i hl
      exact bind (emit_marking hmethod rfl (List.forall_mem_singleton.mpr (hexit hl))) fun _ => pure _
    · exact pure _
  | whileLoop =>
    rw [Emit.emitTail]
    split
    · rename_i heq
      obtain ⟨-, hl⟩ := by simpa only [Prod.mk.injEq] using heq
      exact bind (emit_marking hmethod rfl (List.forall_mem_singleton.mpr (hexit hl))) fun _ => pure _
    · exact pure _
  | forLoop =>
    rw [Emit.emitTail]
    split
    · rename_i heq
      obtain ⟨-, hl, hl', -⟩ := by simpa only [Prod.mk.injEq] using heq
      refine bind (emit_marking hmethod rfl (List.forall_mem_cons.mpr ⟨?_,
        List.forall_mem_singleton.mpr (hexit hl')⟩)) fun _ => pure _
      exact fun hF => (hframe hF).continued hl
    · exact pure _

/-! ### Calls -/

theorem copyInputs (t : Renaming) (carried : List (EntryParam × VarId)) :
    Within F (Emit.copyInputs method t carried) := by
  induction carried with
  | nil => exact pure ()
  | cons c rest ih =>
    rw [Emit.copyInputs]
    refine ite ih ?_
    split
    · exact bind (pushVar hmethod _) fun _ => bind (emit hmethod rfl) fun _ => ih
    · exact ih

end

end Within

/-! ### The parts of blocks and calls -/

section

variable {e : Emission} {l : String} {method : String}

theorem marked_labelFrame (hframe : frame.Marked) {pending : Option String}
    (hpending : ∀ l, pending = some l → IsLabelName l) (kind : BlockKind) (e : Emission) :
    (labelFrame frame pending kind e).1.Marked := by
  have hnew {hint l : String} {n : Nat} (h : some (labelName hint n) = some l) : IsLabelName l :=
    ⟨hint, n, (Option.some.inj h).symm⟩
  cases kind with
  | cond => exact ⟨hnew, hnew, hframe.start, hframe.continued⟩
  | elseCond => exact ⟨hnew, hpending _, hframe.start, hframe.continued⟩
  | otherwise => exact ⟨hframe.next, hpending _, hframe.start, hframe.continued⟩
  | whileLoop => exact ⟨hframe.next, hnew, hnew, hnew⟩
  | forLoop => exact ⟨hframe.next, hnew, hnew, hnew⟩
  | plain => exact hframe

theorem marked_takePendingExit (hb : e.blocks.Marked) (h : (takePendingExit method e).1 = some l) :
    IsLabelName l := by
  rw [takePendingExit, run_get_bind] at h
  cases hprevious : e.blocks.previous with
  | none =>
    rw [hprevious] at h
    cases h
  | some c =>
    rw [hprevious] at h
    obtain ⟨kind, closedAt, pendingExit⟩ := c
    cases pendingExit with
    | none => cases kind <;> cases h
    | some exit =>
      have hexit := hb.previous hprevious rfl
      cases kind with
      | cond => cases h; exact hexit
      | elseCond => cases h; exact hexit
      | _ => cases h

theorem eq_exitLabel_of_emitTail {kind : BlockKind}
    (h : (emitTail method frame kind e).1 = some l) : frame.exitLabel = some l := by
  obtain ⟨kind', openedAt, owned, next, exit, start, continued, loop⟩ := frame
  have hbranch (h : (emitTail method ⟨kind', openedAt, owned, next, exit, start, continued, loop⟩ .cond
      e).1 = some l) : exit = some l := by
    cases next with
    | none => cases h
    | some next =>
      cases exit with
      | none => cases h
      | some exit => exact h
  cases kind with
  | cond => exact hbranch h
  | elseCond => exact hbranch h
  | plain => cases h
  | otherwise => cases exit <;> cases h
  | whileLoop => cases start <;> cases exit <;> cases h
  | forLoop => cases start <;> cases continued <;> cases exit <;> cases loop <;> cases h

theorem marked_ofBlock (kind : BlockKind) (location : Location) :
    (BlockFrame.ofBlock kind location).Marked := ⟨nofun, nofun, nofun, nofun⟩

end

namespace Granted

variable {method : String} (hmethod : F.methods method)
include hmethod

theorem finish_ofInvocation (signature : String) (d : PrimitiveDef) (action : ActionInstance)
    (operands : Operands) :
    Granted F operands.ids ((Call.ofInvocation method signature d action).finish operands) := by
  refine bind ((Within.forM (.pushVar hmethod)).granted _) fun _ => ?_
  refine bind ((Within.emit hmethod rfl).granted _) fun _ => ?_
  refine bind (forM_mem fun id hid => ?_) fun _ => (Within.release _).granted _
  exact afterWrite hmethod (List.mem_append_right _ hid)

theorem finish_ofAssign (d : PrimitiveDef) (action : ActionInstance) (operands : Operands) :
    Granted F operands.ids ((Call.ofAssign method d action).finish operands) := by
  rw [Call.ofAssign]
  dsimp only
  split
  · rename_i source target hvalues
    have htarget : target ∈ operands.ids := List.mem_append_left _ (by rw [hvalues]; simp)
    refine bind ((Within.pushVar hmethod _).granted _) fun _ => ?_
    refine bind ((Within.pushVar hmethod _).granted _) fun _ => ?_
    refine bind ((Within.emit hmethod rfl).granted _) fun _ => ?_
    exact bind (afterWrite hmethod htarget) fun _ => (Within.release _).granted _
  · exact (Within.release _).granted _

theorem finish_ofEntry (t : Renaming) (entry : ModuleEntry) {entryMethod : String}
    (hentry : F.Calls entryMethod)
    (hcopies : ∀ c, copies = some c → F.Calls c.copyIn ∧ F.Calls c.copyOut) (action : ActionInstance)
    (operands : Operands) :
    Granted F operands.ids
      ((Call.ofEntry method t entry entryMethod copies action).finish operands) := by
  have hcall {x : String} (hx : F.Calls x) : Granted F operands.ids (call method x) :=
    (Within.call hmethod hx).granted _
  have hend : Granted F operands.ids (do
      Emit.copyOutputs method t (entry.params.zip operands.values)
      Emit.release operands.temps) := by
    refine bind (copyOutputs hmethod t fun c hc => ?_) fun _ => (Within.release _).granted _
    exact List.mem_append_left _ (List.of_mem_zip hc).2
  refine bind ((Within.copyInputs hmethod _ _).granted _) fun _ => ?_
  cases copies with
  | none => exact bind (hcall hentry) fun _ => hend
  | some c =>
    obtain ⟨hin, hout⟩ := hcopies c rfl
    exact bind (hcall hin) fun _ => bind (hcall hentry) fun _ => bind (hcall hout) fun _ => hend

end Granted

theorem fst_bind {b : β} (h : ∀ a e, (f a e).1 = b) : ((x >>= f) e).1 = b := h _ _

theorem fst_emitReplay (event : Nat) (body : String) (mode : ReplayMode) (e : Emission) :
    (emitReplay event body mode e).1 = s!"ev{event}__replay" := by
  rw [emitReplay]
  repeat refine fst_bind fun _ _ => ?_
  rfl

namespace Within

section

variable {method : String} (hmethod : F.methods method)
include hmethod

theorem finish_ofHead (hbinds : F.binds) (hframe : F.Tracks → frame.Marked)
    (kind : BlockKind) (d : PrimitiveDef) (action : ActionInstance) (operands : Operands) :
    Within F ((Call.ofHead method frame kind d action).finish operands) := by
  have hrest (values : List VarId) : Within F (do
      Emit.emitHead method frame values kind
      Emit.release operands.temps) := bind (emitHead hmethod hframe _ _) fun _ => release _
  exact ite (bind (loopValues hbinds _ _) fun _ => hrest _) (hrest _)

theorem emitInvocation (signature : String)
    (h : F.FillsAll location d.params (repetitions action d.repeatableFirst)) :
    Within F (Emit.emitInvocation method location d signature action) := by
  have hcalls := run h (Granted.finish_ofInvocation hmethod signature d action)
  exact ite hcalls (bind (report (.inl rfl) _) fun _ => hcalls)

theorem emitAssign (h : F.FillsAll location d.params [⟨action.inputs, none⟩]) :
    Within F (Emit.emitAssign method location d action) :=
  run h (Granted.finish_ofAssign hmethod d action)

theorem openBlock (hbinds : F.binds) (hplaces : F.places) (kind : BlockKind)
    (h : F.FillsAll location d.params [⟨action.inputs, none⟩]) :
    Within F (Emit.openBlock method location d kind action) := by
  have hpush {frame : BlockFrame} (hframe : F.Tracks → frame.Marked) :
      Within F (Emit.modifyBlocks (·.push frame)) := by
    refine modifyBlocks (fun _ => .inr hbinds) (fun _ => .inr hplaces) fun hF b hb => ⟨?_, nofun⟩
    exact fun {f} hf => List.forall_mem_cons.mpr ⟨hframe hF, fun _ => hb.frames⟩ f hf
  have henter {pending : Option String} (hpending : F.Tracks → ∀ l, pending = some l → IsLabelName l) :
      Within F (Emit.enterBlock method location d kind action pending) := by
    refine bind_result (labelFrame _ _ _) fun e _ => ?_
    have hframe (hF : F.Tracks) :=
      marked_labelFrame (marked_ofBlock kind location) (hpending hF) kind e
    exact bind (hpush hframe) fun _ =>
      run h fun _ => (finish_ofHead hmethod hbinds hframe kind d action _).granted _
  refine ite (bind_result (takePendingExit hmethod hplaces) fun e he => ?_) (henter nofun)
  cases hexit : (Emit.takePendingExit method e).1 with
  | some exit =>
    refine henter fun hF l hl => ?_
    cases hl
    exact marked_takePendingExit (he hF).2.marked hexit
  | none => exact bind (report (.inr hplaces) _) fun _ => hpush fun _ => marked_ofBlock .plain location

omit hmethod in
theorem prepareEntry (location : Location) (callee : Linkable) (t : Renaming) (entry : ModuleEntry)
    (action : ActionInstance) (copies : Option InstanceCopies) :
    Within F (Emit.prepareEntry method location callee t entry action copies) :=
  ite (pure _) (bind (report (.inl rfl) _) fun _ => pure _)

omit hmethod in
theorem prepareModule (location : Location) (callee : Linkable) (t : Renaming) (entry : ModuleEntry)
    (action : ActionInstance) : Within F (Emit.prepareModule method location callee t entry action) := by
  refine ite ?_ (prepareEntry _ _ _ _ _ _)
  cases action.action.moduleInstance? with
  | some guid => exact prepareEntry _ _ _ _ _ _
  | none => exact refuse rfl _ _

theorem emitEntryCalls (callee : Linkable) {t : Renaming} (ht : F.Links t) {entry : ModuleEntry}
    (h : F.FillsAll location (entryParams entry) (repetitions action entry.repeatableFirst))
    (hcopies : ∀ c, copies = some c → c ∈ t.instances) :
    Within F (Emit.emitEntryCalls method location callee t entry action copies) := by
  unfold Emit.emitEntryCalls
  cases hentry : t.methods.get? entry.method with
  | none => exact ite (pure ()) (bind (report (.inl rfl) _) fun _ => pure ())
  | some entryMethod =>
    have hcalls := run h (Granted.finish_ofEntry hmethod t entry (ht.entry hentry)
      (fun c hc => ht.copies (hcopies c hc)) action)
    exact ite hcalls (bind (report (.inl rfl) _) fun _ => hcalls)

/-! ### The methods around an event -/

theorem emitOwnerCheck : Within F (Emit.emitOwnerCheck method) :=
  bind (system _) fun _ => bind (system _) fun _ => bind (acquireTemp _) fun _ => bind (nameOf _)
    fun _ => bind (emit hmethod rfl) fun _ => bind (releaseTemp _) fun _ => pure _

theorem emitGate (htarget : F.Calls target) (gate : Gate) :
    Within F (Emit.emitGate method target gate) := by
  have hcheck (player flag : String) : Within F (Emit.emitGateCheck method player flag gate) := by
    cases gate with
    | owner => exact bind (system _) fun _ => emit hmethod rfl
    | master => exact emit hmethod rfl
    | anyone => exact pure ()
  refine newLabel_bind fun skip hskip => ?_
  have hend : Within F (Emit.emit method [.label skip]) :=
    emit_marking hmethod rfl (List.forall_mem_singleton.mpr fun _ => hskip)
  refine ite (bind (call hmethod htarget) fun _ => hend) ?_
  refine bind (system _) fun _ => bind (acquireTemp _) fun _ => bind (nameOf _) fun _ => ?_
  refine bind (hcheck _ _) fun _ => bind (emit hmethod rfl) fun _ => ?_
  exact bind (call hmethod htarget) fun _ => bind hend fun _ => releaseTemp _

end

end Within

namespace Leaves

section

variable (h : F.Chains) (event : Nat)
include h

theorem emitBroadcast (htarget : F.Sends target) (broadcast : Broadcast) :
    Leaves F (F.Names target) (Emit.emitBroadcast event target broadcast) :=
  bind (.system _) fun _ => bind (.constant rfl (by decide)) fun _ =>
    bind_within (methodConstant htarget) fun _ =>
      .bind (.emit (h.around event (by decide)) rfl) fun _ => .pure _

theorem emitDelay (htarget : F.Sends target) (delay : Delay) :
    Leaves F (F.Names target) (Emit.emitDelay event target delay) := by
  have hamount : (delayCall delay).2.1.isPlain = true := by cases delay <;> rfl
  have htype : isWord (delayCall delay).1.machineName = true := by
    have hwords : isWord VarType.int.machineName = true ∧ isWord VarType.float.machineName = true := by
      decide
    cases delay with
    | seconds _ => exact hwords.2
    | _ => exact hwords.1
  exact bind (.constant hamount htype) fun _ => bind (.system _) fun _ =>
    bind_within (methodConstant htarget) fun _ =>
      .bind (.emit (h.around event (by decide)) rfl) fun _ => .pure _

omit event in
theorem emitCatchUp {body : String} (hbody : F.Calls body) (hhook : F.Exports deserializationHook)
    (counter executed one : String) (mode : ReplayMode) :
    Leaves F (F.Shows deserializationHook) (Emit.emitCatchUp body counter executed one mode) := by
  have hemit {code : List Instruction}
      (hcode : code.all (fun i => !i.isComment && i.placedLabel?.isNone) = true) :
      Within F (Emit.emit deserializationHook code) := .emit h.caughtUp hcode
  have hmark {code : List Instruction} {l : String} (hl : IsLabelName l)
      (hcode : code.all (fun i => !i.isComment) = true) (hplaced : placedIn code = [l]) :
      Within F (Emit.emit deserializationHook code) := by
    refine .emit_marking h.caughtUp hcode ?_
    rw [hplaced]
    exact List.forall_mem_singleton.mpr fun _ => hl
  have hcall := Within.call h.caughtUp hbody
  have hparity (flag : String) : Within F (Emit.emitParityCatchUp body counter executed flag) := by
    refine .bind (.constant rfl (by decide)) fun _ => .bind (.acquireTemp _) fun _ => .bind (.acquireTemp _)
      fun _ => .bind (.nameOf _) fun _ => .bind (.nameOf _) fun _ => .newLabel_bind fun _ hrun => ?_
    refine .newLabel_bind fun _ hsync => .bind (hmark hrun rfl rfl) fun _ => .bind hcall fun _ => ?_
    exact .bind (hmark hsync rfl rfl) fun _ => .bind (.releaseTemp _) fun _ => .releaseTemp _
  have hfull (flag done : String) :
      Within F (Emit.emitFullCatchUp body counter executed one flag done) :=
    .newLabel_bind fun _ hhead => .bind (hmark hhead rfl rfl) fun _ => .bind (hemit rfl) fun _ =>
      .bind hcall fun _ => hemit rfl
  refine bind_within (setExported (h.called h.caughtUp) hhook) fun _ => .newLabel_bind fun _ hremote => ?_
  refine .newLabel_bind fun _ hdone => .bind (.emitOwnerCheck h.caughtUp) fun _ => ?_
  refine .bind (hmark hremote rfl rfl) fun _ => ?_
  refine .bind (.acquireTemp _) fun flag => .bind (.nameOf _) fun _ => ?_
  exact .ite (.bind (hparity _) fun _ => .bind (.releaseTemp flag) fun _ => hmark hdone rfl rfl)
    (.bind (hfull _ _) fun _ => .bind (.releaseTemp flag) fun _ => hmark hdone rfl rfl)

theorem emitReplay {body : String} (hbody : F.Calls body) (hhook : F.Exports deserializationHook)
    (mode : ReplayMode) :
    Leaves F (F.Shows deserializationHook) (Emit.emitReplay event body mode) := by
  have hmethod : F.methods s!"ev{event}__replay" := h.around event (by decide)
  -- The counter is declared and becomes synced in one step of the heap.
  have hcounter {P : Emission → Prop} {f : VarId → Emit String} (hf : ∀ id, Leaves F P (f id)) :
      Leaves F P (do
        let id ← Emit.onSymbols (·.declareInternal s!"__replay_{event}" .int (.int 0))
        Emit.modifySymbols (·.modifyVar id fun v => { v with sync := .synced })
        f id) := fun e he =>
    have hsynced : Stays F e _ := .of_step (.edited (.replayCounter event))
    have hrest := hf _ _ (hsynced.sees he)
    ⟨hsynced.trans hrest.1, hrest.2⟩
  refine hcounter fun _ => bind (.onSymbols fun _ => .replayedCounter event) fun _ => ?_
  refine bind (.nameOf _) fun _ => bind (.nameOf _) fun _ => ?_
  refine bind (.constant rfl (by decide)) fun _ => ?_
  refine newLabel_bind fun _ hremote => bind (.emitOwnerCheck hmethod) fun _ => ?_
  refine bind (.emit hmethod rfl) fun _ => bind (.emit hmethod rfl) fun _ => ?_
  refine bind (.emit_marking hmethod rfl (List.forall_mem_singleton.mpr fun _ => hremote)) fun _ => ?_
  refine bind (.emit hmethod rfl) fun _ => bind (.call hmethod hbody) fun _ => ?_
  exact bind_within (emitCatchUp h hbody hhook _ _ _ _) fun _ => .pure _

omit h event in
/-- What follows depends on the name of the method that has been built, if one has. -/
theorem wrapWhen_bind {P Q : Emission → Prop} {condition : Bool} {kind : LinkKind}
    {build : String → Emit String} {inner : String} (wrapper : String)
    {f : String × List ChainLink → Emit β} (hbuild : condition = true → Leaves F P (build inner))
    (hresult : ∀ e, (build inner e).1 = wrapper) (links : List ChainLink)
    (hf : ∀ links', Leaves F Q (f (if condition then wrapper else inner, links'))) :
    Leaves F (fun e => (condition = true → P e) ∧ Q e)
      (Emit.wrapWhen condition kind build inner links >>= f) := by
  cases condition with
  | true =>
    intro e he
    obtain ⟨hfirst, hP⟩ := hbuild rfl e he
    have hrest := hf (⟨(build inner e).1, inner, kind⟩ :: links) _ (hfirst.sees he)
    rw [if_pos rfl, ← hresult e] at hrest
    exact ⟨hfirst.trans hrest.1, fun e' h' => ⟨fun _ => hP e' (hrest.1.trans h'), hrest.2 e' h'⟩⟩
  | false => exact (hf links).mono fun _ hQ => ⟨nofun, hQ⟩

/-- The methods around the body of an event. What they send the event on to depends on which of them there
are. -/
theorem emitChain {base : String} (hbase : F.methods base) {o : EventOptions}
    (hd : F.Tracks → F.Dispatches event replay o) :
    Leaves F (F.Sent event o) (Emit.emitChain event base s!"ev{event}__body" replay o) := by
  have hcalls {part : String}
      (hpart : part ∈ ["__body", "__replay", "__broadcast", "__delay", "__unreachable"]) :
      F.Calls ("ev" ++ toString event ++ part) := h.called (h.around event hpart)
  have hsends {x : String} (hx : replay = o.activeReplay → o.Dispatches event x) : F.Sends x :=
    fun l hl => (hd (Footprint.tracks_of_mem hl)).sends
      (hx (hd (Footprint.tracks_of_mem hl)).active) l hl
  have hhook (hr : replay ≠ .none) : F.Exports deserializationHook :=
    fun l hl => (hd (Footprint.tracks_of_mem hl)).caughtUp hr l hl
  refine mono (wrapWhen_bind (P := F.Shows deserializationHook) s!"ev{event}__replay" ?_ ?_ _
    fun links => wrapWhen_bind (P := fun e => replay = o.activeReplay → F.Names (o.broadcastTarget event) e)
      s!"ev{event}__broadcast" ?_ ?_ _ fun links =>
        wrapWhen_bind (P := fun e => replay = o.activeReplay → F.Names (o.delayTarget event) e)
          (Q := fun _ => True) s!"ev{event}__delay" ?_ ?_ _ fun links => ?_) fun e hleft => ?_
  · exact fun hr => emitReplay h event (hcalls (by decide)) (hhook (of_decide_eq_true hr)) _
  · exact fst_emitReplay _ _ _
  · have htarget (hr : replay = o.activeReplay) := hr ▸ o.broadcastTarget_eq event
    refine fun hb => (emitBroadcast h event (hsends fun hr => ?_) _).mono fun e he hr => ?_
    · exact htarget hr ▸ .broadcast (of_decide_eq_true hb)
    · exact htarget hr ▸ he
  · exact fun _ => rfl
  · have htarget (hr : replay = o.activeReplay) := hr ▸ o.delayTarget_eq event
    refine fun hb => (emitDelay h event (hsends fun hr => ?_) _).mono fun e he hr => ?_
    · exact htarget hr ▸ .delay (of_decide_eq_true hb)
    · exact htarget hr ▸ he
  · exact fun _ => rfl
  · refine of_within (.bind (.emitGate hbase ?_ _) fun _ => .pure _) fun _ => trivial
    split
    · exact hcalls (by decide)
    · split
      · exact hcalls (by decide)
      · split
        · exact hcalls (by decide)
        · exact hcalls (by decide)
  · obtain ⟨hreplay, hbroadcast, hdelay, -⟩ := hleft
    refine ⟨fun hactive hF => ?_, fun hx hF => ?_⟩
    · rw [← (hd hF).active] at hactive
      exact hreplay (decide_eq_true hactive) hF
    · cases hx with
      | broadcast hb => exact hbroadcast (decide_eq_true hb) (hd hF).active hF
      | delay hb => exact hdelay (decide_eq_true hb) (hd hF).active hF

theorem closeEvent {o : EventDecl} {base : EventBase} (hbase : F.methods base.method)
    (hd : F.Tracks → F.Dispatches event replay o.options) :
    Leaves F (F.Sent event o.options) (Emit.closeEvent event o (some (base, replay))) := by
  have hnote (chain : EventChain) :
      Within F (modify fun e => { e with chains := e.chains ++ [chain] }) :=
    .of_step fun _ _ => .chained _
  rw [Emit.closeEvent]
  cases hchained : isChained o.options with
  | true => exact bind_within (emitChain h event hbase hd) hnote
  | false =>
    simp only [isChained, Bool.or_eq_false_iff, decide_eq_false_iff_not, not_not] at hchained
    refine of_within (hnote _) fun e => ⟨fun hactive => ?_, fun hx => ?_⟩
    · rw [EventOptions.activeReplay, if_pos hchained.1.2] at hactive
      exact absurd rfl hactive
    · cases hx with
      | broadcast hb => exact absurd hchained.1.2 hb
      | delay hb => exact absurd hchained.2 hb

end

end Leaves

namespace Within

section

variable (h : F.Chains)
include h

theorem closeEvent (index : Nat) (event : EventDecl) {opened : Option (EventBase × ReplayMode)}
    (hnone : opened = none → ¬F.Tracks) (hbase : ∀ base replay, opened = some (base, replay) →
      F.methods base.method ∧ (F.Tracks → F.Dispatches index replay event.options)) :
    Within F (Emit.closeEvent index event opened) := by
  rcases opened with - | ⟨base, replay⟩
  · exact of_step fun _ _ => .discarded index fun hF => absurd hF (hnone rfl)
  · obtain ⟨hmethod, hd⟩ := hbase base replay rfl
    exact (Leaves.closeEvent h index hmethod hd).within

end

/-! ### Events -/

theorem declareVariable {d : VariableDecl} (hd : F.vars d) (sync : SyncMethod) :
    Within F (Emit.declareVariable sync d) := by
  unfold Emit.declareVariable
  split
  · exact report (.inl rfl) _
  rename_i hname
  replace hname : Emit.isVariableName d.name = true := by simpa using hname
  refine ite (report (.inl rfl) _) (warn rfl fun e he => ?_)
  rw [run_get_bind]
  cases h : e.program.symbols.declareUser d with
  | error cause => exact report (.inl rfl) _ e he
  | ok declared =>
    obtain ⟨id, symbols⟩ := declared
    by_cases hchange : d.onChange = true
    · simp only [hchange, if_true]
      exact .of_step (.edited (.watched hd hname h))
    · simp only [hchange]
      exact .of_step (.edited (.declared hd hname h))

theorem bindParams {storage : List (Guid × (SymbolTable → VarId × SymbolTable))}
    (h : ∀ p ∈ storage, ∀ t : SymbolTable, t.Edit F ((p.2 t).2.bindGuid p.1 (p.2 t).1)) :
    Within F (Emit.bindParams storage) := by
  induction storage with
  | nil => exact pure []
  | cons p rest ih =>
    exact declareBound (h p List.mem_cons_self) fun _ =>
      bind (ih fun q hq => h q (List.mem_cons_of_mem _ hq)) fun _ => pure _

/-- The base of an event, whose parameters are stored as the catalogue says. -/
theorem resolveBase (hbinds : F.binds) {ctx : Context}
    (hparams : ∀ name d, ctx.catalogue.event? name = some d → ∀ spec ∈ d.params, F.params spec)
    {trigger : EventTrigger} (hcustoms : ∀ name params, trigger = .custom name params →
      ∀ p ∈ params, F.customs name p) (location : Location) :
    Within F (Emit.resolveBase ctx location trigger) := by
  cases trigger with
  | builtin name params =>
    show Within F (Emit.builtinBase ctx location name params)
    rw [Emit.builtinBase]
    cases hd : ctx.catalogue.event? name with
    | none => exact refuse rfl _ _
    | some d =>
      refine ite (refuse rfl _ _) (bind (bindParams fun p hp t => ?_) fun _ => pure _)
      obtain ⟨⟨param, spec⟩, hq, rfl⟩ := List.mem_map.mp hp
      exact .eventParam _ (hparams name d hd spec (List.of_mem_zip hq).2)
  | custom name params =>
    show Within F (Emit.customBase ctx location name params)
    unfold Emit.customBase
    split
    · exact refuse rfl _ _
    rename_i hname
    rw [Bool.or_eq_true, not_or, Bool.not_eq_true, Bool.not_eq_eq_eq_not, Bool.not_false,
      Bool.not_eq_true] at hname
    have hbind : Within F (do
        let storage ← Emit.bindParams (params.map fun p =>
          (p.guid, (·.declareInternal (customParamVariable name p.name) p.type p.type.defaultValue)))
        return some (⟨name, true, storage⟩ : EventBase)) := by
      refine bind (bindParams fun p hp t => ?_) fun _ => pure _
      obtain ⟨q, hq, rfl⟩ := List.mem_map.mp hp
      exact .parameter (hcustoms name params rfl q hq) hname.1 hname.2
    refine get_bind fun s _ => ite (refuse rfl _ _) (ite (warn rfl hbind) ?_)
    exact bind (of_step fun _ _ => .seen hbinds name) fun _ => hbind
  | changed guid =>
    refine get_bind fun s _ => ?_
    dsimp only
    split
    · exact ite (pure _) (refuse rfl _ _)
    · exact refuse rfl _ _

theorem checkDelay (location : Location) (delay : Delay) :
    Within F (Emit.checkDelay location delay) := by
  cases delay with
  | frames n => exact ite (refuse rfl _ _) (pure _)
  | none => exact pure _
  | seconds s => exact pure _

theorem effectiveReplay (location : Location) (o : EventOptions) :
    Within F (Emit.effectiveReplay location o) := ite (refuse rfl _ _) (pure _)

theorem exportBase (hcalls : F.Calls method) {exported : Bool}
    (hexports : exported = true → F.Exports method) : Within F (modifyMethods
      (·.update method fun b => { b with exported := b.exported || exported })) :=
  of_step fun _ _ => .touched method (· || exported) hcalls rfl hexports

/-- An event is opened. The methods that events start with may be called, and if names are kept track of,
the machine may be allowed to call those that are exported. -/
theorem openEvent (hbinds : F.binds) {ctx : Context}
    (hparams : ∀ name d, ctx.catalogue.event? name = some d → ∀ spec ∈ d.params, F.params spec)
    {event : EventDecl} (hcustoms : ∀ name params, event.trigger = .custom name params →
      ∀ p ∈ params, F.customs name p)
    (hbases : F.Tracks → ∀ location e base, e.Orderly →
      (Emit.resolveBase ctx location event.trigger e).1 = some base →
        F.Calls base.method ∧ (base.exported = true → F.Exports base.method)) (index : Nat) :
    Within F (Emit.openEvent ctx index event) := by
  refine bind_result (resolveBase hbinds hparams hcustoms _) fun e he => bind (checkDelay _ _)
    fun fits => ?_
  cases hbase : ((Emit.resolveBase ctx (.ofEvent index) event.trigger e).1.filter fun _ => fits) with
  | none => exact pure _
  | some base =>
    have hfound := (Option.filter_eq_some_iff.mp hbase).1
    refine bind (effectiveReplay _ _) fun _ => bind (exportBase (fun l hl => ?_) fun hexported l hl => ?_)
      fun _ => pure _
    · have hF := Footprint.tracks_of_mem hl
      exact (hbases hF _ e base (he hF).2 hfound).1 l hl
    · have hF := Footprint.tracks_of_mem hl
      exact (hbases hF _ e base (he hF).2 hfound).2 hexported l hl

/-! ### Later states -/

theorem evolves (h : Within .full x)
    (hc : e.program.symbols.Consistent) : e.Evolves (x e).2 := (h e nofun).evolves hc

theorem still (h : Within .unbound x)
    (hc : e.program.symbols.Consistent) : e.Still (x e).2 := (h e nofun).still hc

end Within

end Emit

end TriggerCompiler
