import TriggerCompiler.Proofs.ProgramSteps

/-! The code that single actions add to a method. Filling the slots of an action works on the heap alone;
what an action emits goes to the end of one method, and the labels in it have not been handed out
before. Only the actions that open and close blocks change which blocks are open. -/

namespace TriggerCompiler

open Text

@[simp] theorem labelName_ne {hint hint' : String} {n n' : Nat} (h : n ≠ n') :
    labelName hint n ≠ labelName hint' n' := by
  intro heq
  refine h (underscore_number_inj (x := "__lbl_" ++ hint) (y := "__lbl_" ++ hint') ?_)
  simpa [labelName, toString] using heq

/-- A label with a number in a range. -/
def IsLabelBetween (low high : Nat) (l : String) : Prop :=
  ∃ hint n, low ≤ n ∧ n < high ∧ l = labelName hint n

theorem IsLabelBetween.mono {low low' high high' : Nat} {l : String} (h : IsLabelBetween low high l)
    (hlow : low' ≤ low) (hhigh : high ≤ high') : IsLabelBetween low' high' l := by
  obtain ⟨hint, n, hn, hn', rfl⟩ := h
  exact ⟨hint, n, by omega, by omega, rfl⟩

theorem IsLabelBetween.disjoint {low mid mid' high : Nat} {l : String} (h : IsLabelBetween low mid l)
    (hle : mid ≤ mid') (h' : IsLabelBetween mid' high l) : False := by
  obtain ⟨hint, n, hn, hn', rfl⟩ := h
  obtain ⟨hint', n', hm, hm', heq⟩ := h'
  exact labelName_ne (by omega) heq

/-- A frame without the variables that it owns. -/
def BlockFrame.shape (f : BlockFrame) : BlockFrame := { f with owned := [] }

/-- The open blocks without the variables that they own. -/
def BlockStack.shape (s : BlockStack) : BlockStack :=
  { s with frames := s.frames.map BlockFrame.shape }

theorem BlockStack.shape_own (s : BlockStack) (id : VarId) : (s.own id).shape = s.shape := by
  obtain ⟨frames, previous⟩ := s
  cases frames with
  | nil => rfl
  | cons frame rest => rfl

theorem BlockStack.shape_modifyTop {s : BlockStack} {frame : BlockFrame}
    {rest : List BlockFrame} {loop : ForLoop} (h : s.shape = { frames := frame :: rest }) :
    (s.modifyTop fun f => { f with forLoop := some loop }).shape =
      { frames := { frame with forLoop := some loop } :: rest } := by
  obtain ⟨frames, previous⟩ := s
  cases frames with
  | nil => cases h
  | cons top below =>
    cases h
    rfl

namespace Emission

/-- How many labels have been handed out. -/
def labelCount (e : Emission) : Nat := e.program.methods.labelCount

/-- The code of a method. -/
def codeOf (e : Emission) (method : String) : List Instruction := e.program.methods.codeOf method

/-- Two states with the same heap and the same constants of the source. -/
structure Alike (e e' : Emission) : Prop where
  symbols : e.program.symbols = e'.program.symbols
  literals : e.literals = e'.literals

end Emission

namespace Emit

open Emission

/-! ### Work on the heap -/

/-- A step that works on the heap alone: it adds no code, hands out no label and opens no block, and its
result depends on the heap only. -/
structure Local {α : Type} (x : Emit α) : Prop where
  methods (e : Emission) : (x e).2.program.methods = e.program.methods
  shape (e : Emission) : (x e).2.blocks.shape = e.blocks.shape
  value {e e' : Emission} : e.Alike e' → (x e).1 = (x e').1
  alike {e e' : Emission} : e.Alike e' → (x e).2.Alike (x e').2

namespace Local

variable {α β : Type}

theorem pure (a : α) : Local (Pure.pure a : Emit α) := ⟨fun _ => rfl, fun _ => rfl, fun _ => rfl, id⟩

theorem bind {x : Emit α} {f : α → Emit β} (hx : Local x) (hf : ∀ a, Local (f a)) :
    Local (x >>= f) := by
  refine ⟨fun e => ?_, fun e => ?_, fun {e e'} h => ?_, fun {e e'} h => ?_⟩
  · exact ((hf _).methods _).trans (hx.methods e)
  · exact ((hf _).shape _).trans (hx.shape e)
  · rw [run_bind, run_bind, hx.value h]
    exact (hf _).value (hx.alike h)
  · rw [run_bind, run_bind, hx.value h]
    exact (hf _).alike (hx.alike h)

theorem ite {c : Prop} [Decidable c] {x y : Emit α} (hx : Local x) (hy : Local y) :
    Local (if c then x else y) := by
  split
  · exact hx
  · exact hy

theorem onSymbols (f : SymbolTable → α × SymbolTable) : Local (Emit.onSymbols f) := by
  refine ⟨fun _ => rfl, fun _ => rfl, fun h => ?_, fun h => ⟨?_, h.literals⟩⟩
  · exact congrArg (fun t => (f t).1) h.symbols
  · exact congrArg (fun t => (f t).2) h.symbols

theorem modifySymbols (f : SymbolTable → SymbolTable) : Local (Emit.modifySymbols f) := onSymbols _

theorem nameOf (id : VarId) : Local (Emit.nameOf id) :=
  ⟨fun _ => rfl, fun _ => rfl, fun h => congrArg (SymbolTable.nameOf · id) h.symbols, fun h => h⟩

theorem report (problem : Problem) (location? : Option Location) :
    Local (Emit.report problem location?) := ⟨fun _ => rfl, fun _ => rfl, fun _ => rfl, fun h => ⟨h.1, h.2⟩⟩

theorem own (id : VarId) : Local (modifyBlocks (·.own id)) :=
  ⟨fun _ => rfl, fun e => e.blocks.shape_own id, fun _ => rfl, fun h => ⟨h.1, h.2⟩⟩

/-- A step that first looks something up, if it goes on with a local step whatever is found. -/
theorem of_lookup {γ : Type} {g : Emission → γ} {x : Emit α}
    (hg : ∀ e e' : Emission, e.Alike e' → g e = g e')
    (h : ∀ found, ∃ y : Emit α, Local y ∧ ∀ e, g e = found → x e = y e) : Local x := by
  refine ⟨fun e => ?_, fun e => ?_, fun {e e'} halike => ?_, fun {e e'} halike => ?_⟩
  · obtain ⟨y, hy, heq⟩ := h (g e)
    rw [heq e rfl]
    exact hy.methods e
  · obtain ⟨y, hy, heq⟩ := h (g e)
    rw [heq e rfl]
    exact hy.shape e
  · obtain ⟨y, hy, heq⟩ := h (g e')
    rw [heq e (hg e e' halike), heq e' rfl]
    exact hy.value halike
  · obtain ⟨y, hy, heq⟩ := h (g e')
    rw [heq e (hg e e' halike), heq e' rfl]
    exact hy.alike halike

theorem literal (position : LiteralPosition) (type : VarType) (value : Value) :
    Local (Emit.literal position type value) := by
  refine of_lookup (g := fun e => e.literals.get? position) (fun e e' h => by rw [h.literals])
    fun known => ?_
  cases known with
  | some id => exact ⟨Pure.pure id, pure id, fun e he => by rw [Emit.literal, run_get_bind, he]⟩
  | none =>
    refine ⟨do
      let id ← Emit.onSymbols (·.literal position.symbol type value)
      modify fun e => { e with
        references := e.references ++ [{ position, symbol := position.symbol, type }]
        literals := e.literals.insert position id }
      return id, bind (onSymbols _) fun id => bind ?_ fun _ => pure id,
      fun e he => by rw [Emit.literal, run_get_bind, he]⟩
    exact ⟨fun _ => rfl, fun _ => rfl, fun _ => rfl, fun h => ⟨h.symbols, by
      show OrderedMap.insert _ _ _ = OrderedMap.insert _ _ _
      rw [h.literals]⟩⟩

theorem release (temps : List VarId) : Local (Emit.release temps) := modifySymbols _

theorem leaseOperand (type : VarType) (written : Bool) : Local (Emit.leaseOperand type written) :=
  bind (onSymbols _) fun _ => pure _

theorem resolveSlot (location : Location) (position : LiteralPosition) (spec : ParamSpec)
    (slot : InputSlot) : Local (Emit.resolveSlot location position spec slot) := by
  cases slot with
  | default => exact ite (leaseOperand _ _) (bind (onSymbols _) fun _ => pure _)
  | constant value =>
    exact ite (bind (report _ _) fun _ => pure _) (bind (literal _ _ _) fun _ => pure _)
  | reference target =>
    cases target with
    | this =>
      exact ite (bind (report _ _) fun _ => pure _) (bind (onSymbols _) fun _ => pure _)
    | guid guid =>
      refine of_lookup (g := fun e => e.program.symbols.idOfGuid? guid) (fun e e' h => by rw [h.symbols])
        fun known => ?_
      cases known with
      | some id => exact ⟨_, pure _, fun e he => by rw [Emit.resolveSlot, run_get_bind, he]⟩
      | none =>
        exact ⟨_, bind (report _ _) fun _ => leaseOperand _ _,
          fun e he => by rw [Emit.resolveSlot, run_get_bind, he]⟩
  | declare guid name =>
    refine ite ?_ (bind (report _ _) fun _ => pure _)
    exact bind (onSymbols _) fun id => bind (modifySymbols _) fun _ => bind (own id) fun _ => pure _

theorem resolveFrom (location : Location) (slots : SlotSource) (i : Nat) (params : List ParamSpec) :
    Local (Emit.resolveFrom location slots i params) := by
  induction params generalizing i with
  | nil => exact pure []
  | cons spec rest ih =>
    exact bind (resolveSlot _ _ _ _) fun _ => bind (ih (i + 1)) fun _ => pure _

theorem resolveOperands (location : Location) (params : List ParamSpec) (slots : SlotSource) :
    Local (Emit.resolveOperands location params slots) := by
  have hmain : Local (do
      let results ← Emit.resolveFrom location slots 0 params
      let operands := Operands.ofList (results.filterMap id)
      if results.all Option.isSome then return some operands
      else
        Emit.release operands.temps
        return none) :=
    bind (resolveFrom _ _ _ _) fun _ => ite (pure _) (bind (release _) fun _ => pure _)
  exact ite (bind (report _ _) fun _ => hmain) hmain

theorem loopValues (action : ActionInstance) (values : List VarId) :
    Local (Emit.loopValues action values) :=
  ite (bind (onSymbols _) fun id => bind (own id) fun _ => pure _) (pure _)

end Local

end Emit

/-! ### Code at the end of a method -/

namespace Emission

variable {method : String} {e e' e'' : Emission} {code code' : List Instruction} {k k' : Nat}

/-- Code has been added to the end of one method, and a number of labels has been handed out. -/
structure Codes (method : String) (code : List Instruction) (k : Nat) (e e' : Emission) : Prop where
  code (x : String) : e'.codeOf x = e.codeOf x ++ if method = x then code else []
  count : e'.labelCount = e.labelCount + k

theorem Codes.trans (h : Codes method code k e e') (h' : Codes method code' k' e' e'') :
    Codes method (code ++ code') (k + k') e e'' := by
  refine ⟨fun x => ?_, ?_⟩
  · rw [h'.code, h.code, List.append_assoc]
    by_cases hx : method = x
    · rw [if_pos hx, if_pos hx, if_pos hx]
    · rw [if_neg hx, if_neg hx, if_neg hx, List.append_nil]
  · rw [h'.count, h.count, Nat.add_assoc]

theorem Codes.drop_eq (h : Codes method code k e e') :
    (e'.codeOf method).drop (e.codeOf method).length = code := by
  rw [h.code, if_pos rfl, List.drop_left]

theorem Codes.count_le (h : Codes method code k e e') : e.labelCount ≤ e'.labelCount := by
  rw [h.count]
  exact Nat.le_add_right _ _

/-- Code has been added, and the blocks are as before. -/
structure Adds (method : String) (code : List Instruction) (k : Nat) (e e' : Emission) : Prop
    extends Codes method code k e e' where
  shape : e'.blocks.shape = e.blocks.shape

theorem Adds.refl (method : String) (e : Emission) : Adds method [] 0 e e :=
  ⟨⟨fun x => by simp, rfl⟩, rfl⟩

theorem Adds.trans (h : Adds method code k e e') (h' : Adds method code' k' e' e'') :
    Adds method (code ++ code') (k + k') e e'' :=
  ⟨h.toCodes.trans h'.toCodes, h'.shape.trans h.shape⟩

theorem Adds.trans_nil (h : Adds method code k e e') (h' : Adds method [] 0 e' e'') :
    Adds method code k e e'' := by
  have hboth := h.trans h'
  rwa [List.append_nil] at hboth

theorem Adds.nil_trans (h : Adds method [] 0 e e') (h' : Adds method code k e' e'') :
    Adds method code k e e'' := by
  have hboth := h.trans h'
  rwa [List.nil_append, Nat.zero_add] at hboth

/-- Code with labels that have been handed out for it, each placed once. -/
structure Writes (method : String) (code : List Instruction) (e e' : Emission) : Prop where
  adds : ∃ k, Adds method code k e e'
  nodup : (placedIn code).Nodup
  fresh {l : String} : l ∈ placedIn code → IsLabelBetween e.labelCount e'.labelCount l

theorem Writes.count_le (h : Writes method code e e') : e.labelCount ≤ e'.labelCount := by
  obtain ⟨k, hadds⟩ := h.adds
  rw [hadds.count]
  exact Nat.le_add_right _ _

theorem Writes.shape (h : Writes method code e e') : e'.blocks.shape = e.blocks.shape := by
  obtain ⟨k, hadds⟩ := h.adds
  exact hadds.shape

theorem Writes.trans (h : Writes method code e e') (h' : Writes method code' e' e'') :
    Writes method (code ++ code') e e'' := by
  refine ⟨?_, ?_, fun {l} hl => ?_⟩
  · obtain ⟨k, hadds⟩ := h.adds
    obtain ⟨k', hadds'⟩ := h'.adds
    exact ⟨k + k', hadds.trans hadds'⟩
  · rw [placedIn_append]
    refine List.nodup_append.mpr ⟨h.nodup, h'.nodup, fun l hl l' hl' heq => ?_⟩
    subst heq
    exact (h.fresh hl).disjoint (Nat.le_refl _) (h'.fresh hl')
  · rw [placedIn_append] at hl
    rcases List.mem_append.mp hl with hl | hl
    · exact (h.fresh hl).mono (Nat.le_refl _) h'.count_le
    · exact (h'.fresh hl).mono h.count_le (Nat.le_refl _)

theorem Adds.writes (h : Adds method code k e e') (hcode : placedIn code = []) :
    Writes method code e e' := by
  refine ⟨⟨k, h⟩, hcode ▸ List.nodup_nil, fun hl => ?_⟩
  rw [hcode] at hl
  cases hl

end Emission

namespace Emit

open Emission

variable {α β : Type} {method : String}

theorem Local.adds {x : Emit α} (h : Local x) (method : String) (e : Emission) :
    Adds method [] 0 e (x e).2 := by
  refine ⟨⟨fun y => ?_, ?_⟩, h.shape e⟩
  · rw [codeOf, codeOf, h.methods]
    simp
  · rw [labelCount, labelCount, h.methods, Nat.add_zero]

theorem adds_emit (method : String) (code : List Instruction) (e : Emission) :
    Adds method code 0 e (emit method code e).2 :=
  ⟨⟨fun _ => MethodTable.codeOf_update fun _ => rfl, rfl⟩, rfl⟩

theorem writes_emit {code : List Instruction} (hcode : placedIn code = []) (e : Emission) :
    Writes method code e (emit method code e).2 := (adds_emit method code e).writes hcode

theorem adds_newLabel (method hint : String) (e : Emission) :
    Adds method [] 1 e (newLabel hint e).2 := by
  refine ⟨⟨fun x => ?_, rfl⟩, rfl⟩
  rw [ite_self, List.append_nil]
  rfl

theorem adds_ensure (method callee : String) (e : Emission) :
    Adds method [] 0 e (modifyMethods (·.ensure callee) e).2 := by
  refine ⟨⟨fun x => ?_, rfl⟩, rfl⟩
  show (e.program.methods.update callee id).codeOf x = _
  have hcode := MethodTable.codeOf_update (f := id) (t := e.program.methods) (x := callee) (y := x)
    fun b => (List.append_nil b.code).symm
  simpa [codeOf] using hcode

/-- The code of a call. -/
def callCode (address callee behind : String) : List Instruction :=
  [.push address, .jumpTo (entryLabel callee), .label behind]

/-- The constant that holds the address behind the next call. -/
def returnAddress (e : Emission) : String :=
  (namedSymbol (·.labelConstant (labelName "ret" e.labelCount)) e).1

theorem adds_call (method callee : String) (e : Emission) :
    Adds method (callCode (returnAddress e) callee (labelName "ret" e.labelCount)) 1 e
      (call method callee e).2 := by
  have haddress := (Local.onSymbols (·.labelConstant (labelName "ret" e.labelCount))).adds method
    (newLabel "ret" e).2
  have hadds := (adds_newLabel method "ret" e).trans (haddress.nil_trans
    ((adds_ensure method callee _).nil_trans (adds_emit method
      (callCode (returnAddress e) callee (labelName "ret" e.labelCount)) _)))
  exact hadds

/-- The code that compares a watched variable with its previous value and calls a method if they
differ. -/
def changeCode (watched previous flag changed same address callback behind : String) :
    List Instruction :=
  [.push watched, .push previous, .push flag, .invoke Signature.objectEquals, .push flag,
    .jumpToIfFalse changed, .jumpTo same, .label changed, .push watched, .push previous, .copy] ++
    callCode address callback behind ++ [.label same]

/-- The check of a watched variable, which has a variable for its previous value from then on. -/
theorem writes_checkChange (method : String) {id : VarId} {e : Emission} {previous : VarId}
    (hprevious : (e.program.symbols.ensurePrevious id).1 = some previous)
    (watched callback : String) : ∃ flag address,
      Writes method (changeCode watched ((e.program.symbols.ensurePrevious id).2.nameOf previous) flag
        (labelName "changed" e.labelCount) (labelName "same" (e.labelCount + 1)) address callback
        (labelName "ret" (e.labelCount + 2))) e (checkChange method id watched callback e).2 := by
  -- The states behind the requests for the variables and for the two labels.
  let e₁ := (Emit.onSymbols (·.ensurePrevious id) e).2
  let e₂ := (Emit.onSymbols (·.acquireTemp .bool) e₁).2
  let flagId := (Emit.onSymbols (·.acquireTemp .bool) e₁).1
  let flag := e₂.program.symbols.nameOf flagId
  let e₃ := (newLabel "same" (newLabel "changed" e₂).2).2
  let check : List Instruction := [.push watched,
    .push ((e.program.symbols.ensurePrevious id).2.nameOf previous), .push flag,
    .invoke Signature.objectEquals, .push flag, .jumpToIfFalse (labelName "changed" e.labelCount),
    .jumpTo (labelName "same" (e.labelCount + 1)), .label (labelName "changed" e.labelCount),
    .push watched, .push ((e.program.symbols.ensurePrevious id).2.nameOf previous), .copy]
  let e₄ := (emit method check e₃).2
  let e₅ := (call method callback e₄).2
  have hrun : (checkChange method id watched callback e).2 =
      (modifySymbols (·.releaseTemp flagId)
        (emit method [.label (labelName "same" (e.labelCount + 1))] e₅).2).2 := by
    show ((Emit.onSymbols (·.ensurePrevious id) >>= _) e).2 = _
    rw [run_bind, show (Emit.onSymbols (·.ensurePrevious id) e).1 = some previous from hprevious]
    rfl
  have hlabels : Adds method [] 2 e e₃ :=
    ((Local.onSymbols _).adds method e).nil_trans (((Local.onSymbols _).adds method e₁).nil_trans
      ((adds_newLabel method "changed" e₂).trans (adds_newLabel method "same" _)))
  have hcall := adds_call method callback e₄
  have hadds := ((hlabels.trans (adds_emit method check e₃)).trans hcall).trans
    ((adds_emit method [.label (labelName "same" (e.labelCount + 1))] e₅).trans_nil
      ((Local.modifySymbols (·.releaseTemp flagId)).adds method _))
  rw [hrun]
  refine ⟨flag, returnAddress e₄, ⟨3, hadds⟩, ?_, fun {l} hl => ?_⟩
  · show [labelName _ _, labelName _ _, labelName _ _].Nodup
    simp
  · rw [hadds.count]
    have hl : l ∈ [labelName "changed" e.labelCount, labelName "ret" (e.labelCount + 2),
      labelName "same" (e.labelCount + 1)] := hl
    simp only [List.mem_cons, List.not_mem_nil, or_false] at hl
    rcases hl with rfl | rfl | rfl
    · exact ⟨_, _, Nat.le_refl _, by omega, rfl⟩
    · exact ⟨_, e.labelCount + 2, by omega, by omega, rfl⟩
    · exact ⟨_, e.labelCount + 1, by omega, by omega, rfl⟩

/-- The code that follows a write to a variable: the check for a change, if the variable is watched, and
the mark of a write, if it is synced. -/
structure IsBookkeeping (v : Variable) (code : List Instruction) : Prop where
  split : ∃ check, code = check ++ (if v.sync.isSynced then [.sentinel] else []) ∧
    match v.onChange with
    | none => check = []
    | some callback => ∃ previous flag changed same address behind,
        check = changeCode v.name previous flag changed same address callback behind

theorem exists_ensurePrevious {t : SymbolTable} {id : VarId} {v : Variable}
    (h : t.get? id = some v) : ∃ previous, (t.ensurePrevious id).1 = some previous := by
  rw [SymbolTable.ensurePrevious, h]
  dsimp only
  split
  · exact ⟨_, rfl⟩
  · exact ⟨_, rfl⟩

/-- The code behind a write is the bookkeeping of the variable. -/
theorem writes_afterWrite (method : String) {id : VarId} {e : Emission} {v : Variable}
    (hv : e.program.symbols.get? id = some v) :
    ∃ code, Writes method code e (afterWrite method id e).2 ∧ IsBookkeeping v code := by
  have hmark (e : Emission) : Writes method (if v.sync.isSynced then [.sentinel] else []) e
      ((if v.sync.isSynced then emit method [.sentinel] else pure () : Emit Unit) e).2 := by
    split
    · exact writes_emit rfl e
    · exact (Adds.refl method e).writes rfl
  cases hchange : v.onChange with
  | none =>
    have hrun : afterWrite method id e =
        (if v.sync.isSynced then emit method [.sentinel] else pure () : Emit Unit) e := by
      rw [afterWrite, run_get_bind]
      simp only [hv, hchange]
    rw [hrun]
    refine ⟨_, hmark e, ⟨[], rfl, ?_⟩⟩
    rw [hchange]
  | some callback =>
    obtain ⟨previous, hprevious⟩ := exists_ensurePrevious hv
    obtain ⟨flag, address, hcheck⟩ := writes_checkChange method hprevious v.name callback
    have hrun : afterWrite method id e =
        (if v.sync.isSynced then emit method [.sentinel] else pure () : Emit Unit)
          (checkChange method id v.name callback e).2 := by
      rw [afterWrite, run_get_bind]
      simp only [hv, hchange]
      rfl
    rw [hrun]
    refine ⟨_, hcheck.trans (hmark _), ⟨_, rfl, ?_⟩⟩
    rw [hchange]
    exact ⟨_, _, _, _, _, _, rfl⟩

/-- A step whose code goes to the end of one method. -/
def Writing (method : String) (x : Emit α) : Prop := ∀ e, ∃ code, Writes method code e (x e).2

namespace Writing

theorem of_local {x : Emit α} (h : Local x) : Writing method x :=
  fun e => ⟨[], (h.adds method e).writes rfl⟩

theorem pure (a : α) : Writing method (Pure.pure a : Emit α) := of_local (.pure a)

theorem bind {x : Emit α} {f : α → Emit β} (hx : Writing method x) (hf : ∀ a, Writing method (f a)) :
    Writing method (x >>= f) := by
  intro e
  obtain ⟨code, hcode⟩ := hx e
  obtain ⟨code', hcode'⟩ := hf (x e).1 (x e).2
  exact ⟨code ++ code', hcode.trans hcode'⟩

theorem ite {c : Prop} [Decidable c] {x y : Emit α} (hx : Writing method x) (hy : Writing method y) :
    Writing method (if c then x else y) := by
  split
  · exact hx
  · exact hy

theorem forM {l : List α} {f : α → Emit Unit} (hf : ∀ a, Writing method (f a)) :
    Writing method (l.forM f) := by
  induction l with
  | nil => exact pure ()
  | cons a l ih =>
    show Writing method (f a >>= fun _ => l.forM f)
    exact bind (hf a) fun _ => ih

theorem emit {code : List Instruction} (hcode : placedIn code = []) :
    Writing method (Emit.emit method code) := fun e => ⟨code, writes_emit hcode e⟩

theorem pushVar (id : VarId) : Writing method (Emit.pushVar method id) :=
  bind (of_local (.nameOf id)) fun _ => emit rfl

theorem afterWrite (id : VarId) : Writing method (Emit.afterWrite method id) := by
  intro e
  cases hv : e.program.symbols.get? id with
  | none =>
    have hrun : Emit.afterWrite method id e = ((), e) := by
      rw [Emit.afterWrite, run_get_bind]
      simp only [hv]
      rfl
    rw [hrun]
    exact ⟨[], (Adds.refl method e).writes rfl⟩
  | some v =>
    obtain ⟨code, hcode, -⟩ := writes_afterWrite method hv
    exact ⟨code, hcode⟩

theorem emitInvocation (location : Location) (d : PrimitiveDef) (signature : String)
    (action : ActionInstance) :
    Writing method (Emit.emitInvocation method location d signature action) := by
  have hcall (slots : SlotSource) :
      Writing method ((Call.ofInvocation method signature d action).once location slots) := by
    refine bind (of_local (.resolveOperands _ _ _)) fun operands? => ?_
    cases operands? with
    | none => exact pure ()
    | some operands =>
      refine bind (forM pushVar) fun _ => bind (emit rfl) fun _ => ?_
      exact bind (forM afterWrite) fun _ => of_local (.release _)
  have hcalls := forM (l := Emit.repetitions action d.repeatableFirst) hcall
  exact ite hcalls (bind (of_local (.report _ _)) fun _ => hcalls)

theorem emitAssign (location : Location) (d : PrimitiveDef) (action : ActionInstance) :
    Writing method (Emit.emitAssign method location d action) := by
  refine bind (of_local (.resolveOperands _ _ _)) fun operands? => ?_
  cases operands? with
  | none => exact pure ()
  | some operands =>
    obtain ⟨values, outputs, temps⟩ := operands
    have hrelease : Writing method (Emit.release temps) := of_local (.release temps)
    match values with
    | [source, target] =>
      exact bind (pushVar source) fun _ => bind (pushVar target) fun _ =>
        bind (emit rfl) fun _ => bind (afterWrite target) fun _ => hrelease
    | [] => exact hrelease
    | [_] => exact hrelease
    | _ :: _ :: _ :: _ => exact hrelease

end Writing

end Emit

end TriggerCompiler
