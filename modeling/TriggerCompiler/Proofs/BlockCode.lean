import Mathlib.Data.List.ReduceOption
import TriggerCompiler.Proofs.ControlFlow
import TriggerCompiler.Proofs.EmittedCode

/-! The code of blocks. Opening a block hands out its labels and emits its head, closing it emits its
tail; the end of a conditional is placed by the first action that does not continue it. -/

namespace TriggerCompiler

open Emission

/-- The parameters of the action that opens a block. -/
def BlockKind.params : BlockKind → List ParamSpec
  | cond | elseCond | whileLoop => [{ name := "condition", type := .bool }]
  | otherwise | plain => []
  | forLoop => [{ name := "start", type := .int }, { name := "end", type := .int },
      { name := "step", type := .int, default := some (.int 1) },
      { name := "index", type := .int, output := true }]

theorem BlockKind.primitive?_name (kind : BlockKind) : ∃ d,
    Catalogue.builtin.primitive? kind.name = some d ∧ d.op = .openBlock kind ∧
      d.params = kind.params ∧ d.deprecated = none := by
  cases kind <;> exact ⟨_, rfl, rfl, rfl, rfl⟩

/-- Whether a slot can be filled by a variable, a constant or a new local variable. -/
def InputSlot.fills (spec : ParamSpec) : InputSlot → Bool
  | default => true
  | constant _ => !spec.output
  | reference .this => !spec.output
  | reference (.guid _) => true
  | declare _ _ => spec.output

/-- Whether the slots from a position on fit their parameters. -/
def slotsFill (inputs : List InputSlot) : Nat → List ParamSpec → Bool
  | _, [] => true
  | i, spec :: rest => (inputs.getD i .default).fills spec && slotsFill inputs (i + 1) rest

variable {inputs : List InputSlot} {params : List ParamSpec}

namespace Emit

theorem isSome_resolveSlot {spec : ParamSpec} {slot : InputSlot} (h : slot.fills spec = true)
    (location : Location) (position : LiteralPosition) (e : Emission) :
    ((resolveSlot location position spec slot e).1).isSome = true := by
  cases slot with
  | default =>
    rw [resolveSlot]
    split <;> rfl
  | constant value =>
    have houtput : spec.output = false := by simpa [InputSlot.fills] using h
    rw [resolveSlot, houtput]
    rfl
  | reference target =>
    cases target with
    | this =>
      have houtput : spec.output = false := by simpa [InputSlot.fills] using h
      rw [resolveSlot, houtput]
      rfl
    | guid guid =>
      rw [resolveSlot, run_get_bind]
      cases e.program.symbols.idOfGuid? guid <;> rfl
  | declare guid name =>
    have houtput : spec.output = true := h
    rw [resolveSlot, houtput]
    rfl

theorem resolveFrom_isSome {i : Nat}
    (h : slotsFill inputs i params = true) (location : Location) (e : Emission) :
    (resolveFrom location ⟨inputs, none⟩ i params e).1.all Option.isSome = true ∧
      (resolveFrom location ⟨inputs, none⟩ i params e).1.length = params.length := by
  induction params generalizing i e with
  | nil => exact ⟨rfl, rfl⟩
  | cons spec rest ih =>
    rw [slotsFill, Bool.and_eq_true] at h
    have hslot : (SlotSource.slot ⟨inputs, none⟩ i).2 = inputs.getD i .default := by
      cases i <;> rfl
    rw [← hslot] at h
    have hhead := isSome_resolveSlot h.1 location
      { event := location.event, action := location.action?.getD 0,
        multi := (SlotSource.slot ⟨inputs, none⟩ i).1, slot := i } e
    have htail := ih h.2 (resolveSlot location
      { event := location.event, action := location.action?.getD 0,
        multi := (SlotSource.slot ⟨inputs, none⟩ i).1, slot := i } spec
      (SlotSource.slot ⟨inputs, none⟩ i).2 e).2
    refine ⟨?_, ?_⟩
    · show (_ :: _ : List (Option Operand)).all Option.isSome = true
      rw [List.all_cons, Bool.and_eq_true]
      exact ⟨hhead, htail.1⟩
    · show (_ :: _ : List (Option Operand)).length = _
      rw [List.length_cons, List.length_cons]
      exact congrArg (· + 1) htail.2

/-- Slots that fit give a variable for each parameter. -/
theorem exists_operands
    (h : slotsFill inputs 0 params = true) (location : Location) (e : Emission) : ∃ operands,
      (resolveOperands location params ⟨inputs, none⟩ e).1 = some operands ∧
        operands.values.length = params.length := by
  have hmain (e : Emission) : ∃ operands, ((do
      let results ← resolveFrom location ⟨inputs, none⟩ 0 params
      let operands := Operands.ofList (results.filterMap id)
      if results.all Option.isSome then return some operands
      else
        release operands.temps
        return none : Emit (Option Operands)) e).1 = some operands ∧
      operands.values.length = params.length := by
    obtain ⟨hall, hlength⟩ := resolveFrom_isSome h location e
    refine ⟨Operands.ofList ((resolveFrom location ⟨inputs, none⟩ 0 params e).1.filterMap id), ?_, ?_⟩
    · rw [run_bind, if_pos hall]
      rfl
    · rw [Operands.ofList, List.length_map, ← hlength]
      exact List.reduceOption_length_eq_iff.mpr fun a ha => List.all_eq_true.mp hall a ha
  rw [resolveOperands]
  split
  · exact hmain _
  · exact hmain e

end Emit

/-! ### The end of a conditional -/

/-- The end of a conditional that is still to be placed. -/
def Emission.pending (e : Emission) : Option String := e.blocks.previous.bind ClosedBlock.pendingExit

/-- The label that is placed before an action that does not continue the conditional before it. -/
def flushCode (pending : Option String) : List Instruction := pending.toList.map .label

namespace Emit

variable {method exit : String} {e : Emission} {kind : BlockKind} {pending : Option String}
  {slots : Nat → String} {location : Location} {below frame : BlockFrame} {action : ActionInstance}
  {rest : List BlockFrame}

/-- The state in which no conditional can be continued. -/
def settled (e : Emission) : Emission := { e with blocks := { e.blocks with previous := none } }

theorem flushPrevious_eq (method : String) (e : Emission) : (flushPrevious method e).2 =
    match e.pending with
    | some exit => (emit method [.label exit] (settled e)).2
    | none => settled e := by
  have hpending : e.pending = e.blocks.previous.bind ClosedBlock.pendingExit := rfl
  rw [flushPrevious, run_get_bind]
  cases hexit : e.blocks.previous.bind ClosedBlock.pendingExit with
  | none =>
    rw [hpending, hexit]
    rfl
  | some exit =>
    rw [hpending, hexit]
    rfl

theorem codes_flushPrevious (method : String) (e : Emission) :
    Codes method (flushCode e.pending) 0 e (flushPrevious method e).2 := by
  rw [flushPrevious_eq]
  cases e.pending with
  | none => exact ⟨fun x => by simp [flushCode, settled, codeOf], rfl⟩
  | some exit => exact ⟨(adds_emit method [.label exit] (settled e)).code, rfl⟩

theorem blocks_flushPrevious (method : String) (e : Emission) :
    (flushPrevious method e).2.blocks = { e.blocks with previous := none } := by
  rw [flushPrevious_eq]
  cases e.pending <;> rfl

theorem alike_flushPrevious (method : String) (e : Emission) : e.Alike (flushPrevious method e).2 := by
  rw [flushPrevious_eq]
  cases e.pending <;> exact ⟨rfl, rfl⟩

/-- A conditional whose end has not been placed can be continued. -/
theorem takePendingExit_eq {previous : ClosedBlock}
    (hprevious : e.blocks.previous = some previous)
    (hkind : previous.kind = .cond ∨ previous.kind = .elseCond)
    (hexit : previous.pendingExit = some exit) :
    takePendingExit method e = (some exit, settled e) := by
  obtain ⟨kind, closedAt, pendingExit⟩ := previous
  subst hexit
  rw [takePendingExit, run_get_bind, hprevious]
  rcases hkind with rfl | rfl <;> rfl

/-! ### Heads of blocks -/

/-- How many labels a block has of its own. -/
def labelsOf : BlockKind → Nat
  | .cond | .whileLoop => 2
  | .elseCond => 1
  | .forLoop => 3
  | .otherwise | .plain => 0

/-- The frame of a block whose labels have numbers from a number on. -/
def openFrame (kind : BlockKind) (location : Location) (n : Nat) (pending : Option String)
    (slots : Nat → String) : BlockFrame :=
  let frame := BlockFrame.ofBlock kind location
  match kind with
  | .cond => { frame with
      nextLabel := some (labelName "next" n), exitLabel := some (labelName "endif" (n + 1)) }
  | .elseCond => { frame with nextLabel := some (labelName "next" n), exitLabel := pending }
  | .otherwise => { frame with exitLabel := pending }
  | .whileLoop => { frame with
      startLabel := some (labelName "while" n), continueLabel := some (labelName "while" n)
      exitLabel := some (labelName "wend" (n + 1)) }
  | .forLoop => { frame with
      startLabel := some (labelName "for" n), continueLabel := some (labelName "fnext" (n + 1))
      exitLabel := some (labelName "fend" (n + 2)), forLoop := some ⟨slots 3, slots 2⟩ }
  | .plain => frame

/-- The code at the head of a block. -/
def headCode (kind : BlockKind) (n : Nat) (slots : Nat → String) : List Instruction :=
  match kind with
  | .cond | .elseCond => [.push (slots 0), .jumpToIfFalse (labelName "next" n)]
  | .whileLoop => [.label (labelName "while" n), .push (slots 0),
      .jumpToIfFalse (labelName "wend" (n + 1))]
  | .forLoop => [.push (slots 0), .push (slots 3), .copy, .label (labelName "for" n),
      .push (slots 3), .push (slots 1), .push (slots 4), .invoke Signature.intLess,
      .push (slots 4), .jumpToIfFalse (labelName "fend" (n + 2))]
  | .otherwise | .plain => []

/-- The heap names of variables. -/
def namesOf (ids : List VarId) : Emit (List String) := do
  return ids.map (← get).program.symbols.nameOf

theorem Local.namesOf (ids : List VarId) : Local (Emit.namesOf ids) := by
  refine ⟨fun _ => rfl, fun _ => rfl, fun {e e'} h => ?_, fun h => h⟩
  show ids.map e.program.symbols.nameOf = ids.map e'.program.symbols.nameOf
  rw [h.symbols]

/-- The names of the variables in the slots of an action that opens a block. A `for` block has a variable
of its own in place of a temporary index, and one more slot for the temporary of its test. -/
def headSlots (location : Location) (kind : BlockKind) (action : ActionInstance) :
    Emit (List String) := do
  match ← resolveOperands location kind.params ⟨action.inputs, none⟩ with
  | none => return []
  | some operands =>
      if kind = .forLoop then
        let values ← loopValues action operands.values
        let flag ← onSymbols (·.acquireTemp .bool)
        namesOf (values ++ [flag])
      else namesOf operands.values

theorem Local.headSlots (location : Location) (kind : BlockKind) (action : ActionInstance) :
    Local (Emit.headSlots location kind action) := by
  refine bind (resolveOperands _ _ _) fun operands? => ?_
  cases operands? with
  | none => exact pure _
  | some operands =>
    exact ite (bind (loopValues _ _) fun values => bind (onSymbols _) fun flag => namesOf _)
      (namesOf _)

theorem adds_pushVar (method : String) (id : VarId) (e : Emission) :
    Adds method [.push (e.program.symbols.nameOf id)] 0 e (pushVar method id e).2 :=
  adds_emit method _ e

theorem labelFrame_fst (kind : BlockKind) (location : Location) (pending : Option String)
    (slots : Nat → String) (e : Emission) : (labelFrame (.ofBlock kind location) pending kind e).1 =
      { openFrame kind location e.labelCount pending slots with forLoop := none } := by
  cases kind <;> rfl

theorem adds_labelFrame (method : String) (frame : BlockFrame) (pending : Option String)
    (kind : BlockKind) (e : Emission) :
    Adds method [] (labelsOf kind) e (labelFrame frame pending kind e).2 := by
  cases kind with
  | cond => exact (adds_newLabel method "next" e).trans (adds_newLabel method "endif" _)
  | elseCond => exact adds_newLabel method "next" e
  | otherwise => exact .refl method e
  | whileLoop => exact (adds_newLabel method "while" e).trans (adds_newLabel method "wend" _)
  | forLoop => exact ((adds_newLabel method "for" e).trans
      (adds_newLabel method "fnext" _)).trans (adds_newLabel method "fend" _)
  | plain => exact .refl method e

theorem alike_labelFrame (frame : BlockFrame) (pending : Option String) (kind : BlockKind)
    (e : Emission) : e.Alike (labelFrame frame pending kind e).2 := by
  cases kind <;> exact ⟨rfl, rfl⟩

theorem nameOf_releaseTemp (t : SymbolTable) (id j : VarId) :
    (t.releaseTemp id).nameOf j = t.nameOf j := by
  have hvars : (t.releaseTemp id).vars = t.vars := by
    rw [SymbolTable.releaseTemp]
    split
    · dsimp only
      split <;> rfl
    · rfl
  rw [SymbolTable.nameOf, SymbolTable.nameOf, SymbolTable.get?, SymbolTable.get?, hvars]

/-- The head of a `for` block, which remembers its index and its step. -/
theorem emitForHead_spec (method head exit : String) (start final step index : VarId) (e : Emission) :
    let e₁ := (onSymbols (·.acquireTemp .bool) e).2
    let flag := (onSymbols (·.acquireTemp .bool) e).1
    let name := e₁.program.symbols.nameOf
    Codes method [.push (name start), .push (name index), .copy, .label head, .push (name index),
      .push (name final), .push (name flag), .invoke Signature.intLess, .push (name flag),
      .jumpToIfFalse exit] 0 e (emitForHead method head exit start final step index e).2 ∧
    (emitForHead method head exit start final step index e).2.blocks =
      e.blocks.modifyTop fun frame => { frame with forLoop := some ⟨name index, name step⟩ } := by
  intro e₁ flag name
  constructor
  · have hhead := (adds_pushVar method start e₁).trans ((adds_pushVar method index _).trans
      ((adds_emit method [.copy, .label head] _).trans ((adds_pushVar method index _).trans
        ((adds_pushVar method final _).trans ((adds_pushVar method flag _).trans
          ((adds_emit method [.invoke Signature.intLess] _).trans ((adds_pushVar method flag _).trans
            ((adds_emit method [.jumpToIfFalse exit] _).trans
              ((Local.modifySymbols (·.releaseTemp flag)).adds method _)))))))))
    have hall := ((Local.onSymbols (·.acquireTemp .bool)).adds method e).trans hhead
    exact ⟨hall.code, hall.count⟩
  · let released := e₁.program.symbols.releaseTemp flag
    show e.blocks.modifyTop (fun frame => { frame with
      forLoop := some ⟨released.nameOf index, released.nameOf step⟩ }) = _
    rw [nameOf_releaseTemp, nameOf_releaseTemp]

/-- The slot at a position, by name. -/
def slotAt (location : Location) (kind : BlockKind) (action : ActionInstance) (e : Emission)
    (j : Nat) : String := (headSlots location kind action e).1.getD j ""

theorem slotAt_of_alike
    {e e' : Emission} (h : e.Alike e') :
    slotAt location kind action e = slotAt location kind action e' := by
  funext j
  rw [slotAt, slotAt, (Local.headSlots location kind action).value h]

/-- The head of a block, from the state in which its slots have been filled. -/
theorem adds_emitHead (method : String) (e : Emission)
    {values : List VarId} {n : Nat} (hkind : kind ≠ .forLoop) (hvalues : values.length = kind.params.length)
    (hframe : frame = { openFrame kind location n pending slots with forLoop := none }) :
    Adds method (headCode kind n fun j => (values.map e.program.symbols.nameOf).getD j "") 0 e
      (emitHead method frame values kind e).2 := by
  subst hframe
  have hpush (c : VarId) (l : String) := (adds_pushVar method c e).trans
    (adds_emit method [.jumpToIfFalse l] (pushVar method c e).2)
  cases kind with
  | forLoop => exact absurd rfl hkind
  | otherwise => exact .refl method e
  | plain => exact .refl method e
  | whileLoop =>
    obtain ⟨c, rfl⟩ := List.length_eq_one_iff.mp hvalues
    have hlabel := adds_emit method [.label (labelName "while" n)] e
    exact hlabel.trans ((adds_pushVar method c _).trans
      (adds_emit method [.jumpToIfFalse (labelName "wend" (n + 1))] _))
  | _ =>
    obtain ⟨c, rfl⟩ := List.length_eq_one_iff.mp hvalues
    exact hpush c (labelName "next" n)

/-- The state in which the slots of a block are filled: its labels have been handed out, and its frame is
open. -/
def entered (location : Location) (kind : BlockKind) (pending : Option String) (e : Emission) :
    Emission :=
  (modifyBlocks (·.push (labelFrame (.ofBlock kind location) pending kind e).1)
    (labelFrame (.ofBlock kind location) pending kind e).2).2

theorem codes_entered (method : String) (location : Location) (kind : BlockKind)
    (pending : Option String) (e : Emission) :
    Codes method [] (labelsOf kind) e (entered location kind pending e) :=
  let h := adds_labelFrame method (.ofBlock kind location) pending kind e
  ⟨h.code, h.count⟩

theorem alike_entered (location : Location) (kind : BlockKind) (pending : Option String)
    (e : Emission) : e.Alike (entered location kind pending e) :=
  let h := alike_labelFrame (.ofBlock kind location) pending kind e
  ⟨h.symbols, h.literals⟩

theorem shape_entered (location : Location) (kind : BlockKind) (pending : Option String)
    (slots : Nat → String) (e : Emission) : (entered location kind pending e).blocks.shape =
      { frames := { openFrame kind location e.labelCount pending slots with forLoop := none } ::
          e.blocks.shape.frames } := by
  have hshape := (adds_labelFrame "" (.ofBlock kind location) pending kind e).shape
  rw [← hshape, ← labelFrame_fst kind location pending slots e]
  cases kind <;> rfl

/-- What is emitted for a block when its slots have been filled. -/
def emitEntry (method : String) (frame : BlockFrame) (kind : BlockKind) (action : ActionInstance) :
    Option Operands → Emit Unit
  | none => return ()
  | some operands =>
      if kind = .forLoop then do
        let values ← loopValues action operands.values
        emitHead method frame values kind
        release operands.temps
      else do
        emitHead method frame operands.values kind
        release operands.temps

theorem enterBlock_eq (method : String) (location : Location) (d : PrimitiveDef) (kind : BlockKind)
    (action : ActionInstance) (pending : Option String) (e : Emission) :
    enterBlock method location d kind action pending e =
      emitEntry method (labelFrame (.ofBlock kind location) pending kind e).1 kind action
        (resolveOperands location d.params ⟨action.inputs, none⟩ (entered location kind pending e)).1
        (resolveOperands location d.params ⟨action.inputs, none⟩ (entered location kind pending e)).2 := by
  rw [enterBlock, run_bind, run_bind, run_bind, entered]
  generalize resolveOperands location d.params ⟨action.inputs, none⟩ _ = r
  obtain ⟨operands?, e'⟩ := r
  cases operands? with
  | none => rfl
  | some operands =>
    dsimp only
    rw [emitEntry]
    split <;> rfl

/-- Opening a block whose slots fit. -/
theorem enterBlock_spec (method : String) (location : Location) {d : PrimitiveDef} (kind : BlockKind)
    (pending : Option String) (hparams : d.params = kind.params)
    (hfill : slotsFill action.inputs 0 kind.params = true) (e : Emission) :
    Codes method (headCode kind e.labelCount (slotAt location kind action e)) (labelsOf kind) e
      (enterBlock method location d kind action pending e).2 ∧
    (enterBlock method location d kind action pending e).2.blocks.shape =
      { frames := openFrame kind location e.labelCount pending (slotAt location kind action e) ::
          e.blocks.shape.frames } := by
  let e₁ := entered location kind pending e
  let e₂ := (resolveOperands location kind.params ⟨action.inputs, none⟩ e₁).2
  obtain ⟨operands, hoperands, hlength⟩ := exists_operands hfill location e₁
  have hresolve := (Local.resolveOperands location kind.params ⟨action.inputs, none⟩).adds method e₁
  have hframe := labelFrame_fst kind location pending (slotAt location kind action e) e
  rw [enterBlock_eq, hparams, hoperands]
  have hslots (j : Nat) : slotAt location kind action e j = ((if kind = .forLoop then do
        let values ← loopValues action operands.values
        let flag ← onSymbols (·.acquireTemp .bool)
        namesOf (values ++ [flag])
      else namesOf operands.values : Emit (List String)) e₂).1.getD j "" := by
    rw [slotAt_of_alike (alike_entered location kind pending e), slotAt, headSlots, run_bind,
      hoperands]
  by_cases hfor : kind = .forLoop
  · subst hfor
    let e₃ := (loopValues action operands.values e₂).2
    have hvalues : (loopValues action operands.values e₂).1.length = 4 := by
      rw [loopValues]
      split
      · exact (List.length_set ..).trans hlength
      · exact hlength
    obtain ⟨start, final, step, index, heq⟩ : ∃ start final step index,
        (loopValues action operands.values e₂).1 = [start, final, step, index] := by
      revert hvalues
      generalize (loopValues action operands.values e₂).1 = values
      intro hvalues
      match values, hvalues with
      | [start, final, step, index], _ => exact ⟨start, final, step, index, rfl⟩
    let n := e.labelCount
    have hspec := emitForHead_spec method (labelName "for" n) (labelName "fend" (n + 2)) start final
      step index e₃
    have hnames (j : Nat) : slotAt location .forLoop action e j =
        ([start, final, step, index, (onSymbols (·.acquireTemp .bool) e₃).1].map
          (onSymbols (·.acquireTemp .bool) e₃).2.program.symbols.nameOf).getD j "" := by
      rw [hslots, if_pos rfl, run_bind, heq]
      rfl
    have hcode : headCode .forLoop n (slotAt location .forLoop action e) =
        headCode .forLoop n fun j => ([start, final, step, index,
          (onSymbols (·.acquireTemp .bool) e₃).1].map
          (onSymbols (·.acquireTemp .bool) e₃).2.program.symbols.nameOf).getD j "" := by
      rw [show slotAt location .forLoop action e = _ from funext hnames]
    have hloop := hresolve.nil_trans ((Local.loopValues action operands.values).adds method e₂)
    rw [emitEntry, if_pos rfl, run_bind, heq, hcode]
    constructor
    · have hhead := hspec.1.trans ((Local.release operands.temps).adds method _).toCodes
      exact (codes_entered method location .forLoop pending e).trans (hloop.toCodes.trans hhead)
    · refine ((Local.release operands.temps).shape _).trans ?_
      refine (congrArg BlockStack.shape hspec.2).trans ?_
      refine BlockStack.shape_modifyTop (hloop.shape.trans
        (shape_entered location .forLoop pending (slotAt location .forLoop action e) e)) |>.trans ?_
      rw [openFrame, hnames, hnames]
      rfl
  · have hnames : slotAt location kind action e =
        fun j => (operands.values.map e₂.program.symbols.nameOf).getD j "" := by
      funext j
      rw [hslots, if_neg hfor]
      rfl
    have hhead := adds_emitHead method e₂ hfor hlength hframe
    rw [← hnames] at hhead
    have hadds := (hresolve.nil_trans hhead).trans_nil ((Local.release operands.temps).adds method _)
    rw [emitEntry, if_neg hfor]
    refine ⟨(codes_entered method location kind pending e).trans hadds.toCodes, ?_⟩
    refine hadds.shape.trans
      ((shape_entered location kind pending (slotAt location kind action e) e).trans ?_)
    cases kind <;> first | rfl | exact absurd rfl hfor

/-! ### Tails of blocks -/

/-- The code at the end of a block. -/
def tailCode (kind : BlockKind) (n : Nat) (exit : String) (slots : Nat → String) : List Instruction :=
  match kind with
  | .cond => [.jumpTo (labelName "endif" (n + 1)), .label (labelName "next" n)]
  | .elseCond => [.jumpTo exit, .label (labelName "next" n)]
  | .otherwise => [.label exit]
  | .whileLoop => [.jumpTo (labelName "while" n), .label (labelName "wend" (n + 1))]
  | .forLoop => [.label (labelName "fnext" (n + 1)), .push (slots 3), .push (slots 2),
      .push (slots 3), .invoke Signature.intAdd, .jumpTo (labelName "for" n),
      .label (labelName "fend" (n + 2))]
  | .plain => []

/-- The end of a conditional that closing a block leaves to be placed. -/
def tailExit (kind : BlockKind) (n : Nat) (exit : String) : Option String :=
  match kind with
  | .cond => some (labelName "endif" (n + 1))
  | .elseCond => some exit
  | _ => none

theorem emitTail_spec (method : String)
    {n : Nat}
    (hframe : frame.shape = openFrame kind location n pending slots)
    (hpending : kind.followsConditional = true → pending = some exit) (e : Emission) :
    (emitTail method frame kind e).1 = tailExit kind n exit ∧
      Adds method (tailCode kind n exit slots) 0 e (emitTail method frame kind e).2 := by
  -- The tail reads the labels of the frame only.
  have hread : emitTail method frame kind = emitTail method frame.shape kind := by
    cases kind <;> rfl
  rw [hread, hframe]
  cases kind with
  | elseCond =>
    rw [hpending rfl]
    exact ⟨rfl, adds_emit method _ e⟩
  | otherwise =>
    rw [hpending rfl]
    exact ⟨rfl, adds_emit method _ e⟩
  | plain => exact ⟨rfl, .refl method e⟩
  | _ => exact ⟨rfl, adds_emit method _ e⟩

/-- The state in which the innermost block has been taken off the stack. -/
def popped (frame : BlockFrame) (rest : List BlockFrame) (e : Emission) : Emission := { e with
  blocks := { e.blocks with frames := rest }
  program := { e.program with symbols := e.program.symbols.unbindAll frame.owned } }

/-- Closing a block emits its tail behind the other blocks and remembers what has been closed. -/
theorem run_closeBlock (method : String) (location : Location)
    {e : Emission}
    (hframes : e.blocks.frames = frame :: below :: rest) (hkind : frame.kind = .block kind) :
    let tail := emitTail method frame kind (popped frame (below :: rest) e)
    (closeBlock method location).run e =
      (.ok (), (modifyBlocks (fun s => { s with previous := some ⟨kind, location, tail.1⟩ }) tail.2).2) := by
  have hpop : e.blocks.pop location e.program.symbols = .ok
      (frame, { e.blocks with frames := below :: rest },
        e.program.symbols.unbindAll frame.owned) := by
    rw [BlockStack.pop, hframes]
  rw [closeBlock, Attempt.run_get_bind, hpop]
  dsimp only
  rw [Attempt.run_set_bind, hkind]
  rfl

/-- Closing a block. -/
theorem closeBlock_spec (method : String) (location : Location)
    {openedAt : Location} {n : Nat}
    {e : Emission}
    (hframes : e.blocks.shape.frames = openFrame kind openedAt n pending slots :: below :: rest)
    (hpending : kind.followsConditional = true → pending = some exit) :
    ((closeBlock method location).run e).1 = .ok () ∧
    Codes method (tailCode kind n exit slots) 0 e ((closeBlock method location).run e).2 ∧
    ((closeBlock method location).run e).2.blocks.shape =
      { frames := below :: rest, previous := some ⟨kind, location, tailExit kind n exit⟩ } := by
  obtain ⟨frames, hblocks⟩ : ∃ frames, e.blocks.frames = frames := ⟨_, rfl⟩
  have hshape : frames.map BlockFrame.shape = openFrame kind openedAt n pending slots :: below :: rest := by
    rw [← hframes, ← hblocks]
    rfl
  match frames, hshape with
  | [], hshape => cases hshape
  | [_], hshape => cases (List.cons_eq_cons.mp hshape).2
  | frame :: under :: others, hshape =>
    obtain ⟨hframe, hbelow⟩ := List.cons_eq_cons.mp hshape
    have hkind : frame.kind = .block kind := by
      have := congrArg BlockFrame.kind hframe
      cases kind <;> exact this
    let e₁ := popped frame (under :: others) e
    obtain ⟨hexit, hadds⟩ := emitTail_spec method hframe hpending e₁
    rw [run_closeBlock method location hblocks hkind, hexit]
    refine ⟨rfl, ⟨hadds.code, hadds.count⟩, ?_⟩
    have hrest : (emitTail method frame kind e₁).2.blocks.shape.frames = below :: rest := by
      rw [hadds.shape, ← hbelow]
      rfl
    show BlockStack.mk (emitTail method frame kind e₁).2.blocks.shape.frames _ = _
    rw [hrest]
    rfl

end Emit

end TriggerCompiler
