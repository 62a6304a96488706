import TriggerCompiler.Catalogue.Manifest
import TriggerCompiler.Proofs.DocumentFormat
import TriggerCompiler.Trigger.Source

/-! The formats of the documents that an author hands in: programs and manifests. A reference to a
variable and a type are read as a whole; the other parts are records, some of them told apart by their
kind. -/

namespace TriggerCompiler

/-! ### Variables and parameters -/

theorem SyncMethod.isFormat : IsFormat .leaf SyncMethod.toJson SyncMethod.ofJson? fun _ => True :=
  .leaf (fun s _ => by cases s <;> rfl) rfl

theorem SyncMode.isFormat : IsFormat .leaf SyncMode.toJson SyncMode.ofJson? fun _ => True :=
  .leaf (fun s _ => by cases s <;> rfl) rfl

namespace VariableDecl

def schema : Schema := .record [
  .required "guid" .leaf,
  .required "name" .leaf,
  .required "type" .leaf,
  .optional "default" Value.schema.nullable .null,
  .optional "sync" .leaf SyncMode.notSynced.toJson,
  .optional "exported" .leaf (.bool false),
  .optional "on_change" .leaf (.bool false)]

def IsExact (v : VariableDecl) : Prop := ∀ value ∈ v.default, value.IsExact

theorem isFormat : IsFormat schema toJson ofJson? IsExact where
  read_write v h := by
    simp [toJson, ofJson?, Members.nullable, Guid.isFormat.read_write, VarType.isFormat.read_write,
      Value.isFormat.nullable?_ofOption h, SyncMode.isFormat.read_write]
  reads := Schema.reads_record (by decide) fun _ _ h =>
    h.bind_required Guid.isFormat fun _ =>
    h.bind_required .string fun _ =>
    h.bind_required VarType.isFormat fun _ =>
    h.bind_nullable Value.isFormat fun _ =>
    h.bind_optional SyncMode.isFormat fun _ =>
    h.bind_optional .bool fun _ =>
    h.bind_optional .bool fun _ => rfl
  read_null := rfl

end VariableDecl

namespace ParamDecl

def schema : Schema := .record [
  .required "guid" .leaf,
  .required "name" .leaf,
  .required "type" .leaf,
  .optional "output" .leaf (.bool false)]

theorem isFormat : IsFormat schema toJson ofJson? fun _ => True where
  read_write p _ := by
    simp [toJson, ofJson?, Guid.isFormat.read_write, VarType.isFormat.read_write]
  reads := Schema.reads_record (by decide) fun _ _ h =>
    h.bind_required Guid.isFormat fun _ =>
    h.bind_required .string fun _ =>
    h.bind_required VarType.isFormat fun _ =>
    h.bind_optional .bool fun _ => rfl
  read_null := rfl

end ParamDecl

/-! ### Actions -/

theorem VarRef.isFormat : IsFormat .leaf VarRef.toJson VarRef.ofJson? fun _ => True := by
  refine .leaf (fun r _ => ?_) rfl
  cases r with
  | guid g => exact congrArg (Option.map VarRef.guid) (Guid.isFormat.read_write g trivial)
  | this => rfl

namespace InputSlot

def schema : Schema := .tagged [
  ("default", []),
  ("constant", [.required "value" Value.schema]),
  ("variable", [.required "reference" .leaf]),
  ("declare", [.required "guid" .leaf, .required "name" .leaf])]

def IsExact : InputSlot → Prop
  | constant value => value.IsExact
  | _ => True

theorem ofJson?_toJson {i : InputSlot} (h : i.IsExact) : ofJson? i.toJson = some i := by
  cases i with
  | default => rfl
  | constant value => simp [toJson, ofJson?, Value.isFormat.read_write value h]
  | reference target => simp [toJson, ofJson?, VarRef.isFormat.read_write]
  | declare guid name => simp [toJson, ofJson?, Guid.isFormat.read_write]

theorem reads : schema.Reads ofJson? := by
  refine Schema.reads_kind (by decide) ?_
  simp only [List.forall_mem_cons]
  exact ⟨
    Schema.reads_const (some default),
    Schema.reads_record (by decide) fun _ _ h => h.bind_required Value.isFormat fun _ => rfl,
    Schema.reads_record (by decide) fun _ _ h => h.bind_required VarRef.isFormat fun _ => rfl,
    Schema.reads_record (by decide) fun _ _ h =>
      h.bind_required Guid.isFormat fun _ => h.bind_required .string fun _ => rfl,
    by simp⟩

theorem isFormat : IsFormat schema toJson ofJson? IsExact := ⟨fun _ => ofJson?_toJson, reads, rfl⟩

end InputSlot

namespace ActionRef

def schema : Schema := .tagged [
  ("primitive", [.required "id" .leaf]),
  ("module", [
    .required "module" .leaf,
    .required "entry" .leaf,
    .optional "instance" (.nullable .leaf) .null])]

theorem ofJson?_toJson (a : ActionRef) : ofJson? a.toJson = some a := by
  cases a with
  | primitive id => simp [toJson, ofJson?]
  | moduleEntry key entry instance? =>
    simp [toJson, ofJson?, Members.nullable, Guid.isFormat.nullable?_ofOption]

theorem reads : schema.Reads ofJson? := by
  refine Schema.reads_kind (by decide) ?_
  simp only [List.forall_mem_cons]
  exact ⟨
    Schema.reads_record (by decide) fun _ _ h => h.bind_required .string fun _ => rfl,
    Schema.reads_record (by decide) fun _ _ h =>
      h.bind_required .string fun _ =>
      h.bind_required .string fun _ =>
      h.bind_nullable Guid.isFormat fun _ => rfl,
    by simp⟩

theorem isFormat : IsFormat schema toJson ofJson? fun _ => True := ⟨fun a _ => a.ofJson?_toJson, reads, rfl⟩

end ActionRef

namespace ActionInstance

def schema : Schema := .record [
  .required "action" ActionRef.schema,
  .optional "inputs" InputSlot.schema.list (.arr []),
  .optional "multi_inputs" InputSlot.schema.list (.arr [])]

structure IsExact (a : ActionInstance) : Prop where
  inputs : ∀ i ∈ a.inputs, i.IsExact
  multiInputs : ∀ i ∈ a.multiInputs, i.IsExact

theorem isFormat : IsFormat schema toJson ofJson? IsExact where
  read_write a h := by
    simp [toJson, ofJson?, ActionRef.isFormat.read_write, InputSlot.isFormat.list.read_write _ h.inputs,
      InputSlot.isFormat.list.read_write _ h.multiInputs]
  reads := Schema.reads_record (by decide) fun _ _ h =>
    h.bind_required ActionRef.isFormat fun _ =>
    h.bind_optional InputSlot.isFormat.list fun _ =>
    h.bind_optional InputSlot.isFormat.list fun _ => rfl
  read_null := rfl

end ActionInstance

/-! ### Events -/

namespace EventTrigger

/-- The members of an event with a name. -/
abbrev namedFields : List Field := [
  .required "name" .leaf,
  .optional "params" ParamDecl.schema.list (.arr [])]

def schema : Schema := .tagged [
  ("builtin", namedFields),
  ("custom", namedFields),
  ("changed", [.required "variable" .leaf])]

theorem ofJson?_toJson (t : EventTrigger) : ofJson? t.toJson = some t := by
  have hnamed (name : String) (params : List ParamDecl)
      (next : String × List ParamDecl → Option EventTrigger) :
      ((Json.list? ParamDecl.ofJson? (.arr (params.map ParamDecl.toJson))).bind fun params =>
        some (name, params)).bind next = next (name, params) := by
    rw [ParamDecl.isFormat.list.read_write params fun _ _ => trivial, Option.bind_some, Option.bind_some]
  cases t with
  | builtin name params => exact hnamed name params fun p => some (builtin p.1 p.2)
  | custom name params => exact hnamed name params fun p => some (custom p.1 p.2)
  | changed watched => simp [toJson, ofJson?, Guid.isFormat.read_write]

theorem reads : schema.Reads ofJson? := by
  have hnamed : (Schema.record (Schema.caseFields namedFields)).Reads fun j => (do
      let m : Members ← j.members? ["kind", "name", "params"]
      return (← m.required "name" Json.string?,
        ← m.optional "params" (Json.list? ParamDecl.ofJson?) [])) :=
    Schema.reads_record (by decide) fun _ _ h =>
      h.bind_required .string fun _ =>
      h.bind_optional ParamDecl.isFormat.list fun _ => rfl
  refine Schema.reads_kind (by decide) ?_
  simp only [List.forall_mem_cons]
  exact ⟨
    hnamed.bind fun p => some (builtin p.1 p.2),
    hnamed.bind fun p => some (custom p.1 p.2),
    Schema.reads_record (by decide) fun _ _ h => h.bind_required Guid.isFormat fun _ => rfl,
    by simp⟩

theorem isFormat : IsFormat schema toJson ofJson? fun _ => True := ⟨fun t _ => t.ofJson?_toJson, reads, rfl⟩

end EventTrigger

theorem Broadcast.isFormat : IsFormat .leaf Broadcast.toJson Broadcast.ofJson? fun _ => True :=
  .leaf (fun b _ => by cases b <;> rfl) rfl

theorem ReplayMode.isFormat : IsFormat .leaf ReplayMode.toJson ReplayMode.ofJson? fun _ => True :=
  .leaf (fun r _ => by cases r <;> rfl) rfl

theorem Gate.isFormat : IsFormat .leaf Gate.toJson Gate.ofJson? fun _ => True :=
  .leaf (fun g _ => by cases g <;> rfl) rfl

namespace Delay

def schema : Schema := .tagged [
  ("none", [.optional "amount" (.nullable .leaf) .null]),
  ("seconds", [.required "amount" .leaf]),
  ("frames", [.required "amount" .leaf])]

def IsExact : Delay → Prop
  | seconds amount => amount.isFinite
  | _ => True

theorem ofJson?_toJson {d : Delay} (h : d.IsExact) : ofJson? d.toJson = some d := by
  cases d with
  | none => rfl
  | seconds amount => simp [toJson, ofJson?, IsFormat.single.read_write amount h]
  | frames amount => simp [toJson, ofJson?, IsFormat.uint32.read_write]

theorem reads : schema.Reads ofJson? := by
  refine Schema.reads_tagged (by decide) (by decide) ?_
  simp only [List.forall_mem_cons]
  refine ⟨fun m m' h => ?_, ?_, ?_, by simp⟩
  · have hamount : m.nullable "amount" some = m'.nullable "amount" some :=
      h.nullable (Schema.reads_leaf some) (by simp)
    exact congrArg (· >>= fun amount => if amount.isNone then some none else Option.none) hamount
  · exact fun _ _ h => h.bind_required .single fun _ => rfl
  · exact fun _ _ h => h.bind_required .uint32 fun _ => rfl

theorem isFormat : IsFormat schema toJson ofJson? IsExact := ⟨fun _ => ofJson?_toJson, reads, rfl⟩

end Delay

namespace EventOptions

def schema : Schema := .record [
  .optional "broadcast" .leaf Broadcast.here.toJson,
  .optional "replay" .leaf ReplayMode.none.toJson,
  .optional "delay" Delay.schema Delay.none.toJson,
  .optional "gate" .leaf Gate.anyone.toJson]

def IsExact (o : EventOptions) : Prop := o.delay.IsExact

theorem isFormat : IsFormat schema toJson ofJson? IsExact where
  read_write o h := by
    simp [toJson, ofJson?, Broadcast.isFormat.read_write, ReplayMode.isFormat.read_write,
      Delay.isFormat.read_write _ h, Gate.isFormat.read_write]
  reads := Schema.reads_record (by decide) fun _ _ h =>
    h.bind_optional Broadcast.isFormat fun _ =>
    h.bind_optional ReplayMode.isFormat fun _ =>
    h.bind_optional Delay.isFormat (fun _ =>
    h.bind_optional Gate.isFormat fun _ => rfl) trivial
  read_null := rfl

end EventOptions

namespace EventDecl

def schema : Schema := .record [
  .required "trigger" EventTrigger.schema,
  .optional "options" EventOptions.schema ({} : EventOptions).toJson,
  .optional "actions" ActionInstance.schema.list (.arr [])]

structure IsExact (e : EventDecl) : Prop where
  options : e.options.IsExact
  actions : ∀ a ∈ e.actions, a.IsExact

theorem isFormat : IsFormat schema toJson ofJson? IsExact where
  read_write e h := by
    simp [toJson, ofJson?, EventTrigger.isFormat.read_write, EventOptions.isFormat.read_write _ h.options,
      ActionInstance.isFormat.list.read_write _ h.actions]
  reads := Schema.reads_record (by decide) fun _ _ h =>
    h.bind_required EventTrigger.isFormat fun _ =>
    h.bind_optional EventOptions.isFormat (fun _ =>
    h.bind_optional ActionInstance.isFormat.list fun _ => rfl) trivial
  read_null := rfl

end EventDecl

/-! ### Programs -/

namespace EntryParam

def schema : Schema := .record [
  .required "name" .leaf,
  .required "type" .leaf,
  .optional "output" .leaf (.bool false),
  .required "variable" .leaf]

theorem isFormat : IsFormat schema toJson ofJson? fun _ => True where
  read_write p _ := by simp [toJson, ofJson?, VarType.isFormat.read_write]
  reads := Schema.reads_record (by decide) fun _ _ h =>
    h.bind_required .string fun _ =>
    h.bind_required VarType.isFormat fun _ =>
    h.bind_optional .bool fun _ =>
    h.bind_required .string fun _ => rfl
  read_null := rfl

end EntryParam

namespace ModuleEntry

def schema : Schema := .record [
  .required "id" .leaf,
  .required "method" .leaf,
  .optional "params" EntryParam.schema.list (.arr []),
  .optional "repeatable_first" .leaf (.bool false)]

theorem isFormat : IsFormat schema toJson ofJson? fun _ => True where
  read_write e _ := by simp [toJson, ofJson?, EntryParam.isFormat.list.read_write]
  reads := Schema.reads_record (by decide) fun _ _ h =>
    h.bind_required .string fun _ =>
    h.bind_required .string fun _ =>
    h.bind_optional EntryParam.isFormat.list fun _ =>
    h.bind_optional .bool fun _ => rfl
  read_null := rfl

end ModuleEntry

namespace ModuleInterface

def schema : Schema := .record [
  .optional "entries" ModuleEntry.schema.list (.arr []),
  .optional "multi_instance" .leaf (.bool false),
  .optional "dependencies" (.list .leaf) (.arr [])]

theorem isFormat : IsFormat schema toJson ofJson? fun _ => True where
  read_write i _ := by
    simp [toJson, ofJson?, Json.ofStrings, ModuleEntry.isFormat.list.read_write,
      IsFormat.string.list.read_write]
  reads := Schema.reads_record (by decide) fun _ _ h =>
    h.bind_optional ModuleEntry.isFormat.list fun _ =>
    h.bind_optional .bool fun _ =>
    h.bind_optional IsFormat.string.list fun _ => rfl
  read_null := rfl

end ModuleInterface

namespace TriggerData

def schema : Schema := .record [
  .optional "variables" VariableDecl.schema.list (.arr []),
  .optional "events" EventDecl.schema.list (.arr []),
  .optional "sync" .leaf SyncMethod.manual.toJson]

structure IsExact (d : TriggerData) : Prop where
  vars : ∀ v ∈ d.vars, v.IsExact
  events : ∀ e ∈ d.events, e.IsExact

theorem isFormat : IsFormat schema toJson ofJson? IsExact where
  read_write d h := by
    simp [toJson, ofJson?, VariableDecl.isFormat.list.read_write _ h.vars,
      EventDecl.isFormat.list.read_write _ h.events, SyncMethod.isFormat.read_write]
  reads := Schema.reads_record (by decide) fun _ _ h =>
    h.bind_optional VariableDecl.isFormat.list fun _ =>
    h.bind_optional EventDecl.isFormat.list fun _ =>
    h.bind_optional SyncMethod.isFormat fun _ => rfl
  read_null := rfl

end TriggerData

namespace ProgramSource

def schema : Schema := .record [
  .required "key" .leaf,
  .required "data" TriggerData.schema,
  .optional "module" ModuleInterface.schema.nullable .null]

def IsExact (s : ProgramSource) : Prop := s.data.IsExact

theorem isFormat : IsFormat schema toJson ofJson? IsExact where
  read_write s h := by
    simp [toJson, ofJson?, Members.nullable, TriggerData.isFormat.read_write _ h,
      ModuleInterface.isFormat.nullable?_ofOption]
  reads := Schema.reads_record (by decide) fun _ _ h =>
    h.bind_required .string fun _ =>
    h.bind_required TriggerData.isFormat fun _ =>
    h.bind_nullable ModuleInterface.isFormat fun _ => rfl
  read_null := rfl

end ProgramSource

/-! ### Manifests -/

theorem BlockKind.isFormat : IsFormat .leaf BlockKind.toJson BlockKind.ofJson? fun _ => True :=
  .leaf (fun k _ => by cases k <;> rfl) rfl

namespace PrimitiveOp

def schema : Schema := .tagged [
  ("extern", [.required "signature" .leaf]),
  ("assign", []),
  ("scope", [.required "scope" .leaf]),
  ("end", []),
  ("break", []),
  ("continue", [])]

theorem ofJson?_toJson (op : PrimitiveOp) : ofJson? op.toJson = some op := by
  cases op with
  | openBlock kind => simp [toJson, ofJson?, BlockKind.isFormat.read_write]
  | _ => rfl

theorem reads : schema.Reads ofJson? := by
  refine Schema.reads_kind (by decide) ?_
  simp only [List.forall_mem_cons]
  exact ⟨
    Schema.reads_record (by decide) fun _ _ h => h.bind_required .string fun _ => rfl,
    Schema.reads_const (some assign),
    Schema.reads_record (by decide) fun _ _ h => h.bind_required BlockKind.isFormat fun _ => rfl,
    Schema.reads_const (some closeBlock),
    Schema.reads_const (some exitLoop),
    Schema.reads_const (some nextIteration),
    by simp⟩

theorem isFormat : IsFormat schema toJson ofJson? fun _ => True :=
  ⟨fun op _ => op.ofJson?_toJson, reads, rfl⟩

end PrimitiveOp

namespace ParamSpec

def schema : Schema := .record [
  .required "name" .leaf,
  .required "type" .leaf,
  .optional "output" .leaf (.bool false),
  .optional "default" Value.schema.nullable .null]

def IsExact (p : ParamSpec) : Prop := ∀ value ∈ p.default, value.IsExact

theorem isFormat : IsFormat schema toJson ofJson? IsExact where
  read_write p h := by
    simp [toJson, ofJson?, Members.nullable, VarType.isFormat.read_write,
      Value.isFormat.nullable?_ofOption h]
  reads := Schema.reads_record (by decide) fun _ _ h =>
    h.bind_required .string fun _ =>
    h.bind_required VarType.isFormat fun _ =>
    h.bind_optional .bool fun _ =>
    h.bind_nullable Value.isFormat fun _ => rfl
  read_null := rfl

end ParamSpec

namespace PrimitiveDef

def schema : Schema := .record [
  .required "id" .leaf,
  .required "op" PrimitiveOp.schema,
  .optional "params" ParamSpec.schema.list (.arr []),
  .optional "repeatable_first" .leaf (.bool false),
  .optional "deprecated" (.nullable .leaf) .null]

def IsExact (d : PrimitiveDef) : Prop := ∀ p ∈ d.params, p.IsExact

theorem isFormat : IsFormat schema toJson ofJson? IsExact where
  read_write d h := by
    simp [toJson, ofJson?, Members.nullable, PrimitiveOp.isFormat.read_write,
      ParamSpec.isFormat.list.read_write _ h, IsFormat.string.nullable?_ofOption]
  reads := Schema.reads_record (by decide) fun _ _ h =>
    h.bind_required .string fun _ =>
    h.bind_required PrimitiveOp.isFormat fun _ =>
    h.bind_optional ParamSpec.isFormat.list fun _ =>
    h.bind_optional .bool fun _ =>
    h.bind_nullable .string fun _ => rfl
  read_null := rfl

end PrimitiveDef

namespace EventParamSpec

def schema : Schema := .record [
  .required "name" .leaf,
  .required "type" .leaf,
  .required "variable" .leaf]

theorem isFormat : IsFormat schema toJson ofJson? fun _ => True where
  read_write p _ := by simp [toJson, ofJson?, VarType.isFormat.read_write]
  reads := Schema.reads_record (by decide) fun _ _ h =>
    h.bind_required .string fun _ =>
    h.bind_required VarType.isFormat fun _ =>
    h.bind_required .string fun _ => rfl
  read_null := rfl

end EventParamSpec

namespace EventDef

def schema : Schema := .record [
  .required "name" .leaf,
  .required "method" .leaf,
  .optional "params" EventParamSpec.schema.list (.arr [])]

theorem isFormat : IsFormat schema toJson ofJson? fun _ => True where
  read_write e _ := by simp [toJson, ofJson?, EventParamSpec.isFormat.list.read_write]
  reads := Schema.reads_record (by decide) fun _ _ h =>
    h.bind_required .string fun _ =>
    h.bind_required .string fun _ =>
    h.bind_optional EventParamSpec.isFormat.list fun _ => rfl
  read_null := rfl

end EventDef

namespace Manifest

def schema : Schema := .record [
  .required "name" .leaf,
  .optional "version" .leaf (.str ""),
  .optional "description" .leaf (.str ""),
  .optional "actions" PrimitiveDef.schema.list (.arr []),
  .optional "events" EventDef.schema.list (.arr [])]

def IsExact (m : Manifest) : Prop := ∀ d ∈ m.actions, d.IsExact

theorem isFormat : IsFormat schema toJson ofJson? IsExact where
  read_write m h := by
    simp [toJson, ofJson?, PrimitiveDef.isFormat.list.read_write _ h, EventDef.isFormat.list.read_write]
  reads := Schema.reads_record (by decide) fun _ _ h =>
    h.bind_required .string fun _ =>
    h.bind_optional .string fun _ =>
    h.bind_optional .string fun _ =>
    h.bind_optional PrimitiveDef.isFormat.list fun _ =>
    h.bind_optional EventDef.isFormat.list fun _ => rfl
  read_null := rfl

end Manifest

end TriggerCompiler
