import TriggerCompiler.Compile
import TriggerCompiler.Proofs.SourceFormat

/-! The formats of the documents that a compilation reads and writes besides the programs and manifests:
settings, messages, methods and the artifact. Instructions and the targets of jumps are read as a whole.
Main statement: every document is read back as it was written, and members that a record does not know
and optional members that are left out do not matter. -/

namespace TriggerCompiler

/-! ### Settings and references -/

namespace Settings

def schema : Schema := .record [
  .optional "auto_request_serialization" .leaf (.bool true),
  .optional "include_event_hooks" .leaf (.bool true),
  .optional "threads" (.nullable .leaf) .null]

def IsExact (s : Settings) : Prop := ∀ n ∈ s.threads, IsIndex n

theorem isFormat : IsFormat schema toJson ofJson? IsExact where
  read_write s h := by
    simp [toJson, ofJson?, Members.nullable, IsFormat.index.nullable?_ofOption h]
  reads := Schema.reads_record (by decide) fun _ _ h =>
    h.bind_optional .bool fun _ =>
    h.bind_optional .bool fun _ =>
    h.bind_nullable .index fun _ => rfl
  read_null := rfl

end Settings

namespace Reference

def schema : Schema := .record [
  .required "event_index" .leaf,
  .required "action_index" .leaf,
  .optional "multi_index" (.nullable .leaf) .null,
  .required "variable_index" .leaf,
  .required "symbol" .leaf,
  .required "type" .leaf]

structure IsExact (r : Reference) : Prop where
  event : IsIndex r.position.event
  action : IsIndex r.position.action
  multi : ∀ m ∈ r.position.multi, IsIndex m
  slot : IsIndex r.position.slot

theorem ofJson?_toJson {r : Reference} (h : r.IsExact) : ofJson? r.toJson = some r := by
  obtain ⟨⟨event, action, multi, slot⟩, symbol, type⟩ := r
  have hread {n : Nat} (hn : IsIndex n) := IsFormat.index.read_write n hn
  cases multi with
  | none =>
    simp [toJson, ofJson?, Members.nullable, hread h.event, hread h.action, hread h.slot,
      VarType.isFormat.read_write]
  | some m =>
    have hm := IsFormat.index.nullable?_ofOption h.multi
    rw [Json.ofOption] at hm
    simp [toJson, ofJson?, Members.nullable, hread h.event, hread h.action, hm, hread h.slot,
      VarType.isFormat.read_write]

theorem isFormat : IsFormat schema toJson ofJson? IsExact where
  read_write _ := ofJson?_toJson
  reads := Schema.reads_record (by decide) fun _ _ h =>
    h.bind_required .index fun _ =>
    h.bind_required .index fun _ =>
    h.bind_nullable .index fun _ =>
    h.bind_required .index fun _ =>
    h.bind_required .string fun _ =>
    h.bind_required VarType.isFormat fun _ => rfl
  read_null := rfl

end Reference

/-! ### Event chains -/

theorem LinkKind.isFormat : IsFormat .leaf LinkKind.toJson LinkKind.ofJson? fun _ => True :=
  .leaf (fun k _ => by cases k <;> rfl) rfl

namespace ChainLink

def schema : Schema := .record [
  .required "from" .leaf,
  .required "to" .leaf,
  .required "kind" .leaf]

theorem isFormat : IsFormat schema toJson ofJson? fun _ => True where
  read_write l _ := by simp [toJson, ofJson?, LinkKind.isFormat.read_write]
  reads := Schema.reads_record (by decide) fun _ _ h =>
    h.bind_required .string fun _ =>
    h.bind_required .string fun _ =>
    h.bind_required LinkKind.isFormat fun _ => rfl
  read_null := rfl

end ChainLink

namespace EventChain

def schema : Schema := .record [
  .required "event_index" .leaf,
  .required "methods" (.list .leaf),
  .required "links" ChainLink.schema.list]

def IsExact (c : EventChain) : Prop := IsIndex c.event

theorem isFormat : IsFormat schema toJson ofJson? IsExact where
  read_write c h := by
    simp [toJson, ofJson?, Json.ofStrings, IsFormat.index.read_write _ h, IsFormat.string.list.read_write,
      ChainLink.isFormat.list.read_write]
  reads := Schema.reads_record (by decide) fun _ _ h =>
    h.bind_required .index fun _ =>
    h.bind_required IsFormat.string.list fun _ =>
    h.bind_required ChainLink.isFormat.list fun _ => rfl
  read_null := rfl

end EventChain

/-! ### Messages -/

theorem Level.isFormat : IsFormat .leaf Level.toJson Level.ofJson? fun _ => True :=
  .leaf (fun l _ => by cases l <;> rfl) rfl

namespace Location

def schema : Schema := .record [
  .required "event" .leaf,
  .optional "action" (.nullable .leaf) .null]

structure IsExact (l : Location) : Prop where
  event : IsIndex l.event
  action : ∀ a ∈ l.action?, IsIndex a

theorem ofJson?_toJson {l : Location} (h : l.IsExact) : ofJson? l.toJson = some l := by
  obtain ⟨event, action?⟩ := l
  have hevent := IsFormat.index.read_write event h.event
  cases action? with
  | none => simp [toJson, ofJson?, Members.nullable, hevent]
  | some a =>
    have ha := IsFormat.index.nullable?_ofOption h.action
    rw [Json.ofOption] at ha
    simp [toJson, ofJson?, Members.nullable, hevent, ha]

theorem isFormat : IsFormat schema toJson ofJson? IsExact where
  read_write _ := ofJson?_toJson
  reads := Schema.reads_record (by decide) fun _ _ h =>
    h.bind_required .index fun _ =>
    h.bind_nullable .index fun _ => rfl
  read_null := rfl

end Location

namespace Diagnostic

def schema : Schema := .record [
  .required "level" .leaf,
  .required "message" .leaf,
  .required "issuer" .leaf,
  .optional "location" Location.schema.nullable .null]

def IsExact (d : Diagnostic) : Prop := ∀ l ∈ d.location?, l.IsExact

theorem ofJson?_toJson {d : Diagnostic} (h : d.IsExact) : ofJson? d.toJson = some d := by
  obtain ⟨level, message, issuer, location?⟩ := d
  cases location? with
  | none => simp [toJson, ofJson?, Members.nullable, Level.isFormat.read_write]
  | some l =>
    have hl := Location.isFormat.nullable?_ofOption h
    rw [Json.ofOption] at hl
    simp [toJson, ofJson?, Members.nullable, Level.isFormat.read_write, hl]

theorem isFormat : IsFormat schema toJson ofJson? IsExact where
  read_write _ := ofJson?_toJson
  reads := Schema.reads_record (by decide) fun _ _ h =>
    h.bind_required Level.isFormat fun _ =>
    h.bind_required .string fun _ =>
    h.bind_required .string fun _ =>
    h.bind_nullable Location.isFormat fun _ => rfl
  read_null := rfl

end Diagnostic

/-! ### Methods -/

theorem Target.isFormat : IsFormat .leaf Target.toJson Target.ofJson? fun _ => True := by
  refine .leaf (fun t _ => ?_) rfl
  cases t with
  | label name => rfl
  | address value => exact congrArg (Option.map Target.address) (IsFormat.uint32.read_write value trivial)

theorem Instruction.isFormat : IsFormat .leaf Instruction.toJson Instruction.ofJson? fun _ => True := by
  refine .leaf (fun i _ => ?_) rfl
  cases i with
  | jump t => exact congrArg (Option.map Instruction.jump) (Target.isFormat.read_write t trivial)
  | jumpIfFalse t =>
    exact congrArg (Option.map Instruction.jumpIfFalse) (Target.isFormat.read_write t trivial)
  | _ => rfl

namespace Method

def schema : Schema := .record [
  .required "name" .leaf,
  .required "exported" .leaf,
  .required "instructions" (.list .leaf)]

theorem isFormat : IsFormat schema toJson ofJson? fun _ => True where
  read_write m _ := by simp [toJson, ofJson?, Instruction.isFormat.list.read_write]
  reads := Schema.reads_record (by decide) fun _ _ h =>
    h.bind_required .string fun _ =>
    h.bind_required .bool fun _ =>
    h.bind_required Instruction.isFormat.list fun _ => rfl
  read_null := rfl

end Method

/-! ### Artifacts -/

namespace HeapEntry

def schema : Schema := .record [
  .required "name" .leaf,
  .required "type" .leaf,
  .required "default" Value.schema,
  .optional "exported" .leaf (.bool false),
  .optional "sync" .leaf SyncMode.notSynced.toJson]

def IsExact (e : HeapEntry) : Prop := e.default.IsExact

theorem isFormat : IsFormat schema toJson ofJson? IsExact where
  read_write e h := by
    simp [toJson, ofJson?, VarType.isFormat.read_write, Value.isFormat.read_write _ h,
      SyncMode.isFormat.read_write]
  reads := Schema.reads_record (by decide) fun _ _ h =>
    h.bind_required .string fun _ =>
    h.bind_required VarType.isFormat fun _ =>
    h.bind_required Value.isFormat fun _ =>
    h.bind_optional .bool fun _ =>
    h.bind_optional SyncMode.isFormat fun _ => rfl
  read_null := rfl

end HeapEntry

namespace Executable

def schema : Schema := .record [
  .required "bytes" (.list .leaf),
  .required "heap_size" .leaf]

theorem isFormat : IsFormat schema toJson ofJson? fun _ => True where
  read_write e _ := by
    simp [toJson, ofJson?, IsFormat.byte.list.read_write, IsFormat.uint32.read_write]
  reads := Schema.reads_record (by decide) fun _ _ h =>
    h.bind_required IsFormat.byte.list fun _ =>
    h.bind_required .uint32 fun _ => rfl
  read_null := rfl

end Executable

namespace CompiledProgram

def schema : Schema := .record [
  .required "key" .leaf,
  .required "assembly" .leaf,
  .optional "executable" Executable.schema.nullable .null,
  .required "heap_defaults" HeapEntry.schema.list,
  .required "references" Reference.schema.list,
  .required "chains" EventChain.schema.list,
  .required "exported_methods" (.list .leaf),
  .required "exported_variables" (.list .leaf),
  .required "synced" (.list .leaf),
  .required "requires_network" .leaf,
  .required "warnings" Diagnostic.schema.list,
  .required "errors" Diagnostic.schema.list]

structure IsExact (c : CompiledProgram) : Prop where
  heapDefaults : ∀ e ∈ c.heapDefaults, e.IsExact
  references : ∀ r ∈ c.references, r.IsExact
  chains : ∀ e ∈ c.chains, e.IsExact
  warnings : ∀ d ∈ c.warnings, d.IsExact
  errors : ∀ d ∈ c.errors, d.IsExact

theorem ofJson?_toJson {c : CompiledProgram} (h : c.IsExact) :
    ofJson? c.toJson = some { c with finished := none } := by
  simp [toJson, ofJson?, Members.nullable, Json.ofStrings, Executable.isFormat.nullable?_ofOption,
    HeapEntry.isFormat.list.read_write _ h.heapDefaults, Reference.isFormat.list.read_write _ h.references,
    EventChain.isFormat.list.read_write _ h.chains, IsFormat.string.list.read_write,
    Diagnostic.isFormat.list.read_write _ h.warnings, Diagnostic.isFormat.list.read_write _ h.errors]

theorem reads : schema.Reads ofJson? :=
  Schema.reads_record (by decide) fun _ _ h =>
    h.bind_required .string fun _ =>
    h.bind_required .string fun _ =>
    h.bind_nullable Executable.isFormat fun _ =>
    h.bind_required HeapEntry.isFormat.list fun _ =>
    h.bind_required Reference.isFormat.list fun _ =>
    h.bind_required EventChain.isFormat.list fun _ =>
    h.bind_required IsFormat.string.list fun _ =>
    h.bind_required IsFormat.string.list fun _ =>
    h.bind_required IsFormat.string.list fun _ =>
    h.bind_required .bool fun _ =>
    h.bind_required Diagnostic.isFormat.list fun _ =>
    h.bind_required Diagnostic.isFormat.list fun _ => rfl

end CompiledProgram

/-! ### All documents -/

/-- Every document is read back as it was written, the finished program in an artifact apart, which is
not written. A member that no record knows and an optional member that is left out do not change what is
read; the objects that stand for a variant with data, such as a type known by its name, have no room for
further members. -/
theorem documents_read_back :
    IsFormat ProgramSource.schema ProgramSource.toJson ProgramSource.ofJson? ProgramSource.IsExact ∧
    IsFormat Manifest.schema Manifest.toJson Manifest.ofJson? Manifest.IsExact ∧
    IsFormat Settings.schema Settings.toJson Settings.ofJson? Settings.IsExact ∧
    IsFormat Reference.schema Reference.toJson Reference.ofJson? Reference.IsExact ∧
    IsFormat EventChain.schema EventChain.toJson EventChain.ofJson? EventChain.IsExact ∧
    IsFormat Diagnostic.schema Diagnostic.toJson Diagnostic.ofJson? Diagnostic.IsExact ∧
    IsFormat Method.schema Method.toJson Method.ofJson? (fun _ => True) ∧
    (∀ c : CompiledProgram, c.IsExact →
      CompiledProgram.ofJson? c.toJson = some { c with finished := none }) ∧
    CompiledProgram.schema.Reads CompiledProgram.ofJson? :=
  ⟨ProgramSource.isFormat, Manifest.isFormat, Settings.isFormat, Reference.isFormat, EventChain.isFormat,
    Diagnostic.isFormat, Method.isFormat, fun _ => CompiledProgram.ofJson?_toJson, CompiledProgram.reads⟩

/-- A number that starts at `1.5`. -/
def plainVariable : VariableDecl where
  guid := ⟨List.replicate 32 0, rfl⟩
  name := "speed"
  type := .float
  default := some (.float ⟨0x3fc00000⟩)

/-- A program with one variable and nothing else. -/
def plainSource : ProgramSource where
  key := "door"
  data := { vars := [plainVariable] }

/-- A document of the program: it has a member that no record knows, and the way of synchronisation and
the interface are left out. -/
def plainDocument : Json := .obj [
  ("note", .bool true),
  ("key", .str "door"),
  ("data", .obj [("variables", .arr [plainVariable.toJson]), ("events", .arr [])])]

theorem plainDocument_same : ProgramSource.schema.Same plainDocument plainSource.toJson := by
  have hkeys : "sync" ∉ ["variables", "events"] ∧ "module" ∉ ["key", "data"] := by decide
  -- The unknown member goes; then the two optional ones come, the inner one first.
  refine .trans _ _ _ (.symm _ _ (.rel _ _ (.unknown [] _ (by decide)))) ?_
  refine .trans _ _ _ (.rel _ _ (.member [_] [] (.tail _ (.head _))
    (.omitted [_, _] [] (.tail _ (.tail _ (.head _))) hkeys.1))) ?_
  exact .rel _ _ (.omitted [_, _] [] (.tail _ (.tail _ (.head _))) hkeys.2)

theorem documents_read_back_plainDocument :
    plainSource.IsExact ∧ ProgramSource.schema.Same plainDocument plainSource.toJson ∧
      ProgramSource.ofJson? plainDocument = some plainSource := by
  have hexact : plainSource.IsExact := by
    constructor
    · simp [plainSource, VariableDecl.IsExact, plainVariable, Value.IsExact]
      decide
    · simp [plainSource]
  have hformat := documents_read_back.1
  refine ⟨hexact, plainDocument_same, ?_⟩
  rw [hformat.reads _ _ plainDocument_same, hformat.read_write _ hexact]

/-- A reference to a constant of a type that is known by its name, with members besides the name. -/
def namedReference (more : Members) : Json := .obj [
  ("event_index", .nat 0),
  ("action_index", .nat 1),
  ("variable_index", .nat 2),
  ("symbol", .str "shade"),
  ("type", .obj (("other", .str "Color") :: more))]

/-- A type that is known by its name has no room for further members. -/
theorem namedReference_extra :
    VarType.ofJson? (.obj [("other", .str "X"), ("extra", .nat 1)]) = none ∧
      Reference.ofJson? (namedReference []) = some ⟨⟨0, 1, none, 2⟩, "shade", .other "Color"⟩ ∧
      Reference.ofJson? (namedReference [("extra", .nat 1)]) = none := by
  decide

end TriggerCompiler
