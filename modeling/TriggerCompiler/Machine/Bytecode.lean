import TriggerCompiler.Machine.Image

/-! The binary container of a program. All numbers are written in four bytes, the lowest first, and a
text as the number of its bytes followed by them. The container holds a mark and a version, the heap
slots, the exported methods with their addresses, the functions of the machine that the code calls, and
the code. An instruction is its operation code, followed by its operand if it has one. -/

namespace TriggerCompiler

/-- An encoded program and the size of the heap it runs on. -/
structure Executable where
  bytes : List UInt8
  heapSize : UInt32
deriving DecidableEq

namespace Executable

def toJson (e : Executable) : Json := .obj [
  ("bytes", .arr (e.bytes.map fun b => .nat b.toNat)),
  ("heap_size", .nat e.heapSize.toNat)]

def ofJson? (j : Json) : Option Executable := do
  let m : Members ← j.members? ["bytes", "heap_size"]
  return {
    bytes := ← m.required "bytes" (Json.list? Json.byte?)
    heapSize := ← m.required "heap_size" Json.uint32? }

end Executable

namespace Bytecode

def word (n : UInt32) : List UInt8 :=
  [n.toUInt8, (n >>> 8).toUInt8, (n >>> 16).toUInt8, (n >>> 24).toUInt8]

def count (n : Nat) : List UInt8 := word (UInt32.ofNat n)

def text (s : String) : List UInt8 :=
  let bytes := s.toUTF8.data.toList
  count bytes.length ++ bytes

def value : Value → List UInt8
  | .null => [0]
  | .bool b => [1, if b then 1 else 0]
  | .int n => 2 :: word n.toUInt32
  | .uint n => 3 :: word n
  | .float x => 4 :: word x.bits
  | .str s => 5 :: text s
  | .method s => 5 :: text s
  | .vector3 x y z => 6 :: (word x.bits ++ word y.bits ++ word z.bits)
  | .this => [7]
  | .label l => 8 :: text l

def slot (e : HeapEntry) : List UInt8 := text e.name ++ text e.type.machineName ++ value e.default

def exportsFrom (start : Nat) : List Method → List (String × Nat)
  | [] => []
  | m :: rest =>
      let tail := exportsFrom (start + m.size) rest
      if m.exported then (m.name, start) :: tail else tail

/-- The functions that code calls, each once, in the order of first use. -/
def signatures (methods : List Method) : List String :=
  ((methods.flatMap Method.code).filterMap fun i =>
    match i with
    | .invoke signature => some signature
    | _ => none).eraseDups

/-- What the encoding of an instruction depends on. -/
structure Frame where
  image : Image
  signatures : List String
  /-- The method of the instruction, for error messages. -/
  method : String

def Frame.slotOf (f : Frame) (symbol : String) : Except AssembleError Nat :=
  match f.image.heapIndex? symbol with
  | some i => .ok i
  | none => .error (.unknownSymbol f.method symbol)

def Frame.addressOf (f : Frame) : Target → Except AssembleError UInt32
  | .address a => .ok a
  | .label l => .error (.unresolvedTarget f.method l)

def instruction (f : Frame) : Instruction → Except AssembleError (List UInt8)
  | .nop => .ok (word 0)
  | .sentinel => .ok (word 0)
  | .push s => do return word 1 ++ count (← f.slotOf s)
  | .pop => .ok (word 2)
  | .jumpIfFalse t => do return word 4 ++ word (← f.addressOf t)
  | .jump t => do return word 5 ++ word (← f.addressOf t)
  | .invoke signature => .ok (word 6 ++ count (f.signatures.idxOf signature))
  | .jumpIndirect s => do return word 8 ++ count (← f.slotOf s)
  | .copy => .ok (word 9)
  | .label _ => .ok []
  | .comment _ => .ok []

def code (f : Frame) : List Instruction → Except AssembleError (List UInt8)
  | [] => .ok []
  | i :: rest => do
      let head ← instruction f i
      let tail ← code f rest
      return head ++ tail

def methodsCode (image : Image) (signatures : List String) :
    List Method → Except AssembleError (List UInt8)
  | [] => .ok []
  | m :: rest => do
      let head ← code ⟨image, signatures, m.name⟩ m.code
      let tail ← methodsCode image signatures rest
      return head ++ tail

/-- The mark and the version at the start of a container. -/
def header : List UInt8 := [83, 71, 66, 67] ++ word 1

/-- Everything before the code. -/
def preamble (image : Image) : List UInt8 :=
  let entries := exportsFrom 0 image.methods
  let externs := signatures image.methods
  header ++
    count image.heap.length ++ image.heap.flatMap slot ++
    count entries.length ++ entries.flatMap (fun e => text e.1 ++ count e.2) ++
    count externs.length ++ externs.flatMap text ++
    count (image.methods.map Method.size).sum

end Bytecode

def Image.assemble (image : Image) (heapSize : UInt32) : Except AssembleError Executable :=
  if heapSize.toNat < image.heapSize then
    .error (.heapTooSmall heapSize.toNat image.heapSize)
  else do
    let code ← Bytecode.methodsCode image (Bytecode.signatures image.methods) image.methods
    return { bytes := Bytecode.preamble image ++ code, heapSize }

end TriggerCompiler
