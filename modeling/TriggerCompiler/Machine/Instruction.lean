import TriggerCompiler.Json.Decode
import TriggerCompiler.Text.Hex

/-! The instructions of the machine. Operands name heap variables; a jump names a label until addresses
are known. The size of an instruction does not depend on its operands, so addresses can be computed
before any of them is filled in. -/

namespace TriggerCompiler

/-- Where a jump goes. -/
inductive Target where
  | label (name : String)
  | address (value : UInt32)
deriving DecidableEq

inductive Instruction where
  | nop
  /-- Does nothing; marks a write to a synced variable. -/
  | sentinel
  | push (symbol : String)
  | pop
  /-- Copies the variable pushed first to the one pushed second. -/
  | copy
  | jump (target : Target)
  | jumpIfFalse (target : Target)
  /-- Jumps to the address that a variable holds. -/
  | jumpIndirect (symbol : String)
  /-- Calls a function of the machine with the pushed operands. -/
  | invoke (signature : String)
  | label (name : String)
  | comment (text : String)
deriving DecidableEq

namespace Target

def text : Target → String
  | label name => name
  | address value => Text.addressText value

def toJson : Target → Json
  | label name => .obj [("Label", .str name)]
  | address value => .obj [("Address", .nat value.toNat)]

def ofJson? : Json → Option Target
  | .obj [("Label", j)] => j.string?.map label
  | .obj [("Address", j)] => j.uint32?.map address
  | _ => none

end Target

namespace Instruction

def jumpTo (label : String) : Instruction := jump (.label label)

/-- A jump to a label that is taken if the pushed variable is false. -/
def jumpToIfFalse (label : String) : Instruction := jumpIfFalse (.label label)

/-- The size in bytes; labels and comments take no space. -/
def size : Instruction → Nat
  | nop | sentinel | pop | copy => 4
  | push _ | jump _ | jumpIfFalse _ | jumpIndirect _ | invoke _ => 8
  | label _ | comment _ => 0

def symbol? : Instruction → Option String
  | push s => some s
  | jumpIndirect s => some s
  | _ => none

def targetLabel? : Instruction → Option String
  | jump (.label l) => some l
  | jumpIfFalse (.label l) => some l
  | _ => none

def placedLabel? : Instruction → Option String
  | label l => some l
  | _ => none

def isSentinel : Instruction → Bool
  | sentinel => true
  | _ => false

def withAddress (address : UInt32) : Instruction → Instruction
  | jump _ => jump (.address address)
  | jumpIfFalse _ => jumpIfFalse (.address address)
  | i => i

def text : Instruction → String
  | nop => "NOP"
  | sentinel => "NOP # sync"
  | push s => "PUSH, " ++ s
  | pop => "POP"
  | copy => "COPY"
  | jump t => "JUMP, " ++ t.text
  | jumpIfFalse t => "JUMP_IF_FALSE, " ++ t.text
  | jumpIndirect s => "JUMP_INDIRECT, " ++ s
  | invoke signature => "EXTERN, \"" ++ signature ++ "\""
  | label l => l ++ ":"
  | comment c => "# " ++ c

def toJson : Instruction → Json
  | nop => .str "Nop"
  | sentinel => .str "Sentinel"
  | push s => .obj [("Push", .str s)]
  | pop => .str "Pop"
  | copy => .str "Copy"
  | jump t => .obj [("Jump", t.toJson)]
  | jumpIfFalse t => .obj [("JumpIfFalse", t.toJson)]
  | jumpIndirect s => .obj [("JumpIndirect", .str s)]
  | invoke signature => .obj [("Extern", .str signature)]
  | label l => .obj [("Label", .str l)]
  | comment c => .obj [("Comment", .str c)]

private def plainOfName? : String → Option Instruction
  | "Nop" => some nop
  | "Sentinel" => some sentinel
  | "Pop" => some pop
  | "Copy" => some copy
  | _ => none

def ofJson? : Json → Option Instruction
  | .obj [("Push", j)] => j.string?.map push
  | .obj [("Jump", j)] => (Target.ofJson? j).map jump
  | .obj [("JumpIfFalse", j)] => (Target.ofJson? j).map jumpIfFalse
  | .obj [("JumpIndirect", j)] => j.string?.map jumpIndirect
  | .obj [("Extern", j)] => j.string?.map invoke
  | .obj [("Label", j)] => j.string?.map label
  | .obj [("Comment", j)] => j.string?.map comment
  | j => j.name?.bind plainOfName?

end Instruction

def codeSize (code : List Instruction) : Nat := (code.map Instruction.size).sum

end TriggerCompiler
