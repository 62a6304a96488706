import TriggerCompiler.Trigger.Variable

/-! The variables on a program's heap and the variables that the compiler reserves for itself. -/

namespace TriggerCompiler

/-- The handle of a variable, valid for one compilation and never used again. -/
abbrev VarId := Nat

/-- What a variable is for. -/
inductive VariableKind where
  /-- Declared by the author. -/
  | user
  /-- Copied from a module. -/
  | imported
  /-- Declared inside a block. -/
  | blockLocal
  | temp
  /-- A constant that is found by its value. -/
  | constant
  /-- A constant that belongs to one place of the program. -/
  | literal
  | system
  | internal
  /-- Written by the machine before it raises an event. -/
  | eventParam
deriving DecidableEq, Inhabited

structure Variable where
  name : String
  type : VarType
  default : Value
  kind : VariableKind
  sync : SyncMode := .notSynced
  exported : Bool := false
  global : Bool := false
  /-- The method to call after a write that changes the variable. -/
  onChange : Option String := none
  /-- The variable that holds the value at the last check for a change. -/
  previous : Option VarId := none
  guid : Option Guid := none
deriving DecidableEq

/-- A variable that the compiler reserves for itself. -/
inductive SystemVariable where
  | this
  | localPlayer
  | returnJump
  | haltAddress
deriving DecidableEq

namespace SystemVariable

def all : List SystemVariable := [this, localPlayer, returnJump, haltAddress]

def name : SystemVariable → String
  | this => "__this"
  | localPlayer => "__localPlayer"
  | returnJump => "__returnJump"
  | haltAddress => "__haltAddress"

def type : SystemVariable → VarType
  | this => .gameObject
  | localPlayer => .player
  | returnJump => .uint
  | haltAddress => .uint

/-- The value before the program starts; a jump to the halt address ends the execution. -/
def defaultValue : SystemVariable → Value
  | this => .this
  | localPlayer => .null
  | returnJump => .uint 0
  | haltAddress => .uint 0xFFFFFFFC

def ofName? (name : String) : Option SystemVariable := all.find? (·.name = name)

def toVariable (s : SystemVariable) : Variable :=
  { name := s.name, type := s.type, default := s.defaultValue, kind := .system }

end SystemVariable

def Variable.system? (v : Variable) : Option SystemVariable :=
  if v.kind = .system then SystemVariable.ofName? v.name else none

end TriggerCompiler
