import TriggerCompiler.Catalogue.Manifest

/-! The actions and events that every program may use, and the functions of the machine that the
compiler calls on its own account. -/

namespace TriggerCompiler

namespace Signature

def isOwner : String := "Networking.__IsOwner__PlayerApi_GameObject__SystemBoolean"

def setOwner : String := "Networking.__SetOwner__PlayerApi_GameObject__SystemVoid"

def getOwner : String := "Networking.__GetOwner__GameObject__PlayerApi"

def getLocalPlayer : String := "Networking.__get_LocalPlayer__PlayerApi"

def isMaster : String := "PlayerApi.__get_isMaster__SystemBoolean"

/-- Calls a method of an object on other machines. -/
def sendNetworkEvent : String :=
  "Behaviour.__SendCustomNetworkEvent__NetworkTarget_SystemString__SystemVoid"

/-- Calls a method of an object after some seconds. -/
def sendDelayedSeconds : String :=
  "Behaviour.__SendCustomEventDelayedSeconds__SystemString_SystemSingle__SystemVoid"

/-- Calls a method of an object after some frames. -/
def sendDelayedFrames : String :=
  "Behaviour.__SendCustomEventDelayedFrames__SystemString_SystemInt32__SystemVoid"

def requestSerialization : String := "Behaviour.__RequestSerialization__SystemVoid"

def objectEquals : String := "SystemObject.__Equals__SystemObject__SystemBoolean"

def boolNot : String := "SystemBoolean.__op_UnaryNegation__SystemBoolean__SystemBoolean"

def intAdd : String := "SystemInt32.__op_Addition__SystemInt32_SystemInt32__SystemInt32"

def intLess : String := "SystemInt32.__op_LessThan__SystemInt32_SystemInt32__SystemBoolean"

def intRemainder : String := "SystemInt32.__op_Remainder__SystemInt32_SystemInt32__SystemInt32"

def intEquals : String := "SystemInt32.__op_Equality__SystemInt32_SystemInt32__SystemBoolean"

end Signature

/-- A function of the machine that makes a program a networked one if its target is this object. -/
structure NetworkCall where
  signature : String
  /-- The number of operands. -/
  operands : Nat
  /-- The position of the target among the operands. -/
  target : Nat
deriving DecidableEq

/-- The functions that make a program a networked one. -/
def networkCalls : List NetworkCall := [
  ⟨Signature.isOwner, 3, 1⟩,
  ⟨Signature.setOwner, 2, 1⟩,
  ⟨Signature.getOwner, 2, 0⟩,
  ⟨Signature.sendNetworkEvent, 3, 0⟩]

namespace Manifest

private def input (name : String) (type : VarType) : ParamSpec := { name, type }

private def output (name : String) (type : VarType) : ParamSpec := { name, type, output := true }

private def invocation (id signature : String) (params : List ParamSpec) : PrimitiveDef :=
  { id, op := .invoke signature, params }

private def block (id : String) (kind : BlockKind) (params : List ParamSpec) : PrimitiveDef :=
  { id, op := .openBlock kind, params }

def builtinActions : List PrimitiveDef := [
  { id := "assign", op := .assign, params := [input "source" .object, output "target" .object] },
  block "if" .cond [input "condition" .bool],
  block "else_if" .elseCond [input "condition" .bool],
  block "else" .otherwise [],
  block "while" .whileLoop [input "condition" .bool],
  block "for" .forLoop [
    input "start" .int,
    input "end" .int,
    { name := "step", type := .int, default := some (.int 1) },
    output "index" .int],
  block "block" .plain [],
  { id := "end", op := .closeBlock },
  { id := "break", op := .exitLoop },
  { id := "continue", op := .nextIteration },
  invocation "debug_log" "Debug.__Log__SystemObject__SystemVoid" [input "message" .object],
  { invocation "log_message" "Debug.__Log__SystemObject__SystemVoid" [input "message" .object] with
    deprecated := some "use 'debug_log'" },
  { invocation "set_active" "GameObject.__SetActive__SystemBoolean__SystemVoid"
      [input "target" .gameObject, input "active" .bool] with
    repeatableFirst := true },
  invocation "set_owner" Signature.setOwner [input "player" .player, input "target" .gameObject],
  invocation "is_owner" Signature.isOwner
    [input "player" .player, input "target" .gameObject, output "result" .bool],
  invocation "get_owner" Signature.getOwner [input "target" .gameObject, output "owner" .player],
  invocation "add_int" Signature.intAdd [input "a" .int, input "b" .int, output "result" .int],
  invocation "equals_int" Signature.intEquals
    [input "a" .int, input "b" .int, output "result" .bool],
  invocation "not" Signature.boolNot [input "value" .bool, output "result" .bool],
  invocation "send_custom_event" "UdonBehaviour.__SendCustomEvent__SystemString__SystemVoid"
    [input "target" .object, input "event" .string],
  invocation "teleport_player" "PlayerApi.__TeleportTo__Vector3__SystemVoid"
    [input "player" .player, input "position" .vector3]]

private def playerEvent (name method storage : String) : EventDef :=
  { name, method, params := [⟨"player", .player, storage⟩] }

def builtinEvents : List EventDef := [
  { name := "Start", method := "_start" },
  { name := "Update", method := "_update" },
  { name := "Interact", method := "_interact" },
  playerEvent "PlayerJoined" "_onPlayerJoined" "onPlayerJoinedPlayer",
  playerEvent "PlayerLeft" "_onPlayerLeft" "onPlayerLeftPlayer",
  playerEvent "OwnershipTransferred" "_onOwnershipTransferred" "onOwnershipTransferredPlayer",
  { name := "Deserialization", method := "_onDeserialization" },
  { name := "PreSerialization", method := "_onPreSerialization" },
  playerEvent "PlayerTriggerEnter" "_onPlayerTriggerEnter" "onPlayerTriggerEnterPlayer"]

def builtin : Manifest where
  name := "builtin"
  version := "0.1.0"
  description := "primitive actions and events available to every program"
  actions := builtinActions
  events := builtinEvents

end Manifest

end TriggerCompiler
