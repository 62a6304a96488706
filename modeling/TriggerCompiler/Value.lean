import TriggerCompiler.Guid
import TriggerCompiler.Text.Quoted

/-! The types and values of heap variables. -/

namespace TriggerCompiler

inductive VarType where
  | bool
  | int
  | uint
  | float
  | string
  | vector3
  | object
  | gameObject
  | player
  /-- A type that is known only by its name. -/
  | other (name : String)
deriving DecidableEq, Inhabited

/-- A value of a heap variable. Three kinds are made by the compiler: `this` is the object that owns
the program, `label` becomes the address of a label, and `method` names a method that the machine may
call by name. -/
inductive Value where
  | null
  | bool (value : Bool)
  | int (value : Int32)
  | uint (value : UInt32)
  | float (value : Single)
  | str (value : String)
  | vector3 (x y z : Single)
  | this
  | label (name : String)
  | method (name : String)
deriving DecidableEq, Inhabited

namespace VarType

/-- The name of the type in assembly. -/
def machineName : VarType → String
  | bool => "SystemBoolean"
  | int => "SystemInt32"
  | uint => "SystemUInt32"
  | float => "SystemSingle"
  | string => "SystemString"
  | vector3 => "Vector3"
  | object => "SystemObject"
  | gameObject => "GameObject"
  | player => "PlayerApi"
  | other name => name

/-- Whether variables of the type can be replicated over the network. -/
def isSyncable : VarType → Bool
  | bool | int | uint | float | string | vector3 => true
  | _ => false

/-- The value of a variable of the type that is given no other. -/
def defaultValue : VarType → Value
  | bool => .bool false
  | int => .int 0
  | uint => .uint 0
  | float => .float .zero
  | vector3 => .vector3 .zero .zero .zero
  | _ => .null

def toJson : VarType → Json
  | bool => .str "bool"
  | int => .str "int"
  | uint => .str "u_int"
  | float => .str "float"
  | string => .str "string"
  | vector3 => .str "vector3"
  | object => .str "object"
  | gameObject => .str "game_object"
  | player => .str "player"
  | other name => .obj [("other", .str name)]

private def ofName? : String → Option VarType
  | "bool" => some bool
  | "int" => some int
  | "u_int" => some uint
  | "float" => some float
  | "string" => some string
  | "vector3" => some vector3
  | "object" => some object
  | "game_object" => some gameObject
  | "player" => some player
  | _ => none

def ofJson? : Json → Option VarType
  | .obj [("other", j)] => j.string?.map other
  | j => j.name?.bind ofName?

end VarType

namespace Value

def text : Value → String
  | null => "null"
  | bool b => if b then "true" else "false"
  | int n => toString n.toInt
  | uint n => Text.addressText n
  | float x => x.text
  | str s => Text.quote s
  | method s => Text.quote s
  | vector3 x y z => "(" ++ x.text ++ ", " ++ y.text ++ ", " ++ z.text ++ ")"
  | this => "this"
  | label name => "&" ++ name

/-- A text that tells the values of all kinds apart. -/
def describe : Value → String
  | null => "Null"
  | bool b => "Bool(" ++ (if b then "true" else "false") ++ ")"
  | int n => "Int(" ++ toString n.toInt ++ ")"
  | uint n => "UInt(" ++ toString n.toNat ++ ")"
  | float x => "Float(" ++ x.text ++ ")"
  | str s => "Str(" ++ Text.quote s ++ ")"
  | vector3 x y z => "Vector3([" ++ x.text ++ ", " ++ y.text ++ ", " ++ z.text ++ "])"
  | this => "This"
  | label name => "Label(" ++ Text.quote name ++ ")"
  | method name => "Method(" ++ Text.quote name ++ ")"

/-- The key under which a constant of a type is pooled. -/
def poolKey (v : Value) (type : VarType) : String := type.machineName ++ "|" ++ v.describe

/-- The type of a value where nothing else gives one. -/
def naturalType : Value → VarType
  | bool _ => .bool
  | int _ => .int
  | uint _ => .uint
  | label _ => .uint
  | float _ => .float
  | str _ => .string
  | method _ => .string
  | vector3 .. => .vector3
  | this => .gameObject
  | null => .object

private def tagged (kind : String) (value : Json) : Json :=
  .obj [("kind", .str kind), ("value", value)]

def toJson : Value → Json
  | null => .obj [("kind", .str "null")]
  | bool b => tagged "bool" (.bool b)
  | int n => tagged "int" (.int n.toInt)
  | uint n => tagged "u_int" (.nat n.toNat)
  | float x => tagged "float" (.ofSingle x)
  | str s => tagged "str" (.str s)
  | vector3 x y z => tagged "vector3" (.arr [.ofSingle x, .ofSingle y, .ofSingle z])
  | this => .obj [("kind", .str "this")]
  | label name => tagged "label" (.str name)
  | method name => tagged "method" (.str name)

private def vectorOfJson? : Json → Option Value
  | .arr [x, y, z] => do return vector3 (← x.single?) (← y.single?) (← z.single?)
  | _ => none

def ofJson? (j : Json) : Option Value := do
  let m : Members ← j.members? ["kind", "value"]
  match ← m.required "kind" Json.string? with
  | "null" => if (← m.nullable "value" some).isNone then some null else none
  | "bool" => (← m.get? "value").bool?.map bool
  | "int" => (← m.get? "value").int32?.map int
  | "u_int" => (← m.get? "value").uint32?.map uint
  | "float" => (← m.get? "value").single?.map float
  | "str" => (← m.get? "value").string?.map str
  | "vector3" => vectorOfJson? (← m.get? "value")
  | "this" => if (← m.nullable "value" some).isNone then some this else none
  | "label" => (← m.get? "value").string?.map label
  | "method" => (← m.get? "value").string?.map method
  | _ => none

end Value

end TriggerCompiler
