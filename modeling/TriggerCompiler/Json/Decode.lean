import TriggerCompiler.Json.Basic

/-! Reading data out of a JSON tree. Members with an unknown key are ignored; a known key may occur only
once. A member may be required, have a default that stands for its absence, or be nullable, in which
case its absence and `null` mean the same. -/

namespace TriggerCompiler.Json

def string? : Json → Option String
  | str s => some s
  | _ => none

def bool? : Json → Option Bool
  | bool b => some b
  | _ => none

def intBetween? (least greatest : Int) : Json → Option Int
  | int n => if least ≤ n ∧ n ≤ greatest then some n else none
  | _ => none

def int32? (j : Json) : Option Int32 := (j.intBetween? (-2 ^ 31) (2 ^ 31 - 1)).map Int32.ofInt

def uint32? (j : Json) : Option UInt32 :=
  (j.intBetween? 0 (2 ^ 32 - 1)).map fun n => UInt32.ofNat n.toNat

def byte? (j : Json) : Option UInt8 := (j.intBetween? 0 255).map fun n => UInt8.ofNat n.toNat

/-- An index: an unsigned integer of 64 bits. -/
def index? (j : Json) : Option Nat := (j.intBetween? 0 (2 ^ 64 - 1)).map Int.toNat

/-- A single-precision number; an integer is rounded to one. -/
def single? : Json → Option Single
  | int n => some (Single.ofInt n)
  | real x => some x
  | _ => none

def list? {α : Type} (read : Json → Option α) : Json → Option (List α)
  | arr items => items.mapM read
  | _ => none

/-- A value that may be `null`. -/
def nullable? {α : Type} (read : Json → Option α) : Json → Option (Option α)
  | null => some none
  | j => (read j).map some

/-- A name out of a fixed list. It is written as a string, or as an object with the name as its only
key and the value `null`. -/
def name? : Json → Option String
  | str s => some s
  | obj [(key, null)] => some key
  | _ => none

/-- The members of an object in which each known key occurs at most once. -/
def members? (known : List String) : Json → Option (List (String × Json))
  | obj members =>
      if known.all fun key => (members.filter (·.1 = key)).length ≤ 1 then some members else none
  | _ => none

end TriggerCompiler.Json

namespace TriggerCompiler

abbrev Members := List (String × Json)

namespace Members

def get? (m : Members) (key : String) : Option Json := (m.find? (·.1 = key)).map Prod.snd

/-- A member that must be there. -/
def required {α : Type} (m : Members) (key : String) (read : Json → Option α) : Option α :=
  (m.get? key).bind read

/-- A member with a default for its absence. -/
def optional {α : Type} (m : Members) (key : String) (read : Json → Option α) (default : α) :
    Option α :=
  match m.get? key with
  | some j => read j
  | none => some default

/-- A member that may be absent or `null`. -/
def nullable {α : Type} (m : Members) (key : String) (read : Json → Option α) : Option (Option α) :=
  m.optional key (Json.nullable? read) none

end Members

end TriggerCompiler
