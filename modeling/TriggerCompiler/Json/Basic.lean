import TriggerCompiler.Number.Single

/-! JSON trees. The members of an object stand in the order of the text and may repeat a key; a reader
of data decides what a repetition means. A number is an integer, if it is written as one and fits in
64 bits, or else a single-precision number. -/

namespace TriggerCompiler

inductive Json where
  | null
  | bool (value : Bool)
  | int (value : Int)
  | real (value : Single)
  | str (value : String)
  | arr (items : List Json)
  | obj (members : List (String × Json))
deriving Inhabited

namespace Json

/-- A single-precision number as JSON: `null` if it is infinite. -/
def ofSingle (x : Single) : Json := if x.isFinite then real x else null

/-- A value that may be absent, with `null` for its absence. -/
def ofOption {α : Type} (f : α → Json) : Option α → Json
  | some a => f a
  | none => null

def ofStrings (items : List String) : Json := arr (items.map str)

def nat (n : Nat) : Json := int n

/-- The members of an object without repetition: the last value of a key, at its first place. -/
def lastOfEach (members : List (String × Json)) : List (String × Json) :=
  members.foldl
    (fun kept m =>
      if kept.any (·.1 = m.1) then kept.map fun k => if k.1 = m.1 then m else k else kept ++ [m])
    []

mutual

/-- The tree in which no object repeats a key: the last value of each key counts. -/
def withoutRepetition : Json → Json
  | null => null
  | bool b => bool b
  | int n => int n
  | real x => real x
  | str s => str s
  | arr items => arr (withoutRepetitionItems items)
  | obj members => obj (lastOfEach (withoutRepetitionMembers members))

def withoutRepetitionItems : List Json → List Json
  | [] => []
  | j :: rest => withoutRepetition j :: withoutRepetitionItems rest

def withoutRepetitionMembers : List (String × Json) → List (String × Json)
  | [] => []
  | (k, j) :: rest => (k, withoutRepetition j) :: withoutRepetitionMembers rest

end

end Json

end TriggerCompiler
