import TriggerCompiler.Json.Token

/-! Reading JSON text. The tokens of the text are taken one after the other by a machine with a stack:
one frame for every array or object that is still open, and a note of what may come next. Nesting is
limited to 127 levels. -/

namespace TriggerCompiler.Json

namespace Reader

/-- An array or object that is still open, with its parts so far, the last one first. -/
inductive Frame where
  | array (items : List Json)
  | object (members : List (String × Json))
  /-- An object whose next value belongs to a key that has been read. -/
  | member (members : List (String × Json)) (key : String)

/-- What may come next. -/
inductive Expected where
  | value
  | itemOrEnd
  | keyOrEnd
  | key
  | colon
  | separator
  | nothing (result : Json)

/-- The open frames, innermost first, and what may come next. -/
structure State where
  stack : List Frame
  expected : Expected

def start : State := ⟨[], .value⟩

def place (value : Json) : List Frame → Option State
  | [] => some ⟨[], .nothing value⟩
  | .array items :: stack => some ⟨.array (value :: items) :: stack, .separator⟩
  | .member members key :: stack => some ⟨.object ((key, value) :: members) :: stack, .separator⟩
  | .object _ :: _ => none

def enter (stack : List Frame) (frame : Frame) (expected : Expected) : Option State :=
  if stack.length < 127 then some ⟨frame :: stack, expected⟩ else none

def beginValue (stack : List Frame) : Token → Option State
  | .text s => place (str s) stack
  | .scalar value => place value stack
  | .openBracket => enter stack (.array []) .itemOrEnd
  | .openBrace => enter stack (.object []) .keyOrEnd
  | _ => none

def closeArray : List Frame → Option State
  | .array items :: stack => place (arr items.reverse) stack
  | _ => none

def closeObject : List Frame → Option State
  | .object members :: stack => place (obj members.reverse) stack
  | _ => none

def beginMember (key : String) : List Frame → Option State
  | .object members :: stack => some ⟨.member members key :: stack, .colon⟩
  | _ => none

def step (state : State) (token : Token) : Option State :=
  match state.expected, token with
  | .itemOrEnd, .closeBracket => closeArray state.stack
  | .separator, .closeBracket => closeArray state.stack
  | .keyOrEnd, .closeBrace => closeObject state.stack
  | .separator, .closeBrace => closeObject state.stack
  | .value, token => beginValue state.stack token
  | .itemOrEnd, token => beginValue state.stack token
  | .keyOrEnd, .text key => beginMember key state.stack
  | .key, .text key => beginMember key state.stack
  | .colon, .colon => some ⟨state.stack, .value⟩
  | .separator, .comma =>
      match state.stack with
      | .array _ :: _ => some ⟨state.stack, .value⟩
      | .object _ :: _ => some ⟨state.stack, .key⟩
      | _ => none
  | _, _ => none

def finish (state : State) : Option Json :=
  match state.expected with
  | .nothing result => some result
  | _ => none

end Reader

def parse? (text : String) : Option Json := do
  let tokens ← Token.all? text.toList
  let final ← tokens.foldlM Reader.step Reader.start
  Reader.finish final

end TriggerCompiler.Json
