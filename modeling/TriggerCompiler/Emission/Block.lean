import TriggerCompiler.Catalogue.Manifest
import TriggerCompiler.Failure
import TriggerCompiler.Machine.SymbolTable

/-! The blocks that are open while the actions of an event are compiled. The bottom frame holds the
parameters of the event; each further frame is a block. A frame owns the variables that are declared
directly inside it, and closing it ends their visibility. -/

namespace TriggerCompiler

inductive FrameKind where
  /-- The parameters of the event. -/
  | parameters
  | block (kind : BlockKind)
deriving DecidableEq

/-- The variables that a `for` block needs at its end. -/
structure ForLoop where
  index : String
  step : String
deriving DecidableEq

structure BlockFrame where
  kind : FrameKind
  openedAt : Option Location := none
  /-- The variables declared in the block. -/
  owned : List VarId := []
  /-- Where the next branch of a conditional starts. -/
  nextLabel : Option String := none
  /-- Where the whole construct ends. -/
  exitLabel : Option String := none
  /-- Where a loop starts over. -/
  startLabel : Option String := none
  continueLabel : Option String := none
  forLoop : Option ForLoop := none
deriving DecidableEq

/-- The block that was closed last, if only an action that continues it may follow. -/
structure ClosedBlock where
  kind : BlockKind
  closedAt : Location
  /-- The end of a conditional, not yet placed. -/
  pendingExit : Option String
deriving DecidableEq

/-- The open blocks, innermost first, and the block that was closed last. -/
structure BlockStack where
  frames : List BlockFrame := []
  previous : Option ClosedBlock := none
deriving DecidableEq, Inhabited

namespace BlockFrame

def ofBlock (kind : BlockKind) (location : Location) : BlockFrame :=
  { kind := .block kind, openedAt := some location }

def ofParameters (owned : List VarId) : BlockFrame := { kind := .parameters, owned }

def isLoop (f : BlockFrame) : Bool :=
  match f.kind with
  | .parameters => false
  | .block kind => kind.isLoop

end BlockFrame

def SymbolTable.unbindAll (t : SymbolTable) (ids : List VarId) : SymbolTable :=
  ids.foldl SymbolTable.unbind t

namespace BlockStack

def ofParameters (params : List VarId) : BlockStack := { frames := [.ofParameters params] }

def push (s : BlockStack) (frame : BlockFrame) : BlockStack := { frames := frame :: s.frames }

/-- Closes the innermost block and ends the visibility of its variables. -/
def pop (s : BlockStack) (location : Location) (t : SymbolTable) :
    Except Failure (BlockFrame × BlockStack × SymbolTable) :=
  match s.frames with
  | frame :: below :: rest =>
      .ok (frame, { s with frames := below :: rest }, t.unbindAll frame.owned)
  | _ => .error (.unbalancedScope location)

def top? (s : BlockStack) : Option BlockFrame := s.frames.head?

def modifyTop (s : BlockStack) (f : BlockFrame → BlockFrame) : BlockStack :=
  match s.frames with
  | frame :: rest => { s with frames := f frame :: rest }
  | [] => s

def own (s : BlockStack) (id : VarId) : BlockStack :=
  s.modifyTop fun frame => { frame with owned := frame.owned ++ [id] }

def innermostLoop? (s : BlockStack) : Option BlockFrame := s.frames.find? BlockFrame.isLoop

def depth (s : BlockStack) : Nat := s.frames.length - 1

/-- Ends an event: all variables of its frames become invisible, and no block may be open. -/
def finish (s : BlockStack) (event : Nat) (t : SymbolTable) :
    Except Failure Unit × BlockStack × SymbolTable :=
  let result := if 0 < s.depth then .error (.unclosedScope event s.depth) else .ok ()
  (result, {}, t.unbindAll (s.frames.flatMap BlockFrame.owned))

end BlockStack

end TriggerCompiler
