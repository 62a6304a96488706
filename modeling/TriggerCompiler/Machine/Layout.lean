import TriggerCompiler.Machine.Method

/-! The layout of code in memory. Methods stand one behind the other; the name of a method and the labels
inside it denote the address of the next instruction. Once every label has its address, the jumps are
filled in from the first instruction to the last, up to the first one whose label is unknown. -/

namespace TriggerCompiler

/-- The labels with their addresses, in the order of the layout. -/
abbrev AddressMap := List (String × UInt32)

namespace Layout

def codeLabels (start : Nat) : List Instruction → List (String × Nat)
  | [] => []
  | i :: rest =>
      let tail := codeLabels (start + i.size) rest
      match i.placedLabel? with
      | some l => (l, start) :: tail
      | none => tail

def methodLabels (start : Nat) : List Method → List (String × Nat)
  | [] => []
  | m :: rest => (m.name, start) :: codeLabels start m.code ++ methodLabels (start + m.size) rest

/-- The first name of a list that stands in it before already. -/
def firstRepeated (seen : List String) : List String → Option String
  | [] => none
  | s :: rest => if s ∈ seen then some s else firstRepeated (s :: seen) rest

/-- The address of every label, if no label is defined twice. -/
def addresses (methods : List Method) : Except Failure AddressMap :=
  let labels := methodLabels 0 methods
  match firstRepeated [] (labels.map Prod.fst) with
  | some l => .error (.duplicateLabel l)
  | none => .ok (labels.map fun e => (e.1, UInt32.ofNat e.2))

/-- Fills in jump targets up to the first unknown label, which is returned. -/
def resolveCode (known : AddressMap) : List Instruction → List Instruction × Option String
  | [] => ([], none)
  | i :: rest =>
      match i.targetLabel? with
      | none => let r := resolveCode known rest; (i :: r.1, r.2)
      | some l =>
          match known.lookup l with
          | some a => let r := resolveCode known rest; (i.withAddress a :: r.1, r.2)
          | none => (i :: rest, some l)

end Layout

namespace MethodTable

def resolveJumps (known : AddressMap) : List String → Attempt MethodTable Unit
  | [] => pure ()
  | name :: rest => do
      let body := ((← get).bodies.get? name).getD {}
      let resolved := Layout.resolveCode known body.code
      modify fun t => t.update name fun b => { b with code := resolved.1 }
      match resolved.2 with
      | some l => throw (.unresolvedLabel l)
      | none => resolveJumps known rest

/-- Gives every label its address and fills in the jumps. -/
def resolveAddresses : Attempt MethodTable AddressMap := do
  let t ← get
  let known ← liftExcept (Layout.addresses t.toList)
  resolveJumps known t.names
  return known
where
  /-- A result that does not touch the table. -/
  liftExcept {α : Type} : Except Failure α → Attempt MethodTable α
    | .ok a => pure a
    | .error e => throw e

end MethodTable

end TriggerCompiler
