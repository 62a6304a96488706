import TriggerCompiler.Json.Decode

/-! The chain of methods that an event is compiled to: the method that is called first, the wrappers
around the event, and the body. -/

namespace TriggerCompiler

/-- How one method of a chain reaches the next. -/
inductive LinkKind where
  /-- By a call. -/
  | call
  /-- By name, over the network. -/
  | broadcast
  /-- By a call, after counting the occurrence. -/
  | replay
  /-- By name, after a delay. -/
  | delay
deriving DecidableEq

/-- A step from one method to another. -/
structure ChainLink where
  source : String
  target : String
  kind : LinkKind
deriving DecidableEq

/-- The methods of an event, outermost first, and the steps between them. -/
structure EventChain where
  event : Nat
  methods : List String
  links : List ChainLink
deriving DecidableEq

namespace LinkKind

def toJson : LinkKind → Json
  | call => .str "call"
  | broadcast => .str "broadcast"
  | replay => .str "replay"
  | delay => .str "delay"

private def ofLinkName? : String → Option LinkKind
  | "call" => some call
  | "broadcast" => some broadcast
  | "replay" => some replay
  | "delay" => some delay
  | _ => none

def ofJson? (j : Json) : Option LinkKind := j.name?.bind ofLinkName?

end LinkKind

namespace ChainLink

def toJson (l : ChainLink) : Json := .obj [
  ("from", .str l.source),
  ("to", .str l.target),
  ("kind", l.kind.toJson)]

def ofJson? (j : Json) : Option ChainLink := do
  let m : Members ← j.members? ["from", "to", "kind"]
  return {
    source := ← m.required "from" Json.string?
    target := ← m.required "to" Json.string?
    kind := ← m.required "kind" LinkKind.ofJson? }

end ChainLink

namespace EventChain

/-- The method that is called first. -/
def base? (c : EventChain) : Option String := c.methods.head?

/-- The method that runs the actions. -/
def body? (c : EventChain) : Option String := c.methods.getLast?

def count (c : EventChain) (kind : LinkKind) : Nat := (c.links.filter (·.kind = kind)).length

/-- The method that the first step from a method leads to. -/
def next? (c : EventChain) (method : String) : Option String :=
  (c.links.find? (·.source = method)).map ChainLink.target

/-- Whether a method is reached from another one in at most a number of steps. -/
def reachesWithin (c : EventChain) (target : String) : Nat → String → Bool
  | 0, current => current = target
  | steps + 1, current =>
      current = target ||
        match c.next? current with
        | some next => c.reachesWithin target steps next
        | none => false

/-- Whether a method is reached from another one. A path that repeats no method has at most as many
steps as the chain has links. -/
def reaches (c : EventChain) (source target : String) : Bool :=
  c.reachesWithin target c.links.length source

def toJson (c : EventChain) : Json := .obj [
  ("event_index", .nat c.event),
  ("methods", .ofStrings c.methods),
  ("links", .arr (c.links.map ChainLink.toJson))]

def ofJson? (j : Json) : Option EventChain := do
  let m : Members ← j.members? ["event_index", "methods", "links"]
  return {
    event := ← m.required "event_index" Json.index?
    methods := ← m.required "methods" (Json.list? Json.string?)
    links := ← m.required "links" (Json.list? ChainLink.ofJson?) }

end EventChain

end TriggerCompiler
