import TriggerCompiler.SortedMap

/-! The order in which the programs of a batch can be built. A walk along the dependencies finds the
cycles. A program on a cycle, and a program that depends on one, is blocked, with a cycle that it
reaches. The others are grouped into levels, so that a program depends only on programs of earlier
levels. Dependencies on programs outside the batch are left out of account. -/

namespace TriggerCompiler

/-- Programs and the programs they depend on, both in ascending order. -/
abbrev DependencyGraph := SortedMap (List String)

/-- Levels of programs to build one after the other, and the programs that cannot be built. -/
structure BuildOrder where
  levels : List (List String)
  /-- The blocked programs, each with a cycle that it reaches. -/
  blocked : SortedMap (List String)

namespace DependencyGraph

/-- The graph of a list of programs and their dependencies in any order. -/
def ofList (entries : List (String × List String)) : DependencyGraph :=
  SortedMap.ofList (entries.map fun e => (e.1, e.2.eraseDups.mergeSort (· ≤ ·)))

def inside (g : DependencyGraph) (key : String) : List String :=
  ((g.get? key).getD []).filter g.contains

/-- The state of a walk along the dependencies. -/
structure Walk where
  /-- The programs between the start and the current place, innermost first. -/
  path : List String := []
  /-- The programs that have been left for good. -/
  done : List String := []
  /-- The cycles in the order in which they were closed. -/
  cycles : List (List String) := []

/-- The cycle that a dependency on a program of the path closes. -/
def closeCycle (path : List String) (key : String) : List String :=
  key :: ((path.takeWhile (· ≠ key)).reverse ++ [key])

/-- Visits a program and, from there, every program that has not been visited. The number bounds the
length of the path; a path repeats no program, so the number of programs is enough. -/
def visit (g : DependencyGraph) : Nat → Walk → String → Walk
  | 0, w, _ => w
  | bound + 1, w, key =>
      let entered : Walk := { w with path := key :: w.path }
      let left := (g.inside key).foldl
        (fun (w : Walk) next =>
          if next ∈ w.path then { w with cycles := w.cycles ++ [closeCycle w.path next] }
          else if next ∈ w.done then w
          else visit g bound w next)
        entered
      { left with path := w.path, done := key :: left.done }

/-- The cycles that a walk from every program closes. -/
def cycles (g : DependencyGraph) : List (List String) :=
  let walk := g.keys.foldl
    (fun (w : Walk) key => if key ∈ w.done then w else visit g g.size w key) {}
  walk.cycles

/-- The programs on cycles, each with the first cycle it is on. -/
def onCycles (g : DependencyGraph) : SortedMap (List String) :=
  g.cycles.foldl (fun blocked cycle => cycle.foldl (·.insertNew · cycle) blocked) .empty

/-- Lets a program inherit the cycle of its first blocked dependency. -/
def inherit (g : DependencyGraph) (blocked : SortedMap (List String)) (key : String) :
    SortedMap (List String) :=
  match (g.inside key).findSome? blocked.get? with
  | some cycle => blocked.insertNew key cycle
  | none => blocked

/-- Blocks the dependants of blocked programs, pass after pass until a pass changes nothing. Every other
pass blocks a program, so the number of programs bounds the number of passes. -/
def spread (g : DependencyGraph) : Nat → SortedMap (List String) → SortedMap (List String)
  | 0, blocked => blocked
  | bound + 1, blocked =>
      let next := g.keys.foldl g.inherit blocked
      if next.size = blocked.size then blocked else g.spread bound next

/-- Whether all dependencies of a program have been placed in a level. -/
def isReady (g : DependencyGraph) (placed : List String) (key : String) : Bool :=
  (g.inside key).all (· ∈ placed)

def ready (g : DependencyGraph) (placed remaining : List String) : List String :=
  remaining.filter (g.isReady placed)

def waiting (g : DependencyGraph) (placed remaining : List String) : List String :=
  remaining.filter fun key => !g.isReady placed key

theorem length_waiting_lt {g : DependencyGraph} {placed remaining : List String}
    (h : g.ready placed remaining ≠ []) :
    (g.waiting placed remaining).length < remaining.length := by
  obtain ⟨key, hkey⟩ := List.exists_mem_of_ne_nil _ h
  obtain ⟨hmem, hready⟩ := List.mem_filter.mp hkey
  exact List.length_filter_lt_length_iff_exists.mpr ⟨key, hmem, by simp [hready]⟩

/-- The levels of the remaining programs, and the programs left over when none of them is ready. -/
def levels (g : DependencyGraph) (placed remaining : List String) :
    List (List String) × List String :=
  if _h : g.ready placed remaining ≠ [] then
    let level := g.ready placed remaining
    let (rest, stuck) := g.levels (placed ++ level) (g.waiting placed remaining)
    (level :: rest, stuck)
  else ([], remaining)
termination_by remaining.length
decreasing_by exact length_waiting_lt _h

def buildOrder (g : DependencyGraph) : BuildOrder :=
  let blocked := g.spread g.size g.onCycles
  let (levels, stuck) := g.levels [] (g.keys.filter fun key => !blocked.contains key)
  { levels, blocked := stuck.foldl (fun b key => b.insert key [key]) blocked }

end DependencyGraph

end TriggerCompiler
