import Mathlib.Logic.Function.Basic
import TriggerCompiler.Catalogue.Basic
import TriggerCompiler.Machine.Instruction
import TriggerCompiler.Trigger.Action

/-! The blocks of an event and the flat code that they are compiled to. A list of actions in which every
block is closed is a tree; its big-step reading takes the first true branch of a conditional, tests a
loop before each round, and lets `break` and `continue` leave the blocks inside the innermost loop. Flat
code is run by a machine that knows pushes, copies, jumps, labels and two functions on integers, and
that runs the code of any other action as a whole. Flat code with the shape of a tree runs as the tree
does: it ends if and only if the tree does, after the same actions on the same heaps. -/

namespace TriggerCompiler

/-- The actions of an event, or of a block, with the blocks among them as subtrees. -/
inductive ActionTree where
  | nil
  /-- An action that leaves the order of the actions alone. -/
  | leaf (action : ActionInstance) (rest : ActionTree)
  | exitLoop (action : ActionInstance) (rest : ActionTree)
  | nextIteration (action : ActionInstance) (rest : ActionTree)
  | nest (kind : BlockKind) (head : ActionInstance) (body : ActionTree) (last : ActionInstance)
      (rest : ActionTree)

namespace ActionTree

/-- The actions in their order. -/
def actions : ActionTree → List ActionInstance
  | nil => []
  | leaf action rest => action :: rest.actions
  | exitLoop action rest => action :: rest.actions
  | nextIteration action rest => action :: rest.actions
  | nest _ head body last rest => head :: (body.actions ++ last :: rest.actions)

/-- The position behind a block that starts at a position. -/
def behind (i : Nat) (body : ActionTree) : Nat := i + 1 + body.actions.length + 1

end ActionTree

variable {inner rest' tail : List Item} {a b exit r : String} {k : Nat}

namespace ControlFlow

/-- The values of the variables. -/
abbrev Heap (V : Type) := String → V

/-- The actions that have been run, each with the heap that it found. -/
abbrev Trace (V : Type) := List (Nat × Heap V)

/-- What a run depends on: which values are true, what the functions on integers compute, and what the
code of the action at a position does to the heap. -/
structure Interpretation (V : Type) where
  isTrue : V → Bool
  less : V → V → V
  add : V → V → V
  act : Nat → Heap V → Heap V

/-- How a block is left. -/
inductive Outcome where
  | normal
  | broke
  | continued
deriving DecidableEq

section Structured

variable {V : Type}

/-- One thing after the other; the second is left out if the first does not end normally. -/
def Then (first : Trace V → Heap V → Outcome → Prop)
    (second : Heap V → Trace V → Heap V → Outcome → Prop)
    (trace : Trace V) (final : Heap V) (outcome : Outcome) : Prop :=
  (first trace final outcome ∧ outcome ≠ .normal) ∨
    ∃ trace₁ mid trace₂, trace = trace₁ ++ trace₂ ∧ first trace₁ mid .normal ∧
      second mid trace₂ final outcome

/-- The rounds of a loop. The test may write to the heap, and a step ends each round. -/
inductive Rounds (test : Heap V → Heap V × Bool) (body : Heap V → Trace V → Heap V → Outcome → Prop)
    (step : Heap V → Heap V) : Heap V → Trace V → Heap V → Prop
  | done {heap : Heap V} (htest : (test heap).2 = false) :
      Rounds test body step heap [] (test heap).1
  | broke {heap final : Heap V} {trace : Trace V} (htest : (test heap).2 = true)
      (hbody : body (test heap).1 trace final .broke) : Rounds test body step heap trace final
  | again {heap mid final : Heap V} {trace trace' : Trace V} {outcome : Outcome}
      (htest : (test heap).2 = true) (hbody : body (test heap).1 trace mid outcome)
      (houtcome : outcome ≠ .broke) (hrest : Rounds test body step (step mid) trace' final) :
      Rounds test body step heap (trace ++ trace') final

variable (M : Interpretation V) (slots : Nat → Nat → String)

/-- The test of a `while` block reads its condition. -/
def whileTest (i : Nat) (heap : Heap V) : Heap V × Bool := (heap, M.isTrue (heap (slots i 0)))

/-- A `for` block starts by copying the start to the index. -/
def forInit (i : Nat) (heap : Heap V) : Heap V :=
  Function.update heap (slots i 3) (heap (slots i 0))

/-- The test of a `for` block compares the index with the end, by way of a temporary. -/
def forTest (i : Nat) (heap : Heap V) : Heap V × Bool :=
  let heap := Function.update heap (slots i 4) (M.less (heap (slots i 3)) (heap (slots i 1)))
  (heap, M.isTrue (heap (slots i 4)))

/-- A `for` block ends each round by adding the step to the index. -/
def forStep (i : Nat) (heap : Heap V) : Heap V :=
  Function.update heap (slots i 3) (M.add (heap (slots i 3)) (heap (slots i 2)))

/-- The big-step reading of a tree whose first action has a position. The slots of an action are given by
its position; a `for` block has a fifth one for its test. The truth value says whether a branch of the
conditional that the tree continues has been taken. -/
def Exec : Nat → ActionTree → Bool → Heap V → Trace V → Heap V → Outcome → Prop
  | _, .nil, _, heap, trace, final, outcome => trace = [] ∧ final = heap ∧ outcome = .normal
  | i, .leaf _ rest, _, heap, trace, final, outcome =>
      ∃ trace', trace = (i, heap) :: trace' ∧ Exec (i + 1) rest false (M.act i heap) trace' final outcome
  | _, .exitLoop _ _, _, heap, trace, final, outcome =>
      trace = [] ∧ final = heap ∧ outcome = .broke
  | _, .nextIteration _ _, _, heap, trace, final, outcome =>
      trace = [] ∧ final = heap ∧ outcome = .continued
  | i, .nest kind _ body _ rest, taken, heap, trace, final, outcome =>
      let inside := Exec (i + 1) body false
      let after := Exec (body.behind i) rest
      match kind with
      | .plain => Then (inside heap) (after false) trace final outcome
      | .cond =>
          if M.isTrue (heap (slots i 0)) then Then (inside heap) (after true) trace final outcome
          else after false heap trace final outcome
      | .elseCond =>
          if taken then after true heap trace final outcome
          else if M.isTrue (heap (slots i 0)) then
            Then (inside heap) (after true) trace final outcome
          else after false heap trace final outcome
      | .otherwise =>
          if taken then after false heap trace final outcome
          else Then (inside heap) (after false) trace final outcome
      | .whileLoop =>
          Then (fun trace final outcome => outcome = .normal ∧
            Rounds (whileTest M slots i) inside id heap trace final) (after false) trace final outcome
      | .forLoop =>
          Then (fun trace final outcome => outcome = .normal ∧
            Rounds (forTest M slots i) inside (forStep M slots i) (forInit slots i heap) trace final)
            (after false) trace final outcome

end Structured

/-! ### Flat code -/

/-- A part of flat code: an instruction that belongs to a block, or all code of one action. -/
inductive Item where
  | instruction (i : Instruction)
  | leaf (position : Nat) (code : List Instruction)
deriving DecidableEq

namespace Item

/-- The instructions of a part. -/
def code : Item → List Instruction
  | instruction i => [i]
  | leaf _ code => code

/-- The label of a block that a part places. -/
def label? : Item → Option String
  | instruction i => i.placedLabel?
  | leaf _ _ => none

end Item

/-- The labels of blocks that flat code places. -/
def labels (items : List Item) : List String := items.filterMap Item.label?

/-- The code from a label on. -/
def target? (label : String) : List Item → Option (List Item)
  | [] => none
  | item :: rest => if item = .instruction (.label label) then some (item :: rest) else target? label rest

/-- A state of the machine: the code that is still to be run, the pushed variables with the last one
first, and the heap. -/
structure Config (V : Type) where
  rest : List Item
  stack : List String
  heap : Heap V

section Flat

variable {V : Type} (M : Interpretation V) (program : List Item)

/-- Goes on at a label. -/
def jump (label : String) (stack : List String) (heap : Heap V) : Option (Config V × Trace V) :=
  (target? label program).map fun rest => (⟨rest, stack, heap⟩, [])

/-- One step of the machine and the action that it runs, if any. -/
def step : Config V → Option (Config V × Trace V)
  | ⟨.leaf k _ :: rest, stack, heap⟩ => some (⟨rest, stack, M.act k heap⟩, [(k, heap)])
  | ⟨.instruction (.push s) :: rest, stack, heap⟩ => some (⟨rest, s :: stack, heap⟩, [])
  | ⟨.instruction (.label _) :: rest, stack, heap⟩ => some (⟨rest, stack, heap⟩, [])
  | ⟨.instruction .copy :: rest, target :: source :: stack, heap⟩ =>
      some (⟨rest, stack, Function.update heap target (heap source)⟩, [])
  | ⟨.instruction (.invoke signature) :: rest, result :: b :: a :: stack, heap⟩ =>
      if signature = Signature.intLess then
        some (⟨rest, stack, Function.update heap result (M.less (heap a) (heap b))⟩, [])
      else if signature = Signature.intAdd then
        some (⟨rest, stack, Function.update heap result (M.add (heap a) (heap b))⟩, [])
      else none
  | ⟨.instruction (.jump (.label l)) :: _, stack, heap⟩ => jump program l stack heap
  | ⟨.instruction (.jumpIfFalse (.label l)) :: rest, c :: stack, heap⟩ =>
      if M.isTrue (heap c) then some (⟨rest, stack, heap⟩, []) else jump program l stack heap
  | _ => none

/-- A run with a number of steps from a state to the end of the code, with the actions that it runs and
the heap that it leaves. -/
inductive Runs : Nat → Config V → Trace V → Heap V → Prop
  | ended (heap : Heap V) : Runs 0 ⟨[], [], heap⟩ [] heap
  | step {n : Nat} {c c' : Config V} {event trace : Trace V} {final : Heap V}
      (h : step M program c = some (c', event)) (hrest : Runs n c' trace final) :
      Runs (n + 1) c (event ++ trace) final

end Flat

section Steps

variable {V : Type} {M : Interpretation V} {program rest : List Item} {n : Nat} {trace : Trace V}
  {heap final : Heap V} {c c' : Config V} {stack : List String} {l s : String}

theorem runs_iff {event : Trace V} (h : step M program c = some (c', event)) :
    Runs M program n c trace final ↔
      ∃ m trace', n = m + 1 ∧ trace = event ++ trace' ∧ Runs M program m c' trace' final := by
  constructor
  · intro hruns
    cases hruns with
    | ended heap => cases h
    | step h' hrest =>
      rw [h] at h'
      cases h'
      exact ⟨_, _, rfl, rfl, hrest⟩
  · rintro ⟨m, trace', rfl, rfl, hrest⟩
    exact .step h hrest

/-- The machine has no choice. -/
theorem Runs.unique {n' : Nat} {trace' : Trace V} {final' : Heap V}
    (h : Runs M program n c trace final) (h' : Runs M program n' c trace' final') :
    trace = trace' ∧ final = final' := by
  induction h generalizing n' trace' final' with
  | ended heap =>
    cases h' with
    | ended => exact ⟨rfl, rfl⟩
    | step h' _ => cases h'
  | step hstep _ ih =>
    obtain ⟨m, trace'', -, rfl, hrest⟩ := (runs_iff hstep).mp h'
    obtain ⟨rfl, rfl⟩ := ih hrest
    exact ⟨rfl, rfl⟩

theorem runs_iff_of_silent (h : step M program c = some (c', [])) :
    Runs M program n c trace final ↔ ∃ m, n = m + 1 ∧ Runs M program m c' trace final := by
  rw [runs_iff h]
  simp

theorem runs_push : Runs M program n ⟨.instruction (.push s) :: rest, stack, heap⟩ trace final ↔
    ∃ m, n = m + 1 ∧ Runs M program m ⟨rest, s :: stack, heap⟩ trace final := runs_iff_of_silent rfl

theorem runs_label : Runs M program n ⟨.instruction (.label l) :: rest, stack, heap⟩ trace final ↔
    ∃ m, n = m + 1 ∧ Runs M program m ⟨rest, stack, heap⟩ trace final := runs_iff_of_silent rfl

theorem runs_leaf {code : List Instruction} :
    Runs M program n ⟨.leaf k code :: rest, stack, heap⟩ trace final ↔
      ∃ m trace', n = m + 1 ∧ trace = (k, heap) :: trace' ∧
        Runs M program m ⟨rest, stack, M.act k heap⟩ trace' final :=
  runs_iff (show step M program ⟨.leaf k code :: rest, stack, heap⟩ =
    some (⟨rest, stack, M.act k heap⟩, [(k, heap)]) from rfl)

theorem runs_jump (h : target? l program = some rest') :
    Runs M program n ⟨.instruction (.jumpTo l) :: rest, stack, heap⟩ trace final ↔
      ∃ m, n = m + 1 ∧ Runs M program m ⟨rest', stack, heap⟩ trace final := by
  refine runs_iff_of_silent ?_
  rw [Instruction.jumpTo, step, jump, h]
  rfl

/-- Pushing a variable and jumping if it is false. -/
theorem runs_branch (h : target? l program = some rest') :
    Runs M program n ⟨.instruction (.push s) :: .instruction (.jumpToIfFalse l) :: rest, stack, heap⟩
      trace final ↔
      ∃ m, n = m + 2 ∧ Runs M program m
        ⟨if M.isTrue (heap s) then rest else rest', stack, heap⟩ trace final := by
  have hstep : step M program ⟨.instruction (.jumpToIfFalse l) :: rest, s :: stack, heap⟩ =
      some (⟨if M.isTrue (heap s) then rest else rest', stack, heap⟩, []) := by
    rw [Instruction.jumpToIfFalse, step, jump, h]
    split <;> rfl
  rw [runs_push]
  simp only [runs_iff_of_silent hstep]
  constructor
  · rintro ⟨-, rfl, m, rfl, hrest⟩
    exact ⟨m, rfl, hrest⟩
  · rintro ⟨m, rfl, hrest⟩
    exact ⟨m + 1, rfl, m, rfl, hrest⟩

/-- Copying one variable to another. -/
theorem runs_copy :
    Runs M program n ⟨.instruction (.push a) :: .instruction (.push b) :: .instruction .copy :: rest,
      stack, heap⟩ trace final ↔
      ∃ m, n = m + 3 ∧
        Runs M program m ⟨rest, stack, Function.update heap b (heap a)⟩ trace final := by
  have hstep : step M program ⟨.instruction .copy :: rest, b :: a :: stack, heap⟩ =
      some (⟨rest, stack, Function.update heap b (heap a)⟩, []) := rfl
  simp only [runs_push, runs_iff_of_silent hstep]
  constructor
  · rintro ⟨-, rfl, -, rfl, m, rfl, hrest⟩
    exact ⟨m, rfl, hrest⟩
  · rintro ⟨m, rfl, hrest⟩
    exact ⟨m + 2, rfl, m + 1, rfl, m, rfl, hrest⟩

/-- Calling a function on two integers. -/
theorem runs_invoke {signature : String} {value : V}
    (h : step M program ⟨.instruction (.invoke signature) :: rest, r :: b :: a :: stack, heap⟩ =
      some (⟨rest, stack, Function.update heap r value⟩, [])) :
    Runs M program n ⟨.instruction (.push a) :: .instruction (.push b) :: .instruction (.push r) ::
      .instruction (.invoke signature) :: rest, stack, heap⟩ trace final ↔
      ∃ m, n = m + 4 ∧ Runs M program m ⟨rest, stack, Function.update heap r value⟩ trace final := by
  simp only [runs_push, runs_iff_of_silent h]
  constructor
  · rintro ⟨-, rfl, -, rfl, -, rfl, m, rfl, hrest⟩
    exact ⟨m, rfl, hrest⟩
  · rintro ⟨m, rfl, hrest⟩
    exact ⟨m + 3, rfl, m + 2, rfl, m + 1, rfl, m, rfl, hrest⟩

theorem step_less :
    step M program ⟨.instruction (.invoke Signature.intLess) :: rest, r :: b :: a :: stack, heap⟩ =
      some (⟨rest, stack, Function.update heap r (M.less (heap a) (heap b))⟩, []) := rfl

theorem step_add :
    step M program ⟨.instruction (.invoke Signature.intAdd) :: rest, r :: b :: a :: stack, heap⟩ =
      some (⟨rest, stack, Function.update heap r (M.add (heap a) (heap b))⟩, []) := by
  rw [step, if_neg (by decide), if_pos rfl]

end Steps

/-! ### Labels -/

@[simp] theorem labels_append (items items' : List Item) :
    labels (items ++ items') = labels items ++ labels items' := List.filterMap_append

@[simp] theorem labels_label (l : String) (items : List Item) :
    labels (.instruction (.label l) :: items) = l :: labels items := rfl

theorem labels_cons_of_none {item : Item} (h : item.label? = none) (items : List Item) :
    labels (item :: items) = labels items := List.filterMap_cons_none h

/-- A label that is placed once is found. -/
theorem target?_of_nodup {before after : List Item} {l : String}
    (h : (labels (before ++ .instruction (.label l) :: after)).Nodup) :
    target? l (before ++ .instruction (.label l) :: after) =
      some (.instruction (.label l) :: after) := by
  induction before with
  | nil => exact if_pos rfl
  | cons item before ih =>
    have hne : item ≠ .instruction (.label l) := by
      rintro rfl
      simp at h
    rw [List.cons_append, target?, if_neg hne]
    refine ih (h.sublist ?_)
    rw [List.cons_append]
    exact (List.sublist_cons_self _ _).filterMap _

/-! ### Code with the shape of a tree -/

/-- The end of a conditional that is placed before the next action. -/
def flush (pending : Option String) : List Item :=
  pending.toList.map fun l => .instruction (.label l)

/-- A branch of a conditional and what follows it. -/
def branchCode (condition next exit : String) (body tail : List Item) : List Item :=
  .instruction (.push condition) :: .instruction (.jumpToIfFalse next) ::
    (body ++ .instruction (.jumpTo exit) :: .instruction (.label next) :: tail)

/-- A `while` block and what follows it. -/
def whileCode (condition start exit : String) (body tail : List Item) : List Item :=
  .instruction (.label start) :: .instruction (.push condition) ::
    .instruction (.jumpToIfFalse exit) ::
    (body ++ .instruction (.jumpTo start) :: .instruction (.label exit) :: tail)

/-- The rounds of a `for` block and what follows it. The slots are those of its action. -/
def forRounds (slots : Nat → String) (head next exit : String) (body tail : List Item) : List Item :=
  .instruction (.label head) :: .instruction (.push (slots 3)) :: .instruction (.push (slots 1)) ::
    .instruction (.push (slots 4)) :: .instruction (.invoke Signature.intLess) ::
    .instruction (.push (slots 4)) :: .instruction (.jumpToIfFalse exit) ::
    (body ++ .instruction (.label next) :: .instruction (.push (slots 3)) ::
      .instruction (.push (slots 2)) :: .instruction (.push (slots 3)) ::
      .instruction (.invoke Signature.intAdd) :: .instruction (.jumpTo head) ::
      .instruction (.label exit) :: tail)

/-- A `for` block and what follows it. -/
def forCode (slots : Nat → String) (head next exit : String) (body tail : List Item) : List Item :=
  .instruction (.push (slots 0)) :: .instruction (.push (slots 3)) :: .instruction .copy ::
    forRounds slots head next exit body tail

theorem branchCode_append (condition next exit : String) (body tail post : List Item) :
    branchCode condition next exit body tail ++ post =
      branchCode condition next exit body (tail ++ post) := by simp [branchCode]

theorem whileCode_append (condition start exit : String) (body tail post : List Item) :
    whileCode condition start exit body tail ++ post =
      whileCode condition start exit body (tail ++ post) := by simp [whileCode]

theorem forCode_append (slots : Nat → String) (head next exit : String) (body tail post : List Item) :
    forCode slots head next exit body tail ++ post =
      forCode slots head next exit body (tail ++ post) := by simp [forCode, forRounds]

/-- Flat code with the shape of a tree whose first action has a position. The first argument holds the
labels that `break` and `continue` jump to; the pending label is the end of the conditional that the
tree continues. -/
inductive Compiled (slots : Nat → Nat → String) :
    Option (String × String) → Nat → ActionTree → Option String → List Item → Prop
  | nil {loop : Option (String × String)} {i : Nat} {pending : Option String} :
      Compiled slots loop i .nil pending (flush pending)
  | leaf {loop : Option (String × String)} {i : Nat} {pending : Option String}
      {action : ActionInstance} {rest : ActionTree} {tail : List Item} (code : List Instruction)
      (hrest : Compiled slots loop (i + 1) rest none tail) :
      Compiled slots loop i (.leaf action rest) pending (flush pending ++ .leaf i code :: tail)
  | exitLoop {broke continued : String} {i : Nat} {pending : Option String}
      {action : ActionInstance} {rest : ActionTree} {tail : List Item}
      (hrest : Compiled slots (some (broke, continued)) (i + 1) rest none tail) :
      Compiled slots (some (broke, continued)) i (.exitLoop action rest) pending
        (flush pending ++ .instruction (.jumpTo broke) :: tail)
  | nextIteration {broke continued : String} {i : Nat} {pending : Option String}
      {action : ActionInstance} {rest : ActionTree} {tail : List Item}
      (hrest : Compiled slots (some (broke, continued)) (i + 1) rest none tail) :
      Compiled slots (some (broke, continued)) i (.nextIteration action rest) pending
        (flush pending ++ .instruction (.jumpTo continued) :: tail)
  | plain {loop : Option (String × String)} {i : Nat} {pending : Option String}
      {head last : ActionInstance} {body rest : ActionTree} {inner tail : List Item}
      (hbody : Compiled slots loop (i + 1) body none inner)
      (hrest : Compiled slots loop (body.behind i) rest none tail) :
      Compiled slots loop i (.nest .plain head body last rest) pending (flush pending ++ (inner ++ tail))
  | cond {loop : Option (String × String)} {i : Nat} {pending : Option String}
      {head last : ActionInstance} {body rest : ActionTree} {inner tail : List Item}
      {next exit : String} (hbody : Compiled slots loop (i + 1) body none inner)
      (hrest : Compiled slots loop (body.behind i) rest (some exit) tail) :
      Compiled slots loop i (.nest .cond head body last rest) pending
        (flush pending ++ branchCode (slots i 0) next exit inner tail)
  | elseCond {loop : Option (String × String)} {i : Nat} {head last : ActionInstance}
      {body rest : ActionTree} {inner tail : List Item} {next exit : String}
      (hbody : Compiled slots loop (i + 1) body none inner)
      (hrest : Compiled slots loop (body.behind i) rest (some exit) tail) :
      Compiled slots loop i (.nest .elseCond head body last rest) (some exit)
        (branchCode (slots i 0) next exit inner tail)
  | otherwise {loop : Option (String × String)} {i : Nat} {head last : ActionInstance}
      {body rest : ActionTree} {inner tail : List Item} {exit : String}
      (hbody : Compiled slots loop (i + 1) body none inner)
      (hrest : Compiled slots loop (body.behind i) rest none tail) :
      Compiled slots loop i (.nest .otherwise head body last rest) (some exit)
        (inner ++ .instruction (.label exit) :: tail)
  | whileLoop {loop : Option (String × String)} {i : Nat} {pending : Option String}
      {head last : ActionInstance} {body rest : ActionTree} {inner tail : List Item}
      {start exit : String} (hbody : Compiled slots (some (exit, start)) (i + 1) body none inner)
      (hrest : Compiled slots loop (body.behind i) rest none tail) :
      Compiled slots loop i (.nest .whileLoop head body last rest) pending
        (flush pending ++ whileCode (slots i 0) start exit inner tail)
  | forLoop {loop : Option (String × String)} {i : Nat} {pending : Option String}
      {head last : ActionInstance} {body rest : ActionTree} {inner tail : List Item}
      {start next exit : String} (hbody : Compiled slots (some (exit, next)) (i + 1) body none inner)
      (hrest : Compiled slots loop (body.behind i) rest none tail) :
      Compiled slots loop i (.nest .forLoop head body last rest) pending
        (flush pending ++ forCode (slots i) start next exit inner tail)

/-! ### Running code with the shape of a tree -/

section Simulation

variable {V : Type} {M : Interpretation V} {program start start' : List Item} {heap heap' : Heap V}
  {K K' : Outcome → List Item} {R : Trace V → Heap V → Outcome → Prop}

/-- From a point of the code on, the machine does what a big-step reading says, and then goes on at a
point that depends on the outcome. -/
structure Realizes (M : Interpretation V) (program start : List Item) (heap : Heap V)
    (K : Outcome → List Item) (R : Trace V → Heap V → Outcome → Prop) : Prop where
  sound {m : Nat} {trace : Trace V} {final : Heap V} :
    Runs M program m ⟨start, [], heap⟩ trace final → ∃ n ≤ m, ∃ trace₁ trace₂ mid outcome,
      trace = trace₁ ++ trace₂ ∧ R trace₁ mid outcome ∧
      Runs M program n ⟨K outcome, [], mid⟩ trace₂ final
  complete {n : Nat} {trace₁ trace₂ : Trace V} {mid final : Heap V} {outcome : Outcome} :
    R trace₁ mid outcome → Runs M program n ⟨K outcome, [], mid⟩ trace₂ final →
    ∃ m, Runs M program m ⟨start, [], heap⟩ (trace₁ ++ trace₂) final

/-- The machine gets from one point and heap to another in a number of steps, without an action. -/
def Leads (M : Interpretation V) (program start : List Item) (heap : Heap V) (k : Nat)
    (start' : List Item) (heap' : Heap V) : Prop :=
  ∀ n trace final, Runs M program n ⟨start, [], heap⟩ trace final ↔
    ∃ m, n = m + k ∧ Runs M program m ⟨start', [], heap'⟩ trace final

theorem Leads.refl (start : List Item) (heap : Heap V) : Leads M program start heap 0 start heap :=
  fun n _ _ => ⟨fun h => ⟨n, rfl, h⟩, fun ⟨_, hn, h⟩ => hn ▸ h⟩

theorem Leads.trans {j : Nat} {start'' : List Item} {heap'' : Heap V}
    (h : Leads M program start heap j start' heap')
    (h' : Leads M program start' heap' k start'' heap'') :
    Leads M program start heap (k + j) start'' heap'' := by
  intro n trace final
  rw [h]
  simp only [h' _ trace final]
  constructor
  · rintro ⟨-, rfl, m, rfl, hrest⟩
    exact ⟨m, by omega, hrest⟩
  · rintro ⟨m, rfl, hrest⟩
    exact ⟨m + k, by omega, m, rfl, hrest⟩

theorem Realizes.of_leads (h : Leads M program start heap k start' heap')
    (hr : Realizes M program start' heap' K R) : Realizes M program start heap K R := by
  refine ⟨fun {m trace final} hruns => ?_, fun hR hruns => ?_⟩
  · obtain ⟨m', rfl, hruns'⟩ := (h _ _ _).mp hruns
    obtain ⟨n, hn, hrest⟩ := hr.sound hruns'
    exact ⟨n, by omega, hrest⟩
  · obtain ⟨m, hruns'⟩ := hr.complete hR hruns
    exact ⟨m + k, (h _ _ _).mpr ⟨m, rfl, hruns'⟩⟩

/-- One thing after the other. -/
theorem Realizes.then {R₂ : Heap V → Trace V → Heap V → Outcome → Prop}
    (h : Realizes M program start heap K' R) (hK : ∀ outcome ≠ .normal, K' outcome = K outcome)
    (h₂ : ∀ mid, Realizes M program (K' .normal) mid K (R₂ mid)) :
    Realizes M program start heap K (Then R R₂) := by
  refine ⟨fun {m trace final} hruns => ?_, fun {n trace₁ trace₂ mid final outcome} hR hruns => ?_⟩
  · obtain ⟨n, hn, trace₁, trace₂, mid, outcome, rfl, hR, hrest⟩ := h.sound hruns
    by_cases hnormal : outcome = .normal
    · subst hnormal
      obtain ⟨n', hn', trace₃, trace₄, mid', outcome', rfl, hR', hrest'⟩ := (h₂ mid).sound hrest
      exact ⟨n', Nat.le_trans hn' hn, trace₁ ++ trace₃, trace₄, mid', outcome',
        (List.append_assoc ..).symm, Or.inr ⟨trace₁, mid, trace₃, rfl, hR, hR'⟩, hrest'⟩
    · rw [hK outcome hnormal] at hrest
      exact ⟨n, hn, trace₁, trace₂, mid, outcome, rfl, Or.inl ⟨hR, hnormal⟩, hrest⟩
  · rcases hR with ⟨hR, hnormal⟩ | ⟨trace₃, mid', trace₄, rfl, hR, hR'⟩
    · rw [← hK outcome hnormal] at hruns
      exact h.complete hR hruns
    · obtain ⟨m, hruns'⟩ := (h₂ mid').complete hR' hruns
      rw [List.append_assoc]
      exact h.complete hR hruns'

/-- The rounds of a loop. Every round begins with a test that takes steps, so a run of the machine has
only finitely many. -/
theorem Realizes.rounds {test : Heap V → Heap V × Bool} {step : Heap V → Heap V}
    {body : Heap V → Trace V → Heap V → Outcome → Prop} {done : List Item}
    (htest : ∀ heap, Leads M program start heap (k + 1) (if (test heap).2 then inner else done)
      (test heap).1)
    (hbody : ∀ heap, Realizes M program inner heap K' (body heap)) (hbroke : K' .broke = done)
    (hagain : ∀ outcome ≠ .broke, ∀ heap, ∃ j, Leads M program (K' outcome) heap j start (step heap))
    (hdone : K .normal = done) (heap : Heap V) :
    Realizes M program start heap K
      (fun trace final outcome => outcome = .normal ∧ Rounds test body step heap trace final) := by
  refine ⟨fun {m trace final} hruns => ?_, fun {n trace₁ trace₂ mid final outcome} hR hruns => ?_⟩
  · induction m using Nat.strongRecOn generalizing heap trace final with
    | ind m ih =>
      obtain ⟨m', rfl, hruns'⟩ := (htest heap _ _ _).mp hruns
      cases hcondition : (test heap).2 with
      | false =>
        rw [hcondition, if_neg (by simp), ← hdone] at hruns'
        exact ⟨m', by omega, [], trace, _, .normal, rfl, ⟨rfl, .done hcondition⟩, hruns'⟩
      | true =>
        rw [hcondition, if_pos rfl] at hruns'
        obtain ⟨n, hn, trace₁, trace₂, mid, outcome, rfl, hR, hrest⟩ := (hbody _).sound hruns'
        by_cases hout : outcome = .broke
        · subst hout
          rw [hbroke, ← hdone] at hrest
          exact ⟨n, by omega, trace₁, trace₂, mid, .normal, rfl,
            ⟨rfl, .broke hcondition hR⟩, hrest⟩
        · obtain ⟨j, hleads⟩ := hagain outcome hout mid
          obtain ⟨n', rfl, hrest'⟩ := (hleads _ _ _).mp hrest
          obtain ⟨n'', hn'', trace₃, trace₄, mid', outcome', rfl, ⟨rfl, hrounds⟩, hlast⟩ :=
            ih n' (by omega) _ hrest'
          exact ⟨n'', by omega, trace₁ ++ trace₃, trace₄, mid', .normal,
            (List.append_assoc ..).symm, ⟨rfl, .again hcondition hR hout hrounds⟩, hlast⟩
  · obtain ⟨rfl, hrounds⟩ := hR
    rw [hdone] at hruns
    induction hrounds with
    | @done heap hcondition =>
      refine ⟨n + (k + 1), (htest heap _ _ _).mpr ⟨n, rfl, ?_⟩⟩
      rw [hcondition]
      exact hruns
    | @broke heap mid trace hcondition hR =>
      rw [← hbroke] at hruns
      obtain ⟨m, hruns'⟩ := (hbody _).complete hR hruns
      refine ⟨m + (k + 1), (htest heap _ _ _).mpr ⟨m, rfl, ?_⟩⟩
      rw [hcondition]
      exact hruns'
    | @again heap mid final trace trace' outcome hcondition hR hout _ ih =>
      obtain ⟨m, hruns'⟩ := ih hruns
      obtain ⟨j, hleads⟩ := hagain outcome hout mid
      obtain ⟨m', hruns''⟩ := (hbody _).complete hR ((hleads _ _ _).mpr ⟨m, rfl, hruns'⟩)
      refine ⟨m' + (k + 1), (htest heap _ _ _).mpr ⟨m', rfl, ?_⟩⟩
      rw [hcondition, List.append_assoc]
      exact hruns''

theorem realizes_done (K : Outcome → List Item) (outcome : Outcome) (heap : Heap V) :
    Realizes M program (K outcome) heap K
      (fun trace final result => trace = [] ∧ final = heap ∧ result = outcome) := by
  refine ⟨fun {m trace final} hruns => ?_, fun hR hruns => ?_⟩
  · exact ⟨m, Nat.le_refl m, [], trace, heap, outcome, rfl, ⟨rfl, rfl, rfl⟩, hruns⟩
  · obtain ⟨rfl, rfl, rfl⟩ := hR
    exact ⟨_, hruns⟩

/-- An action runs as a whole. -/
theorem Realizes.leaf {i : Nat} {rest : List Item} (code : List Instruction)
    (h : Realizes M program rest (M.act i heap) K R) :
    Realizes M program (.leaf i code :: rest) heap K
      (fun trace final outcome => ∃ trace', trace = (i, heap) :: trace' ∧ R trace' final outcome) := by
  refine ⟨fun {m trace final} hruns => ?_, fun hR hruns => ?_⟩
  · obtain ⟨m', trace', rfl, rfl, hruns'⟩ := runs_leaf.mp hruns
    obtain ⟨n, hn, trace₁, trace₂, mid, outcome, rfl, hR, hrest⟩ := h.sound hruns'
    exact ⟨n, by omega, (i, heap) :: trace₁, trace₂, mid, outcome, rfl, ⟨trace₁, rfl, hR⟩, hrest⟩
  · obtain ⟨trace', rfl, hR⟩ := hR
    obtain ⟨m, hruns'⟩ := h.complete hR hruns
    exact ⟨m + 1, runs_leaf.mpr ⟨m, _, rfl, rfl, hruns'⟩⟩

theorem leads_label (l : String) (rest : List Item) (heap : Heap V) :
    Leads M program (.instruction (.label l) :: rest) heap 1 rest heap := fun _ _ _ => runs_label

theorem leads_jump {l : String} (h : target? l program = some start') (rest : List Item)
    (heap : Heap V) : Leads M program (.instruction (.jumpTo l) :: rest) heap 1 start' heap :=
  fun _ _ _ => runs_jump h

theorem target?_eq (hnodup : (labels program).Nodup) {after : List Item} {l : String}
    (h : .instruction (.label l) :: after <:+ program) :
    target? l program = some (.instruction (.label l) :: after) := by
  obtain ⟨before, rfl⟩ := h
  exact target?_of_nodup hnodup

/-- Where a tree starts: at its own code or, if a branch of the conditional that it continues has been
taken, at the end of the conditional. -/
def Starts (program : List Item) (pending : Option String) (taken : Bool) (code start : List Item) :
    Prop :=
  if taken then ∃ exit, pending = some exit ∧ target? exit program = some start else start = code

/-- A tree that does not continue the conditional before it starts with the end of that conditional,
whether or not a branch has been taken. -/
theorem Starts.leads_flush {pending : Option String} {taken : Bool} {code : List Item}
    (h : Starts program pending taken (flush pending ++ code) start)
    (hnodup : (labels program).Nodup) (hsuffix : flush pending ++ code <:+ program)
    (heap : Heap V) : ∃ k, Leads M program start heap k code heap := by
  have hstart : start = flush pending ++ code := by
    cases taken with
    | false => exact h
    | true =>
      obtain ⟨exit, rfl, htarget⟩ := h
      rw [target?_eq hnodup hsuffix] at htarget
      exact (Option.some.inj htarget).symm
  subst hstart
  cases pending with
  | none => exact ⟨0, .refl _ _⟩
  | some exit => exact ⟨1, leads_label exit code heap⟩

/-- The labels that a loop is left through are where the outcomes lead to. -/
def Lands (program : List Item) (loop : Option (String × String)) (K : Outcome → List Item) : Prop :=
  ∀ broke continued, loop = some (broke, continued) →
    target? broke program = some (K .broke) ∧ target? continued program = some (K .continued)

theorem Lands.update {loop : Option (String × String)} (h : Lands program loop K)
    (code : List Item) : Lands program loop (Function.update K .normal code) := by
  intro broke continued hloop
  rw [Function.update_of_ne (by decide), Function.update_of_ne (by decide)]
  exact h broke continued hloop

/-- The end of a conditional is placed in the code of the tree that continues it. -/
theorem Compiled.mem_labels {slots : Nat → Nat → String} {loop : Option (String × String)} {i : Nat}
    {tree : ActionTree} {pending : Option String} {items : List Item}
    (h : Compiled slots loop i tree pending items) (hexit : pending = some exit) :
    exit ∈ labels items := by
  induction h with
  | elseCond _ _ _ ih =>
    cases hexit
    have hmem := ih rfl
    rw [branchCode, labels_cons_of_none rfl, labels_cons_of_none rfl, labels_append]
    refine List.mem_append_right _ ?_
    rw [labels_cons_of_none rfl, labels_label]
    exact List.mem_cons_of_mem _ hmem
  | otherwise _ _ _ _ =>
    cases hexit
    rw [labels_append, labels_label]
    exact List.mem_append_right _ List.mem_cons_self
  | _ =>
    cases hexit
    simp [flush]

theorem suffix_branchCode (condition next exit : String) (body tail : List Item) :
    body ++ .instruction (.jumpTo exit) :: .instruction (.label next) :: tail <:+
      branchCode condition next exit body tail := List.suffix_append [_, _] _

theorem suffix_tail_branchCode (condition next exit : String) (body tail : List Item) :
    tail <:+ branchCode condition next exit body tail :=
  (List.suffix_append [_, _] _).trans ((List.suffix_append _ _).trans (suffix_branchCode ..))

theorem suffix_whileCode (condition start exit : String) (body tail : List Item) :
    body ++ .instruction (.jumpTo start) :: .instruction (.label exit) :: tail <:+
      whileCode condition start exit body tail := List.suffix_append [_, _, _] _

theorem suffix_forRounds (slots : Nat → String) (head next exit : String) (body tail : List Item) :
    body ++ .instruction (.label next) :: .instruction (.push (slots 3)) ::
      .instruction (.push (slots 2)) :: .instruction (.push (slots 3)) ::
      .instruction (.invoke Signature.intAdd) :: .instruction (.jumpTo head) ::
      .instruction (.label exit) :: tail <:+ forRounds slots head next exit body tail :=
  List.suffix_append [_, _, _, _, _, _, _] _

theorem exists_target? {l : String} {items : List Item} (h : l ∈ labels items) :
    ∃ code, target? l items = some code := by
  induction items with
  | nil => cases h
  | cons item items ih =>
    rw [target?]
    split
    · exact ⟨_, rfl⟩
    · rename_i hne
      refine ih ?_
      cases item with
      | leaf _ _ => exact h
      | instruction i =>
        cases i with
        | label l' =>
          rcases List.mem_cons.mp h with rfl | h
          · exact absurd rfl hne
          · exact h
        | _ => exact h

variable {slots : Nat → Nat → String} {loop : Option (String × String)} {i : Nat}
  {tree : ActionTree} {pending : Option String} {items : List Item}

theorem Compiled.exists_exit {code : List Item}
    (h : Compiled slots loop i tree (some exit) items) {post : List Item}
    (hsuffix : code <:+ program) (hcode : items ++ post <:+ code) :
    ∃ start, target? exit program = some start := by
  refine exists_target? ?_
  obtain ⟨before, hbefore⟩ := hcode.trans hsuffix
  rw [← hbefore, labels_append, labels_append]
  exact List.mem_append_right _ (List.mem_append_left _ (h.mem_labels rfl))

/-- A branch of a conditional, whose body ends with a jump to the end of the conditional. -/
theorem Realizes.branch {condition next : String} {code : List Item}
    {first : Heap V → Trace V → Heap V → Outcome → Prop}
    {rest : Bool → Heap V → Trace V → Heap V → Outcome → Prop}
    (hnodup : (labels program).Nodup)
    (hsuffix : branchCode condition next exit inner tail <:+ program)
    (hexit : target? exit program = some code)
    (hfirst : ∀ heap, Realizes M program
      (inner ++ .instruction (.jumpTo exit) :: .instruction (.label next) :: tail) heap
      (Function.update K .normal (.instruction (.jumpTo exit) :: .instruction (.label next) :: tail))
      (first heap))
    (hskip : ∀ heap, Realizes M program code heap K (rest true heap))
    (hrest : ∀ heap, Realizes M program tail heap K (rest false heap)) (heap : Heap V) :
    Realizes M program (branchCode condition next exit inner tail) heap K
      (fun trace final outcome => if M.isTrue (heap condition) then
        Then (first heap) (rest true) trace final outcome else rest false heap trace final outcome) := by
  have hnext : target? next program = some (.instruction (.label next) :: tail) := by
    refine target?_eq hnodup (List.IsSuffix.trans ?_ hsuffix)
    exact ⟨.instruction (.push condition) :: .instruction (.jumpToIfFalse next) ::
      (inner ++ [.instruction (.jumpTo exit)]), by simp [branchCode]⟩
  refine Realizes.of_leads (fun _ _ _ => runs_branch hnext) ?_
  cases hcondition : M.isTrue (heap condition) with
  | true =>
    simp only [if_true]
    refine (hfirst heap).then (fun outcome hne => Function.update_of_ne hne _ _) fun mid => ?_
    rw [Function.update_self]
    exact .of_leads (leads_jump hexit _ mid) (hskip mid)
  | false =>
    simp only [Bool.false_eq_true, if_false]
    exact .of_leads (leads_label next tail heap) (hrest heap)

/-- Where the rounds of a loop go on. -/
def roundEnds (normal broke continued : List Item) : Outcome → List Item
  | .normal => normal
  | .broke => broke
  | .continued => continued

theorem lands_roundEnds {broke continued : String} {normal brokeCode continuedCode : List Item}
    (hbroke : target? broke program = some brokeCode)
    (hcontinued : target? continued program = some continuedCode) :
    Lands program (some (broke, continued)) (roundEnds normal brokeCode continuedCode) := by
  intro _ _ hloop
  cases hloop
  exact ⟨hbroke, hcontinued⟩

/-- The rounds of a `while` block. -/
theorem Realizes.whileRounds {i : Nat} {begin : String}
    {body : Heap V → Trace V → Heap V → Outcome → Prop} (hnodup : (labels program).Nodup)
    (hsuffix : whileCode (slots i 0) begin exit inner tail <:+ program)
    (hbody : ∀ heap, Realizes M program
      (inner ++ .instruction (.jumpTo begin) :: .instruction (.label exit) :: tail) heap
      (roundEnds (.instruction (.jumpTo begin) :: .instruction (.label exit) :: tail)
        (.instruction (.label exit) :: tail) (whileCode (slots i 0) begin exit inner tail))
      (body heap)) (heap : Heap V) :
    Realizes M program (whileCode (slots i 0) begin exit inner tail) heap
      (Function.update K .normal (.instruction (.label exit) :: tail))
      (fun trace final outcome => outcome = .normal ∧
        Rounds (whileTest M slots i) body id heap trace final) := by
  have hexit : target? exit program = some (.instruction (.label exit) :: tail) := by
    refine target?_eq hnodup (List.IsSuffix.trans ?_ hsuffix)
    exact ⟨.instruction (.label begin) :: .instruction (.push (slots i 0)) ::
      .instruction (.jumpToIfFalse exit) :: (inner ++ [.instruction (.jumpTo begin)]),
      by simp [whileCode]⟩
  have htest (heap : Heap V) : Leads M program (whileCode (slots i 0) begin exit inner tail) heap 3
      (if M.isTrue (heap (slots i 0)) then
        inner ++ .instruction (.jumpTo begin) :: .instruction (.label exit) :: tail
      else .instruction (.label exit) :: tail) heap :=
    (leads_label begin _ heap).trans fun _ _ _ => runs_branch hexit
  refine Realizes.rounds htest hbody rfl (fun outcome hne heap => ?_) (Function.update_self ..) heap
  cases outcome with
  | normal => exact ⟨1, leads_jump (target?_eq hnodup hsuffix) _ heap⟩
  | broke => exact absurd rfl hne
  | continued => exact ⟨0, .refl _ _⟩

/-- The rounds of a `for` block. -/
theorem Realizes.forRounds {i : Nat} {begin next : String}
    {body : Heap V → Trace V → Heap V → Outcome → Prop} {close : List Item}
    (hnodup : (labels program).Nodup)
    (hclose : close = .instruction (.label next) :: .instruction (.push (slots i 3)) ::
      .instruction (.push (slots i 2)) :: .instruction (.push (slots i 3)) ::
      .instruction (.invoke Signature.intAdd) :: .instruction (.jumpTo begin) ::
      .instruction (.label exit) :: tail)
    (hsuffix : ControlFlow.forRounds (slots i) begin next exit inner tail <:+ program)
    (hbody : ∀ heap, Realizes M program (inner ++ close) heap
      (roundEnds close (.instruction (.label exit) :: tail) close) (body heap)) (heap : Heap V) :
    Realizes M program (ControlFlow.forRounds (slots i) begin next exit inner tail) heap
      (Function.update K .normal (.instruction (.label exit) :: tail))
      (fun trace final outcome => outcome = .normal ∧
        Rounds (forTest M slots i) body (forStep M slots i) heap trace final) := by
  have hexit : target? exit program = some (.instruction (.label exit) :: tail) := by
    refine target?_eq hnodup (List.IsSuffix.trans ?_ hsuffix)
    exact ⟨.instruction (.label begin) :: .instruction (.push (slots i 3)) ::
      .instruction (.push (slots i 1)) :: .instruction (.push (slots i 4)) ::
      .instruction (.invoke Signature.intLess) :: .instruction (.push (slots i 4)) ::
      .instruction (.jumpToIfFalse exit) :: (inner ++ .instruction (.label next) ::
      .instruction (.push (slots i 3)) :: .instruction (.push (slots i 2)) ::
      .instruction (.push (slots i 3)) :: .instruction (.invoke Signature.intAdd) ::
      [.instruction (.jumpTo begin)]), by simp [ControlFlow.forRounds]⟩
  -- A round that ends normally and one that is continued both go on with the step.
  have hagain (heap : Heap V) : Leads M program close heap 6
      (ControlFlow.forRounds (slots i) begin next exit inner tail) (forStep M slots i heap) := by
    rw [hclose]
    refine ((leads_label next _ heap).trans (fun _ _ _ => runs_invoke step_add)).trans ?_
    exact leads_jump (target?_eq hnodup hsuffix) _ _
  have htest (heap : Heap V) : Leads M program
      (ControlFlow.forRounds (slots i) begin next exit inner tail) heap 7
      (if (forTest M slots i heap).2 then inner ++ close else .instruction (.label exit) :: tail)
      (forTest M slots i heap).1 := by
    refine (leads_label begin _ heap).trans (Leads.trans (fun _ _ _ => runs_invoke step_less) ?_)
    rw [hclose]
    exact fun _ _ _ => runs_branch hexit
  refine Realizes.rounds htest hbody rfl (fun outcome hne heap => ?_) (Function.update_self ..) heap
  cases outcome with
  | normal => exact ⟨6, hagain heap⟩
  | broke => exact absurd rfl hne
  | continued => exact ⟨6, hagain heap⟩

/-! ### The cases of a tree -/

/-- One thing after the other, where the first goes on with the code of the second. -/
theorem Realizes.seq {behind : List Item} {R₂ : Heap V → Trace V → Heap V → Outcome → Prop}
    (h : Realizes M program start heap (Function.update K .normal behind) R)
    (h₂ : ∀ mid, Realizes M program behind mid K (R₂ mid)) :
    Realizes M program start heap K (Then R R₂) := by
  refine h.then (fun outcome hne => Function.update_of_ne hne _ _) fun mid => ?_
  rw [Function.update_self]
  exact h₂ mid

theorem Starts.realizes {taken : Bool} {code : List Item}
    (h : Starts program pending taken (flush pending ++ code) start)
    (hnodup : (labels program).Nodup) (hsuffix : flush pending ++ code <:+ program)
    (hcode : Realizes M program code heap K R) : Realizes M program start heap K R := by
  obtain ⟨k, hleads⟩ := h.leads_flush hnodup hsuffix heap
  exact .of_leads hleads hcode

/-- Whether code runs as a tree does, wherever it stands in a program and whatever follows it. -/
def RunsAs (M : Interpretation V) (program : List Item) (slots : Nat → Nat → String)
    (loop : Option (String × String)) (i : Nat) (tree : ActionTree) (pending : Option String)
    (items : List Item) : Prop :=
  ∀ ⦃K : Outcome → List Item⦄ ⦃taken : Bool⦄ ⦃heap : Heap V⦄ ⦃start : List Item⦄,
    items ++ K .normal <:+ program → Lands program loop K →
    Starts program pending taken (items ++ K .normal) start →
    Realizes M program start heap K (Exec M slots i tree taken heap)

/-- A tree that does not continue a conditional starts at its own code. -/
theorem RunsAs.afresh (h : RunsAs M program slots loop i tree none items)
    (hsuffix : items ++ K .normal <:+ program) (hlands : Lands program loop K) (heap : Heap V) :
    Realizes M program (items ++ K .normal) heap K (Exec M slots i tree false heap) :=
  h hsuffix hlands rfl

/-- The body of a block that is no loop, before the code behind it. -/
theorem RunsAs.inside {behind : List Item} (h : RunsAs M program slots loop i tree none items)
    (hsuffix : items ++ behind <:+ program) (hlands : Lands program loop K) (heap : Heap V) :
    Realizes M program (items ++ behind) heap (Function.update K .normal behind)
      (Exec M slots i tree false heap) := by
  have hbehind : Function.update K .normal behind .normal = behind := Function.update_self ..
  refine h ?_ (hlands.update _) ?_
  · rwa [hbehind]
  · rw [hbehind]
    rfl

section

variable {body rest : ActionTree} {head last : ActionInstance} {next : String}
  (hnodup : (labels program).Nodup)
include hnodup

theorem RunsAs.leave {outcome : Outcome} {label : String}
    (htarget : ∀ K, Lands program loop K → target? label program = some (K outcome))
    (hexec : ∀ taken heap, Exec M slots i tree taken heap =
      fun trace final result => trace = [] ∧ final = heap ∧ result = outcome) :
    RunsAs M program slots loop i tree pending
      (flush pending ++ .instruction (.jumpTo label) :: tail) := by
  intro K taken heap start hsuffix hlands hstart
  rw [List.append_assoc] at hsuffix hstart
  rw [hexec]
  exact hstart.realizes hnodup hsuffix
    (.of_leads (leads_jump (htarget K hlands) _ heap) (realizes_done K outcome heap))

theorem RunsAs.plain (hbody : RunsAs M program slots loop (i + 1) body none inner)
    (hrest : RunsAs M program slots loop (body.behind i) rest none tail) :
    RunsAs M program slots loop i (.nest .plain head body last rest) pending
      (flush pending ++ (inner ++ tail)) := by
  intro K taken heap start hsuffix hlands hstart
  rw [List.append_assoc, List.append_assoc] at hsuffix hstart
  have hinner := (List.suffix_append _ _).trans hsuffix
  refine hstart.realizes hnodup hsuffix ((hbody.inside hinner hlands heap).seq fun mid => ?_)
  exact hrest.afresh ((List.suffix_append _ _).trans hinner) hlands mid

/-- The code of a branch, of which the rest of the tree may hold further ones. -/
theorem RunsAs.branch {code : List Item}
    (hbody : RunsAs M program slots loop (i + 1) body none inner)
    (hrest : RunsAs M program slots loop (body.behind i) rest (some exit) tail)
    (hexit : target? exit program = some code) (hlands : Lands program loop K)
    (hsuffix : branchCode (slots i 0) next exit inner (tail ++ K .normal) <:+ program) (heap : Heap V) :
    Realizes M program (branchCode (slots i 0) next exit inner (tail ++ K .normal)) heap K
      (fun trace final outcome => if M.isTrue (heap (slots i 0)) then
        Then (Exec M slots (i + 1) body false heap) (Exec M slots (body.behind i) rest true) trace final
          outcome else Exec M slots (body.behind i) rest false heap trace final outcome) := by
  have htail := (suffix_tail_branchCode ..).trans hsuffix
  exact .branch hnodup hsuffix hexit
    (hbody.inside ((suffix_branchCode ..).trans hsuffix) hlands)
    (fun _ => hrest htail hlands ⟨_, rfl, hexit⟩) (fun _ => hrest htail hlands rfl) heap

theorem RunsAs.elseCond {code : List Item}
    (hbody : RunsAs M program slots loop (i + 1) body none inner)
    (hrest : RunsAs M program slots loop (body.behind i) rest (some exit) tail)
    (hexit : target? exit program = some code) :
    RunsAs M program slots loop i (.nest .elseCond head body last rest) (some exit)
      (branchCode (slots i 0) next exit inner tail) := by
  intro K taken heap start hsuffix hlands hstart
  rw [branchCode_append] at hsuffix hstart
  cases taken with
  | true =>
    obtain ⟨_, hsome, htarget⟩ := hstart
    cases hsome
    exact hrest ((suffix_tail_branchCode ..).trans hsuffix) hlands ⟨_, rfl, htarget⟩
  | false =>
    cases hstart
    exact hbody.branch hnodup hrest hexit hlands hsuffix heap

theorem RunsAs.otherwise (hbody : RunsAs M program slots loop (i + 1) body none inner)
    (hrest : RunsAs M program slots loop (body.behind i) rest none tail) :
    RunsAs M program slots loop i (.nest .otherwise head body last rest) (some exit)
      (inner ++ .instruction (.label exit) :: tail) := by
  intro K taken heap start hsuffix hlands hstart
  rw [List.append_assoc, List.cons_append] at hsuffix hstart
  have hlabel := (List.suffix_append _ _).trans hsuffix
  have hbehind (heap : Heap V) : Realizes M program
      (.instruction (.label exit) :: (tail ++ K .normal)) heap K
      (Exec M slots (body.behind i) rest false heap) :=
    .of_leads (leads_label _ _ heap) (hrest.afresh ((List.suffix_cons _ _).trans hlabel) hlands heap)
  cases taken with
  | true =>
    obtain ⟨_, hexit, htarget⟩ := hstart
    cases hexit
    rw [target?_eq hnodup hlabel] at htarget
    cases htarget
    exact hbehind heap
  | false =>
    cases hstart
    exact (hbody.inside hsuffix hlands heap).seq hbehind

theorem RunsAs.whileLoop {begin : String}
    (hbody : RunsAs M program slots (some (exit, begin)) (i + 1) body none inner)
    (hrest : RunsAs M program slots loop (body.behind i) rest none tail) :
    RunsAs M program slots loop i (.nest .whileLoop head body last rest) pending
      (flush pending ++ whileCode (slots i 0) begin exit inner tail) := by
  intro K taken heap start hsuffix hlands hstart
  rw [List.append_assoc, whileCode_append] at hsuffix hstart
  have hloop := (List.suffix_append _ _).trans hsuffix
  have hinner := (suffix_whileCode ..).trans hloop
  have hexit := ((List.suffix_cons _ _).trans (List.suffix_append _ _)).trans hinner
  have hrounds := Realizes.whileRounds (K := K) hnodup hloop (hbody.afresh hinner
    (lands_roundEnds (target?_eq hnodup hexit) (target?_eq hnodup hloop))) heap
  refine hstart.realizes hnodup hsuffix (hrounds.seq fun mid => .of_leads (leads_label _ _ mid) ?_)
  exact hrest.afresh ((List.suffix_cons _ _).trans hexit) hlands mid

theorem RunsAs.forLoop {begin : String}
    (hbody : RunsAs M program slots (some (exit, next)) (i + 1) body none inner)
    (hrest : RunsAs M program slots loop (body.behind i) rest none tail) :
    RunsAs M program slots loop i (.nest .forLoop head body last rest) pending
      (flush pending ++ forCode (slots i) begin next exit inner tail) := by
  intro K taken heap start hsuffix hlands hstart
  rw [List.append_assoc, forCode_append] at hsuffix hstart
  have hloop := (List.suffix_append [_, _, _] _).trans ((List.suffix_append _ _).trans hsuffix)
  have hinner := (suffix_forRounds ..).trans hloop
  have hstep := (List.suffix_append _ _).trans hinner
  have hexit := (List.suffix_append [_, _, _, _, _, _] _).trans hstep
  have hrounds := Realizes.forRounds (K := K) hnodup rfl hloop (hbody.afresh hinner
    (lands_roundEnds (target?_eq hnodup hexit) (target?_eq hnodup hstep)))
  refine hstart.realizes hnodup hsuffix (.of_leads (fun _ _ _ => runs_copy)
    ((hrounds _).seq fun mid => .of_leads (leads_label _ _ mid) ?_))
  exact hrest.afresh ((List.suffix_cons _ _).trans hexit) hlands mid

end

/-- Flat code with the shape of a tree runs as the tree does. -/
theorem Compiled.realizes (h : Compiled slots loop i tree pending items)
    (hnodup : (labels program).Nodup) : RunsAs M program slots loop i tree pending items := by
  induction h with
  | nil =>
    intro K taken heap start hsuffix _ hstart
    exact hstart.realizes hnodup hsuffix (realizes_done K .normal heap)
  | @leaf loop i pending action rest tail code _ ih =>
    intro K taken heap start hsuffix hlands hstart
    rw [List.append_assoc] at hsuffix hstart
    refine hstart.realizes hnodup hsuffix (Realizes.leaf code (ih.afresh (.trans ?_ hsuffix) hlands _))
    exact ⟨flush pending ++ [.leaf i code], by simp⟩
  | exitLoop _ _ => exact .leave hnodup (fun _ hlands => (hlands _ _ rfl).1) fun _ _ => rfl
  | nextIteration _ _ => exact .leave hnodup (fun _ hlands => (hlands _ _ rfl).2) fun _ _ => rfl
  | plain _ _ ihbody ihrest => exact ihbody.plain hnodup ihrest
  | cond _ hrest ihbody ihrest =>
    intro K taken heap start hsuffix hlands hstart
    rw [List.append_assoc, branchCode_append] at hsuffix hstart
    have hbranch := (List.suffix_append _ _).trans hsuffix
    obtain ⟨code, hexit⟩ := hrest.exists_exit hbranch (suffix_tail_branchCode ..)
    exact hstart.realizes hnodup hsuffix (ihbody.branch hnodup ihrest hexit hlands hbranch heap)
  | elseCond _ hrest ihbody ihrest =>
    intro K taken heap start hsuffix
    rw [branchCode_append] at hsuffix
    obtain ⟨code, hexit⟩ := hrest.exists_exit hsuffix (suffix_tail_branchCode ..)
    rw [← branchCode_append] at hsuffix
    exact ihbody.elseCond hnodup ihrest hexit hsuffix
  | otherwise _ _ ihbody ihrest => exact ihbody.otherwise hnodup ihrest
  | whileLoop _ _ ihbody ihrest => exact ihbody.whileLoop hnodup ihrest
  | forLoop _ _ ihbody ihrest => exact ihbody.forLoop hnodup ihrest

/-- The code of a whole event runs from its first instruction to its end exactly as the tree of its
actions does. -/
theorem Compiled.runs_iff_exec (h : Compiled slots none 0 tree none items)
    (hnodup : (labels items).Nodup) {trace : Trace V} {final : Heap V} :
    (∃ n, Runs M items n ⟨items, [], heap⟩ trace final) ↔
      Exec M slots 0 tree false heap trace final .normal := by
  -- There is no loop around the event, so the other outcomes may lead to code that does not run.
  let K : Outcome → List Item := roundEnds [] [.instruction .nop] [.instruction .nop]
  have hrealizes : Realizes M items items heap K (Exec M slots 0 tree false heap) := by
    refine h.realizes hnodup ?_ (fun _ _ hloop => ?_) ?_
    · exact (List.append_nil items).symm ▸ List.suffix_rfl
    · cases hloop
    · exact (List.append_nil items).symm
  constructor
  · rintro ⟨n, hruns⟩
    obtain ⟨m, -, trace₁, trace₂, mid, outcome, rfl, hexec, hrest⟩ := hrealizes.sound hruns
    cases outcome with
    | normal =>
      cases hrest with
      | ended => rwa [List.append_nil]
      | step h' _ => cases h'
    | broke => cases hrest with | step h' _ => cases h'
    | continued => cases hrest with | step h' _ => cases h'
  · intro hexec
    have hcomplete := hrealizes.complete hexec (.ended final)
    rwa [List.append_nil] at hcomplete

end Simulation

end ControlFlow

end TriggerCompiler
