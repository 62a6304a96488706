import TriggerCompiler.Emission.Dispatch
import TriggerCompiler.Proofs.ControlFlow

/-! The code of a replayed event and what it does on a client. The replay method adds one to the synced
counter if the client owns the object, adds one to the number of occurrences that the client has run, and
calls the body. The catch-up of a client that does not own the object runs the body until the two numbers
agree. The check of ownership, the mark of a synced write and the call of the body are run as a whole; the
body may write anything but the two numbers and the constant that is added to them. -/

namespace TriggerCompiler

open ControlFlow

namespace Replay

/-- The variables, the labels and the parts that are run as a whole in the code of a replayed event. -/
structure Code where
  /-- The synced number of occurrences. -/
  counter : String
  /-- The number of occurrences that the client has run. -/
  executed : String
  one : String
  /-- The answers to the two checks of ownership, and the result of the comparison. -/
  isOwner : String
  hookIsOwner : String
  isBehind : String
  /-- The code of the two checks of ownership. -/
  check : List Instruction
  hookCheck : List Instruction
  /-- The code of the two calls of the body. -/
  call : List Instruction
  hookCall : List Instruction
  remote : String
  hookRemote : String
  head : String
  done : String

/-- The parts of the code that are run as a whole. -/
def checkPart : Nat := 0

@[inherit_doc checkPart]
def bodyPart : Nat := 1

@[inherit_doc checkPart]
def markPart : Nat := 2

@[inherit_doc checkPart]
def hookCheckPart : Nat := 3

namespace Code

variable (c : Code)

/-- Adding one to a variable. -/
def addOne (x : String) : List Item := (Emit.increment x c.one).map .instruction

/-- The code of the replay method. -/
def replay : List Item :=
  .leaf checkPart c.check :: .instruction (.push c.isOwner) ::
    .instruction (.jumpToIfFalse c.remote) :: (c.addOne c.counter ++
      .leaf markPart [.sentinel] :: .instruction (.label c.remote) :: (c.addOne c.executed ++
        [.leaf bodyPart c.call]))

/-- A round of the catch-up, behind its test. -/
def round : List Item :=
  c.addOne c.executed ++ [.leaf bodyPart c.hookCall, .instruction (.jumpTo c.head),
    .instruction (.label c.done)]

/-- The rounds of the catch-up. -/
def rounds : List Item :=
  .instruction (.label c.head) :: .instruction (.push c.executed) :: .instruction (.push c.counter) ::
    .instruction (.push c.isBehind) :: .instruction (.invoke Signature.intLess) ::
    .instruction (.push c.isBehind) :: .instruction (.jumpToIfFalse c.done) :: c.round

/-- The code that is run after a value of the counter has arrived. -/
def catchUp : List Item :=
  .leaf hookCheckPart c.hookCheck :: .instruction (.push c.hookIsOwner) ::
    .instruction (.jumpToIfFalse c.hookRemote) :: .instruction (.jumpTo c.done) ::
    .instruction (.label c.hookRemote) :: c.rounds

/-- The variables that only the code of the replayed event writes to. -/
def kept : List String := [c.counter, c.executed, c.one]

/-- The variables and the labels of the code are told apart. -/
structure Apart : Prop where
  kept : c.kept.Nodup
  isOwner : c.isOwner ∉ c.kept
  hookIsOwner : c.hookIsOwner ∉ c.kept
  isBehind : c.isBehind ∉ c.kept
  labels : [c.hookRemote, c.head, c.done].Nodup

theorem Apart.counter_ne_executed {c : Code} (h : c.Apart) : c.counter ≠ c.executed := by
  have hkept := h.kept
  simp only [Code.kept, List.nodup_cons, List.mem_cons] at hkept
  exact fun heq => hkept.1 (Or.inl heq)

theorem Apart.one_ne_counter {c : Code} (h : c.Apart) : c.one ≠ c.counter := by
  have hkept := h.kept
  simp only [Code.kept, List.nodup_cons, List.mem_cons] at hkept
  exact fun heq => hkept.1 (Or.inr (Or.inl heq.symm))

theorem Apart.one_ne_executed {c : Code} (h : c.Apart) : c.one ≠ c.executed := by
  have hkept := h.kept
  simp only [Code.kept, List.nodup_cons, List.mem_cons] at hkept
  exact fun heq => hkept.2.1 (Or.inl heq.symm)

end Code

/-! ### Running the code -/

/-- The comparison of two numbers. -/
def less : Value → Value → Value
  | .int a, .int b => .bool (a < b)
  | _, _ => .null

/-- The sum of two numbers, with the overflow of the machine. -/
def add : Value → Value → Value
  | .int a, .int b => .int (a + b)
  | _, _ => .null

/-- A client runs the code: the checks of ownership give one answer, and the body is what it is. -/
def machine (c : Code) (owns : Bool) (body : Heap Value → Heap Value) : Interpretation Value where
  isTrue v := v = .bool true
  less := less
  add := add
  act k heap :=
    if k = checkPart then Function.update heap c.isOwner (.bool owns)
    else if k = hookCheckPart then Function.update heap c.hookIsOwner (.bool owns)
    else if k = bodyPart then body heap
    else heap

/-- The number of occurrences and the number of runs, as the heap of a client has them. -/
structure Counts (c : Code) (heap : Heap Value) (occurrences runs : Nat) : Prop where
  counter : heap c.counter = .int (.ofNat occurrences)
  executed : heap c.executed = .int (.ofNat runs)
  one : heap c.one = .int 1

/-- Bodies that leave the numbers alone. -/
def Spares (c : Code) (body : Heap Value → Heap Value) : Prop :=
  ∀ heap, ∀ x ∈ c.kept, body heap x = heap x

variable {c : Code} {owns : Bool} {body : Heap Value → Heap Value} {heap : Heap Value}
  {occurrences runs : Nat}

theorem Counts.of_eq {heap' : Heap Value} (h : Counts c heap occurrences runs)
    (heq : ∀ x ∈ c.kept, heap' x = heap x) : Counts c heap' occurrences runs :=
  ⟨(heq _ (by simp [Code.kept])).trans h.counter, (heq _ (by simp [Code.kept])).trans h.executed,
    (heq _ (by simp [Code.kept])).trans h.one⟩

theorem Counts.update {x : String} (h : Counts c heap occurrences runs) (hx : x ∉ c.kept)
    (value : Value) : Counts c (Function.update heap x value) occurrences runs := by
  refine h.of_eq fun y hy => Function.update_of_ne ?_ _ _
  rintro rfl
  exact hx hy

theorem Counts.ofSpares (h : Counts c heap occurrences runs) (hbody : Spares c body) :
    Counts c (body heap) occurrences runs := h.of_eq (hbody heap)

theorem add_one (n : Nat) : add (.int (.ofNat n)) (.int 1) = .int (.ofNat (n + 1)) := by
  rw [add, Int32.ofNat_add]
  rfl

theorem less_ofNat {a b : Nat} (ha : a < 2 ^ 31) (hb : b < 2 ^ 31) :
    less (.int (.ofNat a)) (.int (.ofNat b)) = .bool (a < b) := by
  have hlt : Int32.ofNat a < Int32.ofNat b ↔ a < b := by
    rw [Int32.lt_iff_toInt_lt, Int32.toInt_ofNat_of_lt ha, Int32.toInt_ofNat_of_lt hb, Int.ofNat_lt]
  rw [less, decide_eq_decide.mpr hlt]

theorem Counts.receive (h : Counts c heap occurrences runs) (hc : c.Apart) (value : Nat) :
    Counts c (Function.update heap c.counter (.int (.ofNat value))) value runs :=
  ⟨Function.update_self .., (Function.update_of_ne hc.counter_ne_executed.symm ..).trans h.executed,
    (Function.update_of_ne hc.one_ne_counter ..).trans h.one⟩

theorem Counts.countOccurrence (h : Counts c heap occurrences runs) (hc : c.Apart) :
    Counts c (Function.update heap c.counter (add (heap c.counter) (heap c.one)))
      (occurrences + 1) runs := by
  rw [h.counter, h.one, add_one]
  exact h.receive hc _

theorem Counts.countRun (h : Counts c heap occurrences runs) (hc : c.Apart) :
    Counts c (Function.update heap c.executed (add (heap c.executed) (heap c.one)))
      occurrences (runs + 1) := by
  rw [h.executed, h.one, add_one]
  exact ⟨(Function.update_of_ne hc.counter_ne_executed ..).trans h.counter, Function.update_self ..,
    (Function.update_of_ne hc.one_ne_executed ..).trans h.one⟩

/-! ### Runs -/

/-- The run from a state ends with a heap, after it has run the body a number of times. -/
def Ends (M : Interpretation Value) (program : List Item) (config : Config Value) (times : Nat)
    (final : Heap Value) : Prop :=
  ∃ n trace, Runs M program n config trace final ∧ trace.countP (·.1 = bodyPart) = times

namespace Ends

variable {M : Interpretation Value} {program rest : List Item} {config : Config Value}
  {times : Nat} {final : Heap Value} {stack : List String}

theorem unique {times' : Nat} {final' : Heap Value} (h : Ends M program config times final)
    (h' : Ends M program config times' final') : times = times' ∧ final = final' := by
  obtain ⟨n, trace, hruns, rfl⟩ := h
  obtain ⟨n', trace', hruns', rfl⟩ := h'
  obtain ⟨rfl, rfl⟩ := hruns.unique hruns'
  exact ⟨rfl, rfl⟩

theorem ended (heap : Heap Value) : Ends M program ⟨[], [], heap⟩ 0 heap := ⟨_, _, .ended heap, rfl⟩

theorem leaf {part : Nat} {code : List Instruction} (hpart : part ≠ bodyPart)
    (h : Ends M program ⟨rest, stack, M.act part heap⟩ times final) :
    Ends M program ⟨.leaf part code :: rest, stack, heap⟩ times final := by
  obtain ⟨n, trace, hruns, rfl⟩ := h
  exact ⟨_, _, runs_leaf.mpr ⟨_, _, rfl, rfl, hruns⟩, List.countP_cons_of_neg (by simpa using hpart)⟩

theorem call {code : List Instruction}
    (h : Ends M program ⟨rest, stack, M.act bodyPart heap⟩ times final) :
    Ends M program ⟨.leaf bodyPart code :: rest, stack, heap⟩ (times + 1) final := by
  obtain ⟨n, trace, hruns, rfl⟩ := h
  exact ⟨_, _, runs_leaf.mpr ⟨_, _, rfl, rfl, hruns⟩, List.countP_cons_of_pos rfl⟩

theorem label {l : String} (h : Ends M program ⟨rest, stack, heap⟩ times final) :
    Ends M program ⟨.instruction (.label l) :: rest, stack, heap⟩ times final := by
  obtain ⟨n, trace, hruns, rfl⟩ := h
  exact ⟨_, _, runs_label.mpr ⟨_, rfl, hruns⟩, rfl⟩

theorem jump {l : String} {rest' : List Item} (hl : target? l program = some rest')
    (h : Ends M program ⟨rest', stack, heap⟩ times final) :
    Ends M program ⟨.instruction (.jumpTo l) :: rest, stack, heap⟩ times final := by
  obtain ⟨n, trace, hruns, rfl⟩ := h
  exact ⟨_, _, (runs_jump hl).mpr ⟨_, rfl, hruns⟩, rfl⟩

theorem branch {l s : String} {rest' : List Item} (hl : target? l program = some rest')
    (h : Ends M program ⟨if M.isTrue (heap s) then rest else rest', stack, heap⟩ times final) :
    Ends M program ⟨.instruction (.push s) :: .instruction (.jumpToIfFalse l) :: rest, stack, heap⟩
      times final := by
  obtain ⟨n, trace, hruns, rfl⟩ := h
  exact ⟨_, _, (runs_branch hl).mpr ⟨_, rfl, hruns⟩, rfl⟩

theorem less {a b r : String}
    (h : Ends M program ⟨rest, stack, Function.update heap r (M.less (heap a) (heap b))⟩ times final) :
    Ends M program ⟨.instruction (.push a) :: .instruction (.push b) :: .instruction (.push r) ::
      .instruction (.invoke Signature.intLess) :: rest, stack, heap⟩ times final := by
  obtain ⟨n, trace, hruns, rfl⟩ := h
  exact ⟨_, _, (runs_invoke step_less).mpr ⟨_, rfl, hruns⟩, rfl⟩

theorem addOne {x : String} (h : Ends M program
      ⟨rest, stack, Function.update heap x (M.add (heap x) (heap c.one))⟩ times final) :
    Ends M program ⟨c.addOne x ++ rest, stack, heap⟩ times final := by
  obtain ⟨n, trace, hruns, rfl⟩ := h
  exact ⟨_, _, (runs_invoke step_add).mpr ⟨_, rfl, hruns⟩, rfl⟩

end Ends

theorem target?_remote (c : Code) : target? c.remote c.replay =
    some (.instruction (.label c.remote) :: (c.addOne c.executed ++ [.leaf bodyPart c.call])) := by
  have hlabels : labels c.replay = [c.remote] := rfl
  exact @target?_of_nodup (.leaf checkPart c.check :: .instruction (.push c.isOwner) ::
    .instruction (.jumpToIfFalse c.remote) :: (c.addOne c.counter ++ [.leaf markPart [.sentinel]]))
    _ _ (hlabels ▸ List.pairwise_singleton _ _)

namespace Code.Apart

variable (hc : c.Apart)

include hc

theorem target?_hookRemote :
    target? c.hookRemote c.catchUp = some (.instruction (.label c.hookRemote) :: c.rounds) :=
  @target?_of_nodup [.leaf hookCheckPart c.hookCheck, .instruction (.push c.hookIsOwner),
    .instruction (.jumpToIfFalse c.hookRemote), .instruction (.jumpTo c.done)] _ _ hc.labels

theorem target?_head : target? c.head c.catchUp = some c.rounds :=
  @target?_of_nodup [.leaf hookCheckPart c.hookCheck, .instruction (.push c.hookIsOwner),
    .instruction (.jumpToIfFalse c.hookRemote), .instruction (.jumpTo c.done),
    .instruction (.label c.hookRemote)] _ _ hc.labels

theorem target?_done : target? c.done c.catchUp = some [.instruction (.label c.done)] :=
  @target?_of_nodup c.catchUp.dropLast _ _ hc.labels

end Code.Apart

/-- An occurrence is run once, and every client counts it; the owner also counts it in the synced
variable. -/
theorem ends_replay (hc : c.Apart) (hbody : Spares c body) (h : Counts c heap occurrences runs) :
    ∃ final, Ends (machine c owns body) c.replay ⟨c.replay, [], heap⟩ 1 final ∧
      Counts c final (if owns then occurrences + 1 else occurrences) (runs + 1) := by
  -- From the label on, all clients do the same.
  have hremote {heap : Heap Value} {k : Nat} (h : Counts c heap k runs) : ∃ final,
      Ends (machine c owns body) c.replay
        ⟨.instruction (.label c.remote) :: (c.addOne c.executed ++ [.leaf bodyPart c.call]), [], heap⟩
        1 final ∧ Counts c final k (runs + 1) :=
    ⟨_, .label (.addOne (.call (.ended _))), (h.countRun hc).ofSpares hbody⟩
  have hchecked : Counts c (Function.update heap c.isOwner (.bool owns)) occurrences runs :=
    h.update hc.isOwner _
  have hanswer : Function.update heap c.isOwner (Value.bool owns) c.isOwner = .bool owns :=
    Function.update_self ..
  cases owns with
  | false =>
    obtain ⟨final, hends, hfinal⟩ := hremote hchecked
    refine ⟨final, .leaf (by decide) (.branch (target?_remote c) ?_), hfinal⟩
    show Ends _ _ ⟨if decide (Function.update heap c.isOwner (Value.bool false) c.isOwner = .bool true)
      then _ else _, _, _⟩ _ _
    rw [hanswer]
    exact hends
  | true =>
    obtain ⟨final, hends, hfinal⟩ := hremote (hchecked.countOccurrence hc)
    refine ⟨final, .leaf (by decide) (.branch (target?_remote c) ?_), hfinal⟩
    show Ends _ _ ⟨if decide (Function.update heap c.isOwner (Value.bool true) c.isOwner = .bool true)
      then _ else _, _, _⟩ _ _
    rw [hanswer]
    exact .addOne (.leaf (by decide) hends)

/-- The test of a round compares the two numbers. -/
theorem Ends.test {times : Nat} {final : Heap Value} (hc : c.Apart)
    (hoccurrences : occurrences < 2 ^ 31) (hruns : runs < 2 ^ 31) (h : Counts c heap occurrences runs)
    (hrest : Ends (machine c owns body) c.catchUp
      ⟨if runs < occurrences then c.round else [.instruction (.label c.done)], [],
        Function.update heap c.isBehind (.bool (runs < occurrences))⟩ times final) :
    Ends (machine c owns body) c.catchUp ⟨c.rounds, [], heap⟩ times final := by
  refine .label (.less (.branch hc.target?_done ?_))
  have hless : (machine c owns body).less (heap c.executed) (heap c.counter) =
      .bool (runs < occurrences) := by
    rw [h.executed, h.counter]
    exact less_ofNat hruns hoccurrences
  rw [hless, Function.update_self]
  simpa [machine] using hrest

/-- The rounds of the catch-up run the body until the client has run it as often as the counter says. -/
theorem ends_rounds (hc : c.Apart) (hbody : Spares c body) (hoccurrences : occurrences < 2 ^ 31)
    (hruns : runs < 2 ^ 31) (h : Counts c heap occurrences runs) :
    ∃ final, Ends (machine c owns body) c.catchUp ⟨c.rounds, [], heap⟩ (occurrences - runs) final ∧
      Counts c final occurrences (max runs occurrences) := by
  induction hleft : occurrences - runs generalizing heap runs with
  | zero =>
    have hbehind : ¬runs < occurrences := by omega
    refine ⟨Function.update heap c.isBehind (.bool (runs < occurrences)),
      .test hc hoccurrences hruns h ?_, ?_⟩
    · rw [if_neg hbehind]
      exact .label (.ended _)
    · rw [Nat.max_eq_left (by omega)]
      exact h.update hc.isBehind _
  | succ left ih =>
    have hbehind : runs < occurrences := by omega
    have hround := ((h.update hc.isBehind (.bool (runs < occurrences))).countRun hc).ofSpares hbody
    obtain ⟨final, hends, hfinal⟩ := ih (by omega) hround (by omega)
    refine ⟨final, .test hc hoccurrences hruns h ?_, ?_⟩
    · rw [if_pos hbehind]
      exact .addOne (.call (.jump hc.target?_head hends))
    · rwa [Nat.max_eq_right (by omega)] at hfinal ⊢

/-- After a value of the counter has arrived, a client that does not own the object runs the body as
often as it is behind. -/
theorem ends_catchUp (hc : c.Apart) (hbody : Spares c body) (hoccurrences : occurrences < 2 ^ 31)
    (hruns : runs < 2 ^ 31) (h : Counts c heap occurrences runs) :
    ∃ final, Ends (machine c false body) c.catchUp ⟨c.catchUp, [], heap⟩ (occurrences - runs) final ∧
      Counts c final occurrences (max runs occurrences) := by
  obtain ⟨final, hends, hfinal⟩ := @ends_rounds c false body _ _ _ hc hbody hoccurrences hruns
    (h.update hc.hookIsOwner (.bool false))
  refine ⟨final, .leaf (by decide) (.branch hc.target?_hookRemote ?_), hfinal⟩
  show Ends _ _ ⟨if decide (Function.update heap c.hookIsOwner (Value.bool false) c.hookIsOwner =
    .bool true) then _ else _, _, _⟩ _ _
  rw [Function.update_self]
  exact .label hends

end Replay

end TriggerCompiler
