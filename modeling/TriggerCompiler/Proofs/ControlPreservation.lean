import TriggerCompiler.Proofs.BlockCode

/-! Compiling the actions of an event preserves their order of execution. For every well-formed list of
actions, the code that is emitted for an event has the shape of the tree of its actions and places every
label once, so it runs as the tree does. -/

namespace TriggerCompiler

open Emission ControlFlow

variable {manifests : List Manifest} {action : ActionInstance} {d : PrimitiveDef} {c : Catalogue}
  {id : String}

namespace Catalogue

/-- Whether the actions that every program may use have their meaning in a catalogue. -/
def HasBuiltin (c : Catalogue) : Prop :=
  ∀ ⦃id : String⦄ ⦃d : PrimitiveDef⦄, builtin.primitive? id = some d → c.primitive? id = some d

theorem get?_foldl_insert {xs : List PrimitiveDef} {ps : OrderedMap String PrimitiveDef}
    (h : ∀ a ∈ xs, a.id ≠ id) : (xs.foldl (fun ps a => ps.insert a.id a) ps).get? id = ps.get? id := by
  induction xs generalizing ps with
  | nil => rfl
  | cons a xs ih =>
    rw [List.foldl_cons, ih fun b hb => h b (List.mem_cons_of_mem a hb), OrderedMap.get?_insert,
      if_neg (h a List.mem_cons_self)]

/-- A manifest keeps the actions that are registered. -/
theorem HasBuiltin.register {c' : Catalogue} {m : Manifest} (h : c.HasBuiltin)
    (hregister : c.register m = .ok c') : c'.HasBuiltin := by
  intro id d hd
  rw [Catalogue.register] at hregister
  cases hvalid : m.validate with
  | error problem => simp [hvalid, bind, Except.bind] at hregister
  | ok u =>
    simp only [hvalid, bind, Except.bind] at hregister
    cases hfind : m.actions.find? fun a => c.primitives.contains a.id with
    | some a => simp [hfind, throw, throwThe, MonadExceptOf.throw] at hregister
    | none =>
      simp only [hfind] at hregister
      split at hregister
      · cases hregister
      · cases hregister
        have hknown := h hd
        have hnew : ∀ a ∈ m.actions, a.id ≠ id := by
          rintro a ha rfl
          have habsent := List.find?_eq_none.mp hfind a ha
          exact habsent (OrderedMap.contains_eq_true.mpr ⟨d, hknown⟩)
        exact (get?_foldl_insert hnew).trans hknown

theorem HasBuiltin.foldlM_register {c' : Catalogue} (h : c.HasBuiltin)
    (hfold : manifests.foldlM Catalogue.register c = .ok c') : c'.HasBuiltin := by
  induction manifests generalizing c with
  | nil =>
    cases hfold
    exact h
  | cons m ms ih =>
    rw [List.foldlM_cons] at hfold
    cases hm : c.register m with
    | error problem => simp [hm, bind, Except.bind] at hfold
    | ok c₁ =>
      rw [hm] at hfold
      exact ih (h.register hm) hfold

theorem hasBuiltin_ofManifests
    (h : ofManifests manifests = .ok c) : c.HasBuiltin :=
  HasBuiltin.foldlM_register (fun _ _ hd => hd) h

/-- What an action does, if it is a primitive one. -/
def op? (c : Catalogue) (action : ActionInstance) : Option PrimitiveOp :=
  match action.action with
  | .primitive id => (c.primitive? id).map PrimitiveDef.op
  | .moduleEntry _ _ _ => none

/-- Whether an action neither opens nor closes nor leaves a block. -/
def isLeaf (c : Catalogue) (action : ActionInstance) : Bool :=
  match c.op? action with
  | some .assign => true
  | some (.invoke _) => true
  | _ => false

theorem op?_of_primitive (hid : action.action = .primitive id) (hd : c.primitive? id = some d) :
    c.op? action = some d.op := by
  rw [op?, hid]
  simp only [hd, Option.map_some]

/-- An action that every program may use and that has to do with blocks is no leaf. -/
theorem HasBuiltin.isLeaf_eq_false (h : c.HasBuiltin) (hid : action.action = .primitive id)
    (hd : builtin.primitive? id = some d) (hassign : d.op ≠ .assign)
    (hinvoke : ∀ signature, d.op ≠ .invoke signature) : c.isLeaf action = false := by
  rw [isLeaf, op?_of_primitive hid (h hd)]
  cases hop : d.op with
  | assign => exact absurd hop hassign
  | invoke signature => exact absurd hop (hinvoke signature)
  | _ => rfl

end Catalogue

/-- Whether the actions of a tree are what the tree takes them for: blocks are opened by the action of
their kind, with slots that fit, and closed by `end`; a branch continues a conditional; and `break` and
`continue` stand in a loop. The first truth value says whether there is a loop around the tree, and the
second whether the tree follows a branch of a conditional. -/
def ActionTree.wellFormed (c : Catalogue) : ActionTree → Bool → Bool → Bool
  | nil, _, _ => true
  | leaf action rest, inLoop, _ => c.isLeaf action && rest.wellFormed c inLoop false
  | exitLoop action rest, inLoop, _ =>
      action.action = .primitive "break" && inLoop && rest.wellFormed c inLoop false
  | nextIteration action rest, inLoop, _ =>
      action.action = .primitive "continue" && inLoop && rest.wellFormed c inLoop false
  | nest kind head body last rest, inLoop, continues =>
      head.action = .primitive kind.name && slotsFill head.inputs 0 kind.params &&
        (continues || !kind.followsConditional) && body.wellFormed c (inLoop || kind.isLoop) false &&
        last.action = .primitive "end" && rest.wellFormed c inLoop (kind = .cond || kind = .elseCond)

/-! ### Single actions -/

variable {kind : BlockKind}

namespace Emit

variable {ctx : Context} {method exit label : String} {location : Location} {action : ActionInstance}
  {e : Emission}

/-- The code of a primitive action, once it has been reported if it is deprecated. -/
def emitOp (method : String) (location : Location) (d : PrimitiveDef) (action : ActionInstance) :
    PrimitiveOp → EmitStep Unit
  | .openBlock kind => (openBlock method location d kind action : Emit Unit)
  | .closeBlock => closeBlock method location
  | .exitLoop => (emitBreak method location : Emit Unit)
  | .nextIteration => (emitContinue method location : Emit Unit)
  | .assign => (emitAssign method location d action : Emit Unit)
  | .invoke signature => (emitInvocation method location d signature action : Emit Unit)

theorem run_emitPrimitive (hdeprecated : d.deprecated = none) (e : Emission) :
    (emitPrimitive method location d action).run e = (emitOp method location d action d.op).run e := by
  rewrite [emitPrimitive, hdeprecated]
  generalize d.op = op
  cases op <;> rfl

/-- The state in which an action that does not continue a conditional is emitted. -/
def flushed (method : String) (e : Emission) : Emission := (flushPrevious method e).2

/-- An action that stands for a primitive one, which does not continue a conditional. -/
theorem run_emitAction_of_primitive
    (hid : action.action = .primitive id) (hd : ctx.catalogue.primitive? id = some d)
    (hfollows : (ResolvedAction.primitive d).followsConditional = false) (e : Emission) :
    (emitAction ctx method location action).run e =
      (emitPrimitive method location d action).run (flushed method e) := by
  have hresolve : ctx.catalogue.resolve ctx.modules action.action = .primitive d := by
    rw [hid, Catalogue.resolve, hd]
  rw [run_emitAction, hresolve, hfollows]
  rfl

/-- An action that leaves the order of the actions alone appends code. -/
theorem leaf_spec (method : String) (location : Location)
    (hleaf : ctx.catalogue.isLeaf action = true) (e : Emission) :
    ((emitAction ctx method location action).run e).1 = .ok () ∧
      ∃ code, Writes method code (flushed method e)
        ((emitAction ctx method location action).run e).2 := by
  rw [Catalogue.isLeaf, Catalogue.op?] at hleaf
  cases hid : action.action with
  | moduleEntry _ _ _ => simp [hid] at hleaf
  | primitive id =>
    cases hd : ctx.catalogue.primitive? id with
    | none => simp [hid, hd] at hleaf
    | some d =>
      simp only [hid, hd, Option.map_some] at hleaf
      have hprimitive (x : Emit Unit) (hx : Writing method x)
          (hrun : (emitPrimitive method location d action).run (flushed method e) =
            ((d.deprecated.elim x fun hint => do
                report (.deprecatedAction d.id hint) location
                x : Emit Unit) : EmitStep Unit).run (flushed method e))
          (hfollows : (ResolvedAction.primitive d).followsConditional = false) :
          ((emitAction ctx method location action).run e).1 = .ok () ∧
            ∃ code, Writes method code (flushed method e)
              ((emitAction ctx method location action).run e).2 := by
        rw [run_emitAction_of_primitive hid hd hfollows, hrun, Attempt.run_lift]
        refine ⟨rfl, ?_⟩
        cases d.deprecated with
        | none => exact hx _
        | some hint => exact Writing.bind (.of_local (.report _ _)) (fun _ => hx) _
      split at hleaf
      · rename_i hop
        have hop := Option.some.inj hop
        refine hprimitive _ (.emitAssign location d action) ?_ ?_
        · rw [emitPrimitive, hop]
          cases d.deprecated <;> rfl
        · simp [ResolvedAction.followsConditional, ResolvedAction.target?, hop]
      · rename_i signature hop
        have hop := Option.some.inj hop
        refine hprimitive _ (.emitInvocation location d signature action) ?_ ?_
        · rw [emitPrimitive, hop]
          cases d.deprecated <;> rfl
        · simp [ResolvedAction.followsConditional, ResolvedAction.target?, hop]
      · cases hleaf

theorem break_spec (hcatalogue : ctx.catalogue.HasBuiltin)
    (haction : action.action = .primitive "break")
    (hlabel : (flushed method e).blocks.innermostLoop?.bind BlockFrame.exitLabel = some label) :
    (emitAction ctx method location action).run e =
      (.ok (), (emit method [.jumpTo label] (flushed method e)).2) := by
  rw [run_emitAction_of_primitive haction (hcatalogue rfl) rfl, run_emitPrimitive rfl]
  refine (Attempt.run_lift _ _).trans ?_
  rw [emitBreak, run_get_bind, hlabel]

theorem continue_spec (hcatalogue : ctx.catalogue.HasBuiltin)
    (haction : action.action = .primitive "continue")
    (hlabel : (flushed method e).blocks.innermostLoop?.bind BlockFrame.continueLabel = some label) :
    (emitAction ctx method location action).run e =
      (.ok (), (emit method [.jumpTo label] (flushed method e)).2) := by
  rw [run_emitAction_of_primitive haction (hcatalogue rfl) rfl, run_emitPrimitive rfl]
  refine (Attempt.run_lift _ _).trans ?_
  rw [emitContinue, run_get_bind, hlabel]

theorem end_spec (hcatalogue : ctx.catalogue.HasBuiltin) (haction : action.action = .primitive "end") :
    (emitAction ctx method location action).run e =
      (closeBlock method location).run (flushed method e) := by
  rw [run_emitAction_of_primitive haction (hcatalogue rfl) rfl, run_emitPrimitive rfl, emitOp]

/-- A block that does not continue a conditional. -/
theorem open_spec (hcatalogue : ctx.catalogue.HasBuiltin)
    (hd : Catalogue.builtin.primitive? kind.name = some d) (hop : d.op = .openBlock kind)
    (hdeprecated : d.deprecated = none) (haction : action.action = .primitive kind.name)
    (hfollows : kind.followsConditional = false) : (emitAction ctx method location action).run e =
      (.ok (), (enterBlock method location d kind action none (flushed method e)).2) := by
  rw [run_emitAction_of_primitive haction (hcatalogue hd), run_emitPrimitive hdeprecated, hop]
  · refine (Attempt.run_lift _ _).trans ?_
    rw [openBlock, hfollows]
    rfl
  · simp [ResolvedAction.followsConditional, ResolvedAction.target?, hop, hfollows]

/-- A block that continues a conditional. -/
theorem follow_spec (hcatalogue : ctx.catalogue.HasBuiltin)
    (hd : Catalogue.builtin.primitive? kind.name = some d) (hop : d.op = .openBlock kind)
    (hdeprecated : d.deprecated = none) (haction : action.action = .primitive kind.name)
    (hfollows : kind.followsConditional = true) {previous : ClosedBlock}
    (hprevious : e.blocks.previous = some previous)
    (hkind : previous.kind = .cond ∨ previous.kind = .elseCond)
    (hexit : previous.pendingExit = some exit) : (emitAction ctx method location action).run e =
      (.ok (), (enterBlock method location d kind action (some exit) (settled e)).2) := by
  have hresolve : ctx.catalogue.resolve ctx.modules action.action = .primitive d := by
    rw [haction, Catalogue.resolve, hcatalogue hd]
  have hcontinues : (ResolvedAction.primitive d).followsConditional = true := by
    simp [ResolvedAction.followsConditional, ResolvedAction.target?, hop, hfollows]
  rw [run_emitAction, hresolve, if_pos hcontinues, emitResolved, run_emitPrimitive hdeprecated, hop]
  refine (Attempt.run_lift _ _).trans ?_
  rw [openBlock, hfollows, if_pos rfl, run_bind, takePendingExit_eq hprevious hkind hexit]

end Emit

/-! ### The labels of code -/

/-- Labels that have been handed out between two states, each once. -/
structure FreshLabels (low high : Nat) (labels : List String) : Prop where
  nodup : labels.Nodup
  fresh {l : String} : l ∈ labels → IsLabelBetween low high l

theorem FreshLabels.nil (low high : Nat) : FreshLabels low high [] := ⟨List.nodup_nil, fun h => by cases h⟩

theorem FreshLabels.append {low mid high : Nat} {ls ls' : List String}
    (h : FreshLabels low mid ls) (h' : FreshLabels mid high ls') (hlow : low ≤ mid)
    (hhigh : mid ≤ high) : FreshLabels low high (ls ++ ls') := by
  refine ⟨List.nodup_append.mpr ⟨h.nodup, h'.nodup, fun l hl l' hl' heq => ?_⟩, fun {l} hl => ?_⟩
  · subst heq
    exact (h.fresh hl).disjoint (Nat.le_refl _) (h'.fresh hl')
  · rcases List.mem_append.mp hl with hl | hl
    · exact (h.fresh hl).mono (Nat.le_refl _) hhigh
    · exact (h'.fresh hl).mono hlow (Nat.le_refl _)

/-- The labels of a block with numbers from a number on. -/
def blockLabels (kind : BlockKind) (n : Nat) : List String :=
  match kind with
  | .cond => [labelName "next" n, labelName "endif" (n + 1)]
  | .elseCond => [labelName "next" n]
  | .whileLoop => [labelName "while" n, labelName "wend" (n + 1)]
  | .forLoop => [labelName "for" n, labelName "fnext" (n + 1), labelName "fend" (n + 2)]
  | .otherwise | .plain => []

theorem freshLabels_block (kind : BlockKind) (n : Nat) :
    FreshLabels n (n + Emit.labelsOf kind) (blockLabels kind n) := by
  have hlabel (hint : String) (k : Nat) (hk : k < Emit.labelsOf kind) :
      IsLabelBetween n (n + Emit.labelsOf kind) (labelName hint (n + k)) :=
    ⟨hint, n + k, Nat.le_add_right _ _, Nat.add_lt_add_left hk n, rfl⟩
  refine ⟨?_, fun {l} hl => ?_⟩
  · cases kind <;> simp [blockLabels]
  · cases kind with
    | elseCond =>
      rw [List.mem_singleton.mp hl]
      exact hlabel _ 0 (by decide)
    | otherwise => cases hl
    | forLoop =>
      rcases List.mem_cons.mp hl with rfl | hl
      · exact hlabel _ 0 (by decide)
      · rcases List.mem_pair.mp hl with rfl | rfl
        · exact hlabel _ 1 (by decide)
        · exact hlabel _ 2 (by decide)
    | plain => cases hl
    | _ =>
      rcases List.mem_pair.mp hl with rfl | rfl
      · exact hlabel _ 0 (by decide)
      · exact hlabel _ 1 (by decide)

/-- Head, tail and pending end of a block place its labels, and the end that it continues. -/
theorem perm_blockLabels (kind : BlockKind) (n : Nat) (exit : String) (slots : Nat → String)
    (pending : Option String) (hpending : kind.followsConditional = true → pending = some exit) :
    ((if kind.followsConditional then [] else pending.toList) ++
      placedIn (Emit.headCode kind n slots) ++ placedIn (Emit.tailCode kind n exit slots) ++
      (Emit.tailExit kind n exit).toList).Perm (pending.toList ++ blockLabels kind n) := by
  cases kind with
  | elseCond =>
    rw [hpending rfl]
    exact List.Perm.swap _ _ _
  | otherwise =>
    rw [hpending rfl]
    exact List.Perm.refl _
  | _ =>
    rw [List.append_assoc, List.append_assoc]
    exact List.Perm.refl _

/-! ### Whole lists of actions -/

/-- The labels that `break` and `continue` jump to. -/
def loopOf (frames : List BlockFrame) : Option (String × String) :=
  (frames.find? BlockFrame.isLoop).bind fun frame =>
    frame.exitLabel.bind fun broke => frame.continueLabel.map fun continued => (broke, continued)

theorem find?_shape (frames : List BlockFrame) :
    (frames.map BlockFrame.shape).find? BlockFrame.isLoop =
      (frames.find? BlockFrame.isLoop).map BlockFrame.shape := List.find?_map ..

/-- In a loop, both labels are known. -/
theorem loop_labels {s : BlockStack} {broke continued : String}
    (h : loopOf s.shape.frames = some (broke, continued)) :
    s.innermostLoop?.bind BlockFrame.exitLabel = some broke ∧
      s.innermostLoop?.bind BlockFrame.continueLabel = some continued := by
  rw [loopOf, BlockStack.shape, find?_shape, ← BlockStack.innermostLoop?] at h
  cases hloop : s.innermostLoop? with
  | none => simp [hloop] at h
  | some frame =>
    rw [hloop, Option.map_some, Option.bind_some] at h
    obtain ⟨exit, hexit, h⟩ := Option.bind_eq_some_iff.mp h
    obtain ⟨next, hnext, h⟩ := Option.map_eq_some_iff.mp h
    cases h
    exact ⟨hexit, hnext⟩

/-- Only a conditional leaves its end to be placed. -/
def Continuable (previous : Option ClosedBlock) : Prop :=
  ∀ c, previous = some c → c.pendingExit ≠ none → c.kind = .cond ∨ c.kind = .elseCond

variable {xs ys : List ActionInstance} {pending' : Option String} {location : Location}
  {body rest tree : ActionTree} {frames : List BlockFrame} {e e' : Emission} {code : List Instruction}
  {i : Nat}

namespace Emit

/-- The parts of the code of the action at a position, which leads from one state to another. -/
def actionItems (c : Catalogue) (method : String) (i : Nat) (action : ActionInstance) (e e' : Emission) : List Item :=
  let code := (e'.codeOf method).drop (e.codeOf method).length
  if c.isLeaf action then flush e.pending ++ [.leaf i (code.drop (flushCode e.pending).length)]
  else code.map .instruction

section

variable (ctx : Context) (method : String) (event : Nat) (slots : Nat → Nat → String)
  (trail : Nat → Emission)

/-- The states and slots of a trail are those of the emission of actions from a position on. -/
def Follows : Nat → List ActionInstance → Prop
  | _, [] => True
  | i, action :: rest =>
      trail (i + 1) = ((emitAction ctx method (.ofAction event i) action).run (trail i)).2 ∧
        (∀ kind : BlockKind, action.action = .primitive kind.name →
          slots i = slotAt (.ofAction event i) kind action (trail i)) ∧
        Follows (i + 1) rest

/-- The parts of the code of actions from a position on. -/
def itemsFrom : Nat → List ActionInstance → List Item
  | _, [] => []
  | i, action :: rest =>
      actionItems ctx.catalogue method i action (trail i) (trail (i + 1)) ++ itemsFrom (i + 1) rest

/-- The actions of a tree have been emitted as code with the shape of the tree. -/
structure Emitted (i : Nat) (tree : ActionTree) (frames : List BlockFrame) : Prop where
  run : (emitActions ctx method event i tree.actions).run (trail i) =
    (.ok (), trail (i + tree.actions.length))
  stack : (trail (i + tree.actions.length)).blocks.shape.frames = frames
  continuable : Continuable (trail (i + tree.actions.length)).blocks.previous
  compiled : Compiled slots (loopOf frames) i tree (trail i).pending
    (itemsFrom ctx method trail i tree.actions ++ flush (trail (i + tree.actions.length)).pending)
  code : ∃ k, Codes method ((itemsFrom ctx method trail i tree.actions).flatMap Item.code) k (trail i)
    (trail (i + tree.actions.length))
  labels : ∃ ls, (placedIn ((itemsFrom ctx method trail i tree.actions).flatMap Item.code) ++
      (trail (i + tree.actions.length)).pending.toList).Perm ((trail i).pending.toList ++ ls) ∧
    FreshLabels (trail i).labelCount (trail (i + tree.actions.length)).labelCount ls

variable {ctx method event slots trail}

theorem follows_append
    (h : Follows ctx method event slots trail i (xs ++ ys)) : Follows ctx method event slots trail i xs ∧
      Follows ctx method event slots trail (i + xs.length) ys := by
  induction xs generalizing i with
  | nil => exact ⟨trivial, h⟩
  | cons x xs ih =>
    obtain ⟨hstep, hslots, hrest⟩ := h
    obtain ⟨hxs, hys⟩ := ih hrest
    refine ⟨⟨hstep, hslots, hxs⟩, ?_⟩
    rwa [List.length_cons, Nat.add_comm xs.length, ← Nat.add_assoc]

theorem itemsFrom_append (i : Nat) (xs ys : List ActionInstance) :
    itemsFrom ctx method trail i (xs ++ ys) =
      itemsFrom ctx method trail i xs ++ itemsFrom ctx method trail (i + xs.length) ys := by
  induction xs generalizing i with
  | nil => rfl
  | cons x xs ih =>
    rw [List.cons_append, itemsFrom, itemsFrom, ih, List.append_assoc, List.length_cons,
      Nat.add_comm xs.length, ← Nat.add_assoc]

theorem run_emitActions_append
    (h : (emitActions ctx method event i xs).run e = (.ok (), e')) :
    (emitActions ctx method event i (xs ++ ys)).run e =
      (emitActions ctx method event (i + xs.length) ys).run e' := by
  induction xs generalizing i e with
  | nil =>
    cases h
    rfl
  | cons x xs ih =>
    rw [emitActions, Attempt.run_bind] at h
    rw [List.cons_append, emitActions, Attempt.run_bind]
    rcases hx : (emitAction ctx method (.ofAction event i) x).run e with ⟨result, e₁⟩
    rw [hx] at h
    cases result with
    | error failure => cases h
    | ok _ =>
      rw [List.length_cons, Nat.add_comm xs.length, ← Nat.add_assoc]
      exact ih h

theorem run_emitActions_cons {rest : List ActionInstance}
    (h : (emitAction ctx method (.ofAction event i) action).run e = (.ok (), e')) :
    (emitActions ctx method event i (action :: rest)).run e =
      (emitActions ctx method event (i + 1) rest).run e' := by
  rw [emitActions, Attempt.run_bind, h]

theorem shape_flushed (method : String) (e : Emission) :
    (flushed method e).blocks.shape = { frames := e.blocks.shape.frames } := by
  rw [flushed, blocks_flushPrevious]
  rfl

theorem codes_flushed (method : String) (e : Emission) :
    Codes method (flushCode e.pending) 0 e (flushed method e) := codes_flushPrevious method e

theorem count_flushed (method : String) (e : Emission) : (flushed method e).labelCount = e.labelCount :=
  (codes_flushed method e).count

theorem pending_of_shape (h : e.blocks.shape = { frames }) : e.pending = none := by
  rw [Emission.pending, show e.blocks.previous = none from congrArg BlockStack.previous h]
  rfl

theorem continuable_of_shape (h : e.blocks.shape = { frames }) : Continuable e.blocks.previous := by
  intro c hc
  rw [show e.blocks.previous = none from congrArg BlockStack.previous h] at hc
  cases hc

theorem pending_of_closed {closed : ClosedBlock}
    (h : e.blocks.shape = { frames, previous := some closed }) : e.pending = closed.pendingExit := by
  rw [Emission.pending, show e.blocks.previous = some closed from congrArg BlockStack.previous h]
  rfl

@[simp] theorem flatMap_flush (pending : Option String) :
    (flush pending).flatMap Item.code = flushCode pending := by
  cases pending <;> rfl

@[simp] theorem placedIn_flushCode (pending : Option String) :
    placedIn (flushCode pending) = pending.toList := by
  cases pending <;> rfl

@[simp] theorem flatMap_instruction (code : List Instruction) :
    (code.map Item.instruction).flatMap Item.code = code := by
  induction code with
  | nil => rfl
  | cons i code ih => rw [List.map_cons, List.flatMap_cons, ih]; rfl

/-- One action that stands for itself, before the rest of a tree. -/
theorem Emitted.single (parts : List Item) (hactions : tree.actions = action :: rest.actions)
    (hrun : (emitAction ctx method (.ofAction event i) action).run (trail i) =
      (.ok (), trail (i + 1))) (hwrites : Writes method code (flushed method (trail i)) (trail (i + 1)))
    (hitems : actionItems ctx.catalogue method i action (trail i) (trail (i + 1)) =
      flush (trail i).pending ++ parts) (hparts : parts.flatMap Item.code = code)
    (hrest : Emitted ctx method event slots trail (i + 1) rest frames)
    (hcompiled : ∀ tail, Compiled slots (loopOf frames) (i + 1) rest none tail →
      Compiled slots (loopOf frames) i tree (trail i).pending
        (flush (trail i).pending ++ (parts ++ tail))) (hpending : (trail (i + 1)).pending = none) :
    Emitted ctx method event slots trail i tree frames := by
  have hlength : i + tree.actions.length = i + 1 + rest.actions.length := by
    rw [hactions, List.length_cons]
    omega
  have hall : itemsFrom ctx method trail i tree.actions =
      flush (trail i).pending ++ (parts ++ itemsFrom ctx method trail (i + 1) rest.actions) := by
    rw [hactions, itemsFrom, hitems, List.append_assoc]
  have hflat : (itemsFrom ctx method trail i tree.actions).flatMap Item.code =
      flushCode (trail i).pending ++
        (code ++ (itemsFrom ctx method trail (i + 1) rest.actions).flatMap Item.code) := by
    rw [hall, List.flatMap_append, List.flatMap_append, flatMap_flush, hparts]
  obtain ⟨k, hadds⟩ := hwrites.adds
  obtain ⟨k', hcodes⟩ := hrest.code
  obtain ⟨ls, hperm, hfresh⟩ := hrest.labels
  refine ⟨?_, ?_, ?_, ?_, ⟨0 + (k + k'), ?_⟩, placedIn code ++ ls, ?_, ?_⟩
  · rw [hactions, run_emitActions_cons hrun, hrest.run, ← hlength, hactions]
  · rw [hlength]
    exact hrest.stack
  · rw [hlength]
    exact hrest.continuable
  · rw [hall, hlength, List.append_assoc, List.append_assoc]
    refine hcompiled _ ?_
    rw [← hpending]
    exact hrest.compiled
  · rw [hflat, hlength]
    exact (codes_flushed method (trail i)).trans (hadds.toCodes.trans hcodes)
  · rw [hflat, hlength, placedIn_append, placedIn_append, placedIn_flushCode, List.append_assoc,
      List.append_assoc]
    rw [hpending] at hperm
    exact (hperm.append_left _).append_left _
  · rw [hlength]
    rw [← count_flushed method (trail i)]
    exact FreshLabels.append ⟨hwrites.nodup, hwrites.fresh⟩ hfresh hwrites.count_le hcodes.count_le

theorem loopOf_openFrame (kind : BlockKind) (location : Location) (n : Nat) (pending : Option String)
    (slots : Nat → String) (frames : List BlockFrame) :
    loopOf (openFrame kind location n pending slots :: frames) =
      match kind with
      | .whileLoop => some (labelName "wend" (n + 1), labelName "while" n)
      | .forLoop => some (labelName "fend" (n + 2), labelName "fnext" (n + 1))
      | _ => loopOf frames := by
  cases kind <;> rfl

/-- Head, body, tail and rest of a block have the shape of the block. -/
theorem compiled_nest (head last : ActionInstance) {n : Nat}
    {pending : Option String} {inner tail : List Item}
    (hpending : kind.followsConditional = true → pending = some exit)
    (hbody : Compiled slots (loopOf (openFrame kind location n pending' (slots i) :: frames)) (i + 1)
      body none inner)
    (hrest : Compiled slots (loopOf frames) (body.behind i) rest (tailExit kind n exit) tail) :
    Compiled slots (loopOf frames) i (.nest kind head body last rest) pending
      ((if kind.followsConditional then [] else flush pending) ++
        ((headCode kind n (slots i)).map .instruction ++
          (inner ++ ((tailCode kind n exit (slots i)).map .instruction ++ tail)))) := by
  rw [loopOf_openFrame] at hbody
  cases kind with
  | cond => exact .cond hbody hrest
  | elseCond =>
    rw [hpending rfl]
    exact .elseCond hbody hrest
  | otherwise =>
    rw [hpending rfl]
    exact .otherwise hbody hrest
  | whileLoop => exact .whileLoop hbody hrest
  | forLoop => exact .forLoop hbody hrest
  | plain =>
    show Compiled slots (loopOf frames) i _ pending (flush pending ++ (inner ++ tail))
    exact .plain hbody hrest

/-- A block with its head, body and tail, before the rest of a tree. -/
theorem Emitted.nest {n : Nat} {head last : ActionInstance}
    (hn : n = (trail i).labelCount)
    (hpending : kind.followsConditional = true → (trail i).pending = some exit)
    (hhead : (emitAction ctx method (.ofAction event i) head).run (trail i) = (.ok (), trail (i + 1)))
    (hheadItems : actionItems ctx.catalogue method i head (trail i) (trail (i + 1)) =
      (if kind.followsConditional then [] else flush (trail i).pending) ++
        (headCode kind n (slots i)).map .instruction)
    (hheadCode : Codes method ((if kind.followsConditional then [] else flushCode (trail i).pending) ++
      headCode kind n (slots i)) (labelsOf kind) (trail i) (trail (i + 1)))
    (hopen : (trail (i + 1)).pending = none) (hbody : Emitted ctx method event slots trail (i + 1) body
      (openFrame kind location n pending' (slots i) :: frames))
    (hlast : (emitAction ctx method (.ofAction event (i + 1 + body.actions.length)) last).run
      (trail (i + 1 + body.actions.length)) = (.ok (), trail (body.behind i)))
    (hlastItems : actionItems ctx.catalogue method (i + 1 + body.actions.length) last
      (trail (i + 1 + body.actions.length)) (trail (body.behind i)) =
        flush (trail (i + 1 + body.actions.length)).pending ++
          (tailCode kind n exit (slots i)).map .instruction)
    (hlastCode : Codes method (flushCode (trail (i + 1 + body.actions.length)).pending ++
      tailCode kind n exit (slots i)) 0 (trail (i + 1 + body.actions.length)) (trail (body.behind i)))
    (hclosed : (trail (body.behind i)).pending = tailExit kind n exit)
    (hrest : Emitted ctx method event slots trail (body.behind i) rest frames) :
    Emitted ctx method event slots trail i (.nest kind head body last rest) frames := by
  have hlength : i + (ActionTree.nest kind head body last rest).actions.length =
      body.behind i + rest.actions.length := by
    simp only [ActionTree.actions, ActionTree.behind, List.length_cons, List.length_append]
    omega
  have hall : itemsFrom ctx method trail i (ActionTree.nest kind head body last rest).actions =
      (if kind.followsConditional then [] else flush (trail i).pending) ++
        ((headCode kind n (slots i)).map .instruction ++
          (itemsFrom ctx method trail (i + 1) body.actions ++
            (flush (trail (i + 1 + body.actions.length)).pending ++
              ((tailCode kind n exit (slots i)).map .instruction ++
                itemsFrom ctx method trail (body.behind i) rest.actions)))) := by
    rw [ActionTree.actions, itemsFrom, hheadItems, itemsFrom_append, itemsFrom,
      show i + 1 + body.actions.length + 1 = body.behind i from rfl, hlastItems]
    simp only [List.append_assoc]
  have hflat : (itemsFrom ctx method trail i (ActionTree.nest kind head body last rest).actions).flatMap
      Item.code = ((if kind.followsConditional then [] else flushCode (trail i).pending) ++
        headCode kind n (slots i)) ++ ((itemsFrom ctx method trail (i + 1) body.actions).flatMap Item.code ++
          ((flushCode (trail (i + 1 + body.actions.length)).pending ++ tailCode kind n exit (slots i)) ++
            (itemsFrom ctx method trail (body.behind i) rest.actions).flatMap Item.code)) := by
    rw [hall]
    simp only [List.flatMap_append, flatMap_flush, flatMap_instruction, List.append_assoc]
    cases kind.followsConditional with
    | true => rfl
    | false => exact congrArg (· ++ _) (flatMap_flush _)
  obtain ⟨k, hbodyCode⟩ := hbody.code
  obtain ⟨k', hrestCode⟩ := hrest.code
  obtain ⟨ls, hperm, hfresh⟩ := hbody.labels
  obtain ⟨ls', hperm', hfresh'⟩ := hrest.labels
  refine ⟨?_, ?_, ?_, ?_, ⟨labelsOf kind + (k + (0 + k')), ?_⟩, blockLabels kind n ++ (ls ++ ls'), ?_, ?_⟩
  · rw [ActionTree.actions, run_emitActions_cons hhead, run_emitActions_append hbody.run,
      run_emitActions_cons hlast]
    exact hrest.run.trans (by rw [← hlength]; rfl)
  · rw [hlength]
    exact hrest.stack
  · rw [hlength]
    exact hrest.continuable
  · have hbodyShape := hbody.compiled
    have hrestShape := hrest.compiled
    rw [hopen] at hbodyShape
    rw [hclosed] at hrestShape
    have hshape := compiled_nest head last hpending hbodyShape hrestShape
    rw [hall, hlength]
    simpa only [List.append_assoc] using hshape
  · rw [hflat, hlength]
    exact hheadCode.trans (hbodyCode.trans (hlastCode.trans hrestCode))
  · rw [hflat, hlength, List.perm_iff_count]
    intro a
    have hinner := hperm.count_eq a
    have houter := hperm'.count_eq a
    have hblock := (perm_blockLabels kind n exit (slots i) _ hpending).count_eq a
    have hstart : placedIn (if kind.followsConditional then [] else flushCode (trail i).pending) =
        if kind.followsConditional then [] else (trail i).pending.toList := by
      split
      · rfl
      · exact placedIn_flushCode _
    rw [hopen] at hinner
    rw [hclosed] at houter
    simp only [placedIn_append, placedIn_flushCode, hstart, List.count_append, Option.toList_none,
      List.count_nil] at hinner houter hblock ⊢
    omega
  · rw [hlength]
    have hcount : (trail (body.behind i)).labelCount =
        (trail (i + 1 + body.actions.length)).labelCount := hlastCode.count
    have hlast' := hrestCode.count_le
    rw [hcount] at hfresh' hlast'
    have hown := freshLabels_block kind n
    rw [hn, ← hheadCode.count] at hown
    rw [hn]
    exact hown.append (hfresh.append hfresh' hbodyCode.count_le hlast') hheadCode.count_le
      (Nat.le_trans hbodyCode.count_le hlast')

theorem actionItems_of_leaf {k : Nat} (hleaf : ctx.catalogue.isLeaf action = true)
    (h : Codes method (flushCode e.pending ++ code) k e e') :
    actionItems ctx.catalogue method i action e e' = flush e.pending ++ [.leaf i code] := by
  rw [actionItems, h.drop_eq, if_pos hleaf, List.drop_left]

theorem actionItems_of_block {k : Nat}
    (hleaf : ctx.catalogue.isLeaf action = false) (h : Codes method code k e e') :
    actionItems ctx.catalogue method i action e e' = code.map .instruction := by
  rw [actionItems, h.drop_eq, if_neg (by simp [hleaf])]

theorem map_flushCode (pending : Option String) :
    (flushCode pending).map Item.instruction = flush pending := by
  cases pending <;> rfl

theorem isLeaf_of_name (hcatalogue : ctx.catalogue.HasBuiltin)
    (h : action.action = .primitive kind.name) : ctx.catalogue.isLeaf action = false := by
  obtain ⟨d, hd, hop, -, -⟩ := kind.primitive?_name
  exact hcatalogue.isLeaf_eq_false h hd (by simp [hop]) (by simp [hop])

/-- A jump out of a round of the innermost loop. -/
theorem Emitted.leave (hactions : tree.actions = action :: rest.actions)
    (hleaf : ctx.catalogue.isLeaf action = false)
    (hnext : trail (i + 1) = ((emitAction ctx method (.ofAction event i) action).run (trail i)).2)
    (hrun : (emitAction ctx method (.ofAction event i) action).run (trail i) =
      (.ok (), (emit method [.jumpTo label] (flushed method (trail i))).2))
    (hrest : (trail (i + 1)).blocks.shape = { frames := (trail i).blocks.shape.frames } →
      Emitted ctx method event slots trail (i + 1) rest frames)
    (hcompiled : ∀ tail, Compiled slots (loopOf frames) (i + 1) rest none tail →
      Compiled slots (loopOf frames) i tree (trail i).pending
        (flush (trail i).pending ++ (.instruction (.jumpTo label) :: tail))) :
    Emitted ctx method event slots trail i tree frames := by
  rw [hrun] at hnext
  have hemit := adds_emit method [.jumpTo label] (flushed method (trail i))
  rw [← hnext] at hemit hrun
  have hshape := hemit.shape.trans (shape_flushed method (trail i))
  refine Emitted.single [.instruction (.jumpTo label)] hactions hrun (hemit.writes rfl) ?_
    rfl (hrest hshape) hcompiled (pending_of_shape hshape)
  rw [actionItems_of_block hleaf ((codes_flushed method (trail i)).trans hemit.toCodes),
    List.map_append, map_flushCode]
  rfl

/-- An action that opens a block: where the slots of the block are filled, and the end of the conditional
that the block continues. -/
theorem open_cases (method : String) (location : Location) (hcatalogue : ctx.catalogue.HasBuiltin)
    (haction : action.action = .primitive kind.name) (hprevious : Continuable e.blocks.previous)
    (hcontinues : kind.followsConditional = true → e.pending ≠ none) :
    ∃ d e₀ pending' exit, d.params = kind.params ∧
      (kind.followsConditional = true → e.pending = some exit ∧ pending' = some exit) ∧
      Codes method (if kind.followsConditional then [] else flushCode e.pending) 0 e e₀ ∧
      e.Alike e₀ ∧ e₀.blocks.shape = { frames := e.blocks.shape.frames } ∧
      (emitAction ctx method location action).run e =
        (.ok (), (enterBlock method location d kind action pending' e₀).2) := by
  obtain ⟨d, hd, hop, hparams, hdeprecated⟩ := kind.primitive?_name
  cases hfollows : kind.followsConditional with
  | false =>
    refine ⟨d, flushed method e, none, "", hparams, nofun, ?_, ?_, ?_, ?_⟩
    · exact codes_flushed method e
    · exact alike_flushPrevious method e
    · exact shape_flushed method e
    · exact open_spec hcatalogue hd hop hdeprecated haction hfollows
  | true =>
    obtain ⟨exit, hexit⟩ := Option.ne_none_iff_exists'.mp (hcontinues hfollows)
    obtain ⟨previous, hsome, hpending⟩ := Option.bind_eq_some_iff.mp hexit
    refine ⟨d, settled e, some exit, exit, hparams, fun _ => ⟨hexit, rfl⟩, ?_, ⟨rfl, rfl⟩, rfl, ?_⟩
    · exact ⟨fun x => by simp [settled, codeOf], rfl⟩
    · exact follow_spec hcatalogue hd hop hdeprecated haction hfollows hsome
        (hprevious previous hsome (by simp [hpending])) hpending

/-- An action that opens a block, with the code of the head. -/
theorem opens_block {location : Location} (hcatalogue : ctx.catalogue.HasBuiltin)
    (haction : action.action = .primitive kind.name)
    (hfill : slotsFill action.inputs 0 kind.params = true) (hprevious : Continuable e.blocks.previous)
    (hcontinues : kind.followsConditional = true → e.pending ≠ none)
    (hnext : e' = ((emitAction ctx method location action).run e).2)
    (hslots : slots i = slotAt location kind action e) : ∃ pending' exit,
      (kind.followsConditional = true → e.pending = some exit ∧ pending' = some exit) ∧
      (emitAction ctx method location action).run e = (.ok (), e') ∧
      Codes method ((if kind.followsConditional then [] else flushCode e.pending) ++
        headCode kind e.labelCount (slots i)) (labelsOf kind) e e' ∧
      actionItems ctx.catalogue method i action e e' =
        (if kind.followsConditional then [] else flush e.pending) ++
          (headCode kind e.labelCount (slots i)).map .instruction ∧
      e'.blocks.shape =
        { frames := openFrame kind location e.labelCount pending' (slots i) :: e.blocks.shape.frames } := by
  obtain ⟨d, e₀, pending', exit, hparams, hexit, hstart, halike, hshape₀, hrun⟩ :=
    open_cases method location hcatalogue haction hprevious hcontinues
  obtain ⟨hcode, hshape⟩ := enterBlock_spec method location kind pending' hparams hfill e₀
  have hcount : e₀.labelCount = e.labelCount := hstart.count
  rw [hrun] at hnext
  rw [← hnext, ← slotAt_of_alike halike, ← hslots, hcount] at hcode hshape
  rw [hshape₀] at hshape
  rw [← hnext] at hrun
  have hcodes := hstart.trans hcode
  rw [Nat.zero_add] at hcodes
  refine ⟨pending', exit, hexit, hrun, hcodes, ?_, hshape⟩
  rw [actionItems_of_block (isLeaf_of_name hcatalogue haction) hcodes, List.map_append]
  split
  · rfl
  · rw [map_flushCode]

/-- An action that closes a block, with the code of the tail. -/
theorem closes_block {location openedAt : Location} {n : Nat} {pending' : Option String}
    {below : BlockFrame} {others : List BlockFrame} {slots : Nat → String}
    (hcatalogue : ctx.catalogue.HasBuiltin) (haction : action.action = .primitive "end")
    (hstack : e.blocks.shape.frames = openFrame kind openedAt n pending' slots :: below :: others)
    (hexit : kind.followsConditional = true → pending' = some exit)
    (hnext : e' = ((emitAction ctx method location action).run e).2) :
    (emitAction ctx method location action).run e = (.ok (), e') ∧
      Codes method (flushCode e.pending ++ tailCode kind n exit slots) 0 e e' ∧
      actionItems ctx.catalogue method i action e e' =
        flush e.pending ++ (tailCode kind n exit slots).map .instruction ∧
      e'.blocks.shape =
        { frames := below :: others, previous := some ⟨kind, location, tailExit kind n exit⟩ } := by
  obtain ⟨hok, hcode, hclosed⟩ := closeBlock_spec method location (e := flushed method e)
    (by rw [shape_flushed, hstack]) hexit
  rw [end_spec hcatalogue haction] at hnext ⊢
  rw [← hnext] at hcode hclosed
  have hcodes := (codes_flushed method e).trans hcode
  refine ⟨Prod.ext hok hnext.symm, hcodes, ?_, hclosed⟩
  rw [actionItems_of_block (hcatalogue.isLeaf_eq_false haction rfl nofun nofun) hcodes, List.map_append,
    map_flushCode]

/-- The actions of a well-formed tree are emitted as code with the shape of the tree. -/
theorem emitted_of_wellFormed (hcatalogue : ctx.catalogue.HasBuiltin) {inLoop continues : Bool}
    (hwf : tree.wellFormed ctx.catalogue inLoop continues = true)
    (hfollows : Follows ctx method event slots trail i tree.actions)
    (hstack : (trail i).blocks.shape.frames = frames) (hprevious : Continuable (trail i).blocks.previous)
    (hcontinues : continues = true → (trail i).pending ≠ none)
    (hloop : inLoop = true → ∃ broke continued, loopOf frames = some (broke, continued))
    (hframes : frames ≠ []) : Emitted ctx method event slots trail i tree frames := by
  induction tree generalizing inLoop continues i frames with
  | nil =>
    refine ⟨rfl, hstack, hprevious, .nil, ⟨0, (Adds.refl method _).toCodes⟩, [], ?_, .nil _ _⟩
    exact List.perm_append_comm
  | leaf action rest ih =>
    rw [ActionTree.wellFormed, Bool.and_eq_true] at hwf
    obtain ⟨hnext, -, hrest⟩ := hfollows
    obtain ⟨hok, code, hwrites⟩ := leaf_spec method (.ofAction event i) hwf.1 (trail i)
    rw [← hnext] at hwrites
    obtain ⟨k, hadds⟩ := hwrites.adds
    have hshape := hwrites.shape.trans (shape_flushed method (trail i))
    rw [hstack] at hshape
    have hcodes := (codes_flushed method (trail i)).trans hadds.toCodes
    refine Emitted.single [.leaf i code] rfl (Prod.ext hok hnext.symm) hwrites
      (actionItems_of_leaf hwf.1 hcodes) (List.append_nil _) ?_ (fun _ => .leaf code)
      (pending_of_shape hshape)
    exact ih hwf.2 hrest (congrArg BlockStack.frames hshape) (continuable_of_shape hshape)
      nofun hloop hframes
  | exitLoop action rest ih =>
    simp only [ActionTree.wellFormed, Bool.and_eq_true, decide_eq_true_eq] at hwf
    obtain ⟨⟨haction, hin⟩, hwf⟩ := hwf
    obtain ⟨hnext, -, hrest⟩ := hfollows
    obtain ⟨broke, continued, hlabels⟩ := hloop hin
    have hknown : loopOf (flushed method (trail i)).blocks.shape.frames = some (broke, continued) := by
      rw [shape_flushed, hstack, hlabels]
    refine .leave rfl (hcatalogue.isLeaf_eq_false haction rfl nofun nofun) hnext
      (break_spec hcatalogue haction (loop_labels hknown).1) (fun hshape => ?_) fun tail h => ?_
    · rw [hstack] at hshape
      exact ih hwf hrest (congrArg BlockStack.frames hshape) (continuable_of_shape hshape)
        nofun hloop hframes
    · rw [hlabels] at h ⊢
      exact .exitLoop h
  | nextIteration action rest ih =>
    simp only [ActionTree.wellFormed, Bool.and_eq_true, decide_eq_true_eq] at hwf
    obtain ⟨⟨haction, hin⟩, hwf⟩ := hwf
    obtain ⟨hnext, -, hrest⟩ := hfollows
    obtain ⟨broke, continued, hlabels⟩ := hloop hin
    have hknown : loopOf (flushed method (trail i)).blocks.shape.frames = some (broke, continued) := by
      rw [shape_flushed, hstack, hlabels]
    refine .leave rfl (hcatalogue.isLeaf_eq_false haction rfl nofun nofun) hnext
      (continue_spec hcatalogue haction (loop_labels hknown).2) (fun hshape => ?_) fun tail h => ?_
    · rw [hstack] at hshape
      exact ih hwf hrest (congrArg BlockStack.frames hshape) (continuable_of_shape hshape)
        nofun hloop hframes
    · rw [hlabels] at h ⊢
      exact .nextIteration h
  | nest kind head body last rest ihbody ihrest =>
    simp only [ActionTree.wellFormed, Bool.and_eq_true, decide_eq_true_eq] at hwf
    obtain ⟨⟨⟨⟨⟨hhead, hfill⟩, hfits⟩, hwfbody⟩, hlast⟩, hwfrest⟩ := hwf
    obtain ⟨hnext, hslots, hfollows⟩ := hfollows
    obtain ⟨hfollowsBody, hnextLast, -, hfollowsRest⟩ := follows_append hfollows
    obtain ⟨pending', exit, hexit, hrun, hcodes, hitems, hshape⟩ := opens_block hcatalogue hhead hfill
      hprevious (fun h => hcontinues (by simpa [h] using hfits)) hnext (hslots kind hhead)
    rw [hstack] at hshape
    -- In the body the labels of a loop are known.
    have hbody := ihbody hwfbody hfollowsBody (congrArg BlockStack.frames hshape)
      (continuable_of_shape hshape) nofun
      (fun h => by
        rw [loopOf_openFrame]
        cases kind <;> first
          | exact ⟨_, _, rfl⟩
          | exact hloop (by simpa [BlockKind.isLoop] using h)) (List.cons_ne_nil _ _)
    obtain ⟨below, others, rfl⟩ := List.exists_cons_of_ne_nil hframes
    obtain ⟨hrunLast, htail, hitemsLast, hclosed⟩ := closes_block (i := i + 1 + body.actions.length)
      hcatalogue hlast hbody.stack (fun h => (hexit h).2) hnextLast
    have hrest := ihrest hwfrest hfollowsRest (congrArg BlockStack.frames hclosed) ?_ ?_ hloop hframes
    · exact .nest rfl (fun h => (hexit h).1) hrun hitems hcodes (pending_of_shape hshape) hbody hrunLast
        hitemsLast htail (pending_of_closed hclosed) hrest
    · intro c hc hpending
      obtain rfl := Option.some.inj ((congrArg BlockStack.previous hclosed).symm.trans hc)
      revert hpending
      cases kind <;> simp [tailExit]
    · intro h
      rw [pending_of_closed hclosed]
      revert h
      cases kind <;> simp [tailExit]

end

/-! ### Events -/

section

variable (ctx : Context) (method : String) (event : Nat) (actions : List ActionInstance)
  (e : Emission)

/-- The state before the action at a position, from the state before the first one. -/
def stateAt : Nat → Emission
  | 0 => e
  | i + 1 =>
      match actions[i]? with
      | none => stateAt i
      | some action => ((emitAction ctx method (.ofAction event i) action).run (stateAt i)).2

/-- The variables in the slots of the action at a position, if it opens a block. -/
def slotsAt (i : Nat) : Nat → String :=
  match actions[i]? with
  | none => fun _ => ""
  | some action =>
      match ctx.catalogue.op? action with
      | some (.openBlock kind) =>
          slotAt (.ofAction event i) kind action (stateAt ctx method event actions e i)
      | _ => fun _ => ""

/-- The parts of the code of an event. -/
def eventItems : List Item :=
  itemsFrom ctx method (stateAt ctx method event actions e) 0 actions ++
    flush (stateAt ctx method event actions e actions.length).pending

variable {ctx method event actions e}

theorem follows_stateAt (hcatalogue : ctx.catalogue.HasBuiltin)
    {rest : List ActionInstance} (h : actions.drop i = rest) :
    Follows ctx method event (slotsAt ctx method event actions e)
      (stateAt ctx method event actions e) i rest := by
  induction rest generalizing i with
  | nil => trivial
  | cons action rest ih =>
    have haction : actions[i]? = some action := by
      rw [← List.head?_drop, h]
      rfl
    refine ⟨?_, fun kind hkind => ?_, ih ?_⟩
    · rw [stateAt, haction]
    · obtain ⟨d, hd, hop, -, -⟩ := kind.primitive?_name
      rw [slotsAt, haction]
      simp only [Catalogue.op?_of_primitive hkind (hcatalogue hd), hop]
    · rw [← List.drop_drop, h]
      rfl

end

/-- The end of an event: the last conditional is closed, and no block may be left. -/
def endBody (method : String) (event : Nat) (e : Emission) : Except Failure Unit × Emission :=
  let e := flushed method e
  let (result, blocks, symbols) := e.blocks.finish event e.program.symbols
  (result, { e with blocks, program := { e.program with symbols } })

theorem run_emitBody_eq (ctx : Context) (method : String) (event : Nat) (params : List VarId)
    (actions : List ActionInstance) (e : Emission) :
    (emitBody ctx method event params actions).run e =
      match (emitActions ctx method event 0 actions).run { e with blocks := .ofParameters params } with
      | (.ok _, e') => endBody method event e'
      | (.error failure, e') => (.error failure, e') := by
  have hstart : (modifyBlocks (fun _ => .ofParameters params) e).2 =
      { e with blocks := .ofParameters params } := rfl
  rw [emitBody, Attempt.run_bind, Attempt.run_lift]
  dsimp only
  rw [Attempt.run_bind, hstart]
  rcases (emitActions ctx method event 0 actions).run { e with blocks := .ofParameters params } with
    ⟨- | -, e'⟩
  · rfl
  · dsimp only
    rw [Attempt.run_bind, Attempt.run_lift]
    dsimp only
    rw [Attempt.run_get_bind, endBody, flushed]
    rcases (flushPrevious method e').2.blocks.finish event (flushPrevious method e').2.program.symbols
      with ⟨- | -, blocks, symbols⟩ <;> rfl

/-- The end of an event in which every block is closed. -/
theorem run_emitBody {ctx : Context} {method : String} {event : Nat} {params : List VarId}
    {actions : List ActionInstance} {frame : BlockFrame}
    (hrun : (emitActions ctx method event 0 actions).run { e with blocks := .ofParameters params } =
      (.ok (), e')) (hframes : e'.blocks.shape.frames = [frame]) :
    ((emitBody ctx method event params actions).run e).1 = .ok () ∧
      ((emitBody ctx method event params actions).run e).2.codeOf method =
        (flushed method e').codeOf method := by
  have hdepth : ¬0 < (flushed method e').blocks.depth := by
    have hlength := congrArg List.length hframes
    rw [BlockStack.shape, List.length_map, List.length_singleton] at hlength
    rw [flushed, blocks_flushPrevious, BlockStack.depth, hlength]
    decide
  rw [run_emitBody_eq, hrun]
  exact ⟨if_neg hdepth, rfl⟩

end Emit

theorem labels_sublist_placedIn (items : List Item) :
    (labels items).Sublist (placedIn (items.flatMap Item.code)) := by
  induction items with
  | nil => exact .slnil
  | cons item items ih =>
    rw [List.flatMap_cons, placedIn_append]
    cases item with
    | leaf position code => exact ih.trans (List.sublist_append_right _ _)
    | instruction i =>
      have hhead : labels [.instruction i] = placedIn (Item.instruction i).code := by
        cases h : i.placedLabel? <;> simp [labels, placedIn, Item.code, Item.label?, h]
      rw [← List.singleton_append, labels_append, hhead]
      exact ih.append_left _

/-- The code that is emitted for an event runs from its first instruction to its end exactly as the
actions of the event do: on every heap, and whatever its other actions do, it runs the same actions on
the same heaps and leaves the same heap, or else neither of the two ends. -/
theorem emitBody_runs_iff_exec {ctx : Context} {manifests : List Manifest}
    (hcatalogue : Catalogue.ofManifests manifests = .ok ctx.catalogue) {tree : ActionTree}
    (hwf : tree.wellFormed ctx.catalogue false false = true) (method : String) (event : Nat)
    (params : List VarId) (e : Emission) :
    let start := { e with blocks := .ofParameters params }
    let items := Emit.eventItems ctx method event tree.actions start
    ((Emit.emitBody ctx method event params tree.actions).run e).1 = .ok () ∧
      ((Emit.emitBody ctx method event params tree.actions).run e).2.codeOf method =
        e.codeOf method ++ items.flatMap Item.code ∧
      (placedIn (items.flatMap Item.code)).Nodup ∧
      ∀ (V : Type) (M : Interpretation V) (heap final : Heap V) (trace : Trace V),
        (∃ n, Runs M items n ⟨items, [], heap⟩ trace final) ↔
          Exec M (Emit.slotsAt ctx method event tree.actions start) 0 tree false heap trace final
            .normal := by
  intro start items
  have hbuiltin := Catalogue.hasBuiltin_ofManifests hcatalogue
  let trail := Emit.stateAt ctx method event tree.actions start
  have hstart : start.blocks.previous = none := rfl
  have h : Emit.Emitted ctx method event (Emit.slotsAt ctx method event tree.actions start) trail 0 tree
      [.ofParameters []] :=
    Emit.emitted_of_wellFormed hbuiltin hwf (Emit.follows_stateAt hbuiltin rfl) rfl
      (fun c hc => nomatch hstart.symm.trans hc) nofun nofun (List.cons_ne_nil _ _)
  have hitems : items = Emit.itemsFrom ctx method trail 0 tree.actions ++
      flush (trail (0 + tree.actions.length)).pending := by
    rw [Nat.zero_add]
    rfl
  obtain ⟨ls, hperm, hfresh⟩ := h.labels
  have hnodup : (placedIn (items.flatMap Item.code)).Nodup := by
    rw [hitems, List.flatMap_append, placedIn_append, Emit.flatMap_flush, Emit.placedIn_flushCode]
    exact hperm.symm.nodup hfresh.nodup
  obtain ⟨k, hcodes⟩ := h.code
  obtain ⟨hok, hcode⟩ := Emit.run_emitBody h.run h.stack
  refine ⟨hok, ?_, hnodup, fun V M heap final trace => ?_⟩
  · rw [hcode, (hcodes.trans (Emit.codes_flushed method _)).code method, if_pos rfl, hitems,
      List.flatMap_append, Emit.flatMap_flush]
    rfl
  · have hlabels := hnodup.sublist (labels_sublist_placedIn items)
    rw [hitems] at hlabels ⊢
    exact h.compiled.runs_iff_exec hlabels

/-- A loop that a conditional leaves or begins anew, before a loop that counts. -/
def sampleTree : ActionTree :=
  let close : ActionInstance := { action := .primitive "end" }
  let log : ActionInstance := { action := .primitive "debug_log", inputs := [.reference .this] }
  .nest .whileLoop { action := .primitive "while", inputs := [.constant (.bool true)] }
    (.nest .cond { action := .primitive "if", inputs := [.constant (.bool false)] }
      (.exitLoop { action := .primitive "break" } .nil) close
      (.nest .otherwise { action := .primitive "else" }
        (.leaf log (.nextIteration { action := .primitive "continue" } .nil)) close .nil)) close
    (.nest .forLoop { action := .primitive "for", inputs := [.constant (.int 0), .constant (.int 3)] }
      (.leaf log .nil) close .nil)

theorem emitBody_runs_iff_exec_sampleTree :
    let ctx : Context :=
      { source := { key := "sample", data := {} }, catalogue := .builtin, modules := .empty, settings := {} }
    let start : Emission := { blocks := .ofParameters [] }
    let items := Emit.eventItems ctx "_start" 0 sampleTree.actions start
    Catalogue.ofManifests [] = .ok ctx.catalogue ∧
      sampleTree.wellFormed ctx.catalogue false false = true ∧
      ((Emit.emitBody ctx "_start" 0 [] sampleTree.actions).run {}).1 = .ok () ∧
      ∀ (V : Type) (M : Interpretation V) (heap final : Heap V) (trace : Trace V),
        (∃ n, Runs M items n ⟨items, [], heap⟩ trace final) ↔
          Exec M (Emit.slotsAt ctx "_start" 0 sampleTree.actions start) 0 sampleTree false heap trace
            final .normal := by
  intro ctx start items
  have hcatalogue : Catalogue.ofManifests [] = .ok ctx.catalogue := rfl
  have hwf : sampleTree.wellFormed ctx.catalogue false false = true := rfl
  obtain ⟨hok, -, -, hruns⟩ := emitBody_runs_iff_exec hcatalogue hwf "_start" 0 [] {}
  exact ⟨hcatalogue, hwf, hok, hruns⟩

end TriggerCompiler
