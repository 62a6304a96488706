import TriggerCompiler.Proofs.BlockGrammar
import TriggerCompiler.Proofs.ControlPreservation

/-! The blocks of an event are checked exactly by the grammar of blocks. While the actions of an event are
emitted, the frames of the stack are the open blocks, and the block that was closed last can be continued
exactly where a branch may stand. A rejected branch, and a block whose operands fail, still has a frame,
so that its end closes it. All that is emitted and reported besides leaves this correspondence alone. -/

namespace TriggerCompiler

open Emission

/-! ### Steps that have to do with no block -/

/-- The problems with the place of actions that are reported between two states. -/
def Emission.Finds (found : List Finding) (e e' : Emission) : Prop :=
  ∃ new, e'.findings = e.findings ++ new ∧ new.filter (·.problem.isNesting) = found

namespace Emission.Finds

variable {e e' e'' : Emission} {found found' : List Finding} {problem : Problem}

theorem of_eq (h : e'.findings = e.findings) : Finds [] e e' := ⟨[], by rw [h, List.append_nil], rfl⟩

theorem trans (h : Finds found e e') (h' : Finds found' e' e'') : Finds (found ++ found') e e'' := by
  obtain ⟨new, hnew, rfl⟩ := h
  obtain ⟨new', hnew', rfl⟩ := h'
  exact ⟨new ++ new', by rw [hnew', hnew, List.append_assoc], List.filter_append ..⟩

theorem report (h : problem.isNesting = true) (location? : Option Location)
    (e : Emission) : Finds [⟨problem, location?⟩] e (Emit.report problem location? e).2 :=
  ⟨[⟨problem, location?⟩], rfl, List.filter_cons_of_pos h⟩

end Emission.Finds

/-- Nothing has happened to the blocks, and no problem with them has been reported. -/
structure Emission.Spares (e e' : Emission) : Prop where
  blocks : e'.blocks.bare = e.blocks.bare
  findings : Finds [] e e'

theorem Emission.Spares.trans {e e' e'' : Emission} (h : Spares e e') (h' : Spares e' e'') :
    Spares e e'' := ⟨h'.blocks.trans h.blocks, h.findings.trans h'.findings⟩

/-- What a computation that has to do with no block may do. -/
def Footprint.quiet : Footprint := { Footprint.full with places := False }

theorem Footprint.fillsAll_quiet {location : Location} {params : List ParamSpec}
    {sources : List Emit.SlotSource} : quiet.FillsAll location params sources :=
  fun _ _ _ _ _ => ⟨fun _ => trivial, fun _ => ⟨trivial, trivial⟩, nofun⟩

theorem Emission.Alters.spares {e e' : Emission} (h : Alters .quiet e e') : Spares e e' := by
  cases h with
  | reported h =>
    refine ⟨rfl, [_], rfl, List.filter_cons_of_neg ?_⟩
    exact Bool.not_eq_true _ ▸ h.resolve_right not_false
  | blocks _ h _ => exact ⟨h.resolve_right not_false, .of_eq rfl⟩
  | _ => exact ⟨rfl, .of_eq rfl⟩

theorem Emit.Within.spares {α : Type} {x : Emit α} (h : Within .quiet x) (e : Emission) :
    Spares e (x e).2 :=
  (h e nofun).keeps (P := Spares e) (fun _ _ hstep he => he.trans hstep.spares) ⟨rfl, .of_eq rfl⟩

/-! ### Frames and open blocks -/

/-- Whether a frame has the labels that its end and the actions inside it ask for. -/
def BlockFrame.isLabelled (f : BlockFrame) : Bool :=
  match f.kind with
  | .block .cond | .block .elseCond => f.nextLabel.isSome && f.exitLabel.isSome
  | .block .whileLoop | .block .forLoop => f.exitLabel.isSome && f.continueLabel.isSome
  | _ => true

/-- Whether the block that was closed last can be continued. -/
def BlockStack.continuable (b : BlockStack) : Bool :=
  match b.previous with
  | some { kind := .cond, pendingExit := some _, .. } => true
  | some { kind := .elseCond, pendingExit := some _, .. } => true
  | _ => false

variable {label : BlockFrame → Option String}

namespace Outline

variable {s : Outline} {a i : Nat} {kind : BlockKind} {opened : List Nat} {frame : BlockFrame}
  {frames : List BlockFrame} {b : BlockStack}

/-- The kind of the block that an action opens. A branch that may not stand where it does opens a plain
one. -/
inductive Enters (s : Outline) (a : Nat) : BlockKind → Prop
  | accepted {kind : BlockKind} (hop : s.op? a = some (.openBlock kind))
      (h : kind.followsConditional = true → s.Continuable a) : Enters s a kind
  | rejected {kind : BlockKind} (hop : s.op? a = some (.openBlock kind))
      (hkind : kind.followsConditional = true) (h : ¬s.Continuable a) : Enters s a .plain

/-- A frame is that of the block that an action opens. -/
structure FrameOf (s : Outline) (frame : BlockFrame) (a : Nat) : Prop where
  kind : ∃ kind, frame.kind = .block kind ∧ s.Enters a kind
  labelled : frame.isLabelled = true

/-- The frames are those of open blocks, above the frame of the parameters. -/
inductive FramesOf (s : Outline) : List BlockFrame → List Nat → Prop
  | parameters {frame : BlockFrame} (h : frame.isLoop = false) : FramesOf s [frame] []
  | block {frame : BlockFrame} {frames : List BlockFrame} {a : Nat} {opened : List Nat}
      (h : s.FrameOf frame a) (hrest : FramesOf s frames opened) :
      FramesOf s (frame :: frames) (a :: opened)

theorem Enters.isLoop_iff (h : s.Enters a kind) :
    kind.isLoop = true ↔ ∃ kind', s.op? a = some (.openBlock kind') ∧ kind'.isLoop = true := by
  cases h with
  | accepted hop h =>
    constructor
    · intro hloop
      exact ⟨kind, hop, hloop⟩
    · rintro ⟨kind', hop', hloop⟩
      rw [hop] at hop'
      cases hop'
      exact hloop
  | @rejected branch hop hbranch h =>
    constructor
    · intro hloop
      cases hloop
    · rintro ⟨kind', hop', hloop⟩
      rw [hop] at hop'
      cases hop'
      cases branch <;> simp_all [BlockKind.followsConditional, BlockKind.isLoop]

theorem Enters.isBranch_iff (h : s.Enters a kind) :
    (kind = .cond ∨ kind = .elseCond) ↔ s.IsBranch a := by
  cases h with
  | accepted hop h =>
    constructor
    · rintro (rfl | rfl)
      · exact Or.inl hop
      · exact Or.inr ⟨hop, h rfl⟩
    · rintro (hcond | ⟨helse, -⟩)
      · rw [hop] at hcond
        cases hcond
        exact Or.inl rfl
      · rw [hop] at helse
        cases helse
        exact Or.inr rfl
  | @rejected branch hop hbranch h =>
    constructor
    · rintro (hcond | helse)
      · cases hcond
      · cases helse
    · rintro (hcond | ⟨-, ha⟩)
      · rw [hop] at hcond
        cases hcond
        cases hbranch
      · exact absurd ha h

theorem FrameOf.isLoop_iff (h : s.FrameOf frame a) :
    frame.isLoop = true ↔ ∃ kind, s.op? a = some (.openBlock kind) ∧ kind.isLoop = true := by
  obtain ⟨kind, hkind, henters⟩ := h.kind
  rw [← henters.isLoop_iff, BlockFrame.isLoop, hkind]

theorem FrameOf.labels (h : s.FrameOf frame a) (hloop : frame.isLoop = true) :
    frame.exitLabel.isSome = true ∧ frame.continueLabel.isSome = true := by
  obtain ⟨kind, hkind, -⟩ := h.kind
  have hlabelled := h.labelled
  rw [BlockFrame.isLoop, hkind] at hloop
  rw [BlockFrame.isLabelled, hkind] at hlabelled
  cases kind <;> simp_all [BlockKind.isLoop]

/-- The label of the innermost loop is known exactly if there is a loop around. -/
theorem FramesOf.loop_iff (h : s.FramesOf frames opened)
    (hlabel : ∀ {frame : BlockFrame} {a : Nat}, s.FrameOf frame a → frame.isLoop = true →
      (label frame).isSome = true) :
    ((frames.find? BlockFrame.isLoop).bind label).isSome = true ↔
      ∃ a ∈ opened, ∃ kind, s.op? a = some (.openBlock kind) ∧ kind.isLoop = true := by
  induction h with
  | parameters h => simp [h]
  | @block frame frames a opened h hrest ih =>
    by_cases hloop : frame.isLoop = true
    · rw [List.find?_cons_of_pos hloop, Option.bind_some]
      exact ⟨fun _ => ⟨a, List.mem_cons_self, h.isLoop_iff.mp hloop⟩, fun _ => hlabel h hloop⟩
    · rw [List.find?_cons_of_neg hloop, ih]
      constructor
      · rintro ⟨b, hb, hkind⟩
        exact ⟨b, List.mem_cons_of_mem a hb, hkind⟩
      · rintro ⟨b, hb, hkind⟩
        rcases List.mem_cons.mp hb with rfl | hb
        · exact absurd (h.isLoop_iff.mpr hkind) hloop
        · exact ⟨b, hb, hkind⟩

theorem FramesOf.length_eq (h : s.FramesOf frames opened) : frames.length = opened.length + 1 := by
  induction h with
  | parameters h => rfl
  | block h hrest ih => rw [List.length_cons, List.length_cons, ih]

/-- The stack before an action: its frames are the open blocks, and the block that was closed last can be
continued exactly if a branch may stand here. -/
structure Tracks (s : Outline) (i : Nat) (opened : List Nat) (b : BlockStack) : Prop where
  nesting : s.Nesting i opened
  frames : s.FramesOf b.frames opened
  continuable : b.continuable = true ↔ s.Continuable i

end Outline

/-! ### Single actions -/

/-- What the check of the action at a position comes to: the problems with its place are reported, a stray
end stops the emission, and the stack is right behind any other action. -/
structure Outline.Checked (s : Outline) (event i : Nat) (e : Emission)
    (r : Except Failure Unit × Emission) : Prop where
  finds : ∃ found, Finds found e r.2 ∧
    ∀ f, f ∈ found ↔ f.location? = some (.ofAction event i) ∧ s.Misplaced i f.problem
  stops : s.Stray i → r.1 = .error (.unbalancedScope (.ofAction event i))
  goesOn : ¬s.Stray i → r.1 = .ok () ∧ ∃ opened, s.Tracks (i + 1) opened r.2.blocks.bare

variable {pending : Option String}

namespace Emit

open Outline

variable {s : Outline} {event i : Nat} {opened : List Nat} {e e₁ : Emission} {d : PrimitiveDef}
  {kind : BlockKind} {method : String} {location : Location} {action : ActionInstance}

theorem not_stray (h : s.op? i ≠ some .closeBlock) : ¬s.Stray i := fun hstray => h hstray.1

/-- The place of an action that is neither a branch nor leaves or continues a loop is right. -/
theorem not_misplaced (hbranch : ∀ kind, s.op? i = some (.openBlock kind) → kind.followsConditional = false)
    (hexit : s.op? i ≠ some .exitLoop) (hnext : s.op? i ≠ some .nextIteration) (problem : Problem) :
    ¬s.Misplaced i problem := by
  intro h
  cases h with
  | @branch d kind hd hop hkind h =>
    have := hbranch kind (by rw [Outline.op?, hd]; simp [hop])
    rw [hkind] at this
    cases this
  | exitLoop hop h => exact hexit hop
  | nextIteration hop h => exact hnext hop

theorem finds_nil (h : ∀ problem, ¬s.Misplaced i problem) (f : Finding) :
    f ∈ ([] : List Finding) ↔ f.location? = some (.ofAction event i) ∧ s.Misplaced i f.problem := by
  constructor
  · intro hf
    cases hf
  · rintro ⟨-, hf⟩
    exact absurd hf (h f.problem)

/-- The state in which an action that continues no conditional is emitted. -/
structure Ready (s : Outline) (i : Nat) (opened : List Nat) (e e₁ : Emission) : Prop where
  nesting : s.Nesting i opened
  frames : s.FramesOf e₁.blocks.bare.frames opened
  previous : e₁.blocks.bare.previous = none
  finds : Finds [] e e₁

theorem Ready.spares {e₂ : Emission} (h : Ready s i opened e e₁) (hspares : Spares e₁ e₂) :
    Ready s i opened e e₂ :=
  ⟨h.nesting, hspares.blocks ▸ h.frames, hspares.blocks ▸ h.previous, h.finds.trans hspares.findings⟩

/-- Behind an action other than an end, no block can be continued. -/
theorem tracks_of_frames {b : BlockStack} (hop : s.op? i ≠ some .closeBlock)
    (hnesting : s.Nesting (i + 1) opened) (hframes : s.FramesOf b.frames opened)
    (hprevious : b.previous = none) : s.Tracks (i + 1) opened b := by
  refine ⟨hnesting, hframes, ?_⟩
  rw [BlockStack.continuable, hprevious]
  constructor
  · intro hfalse
    cases hfalse
  · intro hcontinuable
    exact absurd hcontinuable (not_continuable_succ hop)

/-- An action that has to do with no block. -/
theorem checked_quiet {x : Emit Unit} (hx : Within .quiet x) (h : Ready s i opened e e₁)
    (hrise : rise (s.op? i) = 0) (hexit : s.op? i ≠ some .exitLoop)
    (hnext : s.op? i ≠ some .nextIteration) :
    s.Checked event i e ((liftM x : EmitStep Unit).run e₁) := by
  have hready := h.spares (hx.spares e₁)
  have hclose : s.op? i ≠ some .closeBlock := by
    intro hop
    rw [hop] at hrise
    cases hrise
  have hplaced : ∀ problem, ¬s.Misplaced i problem := by
    refine not_misplaced (fun kind hop => ?_) hexit hnext
    rw [hop] at hrise
    cases hrise
  exact ⟨⟨[], hready.finds, finds_nil hplaced⟩, fun hstray => absurd hstray (not_stray hclose),
    fun _ => ⟨rfl, opened, tracks_of_frames hclose (h.nesting.skip hrise) hready.frames hready.previous⟩⟩

/-- Jumps to a label of the innermost loop. -/
def jumpOut (label : BlockFrame → Option String) (problem : Problem) (method : String)
    (location : Location) : Emit Unit := do
  match (← get).blocks.innermostLoop?.bind label with
  | some l => emit method [.jumpTo l]
  | none => report problem location

theorem innermostLoop_iff (h : Ready s i opened e e₁)
    (hlabel : ∀ {frame : BlockFrame} {a : Nat}, s.FrameOf frame a → frame.isLoop = true →
      (label frame).isSome = true)
    (hbare : ∀ frame : BlockFrame, label frame.bare = label frame) :
    (e₁.blocks.innermostLoop?.bind label).isSome = true ↔ s.InLoop i := by
  have hfind : (e₁.blocks.bare.frames.find? BlockFrame.isLoop).bind label =
      e₁.blocks.innermostLoop?.bind label := by
    rw [BlockStack.innermostLoop?, BlockStack.bare, List.find?_map, Option.bind_map]
    exact congrArg _ (funext hbare)
  rw [← hfind, h.frames.loop_iff hlabel, h.nesting.inLoop_iff]

/-- An action that leaves or continues a loop is right inside a loop only. -/
theorem checked_jumpOut
    (h : Ready s i opened e e₁) (hrise : rise (s.op? i) = 0) (hproblem : problem.isNesting = true)
    (hmisplaced : ∀ {other : Problem}, s.Misplaced i other ↔ other = problem ∧ ¬s.InLoop i)
    (hlabel : ∀ {frame : BlockFrame} {a : Nat}, s.FrameOf frame a → frame.isLoop = true →
      (label frame).isSome = true)
    (hbare : ∀ frame : BlockFrame, label frame.bare = label frame) :
    s.Checked event i e
      ((liftM (jumpOut label problem method (.ofAction event i)) : EmitStep Unit).run e₁) := by
  have hclose : s.op? i ≠ some .closeBlock := by
    intro hop
    rw [hop] at hrise
    cases hrise
  have hnesting := h.nesting.skip hrise
  have hloop := innermostLoop_iff h hlabel hbare
  refine ⟨?_, fun hstray => absurd hstray (not_stray hclose), fun _ => ⟨rfl, opened, ?_⟩⟩
  · rw [Attempt.run_lift, jumpOut, run_get_bind]
    cases hfound : e₁.blocks.innermostLoop?.bind label with
    | some l =>
      rw [hfound] at hloop
      have hin : s.InLoop i := hloop.mp rfl
      have hjump : Within .quiet (emit method [.jumpTo l]) := .emit trivial rfl
      refine ⟨[], (h.spares (hjump.spares e₁)).finds, finds_nil fun other hother => ?_⟩
      exact (hmisplaced.mp hother).2 hin
    | none =>
      rw [hfound] at hloop
      have hout : ¬s.InLoop i := fun hin => by cases hloop.mpr hin
      refine ⟨_, h.finds.trans (.report hproblem (some (.ofAction event i)) e₁), fun f => ?_⟩
      rw [List.nil_append, List.mem_singleton, hmisplaced]
      constructor
      · rintro rfl
        exact ⟨rfl, rfl, hout⟩
      · rintro ⟨hlocation, hproblem, -⟩
        obtain ⟨problem', location'⟩ := f
        cases hlocation
        cases hproblem
        rfl
  · rw [Attempt.run_lift, jumpOut, run_get_bind]
    cases e₁.blocks.innermostLoop?.bind label with
    | some l => exact tracks_of_frames hclose hnesting h.frames h.previous
    | none => exact tracks_of_frames hclose hnesting h.frames h.previous

theorem misplaced_exitLoop_iff (hop : s.op? i = some .exitLoop) :
    s.Misplaced i problem ↔ problem = .breakOutsideLoop ∧ ¬s.InLoop i := by
  constructor
  · intro h
    cases h with
    | branch hd hop' hkind h => simp [Outline.op?, hd, hop'] at hop
    | exitLoop hop' h => exact ⟨rfl, h⟩
    | nextIteration hop' h =>
      rw [hop] at hop'
      cases hop'
  · rintro ⟨rfl, h⟩
    exact .exitLoop hop h

theorem misplaced_nextIteration_iff (hop : s.op? i = some .nextIteration) :
    s.Misplaced i problem ↔ problem = .continueOutsideLoop ∧ ¬s.InLoop i := by
  constructor
  · intro h
    cases h with
    | branch hd hop' hkind h => simp [Outline.op?, hd, hop'] at hop
    | nextIteration hop' h => exact ⟨rfl, h⟩
    | exitLoop hop' h =>
      rw [hop] at hop'
      cases hop'
  · rintro ⟨rfl, h⟩
    exact .nextIteration hop h

theorem checked_emitBreak (h : Ready s i opened e e₁) (hop : s.op? i = some .exitLoop) :
    s.Checked event i e
      ((liftM (emitBreak method (.ofAction event i)) : EmitStep Unit).run e₁) :=
  checked_jumpOut h (by rw [hop]; rfl) rfl (misplaced_exitLoop_iff hop)
    (fun hframe hloop => (hframe.labels hloop).1) fun _ => rfl

theorem checked_emitContinue (h : Ready s i opened e e₁) (hop : s.op? i = some .nextIteration) :
    s.Checked event i e
      ((liftM (emitContinue method (.ofAction event i)) : EmitStep Unit).run e₁) :=
  checked_jumpOut h (by rw [hop]; rfl) rfl
    (misplaced_nextIteration_iff hop) (fun hframe hloop => (hframe.labels hloop).2) fun _ => rfl

/-- The frame of a block has its labels if a branch is given the end that it continues to. -/
theorem frameOf_labelFrame (location : Location)
    (hop : s.op? i = some (.openBlock kind))
    (haccepted : kind.followsConditional = true → s.Continuable i)
    (hpending : kind.followsConditional = true → pending.isSome = true) (e : Emission) :
    s.FrameOf (labelFrame (.ofBlock kind location) pending kind e).1.bare i := by
  have hkind : (labelFrame (.ofBlock kind location) pending kind e).1.kind = .block kind := by
    cases kind <;> rfl
  refine ⟨⟨kind, hkind, .accepted hop haccepted⟩, ?_⟩
  cases kind with
  | elseCond => exact (Bool.true_and _).trans (hpending rfl)
  | _ => rfl

/-- Opening a block pushes its frame; all that follows has to do with no block. -/
theorem enterBlock_bare (method : String) (location : Location) (d : PrimitiveDef) (kind : BlockKind)
    (action : ActionInstance) (pending : Option String) (e : Emission) :
    (enterBlock method location d kind action pending e).2.blocks.bare =
      e.blocks.bare.push (labelFrame (.ofBlock kind location) pending kind e).1.bare ∧
    Finds [] e (enterBlock method location d kind action pending e).2 := by
  have hlabelled : Within .quiet (labelFrame (.ofBlock kind location) pending kind) := .labelFrame _ _ _
  have hlabel := hlabelled.spares e
  let frame := (labelFrame (.ofBlock kind location) pending kind e).1
  let pushed := (modifyBlocks (·.push frame) (labelFrame (.ofBlock kind location) pending kind e).2).2
  have hhead : Within .quiet ((Call.ofHead method frame kind d action).run location) :=
    .run Footprint.fillsAll_quiet fun _ =>
      (Within.finish_ofHead (F := .quiet) trivial trivial nofun kind d action _).granted _
  have hpushed := hhead.spares pushed
  refine ⟨hpushed.blocks.trans ?_, hlabel.findings.trans (Finds.trans (.of_eq rfl) hpushed.findings)⟩
  show BlockStack.mk (_ :: (labelFrame _ pending kind e).2.blocks.bare.frames) none = _
  rw [hlabel.blocks]
  rfl

/-- A block that may stand where it does. -/
theorem checked_enterBlock (h : Ready s i opened e e₁)
    (hop : s.op? i = some (.openBlock kind))
    (haccepted : kind.followsConditional = true → s.Continuable i)
    (hpending : kind.followsConditional = true → pending.isSome = true) :
    s.Checked event i e ((liftM (enterBlock method (.ofAction event i) d kind action pending) :
      EmitStep Unit).run e₁) := by
  have hclose : s.op? i ≠ some .closeBlock := by
    rw [hop]
    intro heq
    cases heq
  have hplaced : ∀ problem, ¬s.Misplaced i problem := by
    intro problem hmisplaced
    cases hmisplaced with
    | branch hd hop' hkind hnot =>
      simp only [Outline.op?, hd, Option.join_some, Option.map_some, hop'] at hop
      cases hop
      exact hnot (haccepted hkind)
    | exitLoop hop' _ =>
      rw [hop] at hop'
      cases hop'
    | nextIteration hop' _ =>
      rw [hop] at hop'
      cases hop'
  obtain ⟨hblocks, hfinds⟩ := enterBlock_bare method (.ofAction event i) d kind action pending e₁
  have hframe := frameOf_labelFrame (.ofAction event i) hop haccepted hpending e₁
  refine ⟨⟨[], h.finds.trans hfinds, finds_nil hplaced⟩, fun hstray => absurd hstray (not_stray hclose),
    fun _ => ⟨rfl, i :: opened, ?_⟩⟩
  rw [Attempt.run_lift, hblocks]
  exact tracks_of_frames hclose (h.nesting.push hop) (.block hframe h.frames) rfl

/-- A branch that may not stand where it does is reported and opens a plain block. -/
theorem checked_reject (h : Ready s i opened e e₁) (hd : s[i]? = some (some d))
    (hop : d.op = .openBlock kind) (hkind : kind.followsConditional = true)
    (hrejected : ¬s.Continuable i) :
    s.Checked event i e ((liftM (do
      report (.mustFollowConditional d.id) (some (.ofAction event i))
      modifyBlocks (·.push (.ofBlock .plain (.ofAction event i))) : Emit Unit) :
      EmitStep Unit).run e₁) := by
  have hop' : s.op? i = some (.openBlock kind) := by
    rw [Outline.op?, hd, Option.join_some, Option.map_some, hop]
  have hclose : s.op? i ≠ some .closeBlock := by
    rw [hop']
    intro heq
    cases heq
  have hfinds : Finds [⟨.mustFollowConditional d.id, some (.ofAction event i)⟩] e₁ _ :=
    .report rfl (some (.ofAction event i)) e₁
  refine ⟨⟨_, h.finds.trans hfinds, fun f => ?_⟩, fun hstray => absurd hstray (not_stray hclose),
    fun _ => ⟨rfl, i :: opened, ?_⟩⟩
  · rw [List.nil_append, List.mem_singleton]
    constructor
    · rintro rfl
      exact ⟨rfl, .branch hd hop hkind hrejected⟩
    · rintro ⟨hlocation, hmisplaced⟩
      obtain ⟨problem, location⟩ := f
      cases hlocation
      cases hmisplaced with
      | branch hd' _ _ _ =>
        rw [hd] at hd'
        cases hd'
        rfl
      | exitLoop hexit _ =>
        rw [hop'] at hexit
        cases hexit
      | nextIteration hnext _ =>
        rw [hop'] at hnext
        cases hnext
  · have hframe : s.FrameOf (BlockFrame.ofBlock .plain (.ofAction event i)).bare i :=
      ⟨⟨.plain, rfl, .rejected hop' hkind hrejected⟩, rfl⟩
    exact tracks_of_frames hclose (h.nesting.push hop') (.block hframe h.frames) rfl

/-- The end of a conditional is taken exactly if the block that was closed last can be continued. -/
theorem takePendingExit_spec (method : String) (e : Emission) :
    (takePendingExit method e).1.isSome = e.blocks.continuable ∧
      (takePendingExit method e).2.blocks = { e.blocks with previous := none } ∧
        (takePendingExit method e).2.findings = e.findings := by
  rw [takePendingExit, run_get_bind, BlockStack.continuable]
  rcases e.blocks.previous with - | ⟨kind, closedAt, - | exit⟩
  · exact ⟨rfl, rfl, rfl⟩
  · cases kind <;> exact ⟨rfl, rfl, rfl⟩
  · cases kind <;> exact ⟨rfl, rfl, rfl⟩

theorem checked_openBlock_of_follows (h : s.Tracks i opened e₁.blocks.bare) (hfinds : Finds [] e e₁)
    (hd : s[i]? = some (some d)) (hop : d.op = .openBlock kind)
    (hkind : kind.followsConditional = true) :
    s.Checked event i e ((liftM (openBlock method (.ofAction event i) d kind action) :
      EmitStep Unit).run e₁) := by
  have hop' : s.op? i = some (.openBlock kind) := by
    rw [Outline.op?, hd, Option.join_some, Option.map_some, hop]
  obtain ⟨hexit, hblocks, hfindings⟩ := takePendingExit_spec method e₁
  have hready : Ready s i opened e (takePendingExit method e₁).2 := by
    refine ⟨h.nesting, ?_, ?_, hfinds.trans (.of_eq hfindings)⟩
    · rw [hblocks]
      exact h.frames
    · rw [hblocks]
      rfl
  have hcontinuable : (takePendingExit method e₁).1.isSome = true ↔ s.Continuable i := by
    rw [hexit]
    exact h.continuable
  rw [Attempt.run_lift, openBlock, if_pos hkind, run_bind]
  cases htaken : (takePendingExit method e₁).1 with
  | some exit =>
    rw [htaken] at hcontinuable
    exact checked_enterBlock hready hop' (fun _ => hcontinuable.mp rfl) fun _ => rfl
  | none =>
    rw [htaken] at hcontinuable
    exact checked_reject hready hd hop hkind fun hmem => by cases hcontinuable.mpr hmem

/-- The end of a conditional is left to be placed. -/
theorem isSome_emitTail {frame : BlockFrame} (hframe : frame.kind = .block kind)
    (hlabelled : frame.isLabelled = true) (hkind : kind = .cond ∨ kind = .elseCond) (method : String)
    (e : Emission) : (emitTail method frame kind e).1.isSome = true := by
  have hlabels : (frame.nextLabel.isSome && frame.exitLabel.isSome) = true := by
    rw [BlockFrame.isLabelled, hframe] at hlabelled
    rcases hkind with rfl | rfl <;> exact hlabelled
  rw [Bool.and_eq_true] at hlabels
  obtain ⟨next, hnext⟩ := Option.isSome_iff_exists.mp hlabels.1
  obtain ⟨exit, hexit⟩ := Option.isSome_iff_exists.mp hlabels.2
  rcases hkind with rfl | rfl <;> rw [emitTail, hnext, hexit] <;> rfl

theorem continuable_closed (frames : List BlockFrame) (kind : BlockKind) (location : Location)
    (exit? : Option String) :
    (BlockStack.mk frames (some ⟨kind, location, exit?⟩)).continuable = true ↔
      (kind = .cond ∨ kind = .elseCond) ∧ exit?.isSome = true := by
  cases kind <;> cases exit? <;> simp [BlockStack.continuable]

/-- An end closes the innermost block, if there is one. -/
theorem checked_closeBlock (h : Ready s i opened e e₁) (hop : s.op? i = some .closeBlock) :
    s.Checked event i e ((closeBlock method (.ofAction event i)).run e₁) := by
  have hplaced : ∀ problem, ¬s.Misplaced i problem := by
    refine not_misplaced (fun kind hkind => ?_) ?_ ?_
    · rw [hop] at hkind
      cases hkind
    · rw [hop]
      intro heq
      cases heq
    · rw [hop]
      intro heq
      cases heq
  have hstray := h.nesting.stray_iff hop
  have hframes := h.frames
  rw [BlockStack.bare] at hframes
  rcases hstack : e₁.blocks.frames with - | ⟨frame, - | ⟨below, rest⟩⟩
  · rw [hstack] at hframes
    cases hframes
  · rw [hstack] at hframes
    cases hframes with
    | block _ hrest => cases hrest
    | parameters _ =>
      rw [closeBlock, Attempt.run_get_bind, BlockStack.pop, hstack]
      exact ⟨⟨[], h.finds, finds_nil hplaced⟩, fun _ => rfl, fun hnot => absurd (hstray.mpr rfl) hnot⟩
  · rw [hstack] at hframes
    cases hframes with
    | @block _ _ a opened hframe hrest =>
      have hnot : ¬s.Stray i := fun hstray' => by cases hstray.mp hstray'
      obtain ⟨kind, hbare, henters⟩ := hframe.kind
      have hkind : frame.kind = .block kind := hbare
      have hlabelled : frame.isLabelled = true := hframe.labelled
      have hquiet : Within .quiet (emitTail method frame kind) :=
        .emitTail (F := .quiet) trivial (fun htracks => by cases htracks) kind
      have htail := hquiet.spares (popped frame (below :: rest) e₁)
      rw [run_closeBlock method (.ofAction event i) hstack hkind]
      refine ⟨⟨[], h.finds.trans htail.findings, finds_nil hplaced⟩, fun hstray' => absurd hstray' hnot,
        fun _ => ⟨rfl, opened, (h.nesting.pop hop).1, ?_, ?_⟩⟩
      · show s.FramesOf (emitTail method frame kind _).2.blocks.bare.frames opened
        rw [htail.blocks]
        exact hrest
      · have hexit := isSome_emitTail hkind hlabelled
        rw [h.nesting.continuable_iff hop, ← henters.isBranch_iff]
        refine (continuable_closed _ _ _ _).trans ?_
        exact ⟨And.left, fun hbranch => ⟨hbranch, hexit hbranch _ _⟩⟩

theorem exists_emitOp (method : String) (location : Location) (d : PrimitiveDef)
    (action : ActionInstance) (e : Emission) : ∃ e₁, Spares e e₁ ∧
      (emitPrimitive method location d action).run e = (emitOp method location d action d.op).run e₁ := by
  cases hdeprecated : d.deprecated with
  | none =>
    refine ⟨e, ⟨rfl, .of_eq rfl⟩, ?_⟩
    rw [emitPrimitive, hdeprecated]
    rfl
  | some hint =>
    have hreport : Within .quiet (report (.deprecatedAction d.id hint) (some location)) :=
      .report (.inl rfl) _
    refine ⟨_, hreport.spares e, ?_⟩
    rw [emitPrimitive, hdeprecated]
    rfl

theorem ready_flushPrevious (h : s.Tracks i opened e.blocks.bare) (method : String) :
    Ready s i opened e (flushPrevious method e).2 := by
  have hfindings : (flushPrevious method e).2.findings = e.findings := by
    rw [flushPrevious_eq]
    cases e.pending <;> rfl
  refine ⟨h.nesting, ?_, ?_, .of_eq hfindings⟩
  · rw [blocks_flushPrevious]
    exact h.frames
  · rw [blocks_flushPrevious]
    rfl

/-- An action that continues no conditional. -/
theorem checked_emitOp (h : Ready s i opened e e₁) (hd : s[i]? = some (some d))
    (hfollows : ∀ kind, d.op = .openBlock kind → kind.followsConditional = false) :
    s.Checked event i e ((emitOp method (.ofAction event i) d action d.op).run e₁) := by
  have hop : s.op? i = some d.op := by rw [Outline.op?, hd, Option.join_some, Option.map_some]
  cases hd' : d.op with
  | openBlock kind =>
    have hkind := hfollows kind hd'
    rw [hd'] at hop
    have hnot : ¬kind.followsConditional = true := by simp [hkind]
    rw [emitOp, openBlock, if_neg hnot]
    exact checked_enterBlock h hop (fun hf => absurd hf hnot) fun hf => absurd hf hnot
  | closeBlock => exact checked_closeBlock h (hop.trans (congrArg some hd'))
  | exitLoop => exact checked_emitBreak h (hop.trans (congrArg some hd'))
  | nextIteration => exact checked_emitContinue h (hop.trans (congrArg some hd'))
  | assign =>
    rw [hd'] at hop
    exact checked_quiet (.emitAssign trivial Footprint.fillsAll_quiet) h (by rw [hop]; rfl)
      (by simp [hop]) (by simp [hop])
  | invoke signature =>
    rw [hd'] at hop
    exact checked_quiet (.emitInvocation trivial _ Footprint.fillsAll_quiet) h
      (by rw [hop]; rfl) (by simp [hop]) (by simp [hop])

end Emit

/-- What a primitive action stands for. -/
def Catalogue.definition? (c : Catalogue) (action : ActionInstance) : Option PrimitiveDef :=
  match action.action with
  | .primitive id => c.primitive? id
  | .moduleEntry _ _ _ => none

namespace Emit

open Outline

variable {s : Outline} {event i : Nat} {opened : List Nat} {e : Emission} {method : String}
  {ctx : Context} {action : ActionInstance}

/-- Every action that calls no module is checked. -/
theorem checked_emitAction (event : Nat) (method : String) (h : s.Tracks i opened e.blocks.bare)
    (hs : s[i]? = some (ctx.catalogue.definition? action)) {id : String}
    (hid : action.action = .primitive id) :
    s.Checked event i e ((emitAction ctx method (.ofAction event i) action).run e) := by
  have hready := ready_flushPrevious h method
  rw [Catalogue.definition?, hid] at hs
  rw [run_emitAction, hid, Catalogue.resolve]
  dsimp only at hs ⊢
  cases hd : ctx.catalogue.primitive? id with
  | none =>
    rw [hd] at hs
    have hop : s.op? i = none := by rw [Outline.op?, hs]; rfl
    exact checked_quiet (.report (.inl rfl) _) hready (by rw [hop]; rfl) (by simp [hop]) (by simp [hop])
  | some d =>
    rw [hd] at hs
    dsimp only [emitResolved]
    by_cases hfollows : (ResolvedAction.primitive d).followsConditional = true
    · rw [if_pos hfollows]
      obtain ⟨e₁, hspares, hrun⟩ := exists_emitOp method (.ofAction event i) d action e
      obtain ⟨kind, hop, hkind⟩ : ∃ kind, d.op = .openBlock kind ∧ kind.followsConditional = true := by
        rw [ResolvedAction.followsConditional, ResolvedAction.target?] at hfollows
        cases hop : d.op <;> simp_all
      rw [hrun, hop]
      exact checked_openBlock_of_follows (hspares.blocks ▸ h) hspares.findings hs hop hkind
    · rw [if_neg hfollows]
      obtain ⟨e₁, hspares, hrun⟩ := exists_emitOp method (.ofAction event i) d action
        (flushPrevious method e).2
      rw [hrun]
      refine checked_emitOp (hready.spares hspares) hs fun kind hop => ?_
      simpa [ResolvedAction.followsConditional, ResolvedAction.target?, hop] using hfollows

end Emit

/-! ### All actions of an event -/

variable {r : Except Failure Unit × Emission}

namespace Outline

variable {s : Outline} {event i b : Nat} {opened : List Nat} {e : Emission}

theorem lt_length_of_op? {op : PrimitiveOp} (h : s.op? i = some op) : i < s.length := by
  by_contra hi
  rw [op?, List.getElem?_eq_none (Nat.le_of_not_lt hi)] at h
  cases h

theorem Stray.lt_length (h : s.Stray b) : b < s.length := lt_length_of_op? h.1

theorem Misplaced.lt_length (h : s.Misplaced i problem) : i < s.length := by
  cases h with
  | branch hd hop hkind h => exact (List.getElem?_eq_some_iff.mp hd).1
  | exitLoop hop h => exact lt_length_of_op? hop
  | nextIteration hop h => exact lt_length_of_op? hop

/-- What the check of the actions from a position on comes to. -/
structure CheckedFrom (s : Outline) (event i : Nat) (e : Emission)
    (r : Except Failure Unit × Emission) : Prop where
  finds : ∃ found, Finds found e r.2 ∧ ∀ f, f ∈ found ↔
    ∃ j, i ≤ j ∧ s.Reached j ∧ f.location? = some (.ofAction event j) ∧ s.Misplaced j f.problem
  stops {b : Nat} : s.Stray b → s.Reached b → r.1 = .error (.unbalancedScope (.ofAction event b))
  goesOn : (∀ b, ¬s.Stray b) → r.1 = .ok () ∧ ∃ opened, s.Tracks s.length opened r.2.blocks.bare

/-- Behind the last action there is nothing to check. -/
theorem checkedFrom_length (h : s.Tracks s.length opened e.blocks.bare) (hreached : s.Reached s.length) :
    s.CheckedFrom event s.length e (.ok (), e) := by
  refine ⟨⟨[], .of_eq rfl, fun f => ?_⟩, fun hstray _ => ?_, fun _ => ⟨rfl, opened, h⟩⟩
  · constructor
    · intro hf
      cases hf
    · rintro ⟨j, hj, -, -, hmisplaced⟩
      exact absurd hmisplaced.lt_length (Nat.not_lt_of_le hj)
  · exact absurd hstray (hreached _ hstray.lt_length)

/-- A stray end is the last action that is checked. -/
theorem checkedFrom_of_stray (h : s.Checked event i e r)
    (hreached : s.Reached i) (hstray : s.Stray i) : s.CheckedFrom event i e r := by
  have hlast {j : Nat} (hj : s.Reached j) : j ≤ i := by
    by_contra hlt
    exact hj i (Nat.lt_of_not_le hlt) hstray
  obtain ⟨found, hfinds, hfound⟩ := h.finds
  refine ⟨⟨found, hfinds, fun f => (hfound f).trans ?_⟩, fun {b} hb hb' => ?_, fun hnone => ?_⟩
  · constructor
    · intro hf
      exact ⟨i, Nat.le_refl i, hreached, hf⟩
    · rintro ⟨j, hij, hj, hf⟩
      obtain rfl : j = i := Nat.le_antisymm (hlast hj) hij
      exact hf
  · have hib : i ≤ b := by
      by_contra hlt
      exact hreached b (Nat.lt_of_not_le hlt) hb
    obtain rfl : b = i := Nat.le_antisymm (hlast hb') hib
    exact h.stops hstray
  · exact absurd hstray (hnone i)

/-- An action that is no stray end is checked before the actions behind it. -/
theorem checkedFrom_of_succ {r' : Except Failure Unit × Emission} (h : s.Checked event i e r)
    (hreached : s.Reached i) (hrest : s.CheckedFrom event (i + 1) r.2 r') :
    s.CheckedFrom event i e r' := by
  obtain ⟨found, hfinds, hfound⟩ := h.finds
  obtain ⟨found', hfinds', hfound'⟩ := hrest.finds
  refine ⟨⟨found ++ found', hfinds.trans hfinds', fun f => ?_⟩, hrest.stops, hrest.goesOn⟩
  rw [List.mem_append, hfound, hfound']
  constructor
  · rintro (hf | ⟨j, hj, hf⟩)
    · exact ⟨i, Nat.le_refl i, hreached, hf⟩
    · exact ⟨j, Nat.le_of_succ_le hj, hf⟩
  · rintro ⟨j, hj, hf⟩
    rcases Nat.eq_or_lt_of_le hj with rfl | hlt
    · exact Or.inl hf.2
    · exact Or.inr ⟨j, hlt, hf⟩

end Outline

namespace Emit

open Outline

variable {s : Outline} {event i : Nat} {opened : List Nat} {e : Emission} {method : String}
  {ctx : Context} {actions : List ActionInstance}

/-- The actions of an event are checked one after the other. -/
theorem checkedFrom_emitActions (method : String) (h : s.Tracks i opened e.blocks.bare) (hi : i ≤ s.length)
    (hs : s.drop i = actions.map ctx.catalogue.definition?)
    (hactions : ∀ a ∈ actions, ∃ id, a.action = .primitive id) (hreached : s.Reached i) :
    s.CheckedFrom event i e ((emitActions ctx method event i actions).run e) := by
  induction actions generalizing i opened e with
  | nil =>
    obtain rfl : i = s.length := Nat.le_antisymm hi (List.drop_eq_nil_iff.mp hs)
    exact checkedFrom_length h hreached
  | cons action rest ih =>
    have hget : s[i]? = some (ctx.catalogue.definition? action) := by
      have hhead := congrArg List.head? hs
      rwa [List.head?_drop] at hhead
    have hlt : i < s.length := (List.getElem?_eq_some_iff.mp hget).1
    have htail : s.drop (i + 1) = rest.map ctx.catalogue.definition? := by
      have := congrArg List.tail hs
      rwa [List.tail_drop] at this
    obtain ⟨id, hid⟩ := hactions action List.mem_cons_self
    have hchecked := checked_emitAction event method h hget hid
    rw [emitActions, Attempt.run_bind]
    by_cases hstray : s.Stray i
    · rw [Attempt.run_eq_of_fst (hchecked.stops hstray)]
      have hfirst := checkedFrom_of_stray hchecked hreached hstray
      rwa [Attempt.run_eq_of_fst (hchecked.stops hstray)] at hfirst
    · obtain ⟨hok, opened', htracks⟩ := hchecked.goesOn hstray
      rw [Attempt.run_eq_of_fst hok]
      refine checkedFrom_of_succ hchecked hreached (ih htracks hlt htail
        (fun a ha => hactions a (List.mem_cons_of_mem _ ha)) fun b hb => ?_)
      rcases Nat.lt_succ_iff_lt_or_eq.mp hb with hb | rfl
      · exact hreached b hb
      · exact hstray

/-- The result of an event whose ends are not stray, for the number of blocks that are left open. -/
def bodyResult (event left : Nat) : Except Failure Unit :=
  if 0 < left then .error (.unclosedScope event left) else .ok ()

/-- What the check of all actions of an event comes to. -/
structure BodyChecked (s : Outline) (event : Nat) (e : Emission) (r : Except Failure Unit × Emission) :
    Prop where
  finds : ∃ found, Finds found e r.2 ∧ ∀ f, f ∈ found ↔
    ∃ a, f.location? = some (.ofAction event a) ∧ s.Reached a ∧ s.Misplaced a f.problem
  stops {b : Nat} : s.Stray b → s.Reached b → r.1 = .error (.unbalancedScope (.ofAction event b))
  ends : (∀ b, ¬s.Stray b) → ∃ opened, s.Nesting s.length opened ∧ r.1 = bodyResult event opened.length

theorem tracks_ofParameters (s : Outline) (params : List VarId) :
    s.Tracks 0 [] (BlockStack.ofParameters params).bare := by
  refine ⟨nesting_zero s, .parameters rfl, ?_⟩
  constructor
  · intro hfalse
    cases hfalse
  · intro hcontinuable
    exact absurd hcontinuable (not_continuable_zero s)

/-- Behind the actions, the number of frames above the parameters is the number of open blocks. -/
theorem endBody_spec (h : s.Tracks i opened e.blocks.bare) (method : String) (event : Nat) :
    (endBody method event e).1 = bodyResult event opened.length ∧ Finds [] e (endBody method event e).2 := by
  have hready := ready_flushPrevious h method
  have hdepth : (flushed method e).blocks.depth = opened.length := by
    have hlength := hready.frames.length_eq
    rw [BlockStack.bare, List.length_map] at hlength
    rw [flushed, BlockStack.depth, hlength]
    rfl
  refine ⟨?_, hready.finds.trans (.of_eq rfl)⟩
  rw [endBody, BlockStack.finish, hdepth]
  rfl

theorem bodyChecked_emitBody {s : Outline} (method : String) (event : Nat) (params : List VarId)
    (hs : s = actions.map ctx.catalogue.definition?)
    (hactions : ∀ a ∈ actions, ∃ id, a.action = .primitive id) (e : Emission) :
    BodyChecked s event e ((emitBody ctx method event params actions).run e) := by
  have hchecked : s.CheckedFrom event 0 { e with blocks := .ofParameters params } _ :=
    checkedFrom_emitActions method (tracks_ofParameters s params) (Nat.zero_le _) hs hactions
      fun b hb => absurd hb (Nat.not_lt_zero b)
  rw [run_emitBody_eq]
  rcases hrun : (emitActions ctx method event 0 actions).run { e with blocks := .ofParameters params }
    with ⟨result, e'⟩
  rw [hrun] at hchecked
  obtain ⟨found, hfinds, hfound⟩ := hchecked.finds
  have hfound' (f : Finding) : f ∈ found ↔
      ∃ a, f.location? = some (.ofAction event a) ∧ s.Reached a ∧ s.Misplaced a f.problem := by
    rw [hfound]
    constructor
    · rintro ⟨j, -, hreached, hlocation, hmisplaced⟩
      exact ⟨j, hlocation, hreached, hmisplaced⟩
    · rintro ⟨j, hlocation, hreached, hmisplaced⟩
      exact ⟨j, Nat.zero_le j, hreached, hlocation, hmisplaced⟩
  cases result with
  | error failure =>
    refine ⟨⟨found, hfinds, hfound'⟩, hchecked.stops, fun hnone => ?_⟩
    cases (hchecked.goesOn hnone).1
  | ok _ =>
    have hnone : ∀ b, ¬s.Stray b := by
      intro b hstray
      obtain ⟨c, hc, hreached⟩ := exists_first_stray hstray
      cases hchecked.stops hc hreached
    obtain ⟨-, opened, htracks⟩ := hchecked.goesOn hnone
    obtain ⟨hresult, hend⟩ := endBody_spec htracks method event
    refine ⟨⟨found, ?_, hfound'⟩, fun {b} hstray _ => absurd hstray (hnone b),
      fun _ => ⟨opened, htracks.nesting, hresult⟩⟩
    have hboth := hfinds.trans hend
    rwa [List.append_nil] at hboth

/-- The result of an event is that of its actions. -/
theorem bodyChecked_emitEvent {s : Outline} (index : Nat) (event : EventDecl)
    (hs : s = event.actions.map ctx.catalogue.definition?)
    (hactions : ∀ a ∈ event.actions, ∃ id, a.action = .primitive id) (e : Emission) :
    BodyChecked s index e ((emitEvent ctx index event).run e) := by
  have hopening : Within .quiet (openEvent ctx index event) :=
    .openEvent (F := .quiet) trivial (fun _ _ _ _ _ => trivial) (fun _ _ _ _ _ => trivial) nofun index
  have hopen := hopening.spares e
  rw [emitEvent_eq, Attempt.run_bind, Attempt.run_lift]
  dsimp only
  generalize openEvent ctx index event e = opening at hopen ⊢
  obtain ⟨opened, e₁⟩ := opening
  have hbody := bodyChecked_emitBody (bodyMethod index event opened) index (bodyParams opened) hs hactions e₁
  rw [Attempt.run_bind]
  rcases hrun : (emitBody ctx (bodyMethod index event opened) index (bodyParams opened)
    event.actions).run e₁ with ⟨result, e₂⟩
  rw [hrun] at hbody
  obtain ⟨found, hfinds, hfound⟩ := hbody.finds
  cases result with
  | error failure => exact ⟨⟨found, hopen.findings.trans hfinds, hfound⟩, hbody.stops, hbody.ends⟩
  | ok _ =>
    have hclosing : Within .quiet (closeEvent index event opened) :=
      .closeEvent (F := .quiet) ⟨fun _ _ _ => trivial, trivial, fun _ => nofun⟩ index event
        (fun _ => nofun) fun _ _ _ => ⟨trivial, nofun⟩
    have hclose := hclosing.spares e₂
    refine ⟨⟨found, ?_, hfound⟩, hbody.stops, hbody.ends⟩
    have hall := (hopen.findings.trans hfinds).trans hclose.findings
    rwa [List.append_nil] at hall

namespace BodyChecked

variable {r : Except Failure Unit × Emission} (h : BodyChecked s event e r)
include h

/-- An event either stops at its first stray end or counts the blocks that are left. -/
theorem result_cases : (∃ b, s.Stray b ∧ s.Reached b ∧ r.1 = .error (.unbalancedScope (.ofAction event b))) ∨
    (∀ b, ¬s.Stray b) ∧ ∃ opened, s.Nesting s.length opened ∧ r.1 = bodyResult event opened.length := by
  by_cases hstray : ∃ b, s.Stray b
  · obtain ⟨b, hb⟩ := hstray
    obtain ⟨c, hc, hreached⟩ := exists_first_stray hb
    exact Or.inl ⟨c, hc, hreached, h.stops hc hreached⟩
  · have hnone : ∀ b, ¬s.Stray b := not_exists.mp hstray
    exact Or.inr ⟨hnone, h.ends hnone⟩

theorem ok_iff : r.1 = .ok () ↔ s.Balanced := by
  rw [balanced_iff]
  rcases h.result_cases with ⟨b, hb, -, hresult⟩ | ⟨hnone, opened, hnesting, hresult⟩
  · rw [hresult]
    constructor
    · intro hok
      cases hok
    · rintro ⟨hnone, -⟩
      exact absurd hb (hnone b)
  · rw [hresult, bodyResult]
    have hopened : (∀ a, ¬s.OpenAt a s.length) ↔ opened = [] := by
      simp only [← hnesting.mem_iff, List.eq_nil_iff_forall_not_mem]
    rw [hopened]
    cases opened with
    | nil => exact ⟨fun _ => ⟨hnone, rfl⟩, fun _ => rfl⟩
    | cons a rest => simp

theorem unbalanced_iff (a : Nat) : r.1 = .error (.unbalancedScope (.ofAction event a)) ↔
    s.Stray a ∧ s.Reached a := by
  constructor
  · intro herror
    rcases h.result_cases with ⟨b, hb, hreached, hresult⟩ | ⟨-, opened, -, hresult⟩
    · rw [hresult] at herror
      cases herror
      exact ⟨hb, hreached⟩
    · rw [hresult, bodyResult] at herror
      split at herror <;> cases herror
  · rintro ⟨hstray, hreached⟩
    exact h.stops hstray hreached

theorem unclosed_iff (hnone : ∀ a, ¬s.Stray a) (k : Nat) :
    r.1 = .error (.unclosedScope event k) ↔ 0 < k ∧ {a | s.OpenAt a s.length}.ncard = k := by
  obtain ⟨opened, hnesting, hresult⟩ := h.ends hnone
  rw [hresult, hnesting.ncard, bodyResult]
  by_cases hopened : 0 < opened.length
  · rw [if_pos hopened]
    constructor
    · intro herror
      cases herror
      exact ⟨hopened, rfl⟩
    · rintro ⟨-, rfl⟩
      rfl
  · rw [if_neg hopened]
    constructor
    · intro herror
      cases herror
    · rintro ⟨hk, rfl⟩
      exact absurd hk hopened

end BodyChecked

/-- The blocks of an event are checked by the grammar of blocks, whatever else is wrong with its actions.
An event whose actions call no module is emitted without failure exactly if its actions are balanced.
The first end with no open block before it stops the emission; otherwise the blocks that are open at
the end are counted. The problems reported with the place of an action are those of the actions that
are reached: a branch that continues no conditional and no accepted branch, and a jump out of a loop
outside of one. -/
theorem emitEvent_checks_blocks (ctx : Context) (index : Nat) (event : EventDecl) (e : Emission)
    (hactions : ∀ a ∈ event.actions, ∃ id, a.action = .primitive id) :
    let s : Outline := event.actions.map ctx.catalogue.definition?
    let r := (emitEvent ctx index event).run e
    (r.1 = .ok () ↔ s.Balanced) ∧
    (∀ a, r.1 = .error (.unbalancedScope (.ofAction index a)) ↔
      s.Stray a ∧ ∀ b, b < a → ¬s.Stray b) ∧
    ((∀ a, ¬s.Stray a) → ∀ k, r.1 = .error (.unclosedScope index k) ↔
      0 < k ∧ {a | s.OpenAt a s.length}.ncard = k) ∧
    ∃ new, r.2.findings = e.findings ++ new ∧ ∀ f : Finding, f.problem.isNesting = true →
      (f ∈ new ↔ ∃ a, f.location? = some (.ofAction index a) ∧ s.Reached a ∧ s.Misplaced a f.problem) := by
  intro s r
  have hchecked : BodyChecked s index e r := bodyChecked_emitEvent index event rfl hactions e
  obtain ⟨found, ⟨new, hnew, rfl⟩, hfound⟩ := hchecked.finds
  refine ⟨hchecked.ok_iff, hchecked.unbalanced_iff, hchecked.unclosed_iff, new, hnew, fun f hf => ?_⟩
  rw [← hfound, List.mem_filter]
  exact ⟨fun hmem => ⟨hmem, hf⟩, And.left⟩

end Emit

/-- An event in which a conditional with a wrong operand is continued, a branch and a `break` are out of
place, and one end is too many. -/
def sampleEvent : EventDecl where
  trigger := .custom "run" []
  actions := [
    { action := .primitive "if", inputs := [.declare (sampleGuid 0) "flag"] },
    { action := .primitive "end" },
    { action := .primitive "else_if", inputs := [.constant (.bool true)] },
    { action := .primitive "mystery" }, { action := .primitive "end" },
    { action := .primitive "mystery" }, { action := .primitive "else" },
    { action := .primitive "break" }, { action := .primitive "end" }, { action := .primitive "end" },
    { action := .primitive "else" }]

/-- The branch behind the conditional is accepted, and the one behind an unknown action is not. -/
theorem Emit.emitEvent_checks_blocks_sampleEvent :
    let ctx : Context :=
      { source := { key := "sample", data := {} }, catalogue := .builtin, modules := .empty, settings := {} }
    let s : Outline := sampleEvent.actions.map ctx.catalogue.definition?
    (∀ a ∈ sampleEvent.actions, ∃ id, a.action = .primitive id) ∧
      ((emitEvent ctx 0 sampleEvent).run {}).1 = .error (.unbalancedScope (.ofAction 0 9)) ∧
      s.Stray 9 ∧ s.Reached 9 ∧ ¬s.Misplaced 2 (.mustFollowConditional "else_if") ∧
      s.Misplaced 6 (.mustFollowConditional "else") ∧ s.Misplaced 7 .breakOutsideLoop := by
  intro ctx s
  have hactions : ∀ a ∈ sampleEvent.actions, ∃ id, a.action = .primitive id := by
    intro a ha
    simp only [sampleEvent, List.mem_cons, List.not_mem_nil, or_false] at ha
    rcases ha with rfl | rfl | rfl | rfl | rfl | rfl | rfl | rfl | rfl | rfl | rfl <;> exact ⟨_, rfl⟩
  have herror : ((emitEvent ctx 0 sampleEvent).run {}).1 = .error (.unbalancedScope (.ofAction 0 9)) := by
    decide +kernel
  obtain ⟨-, hstray, -, new, hnew, hmisplaced⟩ := emitEvent_checks_blocks ctx 0 sampleEvent {} hactions
  obtain ⟨hend, hreached⟩ := (hstray 9).mp herror
  have hfindings : ((emitEvent ctx 0 sampleEvent).run {}).2.findings = [
      ⟨.declaringInput "condition", some (.ofAction 0 0)⟩,
      ⟨.unresolvedAction (.unknownAction "mystery"), some (.ofAction 0 3)⟩,
      ⟨.unresolvedAction (.unknownAction "mystery"), some (.ofAction 0 5)⟩,
      ⟨.mustFollowConditional "else", some (.ofAction 0 6)⟩,
      ⟨.breakOutsideLoop, some (.ofAction 0 7)⟩] := by
    decide +kernel
  rw [hfindings] at hnew
  obtain rfl := hnew
  refine ⟨hactions, herror, hend, hreached, fun hbad => ?_, ?_, ?_⟩
  · have hmem := (hmisplaced ⟨.mustFollowConditional "else_if", some (.ofAction 0 2)⟩ rfl).mpr
      ⟨2, rfl, fun b hb => hreached b (Nat.lt_trans hb (by decide)), hbad⟩
    revert hmem
    decide
  · obtain ⟨a, ha, -, h⟩ := (hmisplaced ⟨.mustFollowConditional "else", some (.ofAction 0 6)⟩ rfl).mp
      (by decide)
    cases ha
    exact h
  · obtain ⟨a, ha, -, h⟩ := (hmisplaced ⟨.breakOutsideLoop, some (.ofAction 0 7)⟩ rfl).mp (by decide)
    cases ha
    exact h

end TriggerCompiler
