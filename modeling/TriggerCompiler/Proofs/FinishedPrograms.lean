import TriggerCompiler.Proofs.FinishedCode

/-! What finishing adds to a program. Around the code of each method stand a prologue and a return
sequence, the start may be new, and of the heap only system variables come and go: one is left exactly if
some instruction names it. -/

namespace TriggerCompiler

open SymbolTable

namespace Program

variable {p q : Program} {s : String}

/-- Every variable that an instruction names is on the heap. -/
def Declares (p : Program) : Prop :=
  ∀ i ∈ p.code, ∀ s, i.symbol? = some s → p.symbols.names.contains s = true

/-! ### Declared variables -/

theorem Declares.of_codeOf (h : p.Declares) (hheap : p.symbols.Furnishes q.symbols)
    (hcode : ∀ x, ∀ i ∈ q.methods.codeOf x, i ∈ p.methods.codeOf x ∨
      ∀ s, i.symbol? = some s → q.symbols.names.contains s = true) : q.Declares := by
  intro i hi s hs
  obtain ⟨x, hi⟩ := mem_code.mp hi
  rcases hcode x i hi with hi | hnew
  · exact hheap.contains (h i (mem_code.mpr ⟨x, hi⟩) s hs)
  · exact hnew s hs

theorem Declares.requestSerialization (h : p.Declares) (hc : p.symbols.Grounded) :
    p.requestSerialization.2.Declares := by
  refine h.of_codeOf (furnishes_requestSerialization hc) fun x i hi => ?_
  rw [codeOf_requestSerialization] at hi
  rcases List.mem_append.mp hi with hi | hi
  · exact Or.inl hi
  · split at hi
    · rename_i hsentinel
      refine Or.inr fun s hs => ?_
      have hthis : p.requestSerialization.2.symbols.names.contains SystemVariable.this.name = true := by
        rw [Program.requestSerialization, if_neg]
        · exact contains_system _ _
        · rw [List.isEmpty_iff]
          exact List.ne_nil_of_mem (MethodTable.mem_sentinels.mpr hsentinel)
      simp only [serializationRequest, List.mem_cons, List.not_mem_nil, or_false] at hi
      rcases hi with rfl | rfl
      · cases hs
        exact hthis
      · cases hs
    · cases hi

theorem Declares.initLocalPlayer (h : p.Declares) (hc : p.symbols.Grounded) :
    p.initLocalPlayer.Declares := by
  have hheap := furnishes_initLocalPlayer hc
  refine h.of_codeOf hheap fun x i hi => ?_
  rw [codeOf_initLocalPlayer] at hi
  rcases List.mem_append.mp hi with hi | hi
  · split at hi
    · rename_i huses
      refine Or.inr fun s hs => ?_
      simp only [localPlayerFetch, List.mem_cons, List.not_mem_nil, or_false] at hi
      rcases hi with rfl | rfl
      · cases hs
        exact hheap.contains huses.2.1
      · cases hs
    · cases hi
  · exact Or.inl hi

theorem Declares.addReturnSequences (h : p.Declares) (hc : p.symbols.Grounded) :
    p.addReturnSequences.Declares := by
  refine h.of_codeOf (furnishes_addReturnSequences hc) fun x i hi => ?_
  rw [MethodTable.codeOf, get?_addReturnSequences hc, Option.map_map] at hi
  cases hb : p.methods.bodies.get? x with
  | none =>
    rw [hb] at hi
    cases hi
  | some b =>
    rw [hb] at hi
    replace hi : i ∈ (wrapBody SystemVariable.haltAddress.name SystemVariable.returnJump.name x b).code :=
      hi
    rw [MethodTable.codeOf_of_get? hb]
    by_cases hmem : i ∈ b.code
    · exact Or.inl hmem
    · refine Or.inr fun s hs => ?_
      -- The prologue and the return sequence name only the two variables that have been requested.
      have hsystem : s = SystemVariable.haltAddress.name ∨ s = SystemVariable.returnJump.name := by
        by_contra hother
        rw [not_or] at hother
        exact hmem ((mem_wrapBody_of_symbol hs hother.1 hother.2).mp hi)
      rw [Program.addReturnSequences, if_neg]
      · rcases hsystem with rfl | rfl
        · exact contains_system_iff.mpr (Or.inr (contains_system _ _))
        · exact contains_system _ _
      · intro hempty
        rw [OrderedMap.get?, List.isEmpty_iff.mp hempty] at hb
        cases hb

theorem Declares.wrapped (h : p.Declares) (hc : p.symbols.Grounded) (sync : SyncMethod)
    (settings : Settings) : (p.wrapped sync settings).Declares := by
  have hrequested := furnishes_requested hc sync settings
  have hplayer := furnishes_initLocalPlayer hrequested.grounded
  have hexport : p.exportNamedMethods.Declares :=
    h.of_codeOf (.refl hc) fun x i hi => Or.inl (by rwa [codeOf_exportNamedMethods] at hi)
  have hsteps : (p.requested sync settings).Declares := by
    rw [requested]
    split
    · exact hexport.requestSerialization hc
    · exact hexport
  exact (hsteps.initLocalPlayer hrequested.grounded).addReturnSequences hplayer.grounded

/-! ### Finished programs -/

theorem symbol?_fillIn (address : String → UInt32) (i : Instruction) :
    (i.fillIn address).symbol? = i.symbol? := by
  cases i with
  | jump target => cases target <;> rfl
  | jumpIfFalse target => cases target <;> rfl
  | _ => rfl

theorem exists_mem_code_fillIn {address : String → UInt32} :
    (∃ i ∈ (p.fillIn address).code, i.symbol? = some s) ↔ ∃ i ∈ p.code, i.symbol? = some s := by
  simp only [mem_code, codeOf_fillIn, List.mem_map]
  constructor
  · rintro ⟨_, ⟨x, i, hi, rfl⟩, hs⟩
    exact ⟨i, ⟨x, hi⟩, by rwa [symbol?_fillIn] at hs⟩
  · rintro ⟨i, ⟨x, hi⟩, hs⟩
    exact ⟨_, ⟨x, i, hi, rfl⟩, by rwa [symbol?_fillIn]⟩

/-- A name that an instruction of a prepared program has is left on the heap. -/
theorem Declares.prepare (h : p.Declares) (hc : p.symbols.Grounded) (hsystem : p.symbols.SystemNamed)
    (sync : SyncMethod) (settings : Settings) : (p.prepare sync settings).2.Declares := by
  intro i hi s hs
  rw [code, methods_prepare] at hi
  obtain ⟨id, hid⟩ := OrderedMap.contains_eq_true.mp (h.wrapped hc sync settings i hi s hs)
  refine OrderedMap.contains_eq_true.mpr ⟨id, (restricts_prepare hc hsystem sync settings).names.mpr
    ⟨hid, fun hzero => absurd hzero ?_⟩⟩
  exact referenceCount_ne_zero_iff.mpr ⟨i, hi, hs⟩

/-- Finishing a program adds only what it must. The methods stay in their order, and the start is the only
one that may be new; the code of each stands in one piece, with addresses for the labels that it jumps to,
between a prologue, with the fetch of the local player in the start, and a return sequence, behind the
request for serialization if there is one. A system variable is left exactly if some instruction names
it, all other variables are kept with addresses for the labels that they hold, and no variable is added
but system variables. -/
theorem finish_adds_only_needed (p q : Program) (sync : SyncMethod) (settings : Settings)
    (report : FinishReport) (hc : p.symbols.Grounded) (hsystem : p.symbols.SystemNamed)
    (hdeclares : p.Declares) (h : (finish sync settings).run p = (.ok report, q)) :
    ∃ address : String → UInt32,
      q.methods.names = p.methods.names ++
        (if p.UsesLocalPlayer ∧ startMethod ∉ p.methods.names then [startMethod] else []) ∧
      (∀ x b, q.methods.bodies.get? x = some b → b.code = p.opening b.exported x ++
        (p.methods.codeOf x).map (Instruction.fillIn address) ++ p.closing sync settings x) ∧
      (∀ which : SystemVariable,
        (∃ id v, q.symbols.get? id = some v ∧ v.name = which.name) ↔
          ∃ i ∈ q.code, i.symbol? = some which.name) ∧
      (∀ id v, p.symbols.get? id = some v → (∀ which : SystemVariable, v.name ≠ which.name) →
        q.symbols.get? id = some (v.fillIn address)) ∧
      (∀ id w, q.symbols.get? id = some w → (∃ v, p.symbols.get? id = some v ∧ w = v.fillIn address) ∨
        ∃ which : SystemVariable, w = which.toVariable) ∧
      q.Declares := by
  refine ⟨p.finalAddress sync settings, names_of_finish h, fun x b => code_of_finish hc h, ?_⟩
  obtain rfl := eq_fillIn_of_finish h
  generalize p.finalAddress sync settings = address
  have hheap := furnishes_wrapped hc sync settings
  have hleft := restricts_prepare hc hsystem sync settings
  have hprepared := hdeclares.prepare hc hsystem sync settings
  have hcode : (p.prepare sync settings).2.code = (p.wrapped sync settings).code := by
    rw [code, methods_prepare]
    rfl
  have hget {id : VarId} {w : Variable} :
      ((p.prepare sync settings).2.fillIn address).symbols.get? id = some w ↔
        ∃ v, (p.prepare sync settings).2.symbols.get? id = some v ∧ v.fillIn address = w := by
    rw [get?_fillIn, Option.map_eq_some_iff]
  refine ⟨fun which => ?_, fun id v hv hother => ?_, fun id w hw => ?_, fun i hi s hs => ?_⟩
  · rw [exists_mem_code_fillIn]
    constructor
    · rintro ⟨id, w, hw, hname⟩
      obtain ⟨v, hv, rfl⟩ := hget.mp hw
      rw [hcode, ← show v.name = which.name from hname, ← referenceCount_ne_zero_iff]
      exact fun hzero => (hleft.vars.mp hv).2 hzero which (by cases which <;> decide) hname.symm
    · rintro ⟨i, hi, hs⟩
      obtain ⟨id, hid⟩ := OrderedMap.contains_eq_true.mp (hprepared i hi _ hs)
      obtain ⟨hid, hnamed⟩ := hleft.names.mp hid
      obtain ⟨v, hv, hname⟩ := hheap.grounded.names hid
      exact ⟨id, v.fillIn address, hget.mpr ⟨v, hleft.vars.mpr ⟨hv, hname ▸ hnamed⟩, rfl⟩, hname⟩
  · exact hget.mpr ⟨v, hleft.vars.mpr ⟨hheap.vars hv, fun _ which _ => (hother which).symm⟩, rfl⟩
  · obtain ⟨v, hv, rfl⟩ := hget.mp hw
    rcases hheap.new (hleft.vars.mp hv).1 with hv | ⟨which, rfl, -⟩
    · exact Or.inl ⟨v, hv, rfl⟩
    · refine Or.inr ⟨which, Variable.fillIn_eq_self fun l => ?_⟩
      cases which <;> exact fun hl => by cases hl
  · obtain ⟨j, hj, hs⟩ := exists_mem_code_fillIn.mp ⟨i, hi, hs⟩
    exact hprepared j hj s hs

/-- A program that reads the local player and writes a synced variable, and a constant that holds a label
of its method. -/
def playerLoop : Program where
  symbols := (((({} : SymbolTable).system .localPlayer).2.system .this).2.constant .uint
    (.label "again")).2
  methods := ({} : MethodTable).emit "Run"
    [.label "again", .push "__localPlayer", .sentinel, .jump (.label "again")]

theorem finish_adds_only_needed_playerLoop :
    let q := ((finish .manual {}).run playerLoop).2
    playerLoop.symbols.SystemNamed ∧ playerLoop.Declares ∧ q.Declares ∧
      q.methods.names = ["Run", "_start"] ∧
      ∃ (address : String → UInt32) (b : MethodBody), q.methods.bodies.get? "Run" = some b ∧
        b.code = playerLoop.opening b.exported "Run" ++
          [.label "again", .push "__localPlayer", .sentinel, .jump (.address (address "again"))] ++
            (serializationRequest ++ [.label (endLabel "Run"), .push "__returnJump", .copy,
              .jumpIndirect "__returnJump"]) := by
  have hc : playerLoop.symbols.Grounded :=
    (SymbolTable.yields_constant (SymbolTable.yields_system (SymbolTable.yields_system
      SymbolTable.consistent_empty .localPlayer).consistent .this).consistent _ _).consistent.toGrounded
  have hsystem : playerLoop.symbols.SystemNamed := by
    have hall : playerLoop.symbols.vars.entries.all (fun e => SystemVariable.all.all fun which =>
        e.2.name ≠ which.name ∨ playerLoop.symbols.idOfName? which.name = some e.1 ∧
          e.2.previous = none) = true := by decide +kernel
    intro id v which hv hname
    have hentry := List.all_eq_true.mp hall (id, v) (OrderedMap.get?_eq_some_iff.mp hv)
    have hwhich := List.all_eq_true.mp hentry which (by cases which <;> decide)
    exact (of_decide_eq_true hwhich).resolve_left fun hne => hne hname
  have hdeclares : playerLoop.Declares := by
    have hall : playerLoop.code.all (fun i => i.symbol?.all playerLoop.symbols.names.contains) = true := by
      decide +kernel
    intro i hi s hs
    have hi := List.all_eq_true.mp hall i hi
    rwa [hs] at hi
  have hrun : (finish .manual {}).run playerLoop = (.ok ⟨false, 1, []⟩, _) :=
    Attempt.run_eq_of_fst (by decide +kernel)
  obtain ⟨address, -, hcode, -, -, -, hlater⟩ :=
    finish_adds_only_needed playerLoop _ .manual {} _ hc hsystem hdeclares hrun
  refine ⟨hsystem, hdeclares, hlater, by decide +kernel, address, ?_⟩
  cases hb : ((finish .manual {}).run playerLoop).2.methods.bodies.get? "Run" with
  | none => exact absurd hb (by decide +kernel)
  | some b => exact ⟨b, rfl, hcode "Run" b hb⟩

end Program

end TriggerCompiler
